import SchemaEnums.Proofs.Layout.Forest
import SchemaEnums.Proofs.Layout.Reading

namespace SchemaEnums.Layout

open Source Schema

/-- The parser gets over the code from one state to the other. -/
def ReadsCode (p : Position) (code : List Char) (s s' : State) : Prop :=
  ∀ source comments last rest, ∃ last',
    run source s comments last p (code ++ rest) = run source s' comments last' (p.advance code) rest

/-- The parser gets over the lines from one state to the other and puts down their comments. -/
def Reads (p : Position) (ls : List Line) (s s' : State) : Prop :=
  ∀ source comments last rest, ∃ last',
    run source s comments last p (render ls ++ rest) =
      run source s' ((commentsOf p ls).reverse ++ comments) last' (after p ls) rest

/-- A token may begin with the character. -/
structure BeginsToken (c : Char) : Prop where
  space : Gap.isSpace c = false
  slash : c ≠ '/'

section

variable {p : Position} {s s₁ s' : State} {c d : Char} {n code : List Char} {ls ms : List Line}

theorem BeginsToken.of_class {q : Char → Bool} (hc : q c = true)
    (hq : [' ', '\t', '\x0c', '\r', '\n', '/'].any q = false) : BeginsToken c := by
  have hne : ∀ d ∈ [' ', '\t', '\x0c', '\r', '\n', '/'], c ≠ d := by
    rintro d hd rfl
    exact List.any_eq_false.1 hq c hd hc
  simp only [List.forall_mem_cons] at hne
  obtain ⟨h₁, h₂, h₃, h₄, h₅, h₆, -⟩ := hne
  exact ⟨by simp [Gap.isSpace, h₁, h₂, h₃, h₄, h₅], h₆⟩

theorem ReadsCode.nil (p : Position) (s : State) : ReadsCode p [] s s := fun _ _ last _ => ⟨last, rfl⟩

theorem ReadsCode.space (h : ReadsCode (p.next ' ') code s s') : ReadsCode p (' ' :: code) s s' := by
  intro source comments last rest
  obtain ⟨last', hrun⟩ := h source comments last rest
  refine ⟨last', ?_⟩
  rw [List.cons_append, run_space (by decide), hrun]
  rfl

/-- The parser gets over a token and the code behind it. -/
theorem ReadsCode.token {kind : Kind} (hc : BeginsToken c)
    (hread : ∀ rest, s.context.read? (c :: n ++ (code ++ rest)) =
      some { kind, text := c :: n, rest := code ++ rest })
    (hnext : s.next? { kind, text := String.ofList (c :: n)
                       span := { start := p, stop := p.advance (c :: n) } } = some s₁)
    (h : ReadsCode (p.advance (c :: n)) code s₁ s') : ReadsCode p (c :: n ++ code) s s' := by
  intro source comments last rest
  obtain ⟨last', hrun⟩ := h source comments p rest
  refine ⟨last', ?_⟩
  rw [List.append_assoc, Position.advance_append, ← hrun]
  exact run_token hc.space hc.slash (hread rest) hnext

theorem ReadsCode.mark (kind : Kind) (hmark : Lexeme.mark? c = some kind)
    (hnext : s.next? { kind, text := String.ofList [c]
                       span := { start := p, stop := p.next c } } = some s₁)
    (h : ReadsCode (p.next c) code s₁ s') : ReadsCode p (c :: code) s s' := by
  have hc : BeginsToken c := by
    unfold Lexeme.mark? at hmark
    split at hmark
    all_goals
      first
      | exact ⟨by decide, by decide⟩
      | cases hmark
  exact ReadsCode.token (n := []) hc (fun rest => Context.read?_mark hmark (code ++ rest)) hnext h

theorem ReadsCode.word (hn : Lexeme.IsName n) (hd : Lexeme.isNamePart d = false)
    (hname : s.context.name = true)
    (hnext : s.next? { kind := Context.wordKind s.context.keywords n, text := String.ofList n
                       span := { start := p, stop := p.advance n } } = some s₁)
    (h : ReadsCode (p.advance n) (d :: code) s₁ s') : ReadsCode p (n ++ d :: code) s s' := by
  have hread (rest : List Char) := Context.read?_word (x := s.context) hn hd hname (code ++ rest)
  obtain ⟨c, cs, rfl, hc, -⟩ := id hn
  exact ReadsCode.token (.of_class hc (by decide)) hread hnext h

theorem ReadsCode.integer (k : Int) (hd : Lexeme.isNamePart d = false)
    (hcontext : s.context = { integer := true })
    (hnext : s.next? { kind := .integer, text := toString k
                       span := { start := p, stop := p.advance (toString k).toList } } = some s₁)
    (h : ReadsCode (p.advance (toString k).toList) (d :: code) s₁ s') :
    ReadsCode p ((toString k).toList ++ d :: code) s s' := by
  have hread (rest : List Char) := Context.read?_integer k hd (code ++ rest)
  obtain ⟨c, n, hk⟩ := List.exists_cons_of_ne_nil (Numeral.toString_ne_nil k)
  have hc : c.isDigit = true ∨ c = '-' :=
    Numeral.isDigit_or_eq_of_mem_toString (k := k) (by rw [hk]; exact List.mem_cons_self)
  have hbegins : BeginsToken c := by
    rcases hc with hc | rfl
    · exact .of_class hc (by decide)
    · exact ⟨by decide, by decide⟩
  have htext : toString k = String.ofList (c :: n) := by
    rw [← hk, String.ofList_toList]
  rw [hk] at hread h ⊢
  rw [htext, String.toList_ofList] at hnext
  exact ReadsCode.token hbegins (by rw [hcontext]; exact hread) hnext h

theorem Reads.nil (p : Position) (s : State) : Reads p [] s s := fun _ _ last _ => ⟨last, rfl⟩

theorem Reads.append (h : Reads p ls s s₁) (h' : Reads (after p ls) ms s₁ s') :
    Reads p (ls ++ ms) s s' := by
  intro source comments last rest
  obtain ⟨last₁, hrun⟩ := h source comments last (render ms ++ rest)
  obtain ⟨last', hrun'⟩ := h' source ((commentsOf p ls).reverse ++ comments) last₁ rest
  refine ⟨last', ?_⟩
  rw [render_append, List.append_assoc, hrun, hrun', commentsOf_append, after_append]
  simp

theorem ReadsCode.append {code' : List Char} (h : ReadsCode p code s s₁)
    (h' : ReadsCode (p.advance code) code' s₁ s') : ReadsCode p (code ++ code') s s' := by
  intro source comments last rest
  obtain ⟨last₁, hrun⟩ := h source comments last (code' ++ rest)
  obtain ⟨last', hrun'⟩ := h' source comments last₁ rest
  exact ⟨last', by rw [List.append_assoc, hrun, hrun', Position.advance_append]⟩

/-- The end of a line with its comment is nothing but a gap. -/
theorem ReadsCode.line {note : Option (List Char)} (hnote : ∀ t ∈ note, '\n' ∉ t)
    (h : ReadsCode p code s s') : Reads p [{ code, note }] s s' := by
  intro source comments last rest
  obtain ⟨last', hrun⟩ := h source comments last (Line.noteText note ++ '\n' :: rest)
  refine ⟨last', ?_⟩
  have htext : render [{ code, note }] ++ rest = code ++ (Line.noteText note ++ '\n' :: rest) := by
    simp [Line.text]
  rw [htext, hrun, after_cons, after_nil]
  cases note with
  | none =>
    show run _ _ _ _ _ ('\n' :: rest) = _
    rw [run_space (by decide)]
    simp [Line.text, Line.noteText, Position.advance_append, commentsOf, Line.comments]
  | some t =>
    show run _ _ _ _ _ ('/' :: '/' :: t ++ '\n' :: rest) = _
    rw [run_comment (hnote t rfl), run_space (by decide)]
    simp [Line.text, Line.noteText, Position.advance_append, commentsOf, Line.comments]

theorem ReadsCode.codeLine {trailing : Option Remark} (h : ReadsCode p code s s') :
    Reads p [codeLine code trailing] s s' := by
  cases trailing with
  | none => exact h.line (by simp)
  | some r =>
    apply (h.append (ReadsCode.space (.nil _ _))).line
    intro t ht
    cases ht
    simp [r.single]

/-- Comment lines change nothing but the comments. -/
theorem reads_commentLines {lead : List (List Char)} (hlead : ∀ t ∈ lead, '\n' ∉ t) (p : Position)
    (s : State) : Reads p (lead.map commentLine) s s := by
  induction lead generalizing p with
  | nil => exact .nil p s
  | cons t ts ih =>
    have ht : '\n' ∉ t := hlead t List.mem_cons_self
    have hline : Reads p [commentLine t] s s := by
      apply (ReadsCode.nil p s).line
      intro u hu
      cases hu
      simp [ht]
    exact hline.append (ih (fun u hu => hlead u (List.mem_cons_of_mem t hu)) _)

end

/-- In the context the keyword is read where it stands before a space. -/
def Takes (x : Context) (k : Keyword) : Prop :=
  ∀ cs, x.read? (k.word.toList ++ ' ' :: cs) =
    some { kind := .keyword k, text := k.word.toList, rest := ' ' :: cs }

/-- Where names are looked for, the keywords of the context are read as such. -/
theorem takes_of_name {x : Context} {k : Keyword} (hx : x.name = true) (hk : k ∈ x.keywords) :
    Takes x k := by
  intro cs
  rw [Context.read?_word (k.isName_word) (by decide) hx, Context.wordKind_word hk]

theorem takes_betweenStatements {k : Keyword} (hk : k ∈ [.package, .message, .enum]) :
    Takes betweenStatements k := by
  intro cs
  simp only [List.mem_cons, List.not_mem_nil, or_false] at hk
  rcases hk with rfl | rfl | rfl <;> rfl

section

variable {p : Position} {s : State} {x : Context}

/-- A keyword at the beginning of an item, and the space behind it. -/
theorem ReadsCode.keyword {k : Keyword} {code : List Char} {s₁ s' : State}
    (hx : Takes s.context k)
    (hnext : s.next? { kind := .keyword k, text := k.word
                       span := { start := p, stop := p.advance k.word.toList } } = some s₁)
    (h : ReadsCode (p.advance (k.word.toList ++ [' '])) code s₁ s') :
    ReadsCode p (k.word.toList ++ ' ' :: code) s s' := by
  obtain ⟨c, n, hword, hc, -⟩ := k.isName_word
  have htext : k.word = String.ofList (c :: n) := by rw [← hword, String.ofList_toList]
  have hspace : ReadsCode (p.advance (c :: n)) (' ' :: code) s₁ s' := by
    rw [hword, Position.advance_append] at h
    exact h.space
  rw [hword, htext] at hnext
  have hread (rest : List Char) := hx (code ++ rest)
  rw [hword] at hread ⊢
  exact ReadsCode.token (.of_class hc (by decide)) hread hnext hspace

/-- The header of a block. -/
theorem readsCode_header {k : Keyword} {kind : BlockKind} (name : Name)
    (hstage : s.stage = .between x) (hx : Takes x k)
    (hbegin : ∀ t : Token, t.kind = .keyword k → begin? s.body t = some (.go (.blockName kind))) :
    ReadsCode p (headerCode k name) s
      { frames :=
          { head := { kind, name := name.text, nameEnd :=
                        (p.advance (k.word.toList ++ [' '])).advance name.text.toList }
            first := p
            before := s.items } :: s.frames
        items := []
        stage := .between kind.opened } := by
  have hcontext : s.context = x := by rw [State.context, hstage]
  have hcode : headerCode k name = k.word.toList ++ ' ' :: (name.text.toList ++ ' ' :: ['\x7b']) := by
    simp [headerCode]
  have hfirst : s.next? { kind := .keyword k, text := k.word
                          span := { start := p, stop := p.advance k.word.toList } } =
      some { s with stage := .inside p (.blockName kind) } := by
    have hmove := hbegin { kind := .keyword k, text := k.word
                           span := { start := p, stop := p.advance k.word.toList } } rfl
    simp only [State.next?, hstage, hmove]
    rfl
  rw [hcode]
  apply ReadsCode.keyword (by rw [hcontext]; exact hx) hfirst
  apply ReadsCode.word name.isName (by decide) rfl rfl
  apply ReadsCode.space
  refine ReadsCode.mark .openBrace rfl ?_ (.nil _ _)
  simp [State.next?, Place.next?, State.perform?]

/-- The end of a block. -/
theorem readsCode_closing {f : Frame} {fs : List Frame} {items : List (Item String)}
    (hbody : f.head.kind = .message ∨ f.head.kind = .enum) :
    ReadsCode p closing.code { frames := f :: fs, items, stage := .between x }
      { frames := fs
        items := .block { start := f.first, stop := p.advance closing.code } f.head items.reverse ::
          f.before
        stage := .between f.head.kind.closed } := by
  refine ReadsCode.mark .closeBrace rfl ?_ (.nil _ _)
  rcases hbody with hbody | hbody
  · simp [State.next?, State.body, begin?, State.perform?, hbody, closing]
  · simp [State.next?, State.body, begin?, State.perform?, hbody, closing]

/-- A statement that sets an option, inside an enum. -/
theorem readsCode_flag {option : String} (hoption : Lexeme.IsName option.toList)
    (hstage : s.stage = .between x) (hx : Takes x .option) (hbody : s.body = some .enum) :
    ReadsCode p (flagCode option) s
      { s with
        items := .statement { start := p, stop := p.advance (flagCode option) }
          (.option (flag option)) :: s.items
        stage := .between betweenItems } := by
  have hcontext : s.context = x := by rw [State.context, hstage]
  have hcode : flagCode option = Keyword.option.word.toList ++ ' ' ::
      (option.toList ++ ' ' :: '=' :: ' ' :: (['t', 'r', 'u', 'e'] ++ ';' :: [])) := by
    simp [flagCode, isTrue]
  have hfirst : s.next? { kind := .keyword .option, text := Keyword.option.word
                          span := { start := p, stop := p.advance Keyword.option.word.toList } } =
      some { s with stage := .inside p (.option .statement .start) } := by
    simp only [State.next?, hstage, hbody, begin?]
    rfl
  have htrue : Lexeme.IsName ['t', 'r', 'u', 'e'] := Lexeme.isName_cons rfl rfl
  rw [hcode]
  apply ReadsCode.keyword (by rw [hcontext]; exact hx) hfirst
  apply ReadsCode.word hoption (by decide) rfl rfl
  apply ReadsCode.space
  apply ReadsCode.mark .equal rfl rfl
  apply ReadsCode.space
  apply ReadsCode.word htrue (by decide) rfl rfl
  refine ReadsCode.mark .semicolon rfl ?_ (.nil _ _)
  simp [State.next?, Place.next?, State.perform?, OptionPlace.next?, OptionPlace.complete?,
    Site.close?, flag, Position.advance_append, Statement.follow]

/-- A name that no statement begins with is read as a name, whatever keywords are looked for. -/
theorem wordKind_valueName (name : ValueName) {keywords : List Keyword}
    (h : ∀ k ∈ keywords, k ∈ statementKeywords) :
    Context.wordKind keywords name.text.toList = .name := by
  have hnone : (keywords.find? fun k => k.word.toList = name.text.toList) = none := by
    rw [List.find?_eq_none]
    intro k hk
    have hne := name.ne_word k (h k hk)
    simpa [String.toList_inj] using hne
  rw [Context.wordKind, hnone]

/-- The declaration of a value. -/
theorem readsCode_value (v : Value) (hstage : s.stage = .between x) (hx : x.name = true)
    (hkeywords : ∀ k ∈ x.keywords, k ∈ statementKeywords) (hbody : s.body = some .enum) :
    ReadsCode p v.code s
      { s with
        items := .statement { start := p, stop := p.advance v.code }
          (.value v.name.text (toString v.number) v.options) :: s.items
        stage := .between insideEnum } := by
  have hcontext : s.context = x := by rw [State.context, hstage]
  have hkind := wordKind_valueName v.name hkeywords
  have hfirst : s.next? { kind := Context.wordKind s.context.keywords v.name.text.toList
                          text := String.ofList v.name.text.toList
                          span := { start := p, stop := p.advance v.name.text.toList } } =
      some { s with stage := .inside p (.value v.name.text) } := by
    rw [hcontext, hkind, String.ofList_toList]
    simp only [State.next?, hstage, hbody, begin?]
    rfl
  cases hdeprecated : v.deprecated with
  | false =>
    have hcode : v.code = v.name.text.toList ++ ' ' :: '=' :: ' ' ::
        ((toString v.number).toList ++ ';' :: []) := by
      simp [Value.code, hdeprecated]
    rw [hcode]
    apply ReadsCode.word v.name.isName (by decide) (by rw [hcontext]; exact hx) hfirst
    apply ReadsCode.space
    apply ReadsCode.mark .equal rfl rfl
    apply ReadsCode.space
    apply ReadsCode.integer v.number (by decide) rfl rfl
    refine ReadsCode.mark .semicolon rfl ?_ (.nil _ _)
    simp [State.next?, Place.next?, State.perform?, Position.advance_append, Statement.follow,
      Value.options, hdeprecated]
  | true =>
    have hoption : Lexeme.IsName "deprecated".toList := Lexeme.isName_cons rfl rfl
    have htrue : Lexeme.IsName ['t', 'r', 'u', 'e'] := Lexeme.isName_cons rfl rfl
    have hcode : v.code = v.name.text.toList ++ ' ' :: '=' :: ' ' ::
        ((toString v.number).toList ++ ' ' :: '[' :: ("deprecated".toList ++ ' ' :: '=' :: ' ' ::
          (['t', 'r', 'u', 'e'] ++ ']' :: ';' :: []))) := by
      simp [Value.code, hdeprecated, isTrue]
    rw [hcode]
    apply ReadsCode.word v.name.isName (by decide) (by rw [hcontext]; exact hx) hfirst
    apply ReadsCode.space
    apply ReadsCode.mark .equal rfl rfl
    apply ReadsCode.space
    apply ReadsCode.integer v.number (by decide) rfl rfl
    apply ReadsCode.space
    apply ReadsCode.mark .openBracket rfl rfl
    apply ReadsCode.word hoption (by decide) rfl rfl
    apply ReadsCode.space
    apply ReadsCode.mark .equal rfl rfl
    apply ReadsCode.space
    apply ReadsCode.word htrue (by decide) rfl rfl
    apply ReadsCode.mark .closeBracket rfl rfl
    refine ReadsCode.mark .semicolon rfl ?_ (.nil _ _)
    simp [State.next?, Place.next?, State.perform?, Position.advance_append, Statement.follow,
      Value.options, hdeprecated, Owner.statement, flag]

/-- The names behind the first one of a package, and the end of the statement. -/
def packageTail (names : List Name) : List Char :=
  names.flatMap (fun n => '.' :: n.text.toList) ++ [';']

theorem exists_cons_packageTail (names : List Name) :
    ∃ d code, packageTail names = d :: code ∧ Lexeme.isNamePart d = false := by
  cases names with
  | nil => exact ⟨';', [], rfl, by decide⟩
  | cons n ns => exact ⟨'.', _, rfl, by decide⟩

theorem readsCode_packageTail (names : List Name) (p : Position) {s : State} {first : Position}
    {n : DottedName} (hstage : s.stage = .inside first (.packageName n)) :
    ReadsCode p (packageTail names) s
      { s with
        items := .statement { start := first, stop := p.advance (packageTail names) }
          (.package { n with tail := n.tail ++ names.map Name.text }) :: s.items
        stage := .between betweenStatements } := by
  induction names generalizing p n s with
  | nil =>
    refine ReadsCode.mark .semicolon rfl ?_ (.nil _ _)
    simp [State.next?, hstage, Place.next?, State.perform?, packageTail, Statement.follow]
  | cons m ms ih =>
    obtain ⟨d, code, htail, hd⟩ := exists_cons_packageTail ms
    have hcode : packageTail (m :: ms) = ['.'] ++ (m.text.toList ++ d :: code) := by
      rw [← htail]
      simp [packageTail]
    have hcontext : s.context = dotted := by
      rw [State.context, hstage]
      rfl
    have hdot : s.next? { kind := .dot, text := String.ofList ['.']
                          span := { start := p, stop := p.advance ['.'] } } =
        some { s with stage := .inside first (.packageDot n) } := by
      simp only [State.next?, hstage]
      rfl
    have hrest := ih ((p.advance ['.']).advance m.text.toList)
      (s := { s with stage := .inside first (.packageName (n.push m.text)) }) rfl
    have hstop : ((p.advance ['.']).advance m.text.toList).advance (packageTail ms) =
        p.advance (packageTail (m :: ms)) := by
      rw [hcode, ← htail, Position.advance_append, Position.advance_append]
    have hnames : (n.push m.text).tail ++ ms.map Name.text = n.tail ++ (m :: ms).map Name.text := by
      simp [DottedName.push]
    rw [hstop, hnames, htail] at hrest
    rw [hcode] at hrest ⊢
    refine ReadsCode.token (n := []) ⟨by decide, by decide⟩ (by rw [hcontext]; exact fun _ => rfl)
      hdot ?_
    refine ReadsCode.word m.isName hd rfl ?_ hrest
    simp [State.next?, Place.next?, State.perform?, Context.wordKind, State.context, Place.context,
      names]

/-- The statement of a package. -/
theorem readsCode_package (name : Name × List Name) :
    ReadsCode {} (packageCode name) {}
      { items := [.statement { start := {}, stop := Position.advance {} (packageCode name) }
          (.package (Forest.packageName name))] } := by
  obtain ⟨d, code, htail, hd⟩ := exists_cons_packageTail name.2
  have hcode : packageCode name =
      Keyword.package.word.toList ++ ' ' :: (name.1.text.toList ++ d :: code) := by
    rw [← htail]
    simp [packageCode, packageTail]
  have hrest := readsCode_packageTail name.2
    ((Position.advance {} (Keyword.package.word.toList ++ [' '])).advance name.1.text.toList)
    (s := { stage := .inside {} (.packageName { head := name.1.text }) }) rfl
  have hstop : ((Position.advance {} (Keyword.package.word.toList ++ [' '])).advance
      name.1.text.toList).advance (packageTail name.2) = Position.advance {} (packageCode name) := by
    rw [hcode, ← htail, ← Position.advance_append, ← Position.advance_append]
    simp
  rw [hstop, htail] at hrest
  rw [hcode] at hrest ⊢
  refine ReadsCode.keyword (takes_betweenStatements (by simp)) rfl ?_
  refine ReadsCode.word name.1.isName hd rfl ?_ hrest
  simp [State.next?, Place.next?, State.perform?, Context.wordKind, State.context, Place.context,
    names]

end

end SchemaEnums.Layout
