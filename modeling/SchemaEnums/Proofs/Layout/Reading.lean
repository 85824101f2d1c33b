import SchemaEnums.Proofs.Layout.Line
import SchemaEnums.Proofs.Numeral
import SchemaEnums.Proofs.Source.Spelling
import SchemaEnums.Schema.Parse

namespace SchemaEnums.Source

section

variable {c : Char} {cs n : List Char} {x : Context}

namespace Lexeme

theorem unsigned?_eq_run? (h : ∀ m r, c :: cs = '0' :: m :: r → m ≠ 'x' ∧ m ≠ 'X') :
    unsigned? (c :: cs) = run? Char.isDigit (c :: cs) := by
  unfold unsigned?
  split
  next m r heq =>
    obtain ⟨hx, hX⟩ := h m r heq
    rw [if_neg (by simp [hx, hX])]
  next => rfl

theorem integer?_eq_none (hc : NoNumber c) : integer? (c :: cs) = none := by
  rw [integer?, signed?_of_ne hc.minus, unsigned?_eq_run?, run?_eq_none hc.digit]
  intro m r heq
  have hzero : c = '0' := (List.cons.inj heq).1
  subst hzero
  cases hc.digit

theorem takeWhile_append_stop {p : Char → Bool} (hn : ∀ d ∈ n, p d = true) (hc : p c = false)
    (cs : List Char) : (n ++ c :: cs).takeWhile p = n ∧ (n ++ c :: cs).dropWhile p = c :: cs := by
  rw [List.takeWhile_append_of_pos hn, List.dropWhile_append_of_pos hn,
    List.takeWhile_cons_of_neg (by simp [hc]), List.dropWhile_cons_of_neg (by simp [hc])]
  simp

/-- A name ends where no letter, digit or underscore follows. -/
theorem name?_append (hn : IsName n) (hc : isNamePart c = false) (cs : List Char) :
    name? (n ++ c :: cs) = some (n, c :: cs) := by
  obtain ⟨d, ds, rfl, hd, hds⟩ := hn
  obtain ⟨htake, hdrop⟩ := takeWhile_append_stop hds hc cs
  simp [name?, hd, run, htake, hdrop, behind]

/-- Digits end where no letter, digit or underscore follows. -/
theorem unsigned?_append (hne : n ≠ []) (hn : ∀ d ∈ n, d.isDigit = true)
    (hc : isNamePart c = false) (cs : List Char) : unsigned? (n ++ c :: cs) = some (n, c :: cs) := by
  have hdigit : c.isDigit = false := by
    simp only [isNamePart, Char.isAlphanum, Bool.or_eq_false_iff] at hc
    exact hc.1.2
  have hother : ∀ d ∈ n ++ [c], d ≠ 'x' ∧ d ≠ 'X' := by
    intro d hd
    rcases List.mem_append.1 hd with hd | hd
    · have hd := hn d hd
      constructor <;> (rintro rfl; cases hd)
    · rw [List.mem_singleton.1 hd]
      constructor <;> (rintro rfl; cases hc)
  obtain ⟨d, ds, rfl⟩ := List.exists_cons_of_ne_nil hne
  obtain ⟨htake, hdrop⟩ := takeWhile_append_stop hn hdigit cs
  rw [List.cons_append, unsigned?_eq_run?, ← List.cons_append, run?, run, htake, hdrop]
  · rfl
  · intro m r heq
    apply hother m
    have htail := (List.cons.inj heq).2
    cases ds with
    | nil => simp [(List.cons.inj htail).1]
    | cons e ds => simp [(List.cons.inj htail).1]

/-- A number in decimal notation ends where no letter, digit or underscore follows. -/
theorem integer?_toString (k : Int) (hc : isNamePart c = false) (cs : List Char) :
    integer? ((toString k).toList ++ c :: cs) = some ((toString k).toList, c :: cs) := by
  have hdigits (m : Nat) : ∀ d ∈ Nat.toDigits 10 m, d.isDigit = true := fun d hd =>
    Nat.isDigit_of_mem_toDigits (by decide) (by decide) hd
  rw [Int.toString_eq_repr, Int.repr_eq_if, integer?]
  split
  next h =>
    have hread := unsigned?_append Nat.toDigits_ne_nil (hdigits k.toNat) hc cs
    rw [Nat.toList_repr]
    obtain ⟨d, ds, hds⟩ := List.exists_cons_of_ne_nil (Nat.toDigits_ne_nil (n := k.toNat) (b := 10))
    have hminus : d ≠ '-' := by
      rintro rfl
      cases hdigits k.toNat '-' (by simp [hds])
    rw [hds] at hread ⊢
    rw [List.cons_append, signed?_of_ne hminus]
    exact hread
  next h =>
    have hread := unsigned?_append Nat.toDigits_ne_nil (hdigits (-k).toNat) hc cs
    rw [String.toList_append, Nat.toList_repr, show "-".toList = ['-'] from rfl,
      List.singleton_append, List.cons_append, signed?, hread]
    rfl

theorem noNumber_of_mark? {kind : Kind} (hc : mark? c = some kind) : NoNumber c := by
  unfold mark? at hc
  split at hc
  all_goals
    first
    | exact ⟨by decide, by decide, by decide⟩
    | cases hc

end Lexeme

namespace Context

/-- A name is read where names are looked for; it may be a keyword. -/
theorem read?_word (hn : Lexeme.IsName n) (hc : Lexeme.isNamePart c = false) (hx : x.name = true)
    (cs : List Char) :
    x.read? (n ++ c :: cs) =
      some { kind := wordKind x.keywords n, text := n, rest := c :: cs } := by
  have hname := Lexeme.name?_append hn hc cs
  have hfloat : (if x.float then (Lexeme.float? (n ++ c :: cs)).map (classify .float) else none) =
      none := by
    obtain ⟨d, ds, rfl, hd, -⟩ := hn
    rw [List.cons_append, Lexeme.float?_eq_none (Lexeme.noNumber_of_isNameStart hd)]
    simp
  rw [read?, hfloat, hx, if_pos rfl, readWord?, hname]
  rfl

/-- No word begins with the character. -/
theorem word?_eq_none {word : String} (hc : Lexeme.isNameStart c = false)
    (hword : Lexeme.IsName word.toList) : Lexeme.word? word (c :: cs) = none := by
  obtain ⟨d, ds, hds, hstart, -⟩ := hword
  have hd : d ≠ c := by
    rintro rfl
    rw [hstart] at hc
    cases hc
  rw [Lexeme.word?_eq_none_iff, hds, List.cons_prefix_cons]
  exact fun h => hd h.1

theorem readWord?_eq_none {keywords : List Keyword} (hc : Lexeme.isNameStart c = false) :
    readWord? keywords (c :: cs) = none := by
  simp [readWord?, Lexeme.name?, hc]

theorem readKeyword?_eq_none {keywords : List Keyword} (hc : Lexeme.isNameStart c = false) :
    readKeyword? keywords (c :: cs) = none := by
  rw [readKeyword?, List.findSome?_eq_none_iff]
  intro k _
  rw [word?_eq_none hc k.isName_word]
  rfl

/-- Every modifier could be a name. -/
theorem isName_modifier : Lexeme.IsName "public".toList ∧ Lexeme.IsName "weak".toList :=
  ⟨Lexeme.isName_cons rfl rfl, Lexeme.isName_cons rfl rfl⟩

theorem readModifier?_eq_none (hc : Lexeme.isNameStart c = false) :
    readModifier? (c :: cs) = none := by
  rw [readModifier?, word?_eq_none hc isName_modifier.1, word?_eq_none hc isName_modifier.2]
  rfl

/-- A mark is read everywhere. -/
theorem read?_mark {kind : Kind} (hc : Lexeme.mark? c = some kind) (cs : List Char) :
    x.read? (c :: cs) = some { kind, text := [c], rest := cs } := by
  have hnumber := Lexeme.noNumber_of_mark? hc
  obtain ⟨hstart, hstring⟩ : Lexeme.isNameStart c = false ∧ Lexeme.string? (c :: cs) = none := by
    unfold Lexeme.mark? at hc
    split at hc
    all_goals
      first
      | exact ⟨by decide, rfl⟩
      | cases hc
  have hmark : readMark? x.dot (c :: cs) = some { kind, text := [c], rest := cs } := by
    rw [readMark?, if_neg hnumber.dot, hc]
    rfl
  rw [read?, Lexeme.float?_eq_none hnumber, Lexeme.integer?_eq_none hnumber,
    readWord?_eq_none hstart, readKeyword?_eq_none hstart, readModifier?_eq_none hstart, hstring,
    hmark]
  simp

/-- A number is read where only numbers are looked for. -/
theorem read?_integer (k : Int) (hc : Lexeme.isNamePart c = false) (cs : List Char) :
    read? { integer := true } ((toString k).toList ++ c :: cs) =
      some { kind := .integer, text := (toString k).toList, rest := c :: cs } := by
  have hinteger := Lexeme.integer?_toString k hc cs
  rw [read?]
  simp only [hinteger]
  rfl

end Context

end

end SchemaEnums.Source

namespace SchemaEnums.Schema

open Source

section

variable {source : List Char} {s s' : State} {comments : List Comment} {last p : Position}
  {c : Char} {cs : List Char}

/-- One step of the parser, over the gap and the token at the front of the text. -/
theorem run_eq (source : List Char) (s : State) (comments : List Comment) (last p : Position)
    (cs : List Char) : run source s comments last p cs =
      match (Gap.read p cs).rest with
      | [] =>
        match s.complete? with
        | some items =>
          .ok { items, comments := ((Gap.read p cs).comments.reverse ++ comments).reverse }
        | none => .error (.unexpectedEnd last)
      | d :: ds =>
        match s.context.read? (d :: ds) with
        | none => .error (strayError source (Gap.read p cs).stop d ds)
        | some l =>
          match s.next? (tokenOf l (Gap.read p cs).stop) with
          | none => .error (.unexpectedToken (tokenOf l (Gap.read p cs).stop))
          | some s' =>
            run source s' ((Gap.read p cs).comments.reverse ++ comments) (Gap.read p cs).stop
              ((Gap.read p cs).stop.advance l.text) l.rest := by
  rw [run]
  split
  next h => cases s.complete? <;> simp only [h]
  next d ds h =>
    split
    next hread => simp only [h, hread]
    next l hread =>
      simp only [h, hread]
      cases s.next? (tokenOf l (Gap.read p cs).stop) <;> rfl

/-- White space goes unnoticed. -/
theorem run_space (hc : Gap.isSpace c = true) :
    run source s comments last p (c :: cs) = run source s comments last (p.next c) cs := by
  rw [run_eq, run_eq source s comments last (p.next c), Gap.read, if_pos hc]

/-- A gap that begins with a comment goes on behind it. -/
theorem read_of_split? {kind : Comment.Kind} {t rest : List Char}
    (h : Comment.split? cs = some (kind, t, rest)) (p : Position) :
    Gap.read p cs =
      let gap := Gap.read (p.advance t) rest
      { gap with comments :=
          { kind, text := String.ofList t, span := { start := p, stop := p.advance t } } ::
            gap.comments } := by
  cases cs with
  | nil => cases h
  | cons c ds =>
    have hspace : Gap.isSpace c = false := by
      unfold Comment.split? at h
      split at h
      next heq =>
        rw [(List.cons.inj heq).1]
        rfl
      next heq =>
        rw [(List.cons.inj heq).1]
        rfl
      next => cases h
    rw [Gap.read, if_neg (by simp [hspace])]
    split
    next heq =>
      rw [h] at heq
      cases heq
    next heq =>
      rw [h] at heq
      cases heq
      rfl

/-- A comment is put down before the gap goes on. -/
theorem run_split {kind : Comment.Kind} {t rest : List Char}
    (h : Comment.split? cs = some (kind, t, rest)) :
    run source s comments last p cs =
      run source s ({ kind, text := String.ofList t
                      span := { start := p, stop := p.advance t } } :: comments)
        last (p.advance t) rest := by
  rw [run_eq, read_of_split? h, run_eq source s _ last (p.advance t)]
  simp

theorem split?_line {t : List Char} (ht : '\n' ∉ t) (cs : List Char) :
    Comment.split? ('/' :: '/' :: t ++ '\n' :: cs) = some (.line, '/' :: '/' :: t, '\n' :: cs) := by
  have hne : ∀ d ∈ t, (d != '\n') = true := by
    intro d hd
    simp only [bne_iff_ne]
    rintro rfl
    exact ht hd
  simp only [List.cons_append, Comment.split?, List.takeWhile_append_of_pos hne,
    List.dropWhile_append_of_pos hne]
  simp

theorem run_comment {t : List Char} (ht : '\n' ∉ t) :
    run source s comments last p ('/' :: '/' :: t ++ '\n' :: cs) =
      run source s ({ kind := .line, text := String.ofList ('/' :: '/' :: t)
                      span := { start := p, stop := p.advance ('/' :: '/' :: t) } } :: comments)
        last (p.advance ('/' :: '/' :: t)) ('\n' :: cs) :=
  run_split (split?_line ht cs)

/-- No gap begins with any other character. -/
theorem read_of_ne (hspace : Gap.isSpace c = false) (hslash : c ≠ '/') :
    Gap.read p (c :: cs) = { comments := [], stop := p, rest := c :: cs } := by
  have hsplit : Comment.split? (c :: cs) = none := by
    unfold Comment.split?
    split
    · exact absurd (List.cons.inj ‹_›).1 hslash
    · exact absurd (List.cons.inj ‹_›).1 hslash
    · rfl
  rw [Gap.read, if_neg (by simp [hspace])]
  split
  · rfl
  next h =>
    rw [hsplit] at h
    cases h

/-- Where no gap begins, the parser takes the token of the context. -/
theorem run_token {l : Lexeme} (hspace : Gap.isSpace c = false) (hslash : c ≠ '/')
    (hread : s.context.read? (c :: cs) = some l) (hnext : s.next? (tokenOf l p) = some s') :
    run source s comments last p (c :: cs) = run source s' comments p (p.advance l.text) l.rest := by
  rw [run_eq, read_of_ne hspace hslash]
  simp [hread, hnext]

end

end SchemaEnums.Schema
