import SchemaEnums.Proofs.Schema.Unplaced
import SchemaEnums.Proofs.Spacing.Filler

namespace SchemaEnums.Spacing

open Source Schema

/-- The lexemes of the tokens that the parser reads from the text `cs`, which stands at `p`, in the
state `s`. -/
def lexemesFrom (s : State) (p : Position) (cs : List Char) : List (List Char) :=
  let gap := Gap.read p cs
  match _hrest : gap.rest with
  | [] => []
  | d :: ds =>
    match _hread : s.context.read? (d :: ds) with
    | none => []
    | some l =>
      match s.next? (tokenOf l gap.stop) with
      | none => []
      | some s => l.text :: lexemesFrom s (gap.stop.advance l.text) l.rest
termination_by cs.length
decreasing_by
  have hle := Gap.length_rest_read_le p cs
  have hlt := Context.length_rest_lt_of_read? _hread
  have hrest : (Gap.read p cs).rest = d :: ds := _hrest
  rw [hrest] at hle
  omega

/-- The lexemes of the tokens of a text. -/
def lexemes (text : String) : List (List Char) :=
  lexemesFrom {} {} text.toList

/-- Lexemes with a gap before each of them and one behind the last. -/
def interleave (gaps : Nat → List Char) : List (List Char) → List Char
  | [] => gaps 0
  | l :: ls => gaps 0 ++ (l ++ interleave (fun i => gaps (i + 1)) ls)

/-- The comments of the separators of lexemes, of which the first separator stands at `p`. -/
def commentsOf (gaps : Nat → Separator) (p : Position) : List (List Char) → List Comment
  | [] => (gaps 0).comments p
  | l :: ls =>
    (gaps 0).comments p ++
      commentsOf (fun i => gaps (i + 1)) ((p.advance (gaps 0).text).advance l) ls

section

variable {source : List Char} {s s' u : State} {comments : List Comment} {last p : Position}
  {cs : List Char} {l : Lexeme}

theorem lexemesFrom_of_rest_eq_nil (h : (Gap.read p cs).rest = []) : lexemesFrom s p cs = [] := by
  rw [lexemesFrom]
  split
  · rfl
  next heq =>
    rw [h] at heq
    cases heq

theorem lexemesFrom_of_read? (hread : s.context.read? (Gap.read p cs).rest = some l)
    (hnext : s.next? (tokenOf l (Gap.read p cs).stop) = some s') :
    lexemesFrom s p cs =
      l.text :: lexemesFrom s' ((Gap.read p cs).stop.advance l.text) l.rest := by
  rw [lexemesFrom]
  split
  next heq =>
    rw [heq] at hread
    obtain ⟨happend, hne⟩ := Context.append_of_read? hread
    exact absurd (List.append_eq_nil_iff.1 happend).1 hne
  next heq =>
    rw [heq] at hread
    split
    next heq' =>
      rw [hread] at heq'
      cases heq'
    next heq' =>
      rw [hread] at heq'
      cases heq'
      rw [hnext]

/-- Separated lexemes begin with a separator. -/
theorem exists_cons_interleave (gaps : Nat → Separator) (ls : List (List Char)) :
    ∃ c cs, interleave (fun i => (gaps i).text) ls = c :: cs ∧ Lexeme.IsBreak c := by
  obtain ⟨c, cs, htext, hc⟩ := (gaps 0).exists_cons
  cases ls with
  | nil => exact ⟨c, cs, htext, hc⟩
  | cons l ls =>
    refine ⟨c, cs ++ (l ++ interleave (fun i => (gaps (i + 1)).text) ls), ?_, hc⟩
    rw [interleave, htext, List.cons_append]

/-- Before a separator the parser takes a lexeme that it has taken before. -/
theorem run_lexeme {s₁ : State} {d : Char} {ds rest : List Char}
    (hread : s.context.read? (d :: ds) = some l)
    (hrest : ∃ c es, rest = c :: es ∧ Lexeme.IsBreak c)
    (hnext : s.next? (tokenOf l p) = some s₁) :
    run source s comments last p (l.text ++ rest) =
      run source s₁ comments p (p.advance l.text) rest := by
  obtain ⟨c, es, rfl, hc⟩ := hrest
  obtain ⟨happend, hne⟩ := Context.append_of_read? hread
  have hagain := Context.read?_append_break hread hc es
  obtain ⟨kind, n, behind⟩ := l
  obtain ⟨e, n, rfl⟩ := List.exists_cons_of_ne_nil hne
  obtain rfl : e = d := (List.cons.inj happend).1
  have hfirst : ¬ (Gap.isSpace e = true ∨ e = '/') := by
    intro he
    rw [Context.read?_eq_none he] at hread
    cases hread
  rw [not_or] at hfirst
  exact run_token (by simpa using hfirst.1) hfirst.2 hagain hnext

/-- Reading separated lexemes goes as reading the text that they were taken from, from one state to
the next. -/
theorem exists_run_interleave {r : Schema String} (h : run source s comments last p cs = .ok r)
    (hs : s.unplaced = u.unplaced) (gaps : Nat → Separator) (source' : List Char)
    (comments' : List Comment) (last' q : Position) :
    ∃ items, run source' u comments' last' q
        (interleave (fun i => (gaps i).text) (lexemesFrom s p cs)) =
          .ok { items, comments := comments'.reverse ++ commentsOf gaps q (lexemesFrom s p cs) } ∧
      r.items.map Item.unplaced = items.map Item.unplaced := by
  fun_induction run source s comments last p cs generalizing u gaps comments' last' q with
  | case1 =>
    rename_i s _ _ p cs gap _ hrest items hcomplete
    cases h
    obtain ⟨items', hitems', heq⟩ := State.exists_complete?_of_unplaced hs hcomplete
    refine ⟨items', ?_, heq⟩
    rw [lexemesFrom_of_rest_eq_nil hrest, interleave, ← List.append_nil (Separator.text _),
      run_separator, run_eq, Gap.read, hitems']
    simp [commentsOf]
  | case2 => cases h
  | case3 => cases h
  | case4 => cases h
  | case5 =>
    rename_i s _ _ p cs gap _ d ds hrest l hread t s' hnext ih
    have hlexemes : lexemesFrom s p cs = l.text :: lexemesFrom s' t.span.stop l.rest := by
      refine lexemesFrom_of_read? ?_ hnext
      rw [show (Gap.read p cs).rest = d :: ds from hrest]
      exact hread
    have htoken : Token.unplaced t = Token.unplaced (tokenOf l (q.advance (gaps 0).text)) := rfl
    obtain ⟨u', hu', hs'⟩ := State.exists_next?_of_unplaced hs htoken hnext
    obtain ⟨items, hrun, hitems⟩ := ih h hs' (fun i => gaps (i + 1))
      (((gaps 0).comments q).reverse ++ comments') (q.advance (gaps 0).text)
      ((q.advance (gaps 0).text).advance l.text)
    refine ⟨items, ?_, hitems⟩
    rw [← State.context_unplaced, hs, State.context_unplaced] at hread
    rw [hlexemes, interleave, run_separator,
      run_lexeme hread (exists_cons_interleave (fun i => gaps (i + 1)) _) hu']
    refine hrun.trans ?_
    simp [commentsOf]

/-- Layout does not change meaning: a text that is a schema stays one when its lexemes are set apart
by any separators. It is the same schema at other places, and its comments are those of the
separators. -/
theorem parse_interleave {text : String} {r : Schema Int} (h : parse text = .ok r)
    (gaps : Nat → Separator) :
    ∃ r', parse (String.ofList (interleave (fun i => (gaps i).text) (lexemes text))) = .ok r' ∧
      r'.items.map Item.unplaced = r.items.map Item.unplaced ∧
      (outline r').unplaced = (outline r).unplaced ∧
      r'.comments = commentsOf gaps {} (lexemes text) := by
  obtain ⟨literals, hliterals, hvalues⟩ := bind_eq_ok h
  obtain ⟨items, hrun, hitems⟩ := exists_run_interleave hliterals rfl gaps
    (interleave (fun i => (gaps i).text) (lexemes text)) [] {} {}
  obtain ⟨r', hr', hplaces, hcomments⟩ := exists_evaluate_of_unplaced
    (u := { items, comments := commentsOf gaps {} (lexemes text) }) hitems hvalues
  refine ⟨r', ?_, hplaces.symm, (unplaced_outline_congr hplaces).symm, hcomments⟩
  rw [parse, String.toList_ofList, parseLiterals]
  refine (congrArg (· >>= evaluate) hrun).trans ?_
  exact hr'

end

/-- A schema with as few gaps as possible: keywords run into names and numbers. -/
def glued : String :=
  "packagea.b;importpublic'c';enumE\x7breserved 5to9,20tomax;A=-0x1F[(o).p=-1.5e3];\x7d//end"

/-- Separators of all kinds of fillers by turns. -/
def byTurns (i : Nat) : Separator :=
  if i % 3 = 0 then
    { fillers := [.lineComment " one *".toList (by decide)], ne_nil := List.cons_ne_nil _ _ }
  else if i % 3 = 1 then
    { fillers := [.blockComment "*\n//two*".toList (by decide), .blank '\t' rfl]
      ne_nil := List.cons_ne_nil _ _ }
  else { fillers := [.blank '\x0c' rfl], ne_nil := List.cons_ne_nil _ _ }

theorem parse_interleave_glued :
    (lexemes glued).map String.ofList = ["package", "a", ".", "b", ";", "import", "public",
      "'c'", ";", "enum", "E", "\x7b", "reserved", "5", "to", "9", ",", "20", "to", "max", ";", "A",
      "=", "-0x1F", "[", "(", "o", ")", ".", "p", "=", "-1.5e3", "]", ";", "\x7d"] ∧
    ∃ r, parse glued = .ok r ∧
      ∃ r', parse (String.ofList (interleave (fun i => (byTurns i).text) (lexemes glued))) = .ok r' ∧
        r'.items.map Item.unplaced = r.items.map Item.unplaced ∧
        (outline r').unplaced = (outline r).unplaced ∧
        r'.comments = commentsOf byTurns {} (lexemes glued) := by
  have hok : ∃ r, parse glued = .ok r := by
    have hisOk : (parse glued).isOk = true := by decide +kernel
    cases h : parse glued with
    | error e =>
      rw [h] at hisOk
      cases hisOk
    | ok r => exact ⟨r, rfl⟩
  obtain ⟨r, hr⟩ := hok
  exact ⟨by decide +kernel, r, hr, parse_interleave hr byTurns⟩

/-- A text that is a gap as a whole. -/
def IsGap (g : List Char) : Prop :=
  ∀ p, (Gap.read p g).rest = []

section

variable {cs ds body rest t : List Char} {kind : Comment.Kind}

theorem splitBlock?_again (h : Comment.splitBlock? cs = some (body, rest)) (ds : List Char) :
    Comment.splitBlock? (body ++ ds) = some (body, ds) := by
  fun_induction Comment.splitBlock? cs generalizing body with
  | case1 => cases h
  | case2 cs =>
    cases h
    rfl
  | case3 c cs hmark ih =>
    obtain ⟨⟨b, r⟩, hb, heq⟩ := Option.map_eq_some_iff.1 h
    cases heq
    have happend := Comment.append_of_splitBlock? hb
    obtain ⟨front, rfl⟩ := Comment.exists_body_of_splitBlock? hb
    rw [List.cons_append, Comment.splitBlock?.eq_3, ih hb]
    · rfl
    · intro es hc hes
      -- The mark would have closed the comment before.
      cases front with
      | nil => cases hes
      | cons d front =>
        obtain rfl : d = '/' := (List.cons.inj hes).1
        exact hmark _ hc happend.symm

/-- A comment stays the same when what follows it is cut short. -/
theorem split?_again (h : Comment.split? cs = some (kind, t, rest)) (hds : ds <+: rest) :
    Comment.split? (t ++ ds) = some (kind, t, ds) := by
  unfold Comment.split? at h
  split at h
  next cs =>
    cases h
    have hbody := newline_not_mem_takeWhile cs
    cases ds with
    | nil =>
      have hpos : ∀ d ∈ cs.takeWhile (· != '\n'), (d != '\n') = true := by
        intro d hd
        rw [bne_iff_ne]
        rintro rfl
        exact hbody hd
      rw [List.append_nil, Comment.split?, List.takeWhile_eq_self_iff.2 hpos,
        List.dropWhile_eq_nil_iff.2 hpos]
    | cons d es =>
      obtain ⟨fs, hfs⟩ := hds
      have hhead := List.head?_dropWhile_not (· != '\n') cs
      rw [← hfs] at hhead
      obtain rfl : d = '\n' := by simpa using hhead
      exact split?_line hbody es
  next cs =>
    obtain ⟨⟨b, r⟩, hb, heq⟩ := Option.map_eq_some_iff.1 h
    cases heq
    rw [List.cons_append, List.cons_append, Comment.split?, splitBlock?_again hb]
    rfl
  next => cases h

/-- What is skipped before a token is a gap. -/
theorem exists_gap (p : Position) (cs : List Char) :
    ∃ g, cs = g ++ (Gap.read p cs).rest ∧ IsGap g := by
  fun_induction Gap.read p cs with
  | case1 => exact ⟨[], rfl, fun q => by rw [Gap.read]⟩
  | case2 p c ds hspace ih =>
    obtain ⟨g, hg, hgap⟩ := ih
    refine ⟨c :: g, congrArg (c :: ·) hg, fun q => ?_⟩
    rw [Gap.read, if_pos hspace]
    exact hgap _
  | case3 => exact ⟨[], rfl, fun q => by rw [Gap.read]⟩
  | case4 p c ds _ kind t rest hsplit q gap comment ih =>
    obtain ⟨g, hg, hgap⟩ := ih
    have happend := Comment.append_of_split? hsplit
    refine ⟨t ++ g, ?_, fun q' => ?_⟩
    · rw [List.append_assoc, ← happend]
      exact congrArg (t ++ ·) hg
    · rw [read_of_split? (split?_again hsplit (hg ▸ List.prefix_append g _))]
      exact hgap _

theorem exists_interleave_of_run {source : List Char} {s : State} {comments : List Comment}
    {last p : Position} {r : Schema String} (h : run source s comments last p cs = .ok r) :
    ∃ gaps : Nat → List Char, cs = interleave gaps (lexemesFrom s p cs) ∧ ∀ i, IsGap (gaps i) := by
  fun_induction run source s comments last p cs with
  | case1 =>
    rename_i s _ _ p cs gap _ hrest _ _
    obtain ⟨g, hg, hgap⟩ := exists_gap p cs
    rw [show (Gap.read p cs).rest = [] from hrest, List.append_nil] at hg
    refine ⟨fun _ => g, ?_, fun _ => hgap⟩
    rw [lexemesFrom_of_rest_eq_nil hrest]
    exact hg
  | case2 => cases h
  | case3 => cases h
  | case4 => cases h
  | case5 =>
    rename_i s _ _ p cs gap _ d ds hrest l hread t s' hnext ih
    obtain ⟨gaps, hgaps, hall⟩ := ih h
    obtain ⟨g, hg, hgap⟩ := exists_gap p cs
    have hrest : (Gap.read p cs).rest = d :: ds := hrest
    have hlexemes := lexemesFrom_of_read? (hrest ▸ hread) hnext
    refine ⟨fun i => if i = 0 then g else gaps (i - 1), ?_, fun i => ?_⟩
    · rw [hlexemes, interleave]
      refine hg.trans (congrArg (g ++ ·) ?_)
      rw [hrest, ← (Context.append_of_read? hread).1]
      exact congrArg (l.text ++ ·) hgaps
    · by_cases hi : i = 0
      · simpa [hi] using hgap
      · simpa [hi] using hall (i - 1)

/-- A schema is its lexemes with gaps between them. -/
theorem exists_eq_interleave_lexemes {text : String} {r : Schema Int} (h : parse text = .ok r) :
    ∃ gaps : Nat → List Char, text.toList = interleave gaps (lexemes text) ∧
      ∀ i, IsGap (gaps i) := by
  obtain ⟨literals, hliterals, -⟩ := bind_eq_ok h
  exact exists_interleave_of_run hliterals

end

end SchemaEnums.Spacing
