import SchemaEnums.Proofs.Source.Reread

namespace SchemaEnums.Source

namespace Lexeme

/-- What was read, with more text behind it. -/
def extend (ds : List Char) (l : List Char × List Char) : List Char × List Char :=
  (l.1, l.2 ++ ds)

/-- The character goes on with no name and with no number, not even with its sign. -/
structure IsStop (c : Char) : Prop extends IsBreak c where
  minus : c ≠ '-'
  plus : c ≠ '+'

section

variable {c : Char} {kind : Kind} {p : Char → Bool} {read? : List Char → Option (List Char × List Char)}

theorem isStop_of_mark? (hc : mark? c = some kind) : IsStop c := by
  unfold mark? at hc
  split at hc
  all_goals
    first
    | exact { namePart := by decide, dot := by decide, minus := by decide, plus := by decide }
    | cases hc

theorem IsStop.ne_of_isNamePart (hc : IsStop c) {d : Char} (hd : isNamePart d = true) : c ≠ d := by
  rintro rfl
  rw [hc.namePart] at hd
  cases hd

theorem IsStop.isNameStart (hc : IsStop c) : isNameStart c = false := by
  by_contra h
  exact hc.ne_of_isNamePart (isNamePart_of_isNameStart (by simpa using h)) rfl

theorem map_extend_behind (front ds : List Char) (o : Option (List Char × List Char)) :
    (o.map (extend ds)).map (behind front) = (o.map (behind front)).map (extend ds) := by
  cases o <;> rfl

theorem run_stop (hp : p c = false) (cs ds : List Char) :
    run p (cs ++ c :: ds) = extend (c :: ds) (run p cs) := by
  induction cs with
  | nil => simp [run, extend, hp]
  | cons d cs ih =>
    simp only [run, extend, Prod.mk.injEq, List.cons_append, List.takeWhile_cons,
      List.dropWhile_cons] at ih ⊢
    split
    · exact ⟨congrArg (d :: ·) ih.1, ih.2⟩
    · exact ⟨rfl, rfl⟩

theorem run?_stop (hp : p c = false) (cs ds : List Char) :
    run? p (cs ++ c :: ds) = (run? p cs).map (extend (c :: ds)) := by
  have hrun := run_stop hp cs ds
  have htake : (cs ++ c :: ds).takeWhile p = cs.takeWhile p := congrArg Prod.fst hrun
  rw [run?, run?, hrun, htake]
  split <;> rfl

theorem name?_stop (hc : IsStop c) (cs ds : List Char) :
    name? (cs ++ c :: ds) = (name? cs).map (extend (c :: ds)) := by
  cases cs with
  | nil => simp [name?, hc.isNameStart]
  | cons d cs =>
    rw [List.cons_append, name?, name?, run_stop hc.namePart]
    split <;> rfl

theorem unsigned?_stop (hc : IsStop c) (cs ds : List Char) :
    unsigned? (cs ++ c :: ds) = (unsigned? cs).map (extend (c :: ds)) := by
  have hrun (cs : List Char) := run?_stop hc.toIsBreak.isDigit cs ds
  have hplain (d : Char) (es : List Char) (h : ∀ m r, d :: es = '0' :: m :: r → m ≠ 'x' ∧ m ≠ 'X') :
      unsigned? (d :: es) = run? Char.isDigit (d :: es) := unsigned?_eq_run? h
  match cs with
  | [] =>
    rw [List.nil_append, hplain c ds (fun m r heq => absurd (List.cons.inj heq).1
      (hc.ne_of_isNamePart (by decide))), run?_eq_none hc.toIsBreak.isDigit]
    rfl
  | [d] =>
    rw [List.singleton_append, hplain d (c :: ds), hplain d [], ← hrun]
    · rfl
    · rintro m r heq
      cases heq
    · rintro m r heq
      rw [← (List.cons.inj (List.cons.inj heq).2).1]
      exact ⟨hc.ne_of_isNamePart (by decide), hc.ne_of_isNamePart (by decide)⟩
  | d :: m :: r =>
    by_cases hd : d = '0'
    · subst hd
      have hhex := run?_stop hc.toIsBreak.isHexDigit r ds
      have hdigits := hrun ('0' :: m :: r)
      rw [List.cons_append, List.cons_append] at hdigits ⊢
      simp only [unsigned?]
      split
      · rw [hhex, hdigits, map_extend_behind]
        cases (run? isHexDigit r).map (behind ['0', m]) <;> rfl
      · exact hdigits
    · rw [List.cons_append, List.cons_append, hplain, hplain]
      · exact hrun (d :: m :: r)
      · exact fun _ _ heq => absurd (List.cons.inj heq).1 hd
      · exact fun _ _ heq => absurd (List.cons.inj heq).1 hd

theorem signed?_stop (hc : IsStop c) (hread : ∀ cs ds,
      read? (cs ++ c :: ds) = (read? cs).map (extend (c :: ds))) (cs ds : List Char) :
    signed? read? (cs ++ c :: ds) = (signed? read? cs).map (extend (c :: ds)) := by
  cases cs with
  | nil =>
    rw [List.nil_append, signed?_of_ne hc.minus]
    exact hread [] ds
  | cons d cs =>
    by_cases hd : d = '-'
    · subst hd
      simp only [List.cons_append, signed?, hread]
      exact map_extend_behind _ _ _
    · rw [List.cons_append, signed?_of_ne hd, signed?_of_ne hd, ← List.cons_append, hread]

theorem exponentDigits?_stop (hc : IsStop c) (cs ds : List Char) :
    exponentDigits? (cs ++ c :: ds) = (exponentDigits? cs).map (extend (c :: ds)) := by
  have hrun (cs : List Char) := run?_stop hc.toIsBreak.isDigit cs ds
  have hplain {d : Char} (hplus : d ≠ '+') (hminus : d ≠ '-') (es : List Char) :
      exponentDigits? (d :: es) = run? Char.isDigit (d :: es) := by
    unfold exponentDigits?
    split
    · exact absurd (List.cons.inj ‹_›).1 hplus
    · exact absurd (List.cons.inj ‹_›).1 hminus
    · rfl
  cases cs with
  | nil =>
    rw [List.nil_append, hplain hc.plus hc.minus]
    exact hrun []
  | cons d cs =>
    by_cases hplus : d = '+'
    · subst hplus
      simp only [List.cons_append, exponentDigits?, hrun]
      exact map_extend_behind _ _ _
    · by_cases hminus : d = '-'
      · subst hminus
        simp only [List.cons_append, exponentDigits?, hrun]
        exact map_extend_behind _ _ _
      · rw [List.cons_append, hplain hplus hminus, hplain hplus hminus]
        exact hrun (d :: cs)

theorem exponent?_stop (hc : IsStop c) (cs ds : List Char) :
    exponent? (cs ++ c :: ds) = (exponent? cs).map (extend (c :: ds)) := by
  cases cs with
  | nil =>
    exact exponent?_eq_none (hc.ne_of_isNamePart (by decide)) (hc.ne_of_isNamePart (by decide))
  | cons d cs =>
    by_cases he : d = 'e'
    · subst he
      simp only [List.cons_append, exponent?, exponentDigits?_stop hc]
      exact map_extend_behind _ _ _
    · by_cases hE : d = 'E'
      · subst hE
        simp only [List.cons_append, exponent?, exponentDigits?_stop hc]
        exact map_extend_behind _ _ _
      · rw [List.cons_append, exponent?_eq_none he hE, exponent?_eq_none he hE]
        rfl

theorem withExponent_stop (hc : IsStop c) (l : List Char × List Char) (ds : List Char) :
    withExponent (extend (c :: ds) l) = extend (c :: ds) (withExponent l) := by
  have hexponent : exponent? (extend (c :: ds) l).2 = (exponent? l.2).map (extend (c :: ds)) :=
    exponent?_stop hc l.2 ds
  unfold withExponent
  rw [hexponent]
  cases exponent? l.2 <;> rfl

theorem unsignedFloat?_stop (hc : IsStop c) (cs ds : List Char) :
    unsignedFloat? (cs ++ c :: ds) = (unsignedFloat? cs).map (extend (c :: ds)) := by
  have hrun (cs : List Char) := run?_stop hc.toIsBreak.isDigit cs ds
  unfold unsignedFloat?
  rw [hrun]
  cases run? Char.isDigit cs with
  | none =>
    cases cs with
    | nil =>
      simp only [Option.map_none, List.nil_append]
      split
      · exact absurd (List.cons.inj ‹_›).1 hc.dot
      · rfl
    | cons d cs =>
      by_cases hd : d = '.'
      · subst hd
        simp only [Option.map_none, List.cons_append, hrun]
        cases run? Char.isDigit cs with
        | none => rfl
        | some l => exact congrArg some (withExponent_stop hc (behind ['.'] l) ds)
      · simp only [Option.map_none, List.cons_append]
        split
        · exact absurd (List.cons.inj ‹_›).1 hd
        · split
          · exact absurd (List.cons.inj ‹_›).1 hd
          · rfl
  | some l =>
    obtain ⟨digits, rest⟩ := l
    cases rest with
    | nil =>
      simp only [Option.map_some, extend, List.nil_append]
      split
      · exact absurd (List.cons.inj ‹_›).1 hc.dot
      · rw [show c :: ds = [] ++ c :: ds from rfl, exponent?_stop hc, map_extend_behind]
        rfl
    | cons d rest =>
      by_cases hd : d = '.'
      · subst hd
        simp only [Option.map_some, extend, List.cons_append, run_stop hc.toIsBreak.isDigit]
        exact congrArg some
          (withExponent_stop hc (behind (digits ++ ['.']) (run Char.isDigit rest)) ds)
      · simp only [Option.map_some, extend, List.cons_append]
        split
        · exact absurd (List.cons.inj ‹_›).1 hd
        · split
          · exact absurd (List.cons.inj ‹_›).1 hd
          · rw [← List.cons_append, exponent?_stop hc, map_extend_behind]

theorem integer?_stop (hc : IsStop c) (cs ds : List Char) :
    integer? (cs ++ c :: ds) = (integer? cs).map (extend (c :: ds)) :=
  signed?_stop hc (unsigned?_stop hc) cs ds

theorem float?_stop (hc : IsStop c) (cs ds : List Char) :
    float? (cs ++ c :: ds) = (float? cs).map (extend (c :: ds)) :=
  signed?_stop hc (unsignedFloat?_stop hc) cs ds

theorem word?_stop (hc : IsStop c) {word : String} (hword : IsName word.toList)
    (cs ds : List Char) : word? word (cs ++ c :: ds) = (word? word cs).map (extend (c :: ds)) := by
  have hmem : c ∉ word.toList := fun hmem =>
    hc.ne_of_isNamePart (hword.isNamePart_of_mem hmem) rfl
  by_cases h : word.toList <+: cs
  · obtain ⟨rest, rfl⟩ := h
    rw [List.append_assoc, word?_append, word?_append]
    rfl
  · rw [word?_eq_none_iff.2 h, word?_eq_none_iff.2 (mt (prefix_append_cons_iff hmem ds).1 h)]
    rfl

/-- A string that ends goes on as before. -/
theorem string?_extend {cs : List Char} {l : List Char × List Char} (h : string? cs = some l)
    (ds : List Char) : string? (cs ++ ds) = some (extend ds l) := by
  obtain ⟨happend, -⟩ := splits_string? h
  rw [← happend, List.append_assoc]
  exact string?_append h (l.2 ++ ds)

end

end Lexeme

/-- The classes of words and numbers. -/
def Kind.IsPlain : Kind → Prop
  | keyword _ => True
  | name => True
  | integer => True
  | float => True
  | modifier => True
  | _ => False

namespace Context

open Lexeme

variable {x : Context} {c : Char} {kind : Kind} {cs : List Char} {l : Lexeme}

/-- Reads a lexeme that is neither a string nor a mark. -/
def readPlain? (x : Context) (cs : List Char) : Option Lexeme :=
  (if x.float then (Lexeme.float? cs).map (classify .float) else none)
  |>.or (if x.name then readWord? x.keywords cs else readKeyword? x.keywords cs)
  |>.or (if x.integer then (Lexeme.integer? cs).map (classify .integer) else none)
  |>.or (if x.modifier then readModifier? cs else none)

/-- The lexeme with more text behind it. -/
def lengthen (ds : List Char) (l : Lexeme) : Lexeme :=
  { l with rest := l.rest ++ ds }

theorem read?_eq (x : Context) (cs : List Char) :
    x.read? cs =
      ((x.readPlain? cs).or ((string? cs).map (classify .string))).or (readMark? x.dot cs) := rfl

theorem map_lengthen_classify (kind : Kind) (ds : List Char) (o : Option (List Char × List Char)) :
    (o.map (extend ds)).map (classify kind) = (o.map (classify kind)).map (lengthen ds) := by
  cases o <;> rfl

theorem map_lengthen_or (ds : List Char) (o o' : Option Lexeme) :
    (o.or o').map (lengthen ds) = (o.map (lengthen ds)).or (o'.map (lengthen ds)) := by
  cases o <;> rfl

theorem readWord?_stop (hc : IsStop c) (keywords : List Keyword) (cs ds : List Char) :
    readWord? keywords (cs ++ c :: ds) = (readWord? keywords cs).map (lengthen (c :: ds)) := by
  rw [readWord?, readWord?, name?_stop hc]
  cases name? cs <;> rfl

theorem readKeyword?_stop (hc : IsStop c) (keywords : List Keyword) (cs ds : List Char) :
    readKeyword? keywords (cs ++ c :: ds) =
      (readKeyword? keywords cs).map (lengthen (c :: ds)) := by
  induction keywords with
  | nil => rfl
  | cons k ks ih =>
    rw [readKeyword?, readKeyword?, List.findSome?_cons, List.findSome?_cons,
      word?_stop hc k.isName_word]
    cases word? k.word cs with
    | some l => rfl
    | none => exact ih

theorem readModifier?_stop (hc : IsStop c) (cs ds : List Char) :
    readModifier? (cs ++ c :: ds) = (readModifier? cs).map (lengthen (c :: ds)) := by
  rw [readModifier?, readModifier?, word?_stop hc isName_modifier.1, word?_stop hc isName_modifier.2]
  cases word? "public" cs <;> cases word? "weak" cs <;> rfl

theorem readPlain?_stop (hc : IsStop c) (x : Context) (cs ds : List Char) :
    x.readPlain? (cs ++ c :: ds) = (x.readPlain? cs).map (lengthen (c :: ds)) := by
  simp only [readPlain?, map_lengthen_or]
  congr 1
  · congr 1
    · congr 1
      · split
        · rw [float?_stop hc, map_lengthen_classify]
        · rfl
      · split
        · exact readWord?_stop hc _ _ _
        · exact readKeyword?_stop hc _ _ _
    · split
      · rw [integer?_stop hc, map_lengthen_classify]
      · rfl
  · split
    · exact readModifier?_stop hc _ _
    · rfl

theorem readMark?_append (dot : Bool) (hcs : cs ≠ []) (ds : List Char) :
    readMark? dot (cs ++ ds) = (readMark? dot cs).map (lengthen ds) := by
  obtain ⟨d, cs, rfl⟩ := List.exists_cons_of_ne_nil hcs
  simp only [List.cons_append, readMark?]
  split
  · split <;> rfl
  · cases mark? d <;> rfl

/-- A string begins with a quote, which is no mark. -/
theorem readMark?_eq_none {dot : Bool} {ds : List Char} {r : List Char × List Char}
    (h : string? (cs ++ ds) = some r) (hcs : cs ≠ []) : readMark? dot cs = none := by
  obtain ⟨d, cs, rfl⟩ := List.exists_cons_of_ne_nil hcs
  unfold string? at h
  split at h
  next heq =>
    rw [(List.cons.inj heq).1]
    rfl
  next heq =>
    rw [(List.cons.inj heq).1]
    rfl
  next => cases h

/-- What is read at the end of a text is read before a mark. -/
theorem read?_extend (hc : mark? c = some kind) (h : x.read? cs = some l) (ds : List Char) :
    x.read? (cs ++ c :: ds) = some (lengthen (c :: ds) l) := by
  have hcs : cs ≠ [] := by
    rintro rfl
    obtain ⟨happend, hne⟩ := append_of_read? h
    exact hne (List.append_eq_nil_iff.1 happend).1
  rw [read?_eq] at h ⊢
  rw [readPlain?_stop (isStop_of_mark? hc), readMark?_append _ hcs]
  cases hplain : x.readPlain? cs with
  | some l' =>
    rw [hplain] at h
    cases h
    rfl
  | none =>
    rw [hplain] at h
    cases hstring : string? cs with
    | some r =>
      rw [hstring] at h
      cases h
      rw [string?_extend hstring]
      rfl
    | none =>
      rw [hstring] at h
      simp only [Option.map_none, Option.none_or] at h ⊢
      cases hstring' : string? (cs ++ c :: ds) with
      | none => simp [h]
      | some r =>
        rw [readMark?_eq_none hstring' hcs] at h
        cases h

/-- What is read before a mark, unless it is a string, is read at the end of the text. -/
theorem read?_cut (hc : mark? c = some kind) {ds : List Char} (h : x.read? (cs ++ c :: ds) = some l)
    (hcs : cs ≠ []) (hl : l.kind ≠ .string) :
    ∃ l', x.read? cs = some l' ∧ l = lengthen (c :: ds) l' := by
  rw [read?_eq] at h ⊢
  rw [readPlain?_stop (isStop_of_mark? hc), readMark?_append _ hcs] at h
  cases hplain : x.readPlain? cs with
  | some l' =>
    rw [hplain] at h
    cases h
    exact ⟨l', rfl, rfl⟩
  | none =>
    rw [hplain] at h
    cases hstring : string? (cs ++ c :: ds) with
    | some r =>
      rw [hstring] at h
      cases h
      exact absurd rfl hl
    | none =>
      rw [hstring] at h
      have hnone : string? cs = none := by
        cases hsome : string? cs with
        | none => rfl
        | some r =>
          rw [string?_extend hsome] at hstring
          cases hstring
      simp only [Option.map_none, Option.none_or, hnone] at h ⊢
      obtain ⟨l', hl', rfl⟩ := Option.map_eq_some_iff.1 h
      exact ⟨l', hl', rfl⟩

theorem isPlain_of_readPlain? (h : x.readPlain? cs = some l) : l.kind.IsPlain := by
  simp only [readPlain?, Option.or_eq_some_iff] at h
  rcases h with ((h | ⟨-, h⟩) | ⟨-, h⟩) | ⟨-, h⟩
  · split at h
    · obtain ⟨r, -, rfl⟩ := Option.map_eq_some_iff.1 h
      trivial
    · cases h
  · split at h
    · obtain ⟨r, -, rfl⟩ := Option.map_eq_some_iff.1 h
      simp only [classify, wordKind]
      split <;> trivial
    · obtain ⟨k, -, hk⟩ := List.exists_of_findSome?_eq_some h
      obtain ⟨r, -, rfl⟩ := Option.map_eq_some_iff.1 hk
      trivial
  · split at h
    · obtain ⟨r, -, rfl⟩ := Option.map_eq_some_iff.1 h
      trivial
    · cases h
  · split at h
    · obtain ⟨r, -, rfl⟩ := Option.map_eq_some_iff.1 h
      trivial
    · cases h

/-- A lexeme is a word or a number, a string, or a mark. -/
theorem read?_cases (h : x.read? cs = some l) :
    l.kind.IsPlain ∨ (l.kind = .string ∧ string? cs = some (l.text, l.rest)) ∨
      ∃ d, l.text = [d] ∧ (mark? d = some l.kind ∨ l.kind = .dot) := by
  rw [read?_eq] at h
  rcases Option.or_eq_some_iff.1 h with h | ⟨-, h⟩
  · rcases Option.or_eq_some_iff.1 h with h | ⟨-, h⟩
    · exact .inl (isPlain_of_readPlain? h)
    · obtain ⟨r, hr, rfl⟩ := Option.map_eq_some_iff.1 h
      exact .inr (.inl ⟨rfl, hr⟩)
  · right; right
    cases cs with
    | nil => cases h
    | cons d cs =>
      rw [readMark?] at h
      split at h
      · split at h
        · cases h
          exact ⟨d, rfl, .inr rfl⟩
        · cases h
      · obtain ⟨mark, hmark, rfl⟩ := Option.map_eq_some_iff.1 h
        exact ⟨d, rfl, .inl hmark⟩

/-- What is read as a string is one. -/
theorem string?_of_read? (h : x.read? cs = some l) (hl : l.kind = .string) :
    string? cs = some (l.text, l.rest) := by
  obtain hplain | ⟨-, hstring⟩ | ⟨d, -, hmark | hdot⟩ := read?_cases h
  · rw [hl] at hplain
    exact hplain.elim
  · exact hstring
  · rw [hl] at hmark
    unfold mark? at hmark
    split at hmark <;> cases hmark
  · rw [hl] at hdot
    cases hdot

/-- What is read as a mark that ends something is one character. -/
theorem mark?_of_read? (h : x.read? cs = some l)
    (hl : l.kind = .semicolon ∨ l.kind = .openBrace ∨ l.kind = .closeBrace) :
    ∃ d, l.text = [d] ∧ mark? d = some l.kind := by
  obtain hplain | ⟨hstring, -⟩ | ⟨d, htext, hmark | hdot⟩ := read?_cases h
  · rcases hl with hl | hl | hl <;> (rw [hl] at hplain; exact hplain.elim)
  · simp [hstring] at hl
  · exact ⟨d, htext, hmark⟩
  · simp [hdot] at hl

/-- The lexeme `t` is read in front of `cs`, whatever stands behind that. -/
def Finds (x : Context) (kind : Kind) (t cs : List Char) : Prop :=
  ∀ ds, x.read? (t ++ (cs ++ ds)) = some { kind, text := t, rest := cs ++ ds }

theorem finds_mark (x : Context) (hc : mark? c = some kind) (cs : List Char) :
    x.Finds kind [c] cs :=
  fun ds => read?_mark hc (cs ++ ds)

/-- What stands behind a mark has no influence on the lexemes in front of it. -/
theorem finds_of_read? (hc : mark? c = some kind) {k : Kind} {t ds : List Char}
    (h : x.read? (t ++ (cs ++ c :: ds)) = some { kind := k, text := t, rest := cs ++ c :: ds }) :
    x.Finds k t (cs ++ [c]) := by
  obtain ⟨-, hne⟩ := append_of_read? h
  intro es
  by_cases hk : k = .string
  · exact hk ▸ read?_string (string?_of_read? h hk) _
  rw [← List.append_assoc] at h
  obtain ⟨l', hl', heq⟩ := read?_cut hc h (List.append_ne_nil_of_left_ne_nil hne cs) hk
  obtain ⟨k', t', rest⟩ := l'
  obtain ⟨rfl, rfl, hrest⟩ := Lexeme.mk.inj heq
  obtain rfl := List.append_cancel_right hrest
  have hextend := read?_extend hc hl' es
  simpa [lengthen] using hextend

end Context

end SchemaEnums.Source
