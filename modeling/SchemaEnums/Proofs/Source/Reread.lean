import SchemaEnums.Proofs.Source.NumberShape

namespace SchemaEnums.Source

section

variable {c d : Char} {cs ds n rest : List Char} {x : Context} {l : Lexeme}

namespace Lexeme

theorem prefix_append_cons_iff (hc : c ∉ n) (ds : List Char) :
    n <+: cs ++ c :: ds ↔ n <+: cs := by
  refine ⟨fun h => ?_, fun h => h.trans (List.prefix_append cs _)⟩
  obtain h' | ⟨tail, rfl⟩ := List.prefix_or_prefix_of_prefix h (List.prefix_append cs (c :: ds))
  · exact h'
  · -- What reaches over the text begins with the character behind it, unless it is empty.
    obtain rfl | ⟨tail, rfl, -⟩ := List.prefix_cons_iff.1 ((List.prefix_append_right_inj cs).1 h)
    · simp
    · simp at hc

variable {word : String}

theorem word?_append (word : String) (rest : List Char) :
    word? word (word.toList ++ rest) = some (word.toList, rest) := by
  rw [word?, if_pos (List.isPrefixOf_iff_prefix.2 (List.prefix_append _ _)), List.drop_left]

/-- A word that a text begins with stands in front of the break, or reaches over it. -/
theorem word?_append_break (hword : IsName word.toList) (hc : IsBreak c)
    (h : word? word (cs ++ rest) = none) (ds : List Char) : word? word (cs ++ c :: ds) = none := by
  rw [word?_eq_none_iff] at h ⊢
  rw [prefix_append_cons_iff fun hmem => absurd (hword.isNamePart_of_mem hmem) (by simp [hc.namePart])]
  exact fun hcs => h (hcs.trans (List.prefix_append cs rest))

theorem closeString?_cons {quote : Char} (hc : c ≠ '\\') (cs : List Char) :
    closeString? quote (c :: cs) =
      if c = quote then some ([c], cs)
      else if c = '\n' then none
      else (closeString? quote cs).map (behind [c]) := by
  rw [closeString?.eq_4]
  · exact fun h _ => hc h
  · exact fun _ _ h _ => hc h

/-- Where a string ends does not depend on what follows. -/
theorem closeString?_append {quote : Char} {r : List Char × List Char} (hquote : quote ≠ '\\')
    (h : closeString? quote cs = some r) (rest : List Char) :
    closeString? quote (r.1 ++ rest) = some (r.1, rest) := by
  fun_induction closeString? quote cs generalizing r with
  | case1 => cases h
  | case2 => cases h
  | case3 => cases h
  | case4 c cs hc ih =>
    obtain ⟨r', hr', rfl⟩ := Option.map_eq_some_iff.1 h
    simp [behind, closeString?, hc, ih hr']
  | case5 cs =>
    cases h
    rw [List.singleton_append, closeString?_cons hquote, if_pos rfl]
  | case6 => cases h
  | case7 c cs hend hpair hne hline ih =>
    obtain ⟨r', hr', rfl⟩ := Option.map_eq_some_iff.1 h
    have hc : c ≠ '\\' := by
      cases cs with
      | nil => exact fun hc => hend hc rfl
      | cons d cs => exact fun hc => hpair d cs hc rfl
    rw [behind, List.singleton_append, List.cons_append, closeString?_cons hc, if_neg hne,
      if_neg hline, ih hr']
    rfl

theorem string?_append {r : List Char × List Char} (h : string? cs = some r) (rest : List Char) :
    string? (r.1 ++ rest) = some (r.1, rest) := by
  unfold string? at h
  split at h
  · obtain ⟨r', hr', rfl⟩ := Option.map_eq_some_iff.1 h
    have hclose := closeString?_append (by decide) hr' rest
    simp [behind, string?, hclose]
  · obtain ⟨r', hr', rfl⟩ := Option.map_eq_some_iff.1 h
    have hclose := closeString?_append (by decide) hr' rest
    simp [behind, string?, hclose]
  · cases h

/-- A string begins with a quote. -/
theorem exists_cons_of_string? {r : List Char × List Char} (h : string? cs = some r) :
    ∃ d ds, r.1 = d :: ds ∧ (d = '"' ∨ d = '\'') := by
  unfold string? at h
  split at h
  · obtain ⟨r', -, rfl⟩ := Option.map_eq_some_iff.1 h
    exact ⟨_, _, rfl, .inl rfl⟩
  · obtain ⟨r', -, rfl⟩ := Option.map_eq_some_iff.1 h
    exact ⟨_, _, rfl, .inr rfl⟩
  · cases h

/-- Numbers begin with no letter and no underscore. -/
theorem IsSigned.exists_cons (hn : IsSigned IsUnsigned n) :
    ∃ d ds, n = d :: ds ∧ isNameStart d = false := by
  have hstart {d : Char} (hd : ¬ NoNumber d) : isNameStart d = false := by
    by_contra h
    exact hd (noNumber_of_isNameStart (by simpa using h))
  rcases hn with hn | ⟨ds, rfl, -⟩
  · obtain ⟨d, ds, rfl, hd⟩ := hn.exists_cons
    refine ⟨d, ds, rfl, hstart fun h => ?_⟩
    rw [h.digit] at hd
    cases hd
  · exact ⟨'-', ds, rfl, hstart fun h => h.minus rfl⟩

end Lexeme

namespace Context

open Lexeme

theorem readKeyword?_append_break {keywords : List Keyword} (hc : IsBreak c)
    (h : readKeyword? keywords (cs ++ rest) = none) (ds : List Char) :
    readKeyword? keywords (cs ++ c :: ds) = none := by
  rw [readKeyword?, List.findSome?_eq_none_iff] at h ⊢
  intro k hk
  rw [word?_append_break k.isName_word hc (Option.map_eq_none_iff.1 (h k hk))]
  rfl

/-- The keyword that was read off the front of a text is the first one again. -/
theorem readKeyword?_text_append_break {keywords : List Keyword} (hc : IsBreak c)
    (h : readKeyword? keywords cs = some l) (ds : List Char) :
    readKeyword? keywords (l.text ++ c :: ds) = some { l with rest := c :: ds } := by
  obtain ⟨happend, -⟩ := append_of_readKeyword? h
  induction keywords with
  | nil => cases h
  | cons k ks ih =>
    rw [readKeyword?, List.findSome?_cons] at h ⊢
    cases hword : word? k.word cs with
    | some r =>
      rw [hword] at h
      cases h
      rw [classify, eq_word_of_word? hword, word?_append]
      rfl
    | none =>
      rw [hword] at h
      rw [← happend] at hword
      rw [word?_append_break k.isName_word hc hword]
      exact ih h

/-- A modifier is one of two words. -/
theorem readModifier?_text_append (h : readModifier? cs = some l) (rest : List Char) :
    IsName l.text ∧ readModifier? (l.text ++ rest) = some { l with rest } := by
  obtain ⟨r, hr, rfl⟩ := Option.map_eq_some_iff.1 h
  rcases Option.or_eq_some_iff.1 hr with hr | ⟨-, hr⟩
  · rw [classify, eq_word_of_word? hr, readModifier?, word?_append]
    exact ⟨isName_modifier.1, rfl⟩
  · rw [classify, eq_word_of_word? hr, readModifier?, word?_append]
    exact ⟨isName_modifier.2, rfl⟩

theorem read?_float (hx : x.float = true) (hn : IsSigned IsUnsignedFloat n) (hc : IsBreak c)
    (ds : List Char) :
    x.read? (n ++ c :: ds) = some { kind := .float, text := n, rest := c :: ds } := by
  rw [read?, if_pos hx, hn.float?_append hc]
  rfl

/-- What a text with a word in front is read as where no name is looked for. -/
theorem read?_of_isName (hn : IsName n) (hx : x.name = false) (rest : List Char) :
    x.read? (n ++ rest) =
      (readKeyword? x.keywords (n ++ rest)).or
        ((if x.modifier then readModifier? (n ++ rest) else none).or
          ((Lexeme.string? (n ++ rest)).map (classify .string) |>.or (readMark? x.dot (n ++ rest)))) := by
  obtain ⟨d, es, rfl, hd, -⟩ := hn
  have hnumber := noNumber_of_isNameStart hd
  rw [read?, List.cons_append, float?_eq_none hnumber, integer?_eq_none hnumber, hx]
  simp [Option.or_assoc]

theorem read?_keyword (hx : x.name = false) (h : readKeyword? x.keywords cs = some l)
    (hc : IsBreak c) (ds : List Char) :
    x.read? (l.text ++ c :: ds) = some { l with rest := c :: ds } := by
  have hn : IsName l.text := by
    obtain ⟨k, -, hk⟩ := List.exists_of_findSome?_eq_some h
    obtain ⟨r, hr, rfl⟩ := Option.map_eq_some_iff.1 hk
    rw [classify, eq_word_of_word? hr]
    exact k.isName_word
  rw [read?_of_isName hn hx, readKeyword?_text_append_break hc h]
  rfl

theorem read?_modifier (hx : x.name = false) (hmodifier : x.modifier = true)
    (hword : readKeyword? x.keywords (l.text ++ rest) = none) (h : readModifier? cs = some l)
    (hc : IsBreak c) (ds : List Char) :
    x.read? (l.text ++ c :: ds) = some { l with rest := c :: ds } := by
  obtain ⟨hn, hread⟩ := readModifier?_text_append h (c :: ds)
  rw [read?_of_isName hn hx, readKeyword?_append_break hc hword, if_pos hmodifier, hread]
  rfl

/-- What a text is read as that begins with no letter and no underscore. -/
theorem read?_of_not_isNameStart (hc : isNameStart c = false) (cs : List Char) :
    x.read? (c :: cs) =
      (if x.float then (float? (c :: cs)).map (classify .float) else none).or
        ((if x.integer then (integer? (c :: cs)).map (classify .integer) else none).or
          ((string? (c :: cs)).map (classify .string) |>.or (readMark? x.dot (c :: cs)))) := by
  rw [read?, readWord?_eq_none hc, readKeyword?_eq_none hc, readModifier?_eq_none hc]
  simp [Option.or_assoc]

theorem read?_number (hx : x.integer = true) (hn : IsSigned IsUnsigned n) (hc : IsBreak c)
    (ds : List Char) :
    x.read? (n ++ c :: ds) = some { kind := .integer, text := n, rest := c :: ds } := by
  have hfloat := hn.float?_append_eq_none hc ds
  have hinteger := hn.integer?_append hc ds
  obtain ⟨d, es, rfl, hd⟩ := hn.exists_cons
  rw [List.cons_append] at hfloat hinteger ⊢
  rw [read?_of_not_isNameStart hd, hfloat, hinteger, if_pos hx]
  simp [classify]

theorem read?_string {r : List Char × List Char} (h : string? cs = some r) (rest : List Char) :
    x.read? (r.1 ++ rest) = some { kind := .string, text := r.1, rest } := by
  have hread := string?_append h rest
  obtain ⟨d, es, hr, hd⟩ := exists_cons_of_string? h
  have hnumber : NoNumber d ∧ isNameStart d = false := by
    rcases hd with rfl | rfl <;> exact ⟨⟨by decide, by decide, by decide⟩, by decide⟩
  rw [hr, List.cons_append] at hread ⊢
  rw [read?_of_not_isNameStart hnumber.2, float?_eq_none hnumber.1, integer?_eq_none hnumber.1, hread]
  simp [classify]

theorem read?_dot (hx : x.dot = true) (hc : IsBreak c) (ds : List Char) :
    x.read? ('.' :: c :: ds) = some { kind := .dot, text := ['.'], rest := c :: ds } := by
  have hfloat : float? ('.' :: c :: ds) = none := by
    rw [float?, signed?_of_ne (by decide), unsignedFloat?, run?_eq_none (by decide)]
    simp [run?_eq_none hc.isDigit]
  have hinteger : integer? ('.' :: c :: ds) = none := by
    rw [integer?, signed?_of_ne (by decide), unsigned?_eq_run?, run?_eq_none (by decide)]
    intro m r heq
    cases (List.cons.inj heq).1
  have hstring : string? ('.' :: c :: ds) = none := rfl
  rw [read?_of_not_isNameStart (by decide), hfloat, hinteger, hstring, readMark?, if_pos rfl, hx]
  simp

/-- A lexeme that was read is read again before a character that goes on with no name and no number. -/
theorem read?_append_break (h : x.read? cs = some l) (hc : IsBreak c) (ds : List Char) :
    x.read? (l.text ++ c :: ds) = some { l with rest := c :: ds } := by
  obtain ⟨happend, -⟩ := append_of_read? h
  simp only [read?, Option.or_eq_some_iff, Option.or_eq_none_iff] at h
  rcases h with ((((h | ⟨-, h⟩) | ⟨⟨-, -⟩, h⟩) | ⟨⟨⟨-, hword⟩, -⟩, h⟩) | ⟨-, h⟩) | ⟨-, h⟩
  · split at h
    next hx =>
      obtain ⟨r, hr, rfl⟩ := Option.map_eq_some_iff.1 h
      exact read?_float hx (isSigned_of_float? hr) hc ds
    next => cases h
  · split at h
    next hx =>
      obtain ⟨r, hr, rfl⟩ := Option.map_eq_some_iff.1 h
      exact read?_word (isName_of_name? hr) hc.namePart hx ds
    next hx => exact read?_keyword (by simpa using hx) h hc ds
  · split at h
    next hx =>
      obtain ⟨r, hr, rfl⟩ := Option.map_eq_some_iff.1 h
      exact read?_number hx (isSigned_of_integer? hr) hc ds
    next => cases h
  · split at h
    next hmodifier =>
      obtain ⟨hn, -⟩ := readModifier?_text_append h []
      obtain ⟨d, es, htext, hd, -⟩ := hn
      split at hword
      next =>
        -- A name would have been read.
        rw [← happend, htext] at hword
        simp [readWord?, name?, hd] at hword
      next hx =>
        rw [← happend] at hword
        exact read?_modifier (by simpa using hx) hmodifier hword h hc ds
    next => cases h
  · obtain ⟨r, hr, rfl⟩ := Option.map_eq_some_iff.1 h
    exact read?_string hr (c :: ds)
  · cases cs with
    | nil => cases h
    | cons e es =>
      rw [readMark?] at h
      split at h
      next heq =>
        split at h
        next hx =>
          cases h
          rw [heq]
          exact read?_dot hx hc ds
        next => cases h
      next =>
        obtain ⟨kind, hkind, rfl⟩ := Option.map_eq_some_iff.1 h
        exact read?_mark hkind (c :: ds)

/-- No lexeme begins with white space or with a slash. -/
theorem read?_eq_none (hc : Gap.isSpace c = true ∨ c = '/') (cs : List Char) :
    x.read? (c :: cs) = none := by
  have hall : c ∈ [' ', '\t', '\x0c', '\r', '\n', '/'] := by
    simpa [Gap.isSpace, or_assoc] using hc
  obtain ⟨hstart, hnumber, hstring, hmark⟩ : isNameStart c = false ∧ NoNumber c ∧
      string? (c :: cs) = none ∧ mark? c = none := by
    simp only [List.mem_cons, List.not_mem_nil, or_false] at hall
    rcases hall with rfl | rfl | rfl | rfl | rfl | rfl
    all_goals exact ⟨by decide, ⟨by decide, by decide, by decide⟩, rfl, rfl⟩
  rw [read?_of_not_isNameStart hstart, float?_eq_none hnumber, integer?_eq_none hnumber, hstring,
    readMark?, if_neg hnumber.dot, hmark]
  simp

end Context

end

end SchemaEnums.Source
