import SchemaEnums.Proofs.Source.NumberShape

namespace SchemaEnums.Source

namespace Lexeme

/-- An integer literal: digits, or a hexadecimal number with its mark, and a minus sign if any. -/
def IsInteger (cs : List Char) : Prop :=
  IsSigned IsUnsigned cs

section

variable {c : Char} {cs : List Char} {l : List Char × List Char}

theorem isBreak_space : IsBreak ' ' :=
  ⟨rfl, by decide⟩

/-- Integers are the texts that are read as integers up to a blank behind them. -/
theorem isInteger_iff : IsInteger cs ↔ integer? (cs ++ [' ']) = some (cs, [' ']) :=
  ⟨fun h => IsSigned.integer?_append h isBreak_space [], fun h => isSigned_of_integer? h⟩

instance : DecidablePred IsInteger :=
  fun _ => decidable_of_iff' _ isInteger_iff

/-- An integer begins with a digit or with a minus sign. -/
theorem IsInteger.exists_cons (h : IsInteger cs) :
    ∃ d ds, cs = d :: ds ∧ (d.isDigit = true ∨ d = '-') := by
  obtain h | ⟨ds, rfl, -⟩ := h
  · obtain ⟨d, ds, rfl, hd⟩ := h.exists_cons
    exact ⟨d, ds, rfl, .inl hd⟩
  · exact ⟨'-', ds, rfl, .inr rfl⟩

theorem not_isInteger_cons (hdigit : c.isDigit = false) (hminus : c ≠ '-') :
    ¬ IsInteger (c :: cs) := by
  intro h
  obtain ⟨d, ds, heq, hd⟩ := h.exists_cons
  obtain ⟨rfl, -⟩ := List.cons.inj heq
  rw [hdigit] at hd
  obtain hd | hd := hd
  · cases hd
  · exact hminus hd

theorem IsName.not_isInteger (h : IsName cs) : ¬ IsInteger cs := by
  obtain ⟨c, ds, rfl, hc, -⟩ := h
  have hnumber := noNumber_of_isNameStart hc
  exact not_isInteger_cons hnumber.digit hnumber.minus

theorem IsQuoted.not_isInteger (h : IsQuoted cs) : ¬ IsInteger cs := by
  obtain ⟨quote, inner, rfl | rfl, rfl⟩ := h
  · exact not_isInteger_cons rfl (by decide)
  · exact not_isInteger_cons rfl (by decide)

/-- No float is an integer: with a blank behind it, it would be read as a float and not. -/
theorem not_isInteger_of_float? (h : float? cs = some l) : ¬ IsInteger l.1 := by
  intro hinteger
  have hfloat := (isSigned_of_float? h).float?_append isBreak_space []
  rw [IsSigned.float?_append_eq_none hinteger isBreak_space []] at hfloat
  cases hfloat

theorem not_isInteger_of_mark? {kind : Kind} (h : mark? c = some kind) : ¬ IsInteger [c] := by
  unfold mark? at h
  split at h
  all_goals first | exact not_isInteger_cons rfl (by decide) | cases h

end

/-- The lexeme is of the class of integers exactly if it is spelled like an integer. -/
def Sorted (l : Lexeme) : Prop :=
  l.kind = .integer ↔ IsInteger l.text

end Lexeme

namespace Context

variable {x : Context} {cs : List Char} {l : Lexeme}

theorem sorted_of_ne (hkind : l.kind ≠ .integer) (h : ¬ Lexeme.IsInteger l.text) : l.Sorted :=
  ⟨fun heq => absurd heq hkind, fun hinteger => absurd hinteger h⟩

theorem sorted_readWord? {keywords : List Keyword} (h : readWord? keywords cs = some l) :
    l.Sorted := by
  obtain ⟨l', hl', rfl⟩ := Option.map_eq_some_iff.1 h
  refine sorted_of_ne ?_ (Lexeme.isName_of_name? hl').not_isInteger
  simp only [classify, wordKind]
  split <;> simp

theorem sorted_readKeyword? {keywords : List Keyword} (h : readKeyword? keywords cs = some l) :
    l.Sorted := by
  obtain ⟨k, -, hk⟩ := List.exists_of_findSome?_eq_some h
  obtain ⟨l', hl', rfl⟩ := Option.map_eq_some_iff.1 hk
  refine sorted_of_ne (by simp [classify]) ?_
  rw [classify, Lexeme.eq_word_of_word? hl']
  exact k.isName_word.not_isInteger

theorem sorted_readModifier? (h : readModifier? cs = some l) : l.Sorted := by
  obtain ⟨l', hl', rfl⟩ := Option.map_eq_some_iff.1 h
  refine sorted_of_ne (by simp [classify]) ?_
  obtain hl' | ⟨-, hl'⟩ := Option.or_eq_some_iff.1 hl'
  · rw [classify, Lexeme.eq_word_of_word? hl']
    exact Lexeme.not_isInteger_cons (c := 'p') rfl (by decide)
  · rw [classify, Lexeme.eq_word_of_word? hl']
    exact Lexeme.not_isInteger_cons (c := 'w') rfl (by decide)

theorem sorted_readMark? {dot : Bool} (h : readMark? dot cs = some l) : l.Sorted := by
  cases cs with
  | nil => cases h
  | cons c cs =>
    simp only [readMark?] at h
    split at h
    next hc =>
      split at h
      · cases h
        subst hc
        exact sorted_of_ne (by simp) (Lexeme.not_isInteger_cons rfl (by decide))
      · cases h
    next =>
      obtain ⟨kind, hkind, rfl⟩ := Option.map_eq_some_iff.1 h
      refine sorted_of_ne ?_ (Lexeme.not_isInteger_of_mark? hkind)
      rintro rfl
      unfold Lexeme.mark? at hkind
      split at hkind <;> cases hkind

/-- What is read is of the class of integers exactly if it is spelled like an integer. -/
theorem sorted_of_read? (h : x.read? cs = some l) : l.Sorted := by
  simp only [read?, Option.or_eq_some_iff] at h
  obtain ((((h | ⟨-, h⟩) | ⟨-, h⟩) | ⟨-, h⟩) | ⟨-, h⟩) | ⟨-, h⟩ := h
  · split at h
    · obtain ⟨l', hl', rfl⟩ := Option.map_eq_some_iff.1 h
      exact sorted_of_ne (by simp [classify]) (Lexeme.not_isInteger_of_float? hl')
    · cases h
  · split at h
    · exact sorted_readWord? h
    · exact sorted_readKeyword? h
  · split at h
    · obtain ⟨l', hl', rfl⟩ := Option.map_eq_some_iff.1 h
      exact ⟨fun _ => Lexeme.isSigned_of_integer? hl', fun _ => rfl⟩
    · cases h
  · split at h
    · exact sorted_readModifier? h
    · cases h
  · obtain ⟨l', hl', rfl⟩ := Option.map_eq_some_iff.1 h
    exact sorted_of_ne (by simp [classify]) (Lexeme.isQuoted_of_string? hl').not_isInteger
  · exact sorted_readMark? h

end Context

end SchemaEnums.Source
