import SchemaEnums.TypeScript.Identifier

namespace SchemaEnums.TypeScript

/-- An identifier in the strict sense. -/
def IsStrictIdentifier (cs : List Char) : Prop :=
  ∃ c ds, cs = c :: ds ∧ isIdentifierStart c = true ∧ ∀ d ∈ ds, isIdentifierPart d = true

section

variable {c : Char} {cs ds : List Char}

theorem isIdentifierPart_of_isIdentifierStart (h : isIdentifierStart c = true) :
    isIdentifierPart c = true := by
  simp only [isIdentifierStart, isIdentifierPart, Char.isAlphanum, Bool.or_eq_true] at h ⊢
  obtain (h | h) | h := h
  · exact .inl (.inl (.inl h))
  · exact .inl (.inr h)
  · exact .inr h

/-- A text that goes on as an identifier does holds characters of identifiers and perhaps a line
feed. -/
theorem isIdentifierPart_or_newline_of_mem_tail (h : isIdentifierTail cs = true) (hc : c ∈ cs) :
    isIdentifierPart c = true ∨ c = '\n' := by
  fun_induction isIdentifierTail cs with
  | case1 => cases hc
  | case2 => exact .inr (List.mem_singleton.1 hc)
  | case3 d cs hend ih =>
    obtain ⟨hd, htail⟩ := Bool.and_eq_true_iff.1 h
    obtain rfl | hc := List.mem_cons.1 hc
    · exact .inl hd
    · exact ih htail hc

/-- An identifier holds characters of identifiers and perhaps a line feed. -/
theorem isIdentifierPart_or_newline_of_mem (h : isIdentifierChars cs = true) (hc : c ∈ cs) :
    isIdentifierPart c = true ∨ c = '\n' := by
  cases cs with
  | nil => cases hc
  | cons d ds =>
    obtain ⟨hd, htail⟩ := Bool.and_eq_true_iff.1 h
    obtain rfl | hc := List.mem_cons.1 hc
    · exact .inl (isIdentifierPart_of_isIdentifierStart hd)
    · exact isIdentifierPart_or_newline_of_mem_tail htail hc

theorem isIdentifierTail_of_isIdentifierPart (h : ∀ c ∈ cs, isIdentifierPart c = true) :
    isIdentifierTail cs = true := by
  fun_induction isIdentifierTail cs with
  | case1 => rfl
  | case2 => rfl
  | case3 c cs hend ih =>
    rw [h c List.mem_cons_self, ih fun d hd => h d (List.mem_cons_of_mem c hd)]
    rfl

namespace IsStrictIdentifier

theorem ne_nil (h : IsStrictIdentifier cs) : cs ≠ [] := by
  obtain ⟨c, ds, rfl, -⟩ := h
  exact List.cons_ne_nil c ds

theorem exists_cons (h : IsStrictIdentifier cs) :
    ∃ c ds, cs = c :: ds ∧ isIdentifierStart c = true := by
  obtain ⟨c, ds, rfl, hc, -⟩ := h
  exact ⟨c, ds, rfl, hc⟩

theorem isIdentifierPart_of_mem (h : IsStrictIdentifier cs) (hc : c ∈ cs) :
    isIdentifierPart c = true := by
  obtain ⟨d, ds, rfl, hd, hds⟩ := h
  obtain rfl | hc := List.mem_cons.1 hc
  · exact isIdentifierPart_of_isIdentifierStart hd
  · exact hds c hc

/-- A strict identifier stays one when characters of identifiers are set behind it. -/
theorem append (h : IsStrictIdentifier cs) (hds : ∀ d ∈ ds, isIdentifierPart d = true) :
    IsStrictIdentifier (cs ++ ds) := by
  obtain ⟨c, es, rfl, hc, hes⟩ := h
  refine ⟨c, es ++ ds, rfl, hc, fun d hd => ?_⟩
  obtain hd | hd := List.mem_append.1 hd
  · exact hes d hd
  · exact hds d hd

/-- Strict identifiers pass for identifiers. -/
theorem isIdentifierChars (h : IsStrictIdentifier cs) : isIdentifierChars cs = true := by
  obtain ⟨c, ds, rfl, hc, hds⟩ := h
  rw [TypeScript.isIdentifierChars, hc, isIdentifierTail_of_isIdentifierPart hds]
  rfl

end IsStrictIdentifier

end

namespace Identifier

/-- A text that passes for an identifier is the text of one. -/
theorem ofText_eq_ok {text : String} (h : isIdentifier text = true) :
    ofText text = .ok { text, isIdentifier_text := h } :=
  dif_pos h

end Identifier

end SchemaEnums.TypeScript
