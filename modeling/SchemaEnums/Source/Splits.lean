import SchemaEnums.Source.Lexeme

namespace SchemaEnums.Source.Lexeme

/-- The two parts make up the text, and the first one is not empty. -/
def Splits (cs : List Char) (l : List Char × List Char) : Prop :=
  l.1 ++ l.2 = cs ∧ l.1 ≠ []

theorem Splits.behind {cs : List Char} {l : List Char × List Char} (h : Splits cs l)
    (front : List Char) : Splits (front ++ cs) (Lexeme.behind front l) := by
  refine ⟨by simp [Lexeme.behind, h.1], ?_⟩
  intro hnil
  exact h.2 (List.append_eq_nil_iff.1 hnil).2

theorem append_run (p : Char → Bool) (cs : List Char) : (run p cs).1 ++ (run p cs).2 = cs :=
  List.takeWhile_append_dropWhile

theorem splits_run? {p : Char → Bool} {cs : List Char} {l : List Char × List Char}
    (h : run? p cs = some l) : Splits cs l := by
  unfold run? at h
  split at h
  · simp at h
  next hempty =>
    simp only [Option.some.injEq] at h
    subst h
    exact ⟨append_run p cs, by simpa [run] using hempty⟩

theorem splits_map_behind {cs front : List Char} {o : Option (List Char × List Char)}
    {l : List Char × List Char} (hsplits : ∀ l', o = some l' → Splits cs l')
    (h : o.map (behind front) = some l) : Splits (front ++ cs) l := by
  obtain ⟨l', hl', rfl⟩ := Option.map_eq_some_iff.1 h
  exact (hsplits l' hl').behind front

theorem splits_name? {cs : List Char} {l : List Char × List Char} (h : name? cs = some l) :
    Splits cs l := by
  cases cs with
  | nil => simp [name?] at h
  | cons c cs =>
    simp only [name?] at h
    split at h
    · simp only [Option.some.injEq] at h
      subst h
      exact ⟨by simp [behind, append_run], by simp [behind]⟩
    · simp at h

theorem splits_unsigned? {cs : List Char} {l : List Char × List Char} (h : unsigned? cs = some l) :
    Splits cs l := by
  unfold unsigned? at h
  split at h
  · split at h
    · rcases Option.or_eq_some_iff.1 h with h | ⟨-, h⟩
      · exact splits_map_behind (fun _ => splits_run?) h
      · exact splits_run? h
    · exact splits_run? h
  · exact splits_run? h

theorem splits_signed? {read? : List Char → Option (List Char × List Char)}
    (hread : ∀ cs l, read? cs = some l → Splits cs l) {cs : List Char} {l : List Char × List Char}
    (h : signed? read? cs = some l) : Splits cs l := by
  unfold signed? at h
  split at h
  · exact splits_map_behind (hread _) h
  · exact hread _ _ h

theorem splits_integer? {cs : List Char} {l : List Char × List Char} (h : integer? cs = some l) :
    Splits cs l :=
  splits_signed? (fun _ _ => splits_unsigned?) h

theorem splits_exponentDigits? {cs : List Char} {l : List Char × List Char}
    (h : exponentDigits? cs = some l) : Splits cs l := by
  unfold exponentDigits? at h
  split at h
  · exact splits_map_behind (fun _ => splits_run?) h
  · exact splits_map_behind (fun _ => splits_run?) h
  · exact splits_run? h

theorem splits_exponent? {cs : List Char} {l : List Char × List Char} (h : exponent? cs = some l) :
    Splits cs l := by
  unfold exponent? at h
  split at h
  · exact splits_map_behind (fun _ => splits_exponentDigits?) h
  · exact splits_map_behind (fun _ => splits_exponentDigits?) h
  · simp at h

theorem Splits.withExponent {cs : List Char} {l : List Char × List Char} (h : Splits cs l) :
    Splits cs (Lexeme.withExponent l) := by
  unfold Lexeme.withExponent
  split
  next e he =>
    have hsplit := splits_exponent? he
    refine ⟨by simp [Lexeme.behind, hsplit.1, h.1], ?_⟩
    simp [Lexeme.behind, h.2]
  next => exact h

theorem splits_unsignedFloat? {cs : List Char} {l : List Char × List Char}
    (h : unsignedFloat? cs = some l) : Splits cs l := by
  unfold unsignedFloat? at h
  split at h
  · split at h
    · obtain ⟨l', hl', rfl⟩ := Option.map_eq_some_iff.1 h
      exact ((splits_run? hl').behind ['.']).withExponent
    · simp at h
  next digits rest hdigits =>
    have hsplit := splits_run? hdigits
    split at h
    next r =>
      simp only [Option.some.injEq] at h
      subst h
      refine Splits.withExponent ⟨?_, by simp [behind]⟩
      rw [← hsplit.1]
      simp [behind, append_run]
    next =>
      have := splits_map_behind (fun _ => splits_exponent?) h
      rwa [hsplit.1] at this

theorem splits_float? {cs : List Char} {l : List Char × List Char} (h : float? cs = some l) :
    Splits cs l :=
  splits_signed? (fun _ _ => splits_unsignedFloat?) h

theorem splits_closeString? {quote : Char} {cs : List Char} {l : List Char × List Char}
    (h : closeString? quote cs = some l) : Splits cs l := by
  fun_induction closeString? quote cs generalizing l with
  | case1 => simp at h
  | case2 => simp at h
  | case3 => simp at h
  | case4 c cs _ ih => exact splits_map_behind (fun _ => ih) h
  | case5 cs _ =>
    simp only [Option.some.injEq] at h
    subst h
    exact ⟨rfl, by simp⟩
  | case6 => simp at h
  | case7 => rename_i ih; exact splits_map_behind (fun _ => ih) h

theorem splits_string? {cs : List Char} {l : List Char × List Char} (h : string? cs = some l) :
    Splits cs l := by
  unfold string? at h
  split at h
  · exact splits_map_behind (fun _ => splits_closeString?) h
  · exact splits_map_behind (fun _ => splits_closeString?) h
  · simp at h

theorem splits_word? {word : String} (hword : word.toList ≠ []) {cs : List Char}
    {l : List Char × List Char} (h : word? word cs = some l) : Splits cs l := by
  rw [word?] at h
  split at h <;> cases h
  next hprefix =>
    exact ⟨(List.prefix_iff_eq_append.1 (List.isPrefixOf_iff_prefix.1 hprefix)), hword⟩

end SchemaEnums.Source.Lexeme
