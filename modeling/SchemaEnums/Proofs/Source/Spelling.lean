import SchemaEnums.Proofs.Numeral
import SchemaEnums.Proofs.Source.Firm
import SchemaEnums.Source.Context

namespace SchemaEnums.Source

/-- A letter or underscore with letters, digits and underscores behind it. -/
def Lexeme.IsName (cs : List Char) : Prop :=
  ∃ c ds, cs = c :: ds ∧ isNameStart c = true ∧ ∀ d ∈ ds, isNamePart d = true

/-- A text between two quotes of one kind. -/
def Lexeme.IsQuoted (cs : List Char) : Prop :=
  ∃ quote inner, (quote = '"' ∨ quote = '\'') ∧ cs = quote :: (inner ++ [quote])

namespace Lexeme

theorem isName_cons {c : Char} {ds : List Char} (hc : isNameStart c = true)
    (hds : ds.all isNamePart = true) : IsName (c :: ds) :=
  ⟨c, ds, rfl, hc, List.all_eq_true.1 hds⟩

theorem isNamePart_of_isNameStart {c : Char} (h : isNameStart c = true) : isNamePart c = true := by
  simp only [isNameStart, isNamePart, Char.isAlphanum, Bool.or_eq_true] at h ⊢
  rcases h with h | h
  · exact .inl (.inl h)
  · exact .inr h

theorem IsName.isNamePart_of_mem {cs : List Char} {c : Char} (h : IsName cs) (hc : c ∈ cs) :
    isNamePart c = true := by
  obtain ⟨d, ds, rfl, hd, hds⟩ := h
  rcases List.mem_cons.1 hc with rfl | hc
  · exact isNamePart_of_isNameStart hd
  · exact hds c hc

theorem isName_of_name? {cs : List Char} {l : List Char × List Char} (h : name? cs = some l) :
    IsName l.1 := by
  cases cs with
  | nil => simp [name?] at h
  | cons c cs =>
    simp only [name?] at h
    split at h
    next hc =>
      simp only [Option.some.injEq] at h
      subst h
      exact ⟨c, cs.takeWhile isNamePart, rfl, hc, fun d hd => List.mem_takeWhile_imp hd⟩
    next => simp at h

theorem toNat_of_isUpper {c : Char} (h : c.isUpper = true) : 65 ≤ c.toNat ∧ c.toNat ≤ 90 := by
  unfold Char.isUpper at h
  simp only [decide_eq_true_eq, UInt32.le_iff_toNat_le, ge_iff_le] at h
  exact h

theorem toNat_of_isLower {c : Char} (h : c.isLower = true) : 97 ≤ c.toNat ∧ c.toNat ≤ 122 := by
  unfold Char.isLower at h
  simp only [Bool.and_eq_true, decide_eq_true_eq, UInt32.le_iff_toNat_le, ge_iff_le] at h
  exact h

theorem toNat_of_isAlpha {c : Char} (h : c.isAlpha = true) :
    65 ≤ c.toNat ∧ c.toNat ≤ 90 ∨ 97 ≤ c.toNat ∧ c.toNat ≤ 122 := by
  obtain h | h := Bool.or_eq_true_iff.1 h
  · exact .inl (toNat_of_isUpper h)
  · exact .inr (toNat_of_isLower h)

/-- The code points of letters and underscores. -/
theorem toNat_of_isNameStart {c : Char} (h : isNameStart c = true) :
    65 ≤ c.toNat ∧ c.toNat ≤ 90 ∨ c.toNat = 95 ∨ 97 ≤ c.toNat ∧ c.toNat ≤ 122 := by
  simp only [isNameStart, Bool.or_eq_true, beq_iff_eq] at h
  rcases h with h | rfl
  · have hletter := toNat_of_isAlpha h
    omega
  · decide

/-- The code points of letters, digits and underscores. -/
theorem toNat_of_isNamePart {c : Char} (h : isNamePart c = true) :
    48 ≤ c.toNat ∧ c.toNat ≤ 57 ∨ 65 ≤ c.toNat ∧ c.toNat ≤ 90 ∨ c.toNat = 95 ∨
      97 ≤ c.toNat ∧ c.toNat ≤ 122 := by
  simp only [isNamePart, Char.isAlphanum, Bool.or_eq_true, beq_iff_eq] at h
  rcases h with (h | h) | rfl
  · have hletter := toNat_of_isAlpha h
    omega
  · exact .inl (Numeral.toNat_of_isDigit h)
  · decide

/-- Letters, digits and underscores are no blanks. -/
theorem isBlank_of_isNamePart {c : Char} (h : isNamePart c = true) : Text.isBlank c = false := by
  have hcode := toNat_of_isNamePart h
  simp only [Text.isBlank, Bool.or_eq_false_iff, Bool.and_eq_false_iff, decide_eq_false_iff_not,
    beq_eq_false_iff_ne]
  omega

section

variable {c : Char} {cs : List Char} {l : List Char × List Char}

/-- No number begins with the character. -/
structure NoNumber (c : Char) : Prop where
  digit : c.isDigit = false
  minus : c ≠ '-'
  dot : c ≠ '.'

theorem run?_eq_none {p : Char → Bool} (hc : p c = false) : run? p (c :: cs) = none := by
  simp [run?, List.takeWhile_cons_of_neg, hc]

theorem signed?_of_ne {read? : List Char → Option (List Char × List Char)} (hc : c ≠ '-') :
    signed? read? (c :: cs) = read? (c :: cs) := by
  unfold signed?
  split
  · exact absurd (List.cons.inj ‹_›).1 hc
  · rfl

theorem float?_eq_none (hc : NoNumber c) : float? (c :: cs) = none := by
  rw [float?, signed?_of_ne hc.minus]
  unfold unsignedFloat?
  rw [run?_eq_none hc.digit]
  split
  · split
    · exact absurd (List.cons.inj ‹_›).1 hc.dot
    · rfl
  · cases ‹none = some _›

theorem noNumber_of_isNameStart (hc : isNameStart c = true) : NoNumber c := by
  refine ⟨?_, ?_, ?_⟩
  · have hdigit := toNat_of_isNameStart hc
    cases hc' : c.isDigit with
    | false => rfl
    | true =>
      have := Numeral.toNat_of_isDigit hc'
      omega
  · rintro rfl
    cases hc
  · rintro rfl
    cases hc

/-- No float is a name. -/
theorem not_isName_of_float? (h : float? cs = some l) : ¬ IsName l.1 := by
  rintro ⟨c, ds, hl, hc, -⟩
  have hcs := (splits_float? h).1
  rw [hl] at hcs
  rw [← hcs, List.cons_append, float?_eq_none (noNumber_of_isNameStart hc)] at h
  cases h

theorem exists_of_closeString? {quote : Char} (h : closeString? quote cs = some l) :
    ∃ inner, l.1 = inner ++ [quote] := by
  fun_induction closeString? quote cs generalizing l with
  | case1 => cases h
  | case2 => cases h
  | case3 => cases h
  | case4 c cs _ ih =>
    obtain ⟨l', hl', rfl⟩ := Option.map_eq_some_iff.1 h
    obtain ⟨inner, hinner⟩ := ih hl'
    exact ⟨'\\' :: c :: inner, by rw [behind, hinner]; rfl⟩
  | case5 =>
    cases h
    exact ⟨[], rfl⟩
  | case6 => cases h
  | case7 c cs _ _ _ _ ih =>
    obtain ⟨l', hl', rfl⟩ := Option.map_eq_some_iff.1 h
    obtain ⟨inner, hinner⟩ := ih hl'
    exact ⟨c :: inner, by rw [behind, hinner]; rfl⟩

theorem isQuoted_of_string? (h : string? cs = some l) : IsQuoted l.1 := by
  unfold string? at h
  split at h
  · obtain ⟨l', hl', rfl⟩ := Option.map_eq_some_iff.1 h
    obtain ⟨inner, hinner⟩ := exists_of_closeString? hl'
    exact ⟨'"', inner, .inl rfl, by rw [behind, hinner]; rfl⟩
  · obtain ⟨l', hl', rfl⟩ := Option.map_eq_some_iff.1 h
    obtain ⟨inner, hinner⟩ := exists_of_closeString? hl'
    exact ⟨'\'', inner, .inr rfl, by rw [behind, hinner]; rfl⟩
  · cases h

end

theorem word?_eq_none_iff {word : String} {cs : List Char} :
    word? word cs = none ↔ ¬ word.toList <+: cs := by
  rw [word?, ← List.isPrefixOf_iff_prefix]
  split <;> simp_all

theorem eq_word_of_word? {word : String} {cs : List Char} {r : List Char × List Char}
    (h : word? word cs = some r) : r.1 = word.toList := by
  rw [word?] at h
  split at h <;> cases h
  rfl

end Lexeme

/-- Every keyword could be a name. -/
theorem Keyword.isName_word (k : Keyword) : Lexeme.IsName k.word.toList := by
  cases k <;> exact Lexeme.isName_cons rfl rfl

theorem Keyword.word_injective {k k' : Keyword} (h : k.word = k'.word) : k = k' := by
  cases k <;> cases k' <;> first | rfl | exact absurd h (by decide)

/-- How a lexeme of the class is spelled, as far as that is needed: words, marks and strings, and
that floats are not spelled like names. -/
def Kind.Spells : Kind → List Char → Prop
  | name, cs => Lexeme.IsName cs
  | keyword k, cs => cs = k.word.toList
  | semicolon, cs => cs = [';']
  | closeBrace, cs => cs = ['\x7d']
  | float, cs => ¬ Lexeme.IsName cs
  | string, cs => Lexeme.IsQuoted cs
  | _, _ => True

namespace Context

theorem spells_wordKind {keywords : List Keyword} {word : List Char} (h : Lexeme.IsName word) :
    (wordKind keywords word).Spells word := by
  unfold wordKind
  split
  next k hk => simpa [Kind.Spells, eq_comm] using List.find?_some hk
  next => exact h

/-- A keyword that is looked for is read as such. -/
theorem wordKind_word {keywords : List Keyword} {k : Keyword} (hk : k ∈ keywords) :
    wordKind keywords k.word.toList = .keyword k := by
  unfold wordKind
  cases hfound : keywords.find? fun k' => k'.word.toList = k.word.toList with
  | none =>
    have := List.find?_eq_none.1 hfound k hk
    simp at this
  | some k' =>
    have hword : k'.word.toList = k.word.toList := by simpa using List.find?_some hfound
    rw [Keyword.word_injective (String.toList_inj.1 hword)]

theorem spells_readMark? {dot : Bool} {cs : List Char} {l : Lexeme}
    (h : readMark? dot cs = some l) : l.kind.Spells l.text := by
  cases cs with
  | nil => simp [readMark?] at h
  | cons c cs =>
    simp only [readMark?] at h
    split at h
    · split at h
      · simp only [Option.some.injEq] at h
        subst h
        trivial
      · simp at h
    · obtain ⟨kind, hkind, rfl⟩ := Option.map_eq_some_iff.1 h
      unfold Lexeme.mark? at hkind
      split at hkind <;> simp_all [Kind.Spells]
      all_goals subst hkind; trivial

/-- What is read as a lexeme of a class is spelled like one. -/
theorem spells_of_read? {x : Context} {cs : List Char} {l : Lexeme} (h : x.read? cs = some l) :
    l.kind.Spells l.text := by
  simp only [read?, Option.or_eq_some_iff] at h
  rcases h with ((((h | ⟨-, h⟩) | ⟨-, h⟩) | ⟨-, h⟩) | ⟨-, h⟩) | ⟨-, h⟩
  · split at h
    · obtain ⟨l', hl', rfl⟩ := Option.map_eq_some_iff.1 h
      exact Lexeme.not_isName_of_float? hl'
    · simp at h
  · split at h
    · obtain ⟨l', hl', rfl⟩ := Option.map_eq_some_iff.1 h
      exact spells_wordKind (Lexeme.isName_of_name? hl')
    · obtain ⟨k, -, hk⟩ := List.exists_of_findSome?_eq_some h
      obtain ⟨l', hl', rfl⟩ := Option.map_eq_some_iff.1 hk
      exact Lexeme.eq_word_of_word? hl'
  · split at h
    · obtain ⟨l', -, rfl⟩ := Option.map_eq_some_iff.1 h
      trivial
    · simp at h
  · split at h
    · obtain ⟨l', -, rfl⟩ := Option.map_eq_some_iff.1 h
      trivial
    · simp at h
  · obtain ⟨l', hl', rfl⟩ := Option.map_eq_some_iff.1 h
    exact Lexeme.isQuoted_of_string? hl'
  · exact spells_readMark? h

end Context

/-- The classes whose lexemes hold no blank: words, and the marks that end items. -/
def Kind.IsSolid : Kind → Prop
  | name => True
  | keyword _ => True
  | semicolon => True
  | closeBrace => True
  | _ => False

theorem Kind.isBlank_of_spells {kind : Kind} {cs : List Char} (hsolid : kind.IsSolid)
    (h : kind.Spells cs) : ∀ c ∈ cs, Text.isBlank c = false := by
  cases kind with
  | name => exact fun c hc => Lexeme.isBlank_of_isNamePart (h.isNamePart_of_mem hc)
  | keyword k =>
    rw [show cs = k.word.toList from h]
    exact fun c hc => Lexeme.isBlank_of_isNamePart (k.isName_word.isNamePart_of_mem hc)
  | semicolon =>
    rw [show cs = [';'] from h]
    exact List.forall_mem_singleton.2 rfl
  | closeBrace =>
    rw [show cs = ['\x7d'] from h]
    exact List.forall_mem_singleton.2 rfl
  | _ => exact hsolid.elim

/-- A lexeme without blanks is firm where it stands. -/
theorem Kind.firm_of_spells {kind : Kind} {before cs after : List Char} (hsolid : kind.IsSolid)
    (h : kind.Spells cs) (hne : cs ≠ []) :
    Span.Firm { start := Position.advance {} before
                stop := (Position.advance {} before).advance cs } (before ++ cs ++ after) := by
  have hblank := kind.isBlank_of_spells hsolid h
  obtain ⟨c, ds, rfl⟩ := List.exists_cons_of_ne_nil hne
  obtain ⟨front, d, hlast⟩ : ∃ front d, c :: ds = front ++ [d] :=
    ⟨_, _, (List.dropLast_concat_getLast (List.cons_ne_nil c ds)).symm⟩
  rw [hlast] at hblank ⊢
  exact Span.firm_of_append (by rw [← hlast]; rfl)
    (hblank c (by rw [← hlast]; simp)) (hblank d (by simp)) (by simp)

end SchemaEnums.Source
