import SchemaEnums.Proofs.Layout.Reading

namespace SchemaEnums.Source.Lexeme

/-- The character goes on with no name and with no number. -/
structure IsBreak (c : Char) : Prop where
  namePart : isNamePart c = false
  dot : c ≠ '.'

/-- Some characters with the property, and at least one. -/
structure IsRun (p : Char → Bool) (cs : List Char) : Prop where
  ne_nil : cs ≠ []
  of_mem : ∀ c ∈ cs, p c = true

/-- An exponent: its mark, a sign if any, and digits. -/
inductive IsExponent : List Char → Prop
  | mk {m : Char} (sign : List Char) {ds : List Char} (hmark : m = 'e' ∨ m = 'E')
      (hsign : sign = [] ∨ sign = ['+'] ∨ sign = ['-']) (hds : IsRun Char.isDigit ds) :
      IsExponent (m :: (sign ++ ds))

/-- Nothing, or an exponent. -/
def IsTail (cs : List Char) : Prop :=
  cs = [] ∨ IsExponent cs

/-- An integer without a sign: digits, or a hexadecimal number with its mark. -/
inductive IsUnsigned : List Char → Prop
  | decimal {ds : List Char} (hds : IsRun Char.isDigit ds) : IsUnsigned ds
  | hexadecimal {m : Char} {ds : List Char} (hmark : m = 'x' ∨ m = 'X')
      (hds : IsRun isHexDigit ds) : IsUnsigned ('0' :: m :: ds)

/-- A float without a sign: digits before and behind a point, at least on one side, or else digits and
an exponent. -/
inductive IsUnsignedFloat : List Char → Prop
  | fraction {ds e : List Char} (hds : IsRun Char.isDigit ds) (he : IsTail e) :
      IsUnsignedFloat ('.' :: (ds ++ e))
  | point {ds fs e : List Char} (hds : IsRun Char.isDigit ds) (hfs : ∀ c ∈ fs, c.isDigit = true)
      (he : IsTail e) : IsUnsignedFloat (ds ++ '.' :: (fs ++ e))
  | whole {ds e : List Char} (hds : IsRun Char.isDigit ds) (he : IsExponent e) :
      IsUnsignedFloat (ds ++ e)

/-- A number of the shape, with a minus sign before it if any. -/
def IsSigned (shape : List Char → Prop) (cs : List Char) : Prop :=
  shape cs ∨ ∃ ds, cs = '-' :: ds ∧ shape ds

section

variable {p : Char → Bool} {c d : Char} {n cs : List Char} {l : List Char × List Char}

theorem isNamePart_of_isHexDigit (h : isHexDigit c = true) : isNamePart c = true := by
  unfold isNamePart Char.isAlphanum Char.isAlpha Char.isUpper Char.isLower
  simp only [isHexDigit, Bool.or_eq_true, Bool.and_eq_true, decide_eq_true_eq] at h ⊢
  rcases h with (h | h) | h
  · exact .inl (.inr h)
  · exact .inl (.inl (.inr ⟨h.1, Char.le_trans h.2 (by decide)⟩))
  · exact .inl (.inl (.inl ⟨h.1, Char.le_trans h.2 (by decide)⟩))

theorem IsBreak.isDigit (h : IsBreak c) : c.isDigit = false := by
  have hc := h.namePart
  simp only [isNamePart, Char.isAlphanum, Bool.or_eq_false_iff] at hc
  exact hc.1.2

theorem IsBreak.isHexDigit (h : IsBreak c) : Lexeme.isHexDigit c = false := by
  by_contra hhex
  have hpart := isNamePart_of_isHexDigit (by simpa using hhex)
  rw [h.namePart] at hpart
  cases hpart

theorem isRun_of_run? (h : run? p cs = some l) : IsRun p l.1 := by
  unfold run? at h
  split at h
  · cases h
  next hne =>
    cases h
    exact ⟨by simpa [run] using hne, fun c hc => List.mem_takeWhile_imp hc⟩

/-- A run ends before a character without the property. -/
theorem IsRun.run?_append (hn : IsRun p n) (hc : p c = false) (cs : List Char) :
    run? p (n ++ c :: cs) = some (n, c :: cs) := by
  obtain ⟨htake, hdrop⟩ := takeWhile_append_stop hn.of_mem hc cs
  have hne : ¬ n.isEmpty = true := by simpa using hn.ne_nil
  rw [run?, run, htake, hdrop, if_neg hne]

theorem IsRun.exists_cons (hn : IsRun p n) : ∃ d ds, n = d :: ds ∧ p d = true := by
  obtain ⟨d, ds, rfl⟩ := List.exists_cons_of_ne_nil hn.ne_nil
  exact ⟨d, ds, rfl, hn.of_mem d List.mem_cons_self⟩

theorem isExponent_of_exponent? (h : exponent? cs = some l) : IsExponent l.1 := by
  have hdigits {m : Char} {ds : List Char} (hmark : m = 'e' ∨ m = 'E')
      (h : (exponentDigits? ds).map (behind [m]) = some l) : IsExponent l.1 := by
    obtain ⟨l', hl', rfl⟩ := Option.map_eq_some_iff.1 h
    unfold exponentDigits? at hl'
    split at hl'
    · obtain ⟨l'', hl'', rfl⟩ := Option.map_eq_some_iff.1 hl'
      exact .mk ['+'] hmark (.inr (.inl rfl)) (isRun_of_run? hl'')
    · obtain ⟨l'', hl'', rfl⟩ := Option.map_eq_some_iff.1 hl'
      exact .mk ['-'] hmark (.inr (.inr rfl)) (isRun_of_run? hl'')
    · exact .mk [] hmark (.inl rfl) (isRun_of_run? hl')
  unfold exponent? at h
  split at h
  · exact hdigits (.inl rfl) h
  · exact hdigits (.inr rfl) h
  · cases h

/-- An exponent begins with its mark only. -/
theorem exponent?_eq_none (he : c ≠ 'e') (hE : c ≠ 'E') : exponent? (c :: cs) = none := by
  unfold exponent?
  split
  · exact absurd (List.cons.inj ‹_›).1 he
  · exact absurd (List.cons.inj ‹_›).1 hE
  · rfl

theorem IsBreak.exponent?_eq_none (hc : IsBreak c) : exponent? (c :: cs) = none := by
  have hpart := hc.namePart
  apply Lexeme.exponent?_eq_none
  · rintro rfl
    cases hpart
  · rintro rfl
    cases hpart

theorem IsExponent.exponent?_append (he : IsExponent n) (hc : IsBreak c) (cs : List Char) :
    exponent? (n ++ c :: cs) = some (n, c :: cs) := by
  cases he with
  | @mk m sign ds hmark hsign hds =>
    have hrun := hds.run?_append hc.isDigit cs
    have hdigits : exponentDigits? (sign ++ ds ++ c :: cs) = some (sign ++ ds, c :: cs) := by
      rcases hsign with rfl | rfl | rfl
      · obtain ⟨d, ds, rfl, hd⟩ := hds.exists_cons
        simp only [List.nil_append, List.cons_append] at hrun ⊢
        unfold exponentDigits?
        split
        next heq =>
          rw [(List.cons.inj heq).1] at hd
          cases hd
        next heq =>
          rw [(List.cons.inj heq).1] at hd
          cases hd
        next => exact hrun
      · simp [exponentDigits?, hrun, behind]
      · simp [exponentDigits?, hrun, behind]
    rcases hmark with rfl | rfl
    · rw [List.cons_append, exponent?, hdigits]
      rfl
    · rw [List.cons_append, exponent?, hdigits]
      rfl

/-- The first character of an exponent, or of what follows if there is none, is no digit. -/
theorem IsTail.exists_cons (he : IsTail n) (hc : IsBreak c) (cs : List Char) :
    ∃ d ds, n ++ c :: cs = d :: ds ∧ d.isDigit = false := by
  rcases he with rfl | ⟨_, hmark, -, -⟩
  · exact ⟨c, cs, rfl, hc.isDigit⟩
  · refine ⟨_, _, rfl, ?_⟩
    rcases hmark with rfl | rfl <;> decide

theorem IsTail.withExponent_append (he : IsTail n) (hc : IsBreak c) (front cs : List Char) :
    withExponent (front, n ++ c :: cs) = (front ++ n, c :: cs) := by
  unfold withExponent
  rcases he with rfl | he
  · simp [hc.exponent?_eq_none]
  · simp [he.exponent?_append hc, behind]

theorem exists_tail_of_withExponent (l : List Char × List Char) :
    ∃ e, IsTail e ∧ (withExponent l).1 = l.1 ++ e := by
  unfold withExponent
  split
  next e he => exact ⟨e.1, .inr (isExponent_of_exponent? he), rfl⟩
  next => exact ⟨[], .inl rfl, (List.append_nil _).symm⟩

theorem isUnsigned_of_unsigned? (h : unsigned? cs = some l) : IsUnsigned l.1 := by
  unfold unsigned? at h
  split at h
  next m r =>
    split at h
    next hmark =>
      rcases Option.or_eq_some_iff.1 h with h | ⟨-, h⟩
      · obtain ⟨l', hl', rfl⟩ := Option.map_eq_some_iff.1 h
        exact .hexadecimal hmark (isRun_of_run? hl')
      · exact .decimal (isRun_of_run? h)
    next => exact .decimal (isRun_of_run? h)
  next => exact .decimal (isRun_of_run? h)

theorem IsUnsigned.unsigned?_append (hn : IsUnsigned n) (hc : IsBreak c) (cs : List Char) :
    unsigned? (n ++ c :: cs) = some (n, c :: cs) := by
  cases hn with
  | decimal hds => exact Lexeme.unsigned?_append hds.ne_nil hds.of_mem hc.namePart cs
  | hexadecimal hmark hds =>
    have hrun := hds.run?_append hc.isHexDigit cs
    simp [unsigned?, hmark, hrun, behind]

/-- An integer begins with a digit. -/
theorem IsUnsigned.exists_cons (hn : IsUnsigned n) : ∃ d ds, n = d :: ds ∧ d.isDigit = true := by
  cases hn with
  | decimal hds => exact hds.exists_cons
  | hexadecimal => exact ⟨'0', _, rfl, rfl⟩

/-- Digits without a point behind them are the beginning of a float only if an exponent follows. -/
theorem IsRun.unsignedFloat?_append (hn : IsRun Char.isDigit n) (hd : d.isDigit = false)
    (hdot : d ≠ '.') (cs : List Char) :
    unsignedFloat? (n ++ d :: cs) = (exponent? (d :: cs)).map (behind n) := by
  unfold unsignedFloat?
  rw [hn.run?_append hd]
  split
  next heq => cases heq
  next digits rest heq =>
    cases heq
    split
    · exact absurd (List.cons.inj ‹_›).1 hdot
    · rfl

/-- An integer is not the beginning of a float. -/
theorem IsUnsigned.unsignedFloat?_append (hn : IsUnsigned n) (hc : IsBreak c) (cs : List Char) :
    unsignedFloat? (n ++ c :: cs) = none := by
  cases hn with
  | decimal hds =>
    rw [hds.unsignedFloat?_append hc.isDigit hc.dot, hc.exponent?_eq_none]
    rfl
  | @hexadecimal m ds hmark hds =>
    have hzero : IsRun Char.isDigit ['0'] := ⟨by simp, by simp⟩
    have hm : m.isDigit = false ∧ m ≠ '.' ∧ m ≠ 'e' ∧ m ≠ 'E' := by
      rcases hmark with rfl | rfl <;> decide
    refine (hzero.unsignedFloat?_append hm.1 hm.2.1 (ds ++ c :: cs)).trans ?_
    rw [Lexeme.exponent?_eq_none hm.2.2.1 hm.2.2.2]
    rfl

theorem isUnsignedFloat_of_unsignedFloat? (h : unsignedFloat? cs = some l) :
    IsUnsignedFloat l.1 := by
  unfold unsignedFloat? at h
  split at h
  next =>
    split at h
    next =>
      obtain ⟨l', hl', rfl⟩ := Option.map_eq_some_iff.1 h
      obtain ⟨e, he, heq⟩ := exists_tail_of_withExponent (behind ['.'] l')
      rw [heq]
      exact .fraction (isRun_of_run? hl') he
    next => cases h
  next digits rest hdigits =>
    have hds := isRun_of_run? hdigits
    split at h
    next r =>
      cases h
      obtain ⟨e, he, heq⟩ :=
        exists_tail_of_withExponent (behind (digits ++ ['.']) (run Char.isDigit r))
      rw [heq]
      have hpoint := IsUnsignedFloat.point hds
        (fun c hc => List.mem_takeWhile_imp (l := r) (p := Char.isDigit) hc) he
      simpa [behind, run] using hpoint
    next =>
      obtain ⟨l', hl', rfl⟩ := Option.map_eq_some_iff.1 h
      exact .whole hds (isExponent_of_exponent? hl')

theorem IsUnsignedFloat.unsignedFloat?_append (hn : IsUnsignedFloat n) (hc : IsBreak c)
    (cs : List Char) : unsignedFloat? (n ++ c :: cs) = some (n, c :: cs) := by
  cases hn with
  | @fraction ds e hds he =>
    obtain ⟨d, rest, hrest, hd⟩ := he.exists_cons hc cs
    have hrun := hds.run?_append hd rest
    have hwith := he.withExponent_append hc ('.' :: ds) cs
    rw [hrest] at hwith
    rw [List.cons_append, List.append_assoc, hrest, unsignedFloat?, run?_eq_none (by decide)]
    simp [hrun, behind, hwith]
  | @point ds fs e hds hfs he =>
    obtain ⟨d, rest, hrest, hd⟩ := he.exists_cons hc cs
    have hrun := hds.run?_append (c := '.') (by decide) (fs ++ d :: rest)
    obtain ⟨htake, hdrop⟩ := takeWhile_append_stop hfs hd rest
    have hwith := he.withExponent_append hc (ds ++ '.' :: fs) cs
    rw [hrest] at hwith
    rw [List.append_assoc, List.cons_append, List.append_assoc, hrest]
    unfold unsignedFloat?
    simp [hrun, run, htake, hdrop, behind, hwith]
  | @whole ds e hds he =>
    have hexponent := he.exponent?_append hc cs
    obtain ⟨d, rest, hrest, hd⟩ := IsTail.exists_cons (.inr he) hc cs
    have hdot : d ≠ '.' := by
      rintro rfl
      cases he with
      | mk _ hmark =>
        have hmark' := (List.cons.inj hrest).1
        rcases hmark with rfl | rfl <;> cases hmark'
    rw [hrest] at hexponent
    rw [List.append_assoc, hrest, hds.unsignedFloat?_append hd hdot, hexponent]
    rfl

/-- A float begins with a digit or with a point. -/
theorem IsUnsignedFloat.exists_cons (hn : IsUnsignedFloat n) :
    ∃ d ds, n = d :: ds ∧ (d.isDigit = true ∨ d = '.') := by
  cases hn with
  | fraction => exact ⟨'.', _, rfl, .inr rfl⟩
  | point hds =>
    obtain ⟨d, ds, rfl, hd⟩ := hds.exists_cons
    exact ⟨d, _, rfl, .inl hd⟩
  | whole hds =>
    obtain ⟨d, ds, rfl, hd⟩ := hds.exists_cons
    exact ⟨d, _, rfl, .inl hd⟩

theorem isSigned_of_signed? {read? : List Char → Option (List Char × List Char)}
    {shape : List Char → Prop} (hread : ∀ cs l, read? cs = some l → shape l.1)
    (h : signed? read? cs = some l) : IsSigned shape l.1 := by
  unfold signed? at h
  split at h
  · obtain ⟨l', hl', rfl⟩ := Option.map_eq_some_iff.1 h
    exact .inr ⟨l'.1, rfl, hread _ _ hl'⟩
  · exact .inl (hread _ _ h)

/-- What a reader makes of numbers without a sign, it makes of numbers with one. -/
theorem IsSigned.signed?_append {read? : List Char → Option (List Char × List Char)}
    {shape : List Char → Prop} {rest : List Char}
    (result : List Char → Option (List Char × List Char)) (hn : IsSigned shape n)
    (hminus : ∀ ds, shape ds → ∃ d es, ds = d :: es ∧ d ≠ '-')
    (hread : ∀ ds, shape ds → read? (ds ++ rest) = result ds)
    (hresult : ∀ ds, (result ds).map (behind ['-']) = result ('-' :: ds)) :
    signed? read? (n ++ rest) = result n := by
  rcases hn with hn | ⟨ds, rfl, hds⟩
  · obtain ⟨d, es, rfl, hd⟩ := hminus n hn
    rw [List.cons_append, signed?_of_ne hd]
    exact hread _ hn
  · rw [List.cons_append, signed?, hread ds hds]
    exact hresult ds

theorem IsUnsigned.exists_cons_ne_minus (hn : IsUnsigned n) : ∃ d ds, n = d :: ds ∧ d ≠ '-' := by
  obtain ⟨d, ds, rfl, hd⟩ := hn.exists_cons
  refine ⟨d, ds, rfl, ?_⟩
  rintro rfl
  cases hd

theorem IsUnsignedFloat.exists_cons_ne_minus (hn : IsUnsignedFloat n) :
    ∃ d ds, n = d :: ds ∧ d ≠ '-' := by
  obtain ⟨d, ds, rfl, hd⟩ := hn.exists_cons
  refine ⟨d, ds, rfl, ?_⟩
  rintro rfl
  rcases hd with hd | hd <;> cases hd

theorem isSigned_of_integer? (h : integer? cs = some l) : IsSigned IsUnsigned l.1 :=
  isSigned_of_signed? (fun _ _ => isUnsigned_of_unsigned?) h

theorem isSigned_of_float? (h : float? cs = some l) : IsSigned IsUnsignedFloat l.1 :=
  isSigned_of_signed? (fun _ _ => isUnsignedFloat_of_unsignedFloat?) h

/-- An integer is read as a whole where nothing goes on with it. -/
theorem IsSigned.integer?_append (hn : IsSigned IsUnsigned n) (hc : IsBreak c) (cs : List Char) :
    integer? (n ++ c :: cs) = some (n, c :: cs) :=
  IsSigned.signed?_append (fun ds => some (ds, c :: cs)) hn
    (fun _ => IsUnsigned.exists_cons_ne_minus) (fun _ hds => hds.unsigned?_append hc cs) fun _ => rfl

/-- An integer is not taken for a float where nothing goes on with it. -/
theorem IsSigned.float?_append_eq_none (hn : IsSigned IsUnsigned n) (hc : IsBreak c)
    (cs : List Char) : float? (n ++ c :: cs) = none :=
  IsSigned.signed?_append (fun _ => none) hn
    (fun _ => IsUnsigned.exists_cons_ne_minus) (fun _ hds => hds.unsignedFloat?_append hc cs)
    fun _ => rfl

/-- A float is read as a whole where nothing goes on with it. -/
theorem IsSigned.float?_append (hn : IsSigned IsUnsignedFloat n) (hc : IsBreak c)
    (cs : List Char) : float? (n ++ c :: cs) = some (n, c :: cs) :=
  IsSigned.signed?_append (fun ds => some (ds, c :: cs)) hn
    (fun _ => IsUnsignedFloat.exists_cons_ne_minus) (fun _ hds => hds.unsignedFloat?_append hc cs)
    fun _ => rfl

end

end SchemaEnums.Source.Lexeme
