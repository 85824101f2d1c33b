import SchemaEnums.Proofs.Numeral
import SchemaEnums.Proofs.Source.Integers

namespace SchemaEnums.Numeral

open Source.Lexeme

/-- Holds of the octal digits. -/
def isOctalDigit (c : Char) : Bool :=
  '0' ≤ c && c ≤ '7'

/-- The number that a literal without a sign denotes: a hexadecimal one after its mark, an octal one
after a zero, and a decimal one where no further digit follows a zero in front. -/
inductive DenotesNat : List Char → Nat → Prop where
  | hexadecimal {m : Char} {ds : List Char} (hmark : m = 'x' ∨ m = 'X')
    (hds : IsRun isHexDigit ds) : DenotesNat ('0' :: m :: ds) (valueIn 16 ds)
  | octal {ds : List Char} (hds : IsRun isOctalDigit ds) : DenotesNat ('0' :: ds) (valueIn 8 ds)
  | decimal {ds : List Char} (hds : IsRun Char.isDigit ds)
    (hzero : ds.head? = some '0' → ds = ['0']) : DenotesNat ds (valueIn 10 ds)

/-- The integer that a literal denotes. -/
inductive Denotes : List Char → Int → Prop where
  | plain {cs : List Char} {n : Nat} (h : DenotesNat cs n) : Denotes cs n
  | negated {cs : List Char} {n : Nat} (h : DenotesNat cs n) : Denotes ('-' :: cs) (-n)

/-- The literal is a zero with digits behind it that are not all octal, and a minus sign if any. -/
def IsBadOctal (cs ds : List Char) : Prop :=
  (cs = '0' :: ds ∨ cs = '-' :: '0' :: ds) ∧ IsRun Char.isDigit ds ∧ ('8' ∈ ds ∨ '9' ∈ ds)

/-- The complaint about octal digits. -/
def badOctal (ds : List Char) : BadDigits where
  base := 8
  digits := String.ofList ds

section

variable {c : Char} {cs ds : List Char} {n : Nat} {k : Int}

theorem isDigit_of_isOctalDigit (h : isOctalDigit c = true) : c.isDigit = true := by
  simp only [isOctalDigit, Char.isDigit, Bool.and_eq_true, decide_eq_true_eq, ge_iff_le] at h ⊢
  exact ⟨h.1, Char.le_trans h.2 (by decide)⟩

theorem digit_lt_eight (h : isOctalDigit c = true) : digit c < 8 := by
  have hcode := toNat_of_isDigit (isDigit_of_isOctalDigit h)
  exact ascii_forall (P := fun c => isOctalDigit c = true → digit c < 8)
    (by decide +kernel) (by omega) h

/-- The digits below eight are the octal ones. -/
theorem isOctalDigit_of_lt (h : c.isDigit = true) (hlt : digit c < 8) : isOctalDigit c = true := by
  have hcode := toNat_of_isDigit h
  exact ascii_forall (P := fun c => c.isDigit = true → digit c < 8 → isOctalDigit c = true)
    (by decide +kernel) (by omega) h hlt

theorem eq_of_not_isOctalDigit (h : c.isDigit = true) (hoctal : ¬ isOctalDigit c = true) :
    c = '8' ∨ c = '9' := by
  have hcode := toNat_of_isDigit h
  exact ascii_forall (P := fun c => c.isDigit = true → ¬ isOctalDigit c = true → c = '8' ∨ c = '9')
    (by decide +kernel) (by omega) h hoctal

theorem ofDigits_hexadecimal {m : Char} (hmark : m = 'x' ∨ m = 'X') (ds : List Char) :
    ofDigits ('0' :: m :: ds) = read 16 ds := by
  obtain rfl | rfl := hmark <;> rfl

theorem ofDigits_octal (hds : IsRun Char.isDigit ds) : ofDigits ('0' :: ds) = read 8 ds := by
  obtain ⟨d, ds, rfl, hd⟩ := hds.exists_cons
  rw [ofDigits]
  · rintro rfl
    cases hd
  · rintro rfl
    cases hd

theorem ofDigits_decimal (hzero : ds.head? = some '0' → ds = ['0']) :
    ofDigits ds = read 10 ds := by
  unfold ofDigits
  split
  · cases hzero rfl
  · cases hzero rfl
  · cases hzero rfl
  · rfl

/-- A literal without a sign has the value that it denotes. -/
theorem ofDigits_of_denotesNat (h : DenotesNat cs n) : ofDigits cs = .ok (n : Int) := by
  cases h with
  | hexadecimal hmark hds =>
    rw [ofDigits_hexadecimal hmark]
    exact read_of_lt hds.ne_nil hds.of_mem fun c hc => digit_lt_sixteen (hds.of_mem c hc)
  | octal hds =>
    have hdigit (c : Char) (hc : c ∈ _) : c.isDigit = true :=
      isDigit_of_isOctalDigit (hds.of_mem c hc)
    rw [ofDigits_octal ⟨hds.ne_nil, hdigit⟩]
    exact read_of_lt hds.ne_nil (fun c hc => isHexDigit_of_isDigit (hdigit c hc))
      fun c hc => digit_lt_eight (hds.of_mem c hc)
  | decimal hds hzero =>
    rw [ofDigits_decimal hzero]
    exact read_of_lt hds.ne_nil (fun c hc => isHexDigit_of_isDigit (hds.of_mem c hc))
      fun c hc => digit_lt_ten (hds.of_mem c hc)

theorem ofDigits_badOctal (hds : IsRun Char.isDigit ds) (hbad : '8' ∈ ds ∨ '9' ∈ ds) :
    ofDigits ('0' :: ds) = .error (badOctal ds) := by
  rw [ofDigits_octal hds]
  refine read_of_le (fun c hc => isHexDigit_of_isDigit (hds.of_mem c hc)) ?_
  obtain h | h := hbad
  · exact ⟨'8', h, by decide⟩
  · exact ⟨'9', h, by decide⟩

theorem DenotesNat.exists_cons (h : DenotesNat cs n) : ∃ d ds, cs = d :: ds ∧ d ≠ '-' := by
  cases h with
  | hexadecimal => exact ⟨'0', _, rfl, by decide⟩
  | octal => exact ⟨'0', _, rfl, by decide⟩
  | decimal hds =>
    obtain ⟨d, ds, rfl, hd⟩ := hds.exists_cons
    refine ⟨d, ds, rfl, ?_⟩
    rintro rfl
    cases hd

theorem ofChars_of_ne (hc : c ≠ '-') (cs : List Char) : ofChars (c :: cs) = ofDigits (c :: cs) := by
  rw [ofChars]
  rintro ds heq
  exact hc (List.cons.inj heq).1

/-- A literal has the value that it denotes. -/
theorem ofChars_of_denotes (h : Denotes cs k) : ofChars cs = .ok k := by
  cases h with
  | plain h =>
    have hvalue := ofDigits_of_denotesNat h
    obtain ⟨d, ds, rfl, hd⟩ := h.exists_cons
    rw [ofChars_of_ne hd]
    exact hvalue
  | negated h =>
    rw [ofChars, ofDigits_of_denotesNat h]
    rfl

/-- An octal literal with an eight or a nine has no value. -/
theorem ofChars_of_isBadOctal (h : IsBadOctal cs ds) : ofChars cs = .error (badOctal ds) := by
  obtain ⟨rfl | rfl, hds, hbad⟩ := h
  · rw [ofChars_of_ne (by decide)]
    exact ofDigits_badOctal hds hbad
  · rw [ofChars, ofDigits_badOctal hds hbad]
    rfl

theorem isUnsigned_cases (h : IsUnsigned cs) :
    (∃ n, DenotesNat cs n) ∨
      ∃ ds, cs = '0' :: ds ∧ IsRun Char.isDigit ds ∧ ('8' ∈ ds ∨ '9' ∈ ds) := by
  cases h with
  | hexadecimal hmark hds => exact .inl ⟨_, .hexadecimal hmark hds⟩
  | decimal hds =>
    obtain ⟨d, es, rfl, hd⟩ := hds.exists_cons
    by_cases hzero : (d :: es).head? = some '0' → d :: es = ['0']
    · exact .inl ⟨_, .decimal hds hzero⟩
    · -- Further digits follow a zero.
      obtain ⟨hhead, hne⟩ := Classical.not_imp.1 hzero
      obtain rfl : d = '0' := Option.some.inj hhead
      have hrun : IsRun Char.isDigit es :=
        ⟨fun hnil => hne (by rw [hnil]), fun c hc => hds.of_mem c (List.mem_cons_of_mem _ hc)⟩
      by_cases hoctal : ∀ c ∈ es, isOctalDigit c = true
      · exact .inl ⟨_, .octal ⟨hrun.ne_nil, hoctal⟩⟩
      · obtain ⟨c, hc, hbad⟩ : ∃ c ∈ es, ¬ isOctalDigit c = true := by simpa using hoctal
        refine .inr ⟨es, rfl, hrun, ?_⟩
        obtain rfl | rfl := eq_of_not_isOctalDigit (hrun.of_mem c hc) hbad
        · exact .inl hc
        · exact .inr hc

/-- Every literal denotes an integer or is a bad octal one. -/
theorem denotes_or_isBadOctal (h : IsInteger cs) :
    (∃ k, Denotes cs k) ∨ ∃ ds, IsBadOctal cs ds := by
  obtain h | ⟨es, rfl, h⟩ := h
  · obtain ⟨n, hn⟩ | ⟨ds, rfl, hds⟩ := isUnsigned_cases h
    · exact .inl ⟨n, .plain hn⟩
    · exact .inr ⟨ds, .inl rfl, hds⟩
  · obtain ⟨n, hn⟩ | ⟨ds, rfl, hds⟩ := isUnsigned_cases h
    · exact .inl ⟨-n, .negated hn⟩
    · exact .inr ⟨ds, .inr rfl, hds⟩

theorem ofChars_eq_ok_iff (h : IsInteger cs) : ofChars cs = .ok k ↔ Denotes cs k := by
  refine ⟨fun hok => ?_, ofChars_of_denotes⟩
  obtain ⟨k', hk'⟩ | ⟨ds, hds⟩ := denotes_or_isBadOctal h
  · rw [ofChars_of_denotes hk'] at hok
    cases hok
    exact hk'
  · rw [ofChars_of_isBadOctal hds] at hok
    cases hok

theorem ofChars_eq_error_iff {e : BadDigits} (h : IsInteger cs) :
    ofChars cs = .error e ↔ ∃ ds, IsBadOctal cs ds ∧ e = badOctal ds := by
  constructor
  · intro herror
    obtain ⟨k, hk⟩ | ⟨ds, hds⟩ := denotes_or_isBadOctal h
    · rw [ofChars_of_denotes hk] at herror
      cases herror
    · rw [ofChars_of_isBadOctal hds] at herror
      cases herror
      exact ⟨ds, hds, rfl⟩
  · rintro ⟨ds, hds, rfl⟩
    exact ofChars_of_isBadOctal hds

end

/-- The ways to write an integer. -/
inductive Radix where
  | decimal
  | octal
  | hexadecimal (capitalMark capitalDigits : Bool)
deriving DecidableEq, Repr

namespace Radix

/-- How a number is written. A zero is a mark of octal digits. -/
def natChars : Radix → Nat → List Char
  | decimal, n => Nat.toDigits 10 n
  | octal, n => '0' :: Nat.toDigits 8 n
  | hexadecimal capitalMark capitalDigits, n =>
    '0' :: (if capitalMark then 'X' else 'x') ::
      (Nat.toDigits 16 n).map (if capitalDigits then Char.toUpper else id)

/-- How an integer is written: a number, with a minus sign before it if it is negative. -/
def chars (r : Radix) : Int → List Char
  | .ofNat n => r.natChars n
  | .negSucc n => '-' :: r.natChars (n + 1)

/-- How an integer is written. -/
def write (r : Radix) (k : Int) : String :=
  String.ofList (r.chars k)

/-- Capitals are the same digits. -/
theorem isHexDigit_toUpper {c : Char} (h : isHexDigit c = true) :
    isHexDigit c.toUpper = true ∧ digit c.toUpper = digit c := by
  have hcode := toNat_of_isHexDigit h
  exact ascii_forall (P := fun c => isHexDigit c = true →
    isHexDigit c.toUpper = true ∧ digit c.toUpper = digit c) (by decide +kernel) (by omega) h

theorem valueIn_map {f : Char → Char} {cs : List Char} (base : Nat)
    (h : ∀ c ∈ cs, digit (f c) = digit c) : valueIn base (cs.map f) = valueIn base cs := by
  induction cs with
  | nil => rfl
  | cons c cs ih =>
    rw [List.map_cons, valueIn, valueIn, List.length_map, h c List.mem_cons_self,
      ih fun d hd => h d (List.mem_cons_of_mem c hd)]

theorem isRun_toDigits_octal (n : Nat) : IsRun isOctalDigit (Nat.toDigits 8 n) := by
  refine ⟨Nat.toDigits_ne_nil, fun c hc => ?_⟩
  obtain ⟨-, hlt⟩ := isHexDigit_of_mem_toDigits (by decide) (by decide) hc
  exact isOctalDigit_of_lt (Nat.isDigit_of_mem_toDigits (by decide) (by decide) hc) hlt

/-- Hexadecimal digits, in capitals or not, write the number. -/
theorem toDigits_map {f : Char → Char}
    (hf : ∀ c, isHexDigit c = true → isHexDigit (f c) = true ∧ digit (f c) = digit c) (n : Nat) :
    IsRun isHexDigit ((Nat.toDigits 16 n).map f) ∧ valueIn 16 ((Nat.toDigits 16 n).map f) = n := by
  have hdigits (c : Char) (hc : c ∈ Nat.toDigits 16 n) : isHexDigit c = true :=
    (isHexDigit_of_mem_toDigits (by decide) (by decide) hc).1
  refine ⟨⟨by simp, fun c hc => ?_⟩, ?_⟩
  · obtain ⟨d, hd, rfl⟩ := List.mem_map.1 hc
    exact (hf d (hdigits d hd)).1
  · rw [valueIn_map 16 fun c hc => (hf c (hdigits c hc)).2,
      valueIn_toDigits (by decide) (by decide)]

/-- What is written for a number denotes the number. -/
theorem denotesNat_natChars (r : Radix) (n : Nat) : DenotesNat (r.natChars n) n := by
  cases r with
  | decimal =>
    have hdigits : IsRun Char.isDigit (Nat.toDigits 10 n) :=
      ⟨Nat.toDigits_ne_nil, fun c hc => Nat.isDigit_of_mem_toDigits (by decide) (by decide) hc⟩
    have hzero : (Nat.toDigits 10 n).head? = some '0' → Nat.toDigits 10 n = ['0'] := by
      intro hhead
      obtain rfl | hn := Nat.eq_zero_or_pos n
      · rfl
      · exact absurd hhead (head?_toDigits hn)
    have hdenotes := DenotesNat.decimal hdigits hzero
    rw [valueIn_toDigits (by decide) (by decide)] at hdenotes
    exact hdenotes
  | octal =>
    have hdenotes := DenotesNat.octal (isRun_toDigits_octal n)
    rw [valueIn_toDigits (by decide) (by decide)] at hdenotes
    exact hdenotes
  | hexadecimal capitalMark capitalDigits =>
    have hmark : (if capitalMark then 'X' else 'x') = 'x' ∨
        (if capitalMark then 'X' else 'x') = 'X' := by
      cases capitalMark
      · exact .inl rfl
      · exact .inr rfl
    obtain ⟨hrun, hvalue⟩ := toDigits_map (n := n)
      (f := if capitalDigits then Char.toUpper else id) fun c hc => by
        cases capitalDigits
        · exact ⟨hc, rfl⟩
        · exact isHexDigit_toUpper hc
    have hdenotes := DenotesNat.hexadecimal hmark hrun
    rw [hvalue] at hdenotes
    exact hdenotes

/-- What is written for an integer denotes the integer. -/
theorem denotes_chars (r : Radix) (k : Int) : Denotes (r.chars k) k := by
  cases k with
  | ofNat n => exact .plain (r.denotesNat_natChars n)
  | negSucc n => exact .negated (r.denotesNat_natChars (n + 1))

/-- An integer that is written in any way is read as the integer. -/
theorem parse_write (r : Radix) (k : Int) : parse (r.write k) = .ok k := by
  rw [parse, write, String.toList_ofList]
  exact ofChars_of_denotes (r.denotes_chars k)

end Radix

end SchemaEnums.Numeral
