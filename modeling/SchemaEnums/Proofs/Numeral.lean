import Mathlib.Algebra.Group.Nat.Defs
import SchemaEnums.Numeral
import SchemaEnums.Source.Lexeme

namespace SchemaEnums.Numeral

open Source.Lexeme (isHexDigit)

section

variable {c : Char} {cs : List Char} {n : Nat}

/-- What holds of the ASCII characters one by one holds of every such character. -/
theorem ascii_forall {P : Char → Prop} (h : ∀ k < 128, P (Char.ofNat k)) (hc : c.toNat < 128) :
    P c := by
  have hlookup := h c.toNat hc
  rw [Char.ofNat_toNat] at hlookup
  exact hlookup

/-- The code points of the decimal digits. -/
theorem toNat_of_isDigit (h : c.isDigit = true) : 48 ≤ c.toNat ∧ c.toNat ≤ 57 := by
  have hval : c.toNat = c.val.toNat := rfl
  simp only [Char.isDigit, Bool.and_eq_true, decide_eq_true_eq, ge_iff_le,
    UInt32.le_iff_toNat_le] at h
  rw [hval]
  exact h

/-- The code points of the hexadecimal digits. -/
theorem toNat_of_isHexDigit (h : isHexDigit c = true) :
    (48 ≤ c.toNat ∧ c.toNat ≤ 57) ∨ (97 ≤ c.toNat ∧ c.toNat ≤ 102) ∨
      (65 ≤ c.toNat ∧ c.toNat ≤ 70) := by
  simp only [isHexDigit, Bool.or_eq_true, Bool.and_eq_true, decide_eq_true_eq, Char.le_def,
    UInt32.le_iff_toNat_le] at h
  obtain (h | h) | h := h
  · exact .inl (toNat_of_isDigit h)
  · exact .inr (.inl h)
  · exact .inr (.inr h)

theorem isHexDigit_of_isDigit (h : c.isDigit = true) : isHexDigit c = true := by
  rw [isHexDigit, h]
  rfl

theorem not_isPadding_of_isHexDigit (h : isHexDigit c = true) : ¬ isPadding c = true := by
  have hcode := toNat_of_isHexDigit h
  have hne : c ≠ ' ' := by
    rintro rfl
    cases h
  simp only [isPadding, Bool.or_eq_true, beq_iff_eq, hne, Bool.and_eq_true, decide_eq_true_eq,
    false_or]
  omega

theorem trim_of_isHexDigit (hcs : ∀ c ∈ cs, isHexDigit c = true) : trim cs = cs := by
  have hpadding (ds : List Char) (hds : ∀ d ∈ ds, isHexDigit d = true) :
      ds.dropWhile isPadding = ds := by
    cases ds with
    | nil => rfl
    | cons d ds =>
      rw [List.dropWhile_cons_of_neg]
      exact not_isPadding_of_isHexDigit (hds d List.mem_cons_self)
  rw [trim, hpadding cs hcs, hpadding cs.reverse (by simpa using hcs), List.reverse_reverse]

/-- The mark of a base is no digit. -/
theorem dropMark_of_isHexDigit (base : Nat) (hcs : ∀ c ∈ cs, isHexDigit c = true) :
    dropMark base cs = cs := by
  unfold dropMark
  split
  next m r =>
    have hm : isHexDigit m = true := hcs m (by simp)
    rw [if_neg]
    rintro (⟨-, rfl | rfl⟩ | ⟨-, rfl | rfl⟩) <;> cases hm
  next => rfl

/-- Digits are read as they stand: no blank, no sign and no mark is among them. -/
theorem read_of_isHexDigit (base : Nat) (hcs : ∀ c ∈ cs, isHexDigit c = true) :
    read base cs =
      match readDigits? base 0 false cs with
      | some n => .ok (n : Int)
      | none => .error { base, digits := String.ofList cs } := by
  have hascii : cs.map toAscii = cs := by
    refine List.map_congr_left (g := id) (fun c hc => ?_) |>.trans (List.map_id cs)
    have hcode := toNat_of_isHexDigit (hcs c hc)
    rw [toAscii, if_pos (by omega), id]
  have hsigned : readSigned? base cs = (readUnsigned? base cs).map fun n => (n : Int) := by
    unfold readSigned?
    split
    next => cases hcs _ List.mem_cons_self
    next => cases hcs _ List.mem_cons_self
    next => rfl
  rw [read, hascii, trim_of_isHexDigit hcs, hsigned, readUnsigned?,
    dropMark_of_isHexDigit base hcs]
  cases readDigits? base 0 false cs <;> rfl

/-- The value of a digit, in either case. -/
def digit (c : Char) : Nat :=
  "0123456789abcdef".toList.idxOf c.toLower

/-- The number that digits write: each of them counts the power of the base that its place gives. -/
def valueIn (base : Nat) : List Char → Nat
  | [] => 0
  | c :: cs => digit c * base ^ cs.length + valueIn base cs

theorem digitValue?_of_isHexDigit (h : isHexDigit c = true) : digitValue? c = some (digit c) := by
  have hcode := toNat_of_isHexDigit h
  exact ascii_forall (P := fun c => isHexDigit c = true → digitValue? c = some (digit c))
    (by decide +kernel) (by omega) h

theorem digit_lt_sixteen (h : isHexDigit c = true) : digit c < 16 := by
  have hcode := toNat_of_isHexDigit h
  exact ascii_forall (P := fun c => isHexDigit c = true → digit c < 16)
    (by decide +kernel) (by omega) h

theorem digit_lt_ten (h : c.isDigit = true) : digit c < 10 := by
  have hcode := toNat_of_isDigit h
  exact ascii_forall (P := fun c => c.isDigit = true → digit c < 10)
    (by decide +kernel) (by omega) h

theorem readDigits?_cons {base : Nat} {ready : Bool} (hc : isHexDigit c = true) :
    readDigits? base n ready (c :: cs) =
      if digit c < base then readDigits? base (n * base + digit c) true cs else none := by
  have hne : c ≠ '_' := by
    rintro rfl
    cases hc
  rw [readDigits?, if_neg hne, digitValue?_of_isHexDigit hc]

/-- Digits are read after a number as the lower places of it. -/
theorem readDigits?_of_lt {base : Nat} (hcs : ∀ c ∈ cs, isHexDigit c = true)
    (hlt : ∀ c ∈ cs, digit c < base) :
    readDigits? base n true cs = some (n * base ^ cs.length + valueIn base cs) := by
  induction cs generalizing n with
  | nil => simp [readDigits?, valueIn]
  | cons c cs ih =>
    rw [readDigits?_cons (hcs c List.mem_cons_self), if_pos (hlt c List.mem_cons_self),
      ih (fun d hd => hcs d (List.mem_cons_of_mem c hd))
        (fun d hd => hlt d (List.mem_cons_of_mem c hd)),
      valueIn, List.length_cons, Nat.pow_succ', Nat.add_mul, Nat.mul_assoc, Nat.add_assoc]

/-- A digit that the base lacks stops the reading. -/
theorem readDigits?_eq_none {base : Nat} {ready : Bool} (hcs : ∀ c ∈ cs, isHexDigit c = true)
    (hle : ∃ c ∈ cs, base ≤ digit c) : readDigits? base n ready cs = none := by
  induction cs generalizing n ready with
  | nil =>
    obtain ⟨c, hc, -⟩ := hle
    cases hc
  | cons c cs ih =>
    rw [readDigits?_cons (hcs c List.mem_cons_self)]
    split
    next hlt =>
      refine ih (fun d hd => hcs d (List.mem_cons_of_mem c hd)) ?_
      obtain ⟨d, hd, hbase⟩ := hle
      obtain rfl | hd := List.mem_cons.1 hd
      · omega
      · exact ⟨d, hd, hbase⟩
    next => rfl

/-- Digits of the base are read as the number that they write. -/
theorem read_of_lt {base : Nat} (hne : cs ≠ []) (hcs : ∀ c ∈ cs, isHexDigit c = true)
    (hlt : ∀ c ∈ cs, digit c < base) : read base cs = .ok (valueIn base cs) := by
  have hready : readDigits? base 0 false cs = readDigits? base 0 true cs := by
    obtain ⟨c, ds, rfl⟩ := List.exists_cons_of_ne_nil hne
    rw [readDigits?_cons (hcs c List.mem_cons_self), readDigits?_cons (hcs c List.mem_cons_self)]
  rw [read_of_isHexDigit base hcs, hready, readDigits?_of_lt hcs hlt, Nat.zero_mul, Nat.zero_add]

/-- Digits are not read if the base lacks one of them. -/
theorem read_of_le {base : Nat} (hcs : ∀ c ∈ cs, isHexDigit c = true)
    (hle : ∃ c ∈ cs, base ≤ digit c) :
    read base cs = .error { base, digits := String.ofList cs } := by
  rw [read_of_isHexDigit base hcs, readDigits?_eq_none hcs hle]

theorem valueIn_concat (base : Nat) (cs : List Char) (c : Char) :
    valueIn base (cs ++ [c]) = base * valueIn base cs + digit c := by
  induction cs with
  | nil => simp [valueIn]
  | cons d cs ih =>
    rw [List.cons_append, valueIn, valueIn, ih, List.length_append, List.length_singleton,
      Nat.pow_succ', Nat.mul_add, Nat.add_assoc, Nat.mul_left_comm]

theorem digitChar_spec {d : Nat} (hd : d < 16) :
    isHexDigit (Nat.digitChar d) = true ∧ digit (Nat.digitChar d) = d := by
  revert d
  decide

/-- The digits of a number in a base up to sixteen. -/
theorem isHexDigit_of_mem_toDigits {base : Nat} (hbase : 1 < base) (hle : base ≤ 16)
    (hc : c ∈ Nat.toDigits base n) : isHexDigit c = true ∧ digit c < base := by
  induction n using Nat.strongRecOn with
  | ind n ih =>
    rw [Nat.toDigits_eq_if hbase] at hc
    split at hc
    next hlt =>
      obtain ⟨hhex, hdigit⟩ := digitChar_spec (Nat.lt_of_lt_of_le hlt hle)
      rw [List.mem_singleton.1 hc, hdigit]
      exact ⟨hhex, hlt⟩
    next hge =>
      obtain hc | hc := List.mem_append.1 hc
      · exact ih (n / base) (Nat.div_lt_self (by omega) hbase) hc
      · have hmod : n % base < base := Nat.mod_lt n (by omega)
        obtain ⟨hhex, hdigit⟩ := digitChar_spec (Nat.lt_of_lt_of_le hmod hle)
        rw [List.mem_singleton.1 hc, hdigit]
        exact ⟨hhex, hmod⟩

/-- The digits of a number write it. -/
theorem valueIn_toDigits {base : Nat} (hbase : 1 < base) (hle : base ≤ 16) (n : Nat) :
    valueIn base (Nat.toDigits base n) = n := by
  induction n using Nat.strongRecOn with
  | ind n ih =>
    rw [Nat.toDigits_eq_if hbase]
    split
    next hlt => simp [valueIn, (digitChar_spec (Nat.lt_of_lt_of_le hlt hle)).2]
    next hge =>
      have hmod : n % base < base := Nat.mod_lt n (by omega)
      rw [valueIn_concat, ih (n / base) (Nat.div_lt_self (by omega) hbase),
        (digitChar_spec (Nat.lt_of_lt_of_le hmod hle)).2, Nat.div_add_mod]

/-- The digits of a number in a base up to sixteen are read as the number. -/
theorem read_toDigits {base : Nat} (hbase : 1 < base) (hle : base ≤ 16) (n : Nat) :
    read base (Nat.toDigits base n) = .ok (n : Int) := by
  rw [read_of_lt Nat.toDigits_ne_nil (fun _ hc => (isHexDigit_of_mem_toDigits hbase hle hc).1)
    (fun _ hc => (isHexDigit_of_mem_toDigits hbase hle hc).2), valueIn_toDigits hbase hle]

/-- A positive number begins with no zero. -/
theorem head?_toDigits (hn : 0 < n) : (Nat.toDigits 10 n).head? ≠ some '0' := by
  induction n using Nat.strongRecOn with
  | ind n ih =>
    rw [Nat.toDigits_eq_if (by decide)]
    split
    · simp only [List.head?_cons, ne_eq, Option.some.injEq, Nat.digitChar_eq_zero]
      omega
    · have hhead := ih (n / 10) (by omega) (by omega)
      cases hdigits : Nat.toDigits 10 (n / 10) with
      | nil => exact absurd hdigits Nat.toDigits_ne_nil
      | cons d ds =>
        rw [hdigits] at hhead
        exact hhead

theorem ofDigits_toDigits (n : Nat) : ofDigits (Nat.toDigits 10 n) = .ok (n : Int) := by
  have hread : read 10 (Nat.toDigits 10 n) = .ok (n : Int) :=
    read_toDigits (by decide) (by decide) n
  rcases Nat.eq_zero_or_pos n with rfl | hn
  · exact hread
  · -- Without a zero in front the notation is decimal.
    have hhead := head?_toDigits hn
    unfold ofDigits
    split
    · simp [‹Nat.toDigits 10 n = _›] at hhead
    · simp [‹Nat.toDigits 10 n = _›] at hhead
    · simp [‹Nat.toDigits 10 n = _›] at hhead
    · exact hread

/-- An integer is written with digits and a minus sign. -/
theorem isDigit_or_eq_of_mem_toString {k : Int} (h : c ∈ (toString k).toList) :
    c.isDigit = true ∨ c = '-' := by
  rw [Int.toString_eq_repr, Int.repr_eq_if] at h
  split at h
  · rw [Nat.toList_repr] at h
    exact .inl (Nat.isDigit_of_mem_toDigits (by decide) (by decide) h)
  · rw [String.toList_append, Nat.toList_repr] at h
    rcases List.mem_append.1 h with h | h
    · exact .inr (List.mem_singleton.1 h)
    · exact .inl (Nat.isDigit_of_mem_toDigits (by decide) (by decide) h)

theorem toString_ne_nil (k : Int) : (toString k).toList ≠ [] := by
  rw [Int.toString_eq_repr, Int.repr_eq_if]
  split
  · rw [Nat.toList_repr]
    exact Nat.toDigits_ne_nil
  · simp

/-- What is written for an integer is read as the integer. -/
theorem parse_toString (n : Int) : parse (toString n) = .ok n := by
  rw [Int.toString_eq_repr, Int.repr_eq_if, parse]
  split
  next h =>
    obtain ⟨m, rfl⟩ := Int.eq_ofNat_of_zero_le h
    have hdigits := ofDigits_toDigits m
    rw [Int.toNat_natCast, Nat.toList_repr, ofChars]
    · exact hdigits
    · intro cs hcs
      have hmem : '-' ∈ Nat.toDigits 10 m := by simp [hcs]
      cases Nat.isDigit_of_mem_toDigits (by decide) (by decide) hmem
  next h =>
    have hdigits := ofDigits_toDigits (-n).toNat
    rw [String.toList_append, Nat.toList_repr, show "-".toList = ['-'] from rfl,
      List.singleton_append, ofChars, hdigits]
    have hneg : -(((-n).toNat : Int)) = n := by omega
    simp only [Except.map, hneg]

end

end SchemaEnums.Numeral
