import SchemaEnums.Text.Literal

namespace SchemaEnums.Output

open Text

/-- The UTF-16 units of a character. -/
def utf16 (c : Char) : List Nat :=
  let n := c.toNat
  if n < 0x10000 then [n] else [0xD800 + (n - 0x10000) / 0x400, 0xDC00 + (n - 0x10000) % 0x400]

/-- Holds of the units that stand first in a pair. -/
def isHigh (u : Nat) : Bool :=
  0xD800 ≤ u && u < 0xDC00

/-- Holds of the units that stand second in a pair. -/
def isLow (u : Nat) : Bool :=
  0xDC00 ≤ u && u < 0xE000

/-- The text with the UTF-16 units. -/
def ofUtf16? : List Nat → Option (List Char)
  | [] => some []
  | u :: us =>
    if isHigh u then
      match us with
      | v :: vs =>
        if isLow v then
          (ofUtf16? vs).map fun cs => Char.ofNat (0x10000 + (u - 0xD800) * 0x400 + (v - 0xDC00)) :: cs
        else none
      | [] => none
    else if isLow u then none
    else (ofUtf16? us).map fun cs => Char.ofNat u :: cs

/-- The value of a hexadecimal digit. -/
def hexValue? (c : Char) : Option Nat :=
  if c.isDigit then some (c.toNat - '0'.toNat)
  else if 'a' ≤ c ∧ c ≤ 'f' then some (c.toNat - 'a'.toNat + 10)
  else if 'A' ≤ c ∧ c ≤ 'F' then some (c.toNat - 'A'.toNat + 10)
  else none

/-- The unit that four hexadecimal digits write. -/
def unit? (a b c d : Char) : Option Nat := do
  return (((← hexValue? a) * 16 + (← hexValue? b)) * 16 + (← hexValue? c)) * 16 + (← hexValue? d)

/-- The character that an escape of one character stands for. -/
def shortEscape? : Char → Option Char
  | '"' => some '"'
  | '\\' => some '\\'
  | '/' => some '/'
  | 'b' => some '\x08'
  | 'f' => some '\x0c'
  | 'n' => some '\n'
  | 'r' => some '\r'
  | 't' => some '\t'
  | _ => none

/-- The UTF-16 units that stand between the quotes of a literal. -/
def units? : List Char → Option (List Nat)
  | [] => some []
  | ['\\'] => none
  | '\\' :: 'u' :: a :: b :: c :: d :: cs => do return (← unit? a b c d) :: (← units? cs)
  | '\\' :: e :: cs => do return utf16 (← shortEscape? e) ++ (← units? cs)
  | c :: cs => (units? cs).map fun us => utf16 c ++ us

/-- The text that a literal denotes, from what stands between its quotes. -/
def unescape? (cs : List Char) : Option (List Char) :=
  (units? cs).bind ofUtf16?

/-- How a character is written inside a literal: as it is, by a short escape, or by its units. -/
theorem literalChar_cases (c : Char) :
    (literalChar c = [c] ∧ c ≠ '"' ∧ c ≠ '\\') ∨
      (∃ e, literalChar c = ['\\', e] ∧ shortEscape? e = some c ∧ e ≠ '/') ∨
      literalChar c = unitEscapes c := by
  by_cases hquote : c = '"'
  · exact .inr (.inl ⟨'"', by rw [hquote]; decide⟩)
  by_cases hbackslash : c = '\\'
  · exact .inr (.inl ⟨'\\', by rw [hbackslash]; decide⟩)
  by_cases hfeed : c = '\n'
  · exact .inr (.inl ⟨'n', by rw [hfeed]; decide⟩)
  by_cases hreturn : c = '\r'
  · exact .inr (.inl ⟨'r', by rw [hreturn]; decide⟩)
  by_cases htab : c = '\t'
  · exact .inr (.inl ⟨'t', by rw [htab]; decide⟩)
  by_cases hback : c = '\x08'
  · exact .inr (.inl ⟨'b', by rw [hback]; decide⟩)
  by_cases hform : c = '\x0c'
  · exact .inr (.inl ⟨'f', by rw [hform]; decide⟩)
  have hno : ¬ ((c = '"' || c = '\\') = true) := by simp [hquote, hbackslash]
  rw [literalChar, if_neg hno, if_neg hfeed, if_neg hreturn, if_neg htab, if_neg hback, if_neg hform]
  split
  · exact .inl ⟨rfl, hquote, hbackslash⟩
  · exact .inr (.inr rfl)

theorem hexValue?_digitChar : ∀ d < 16, hexValue? (Nat.digitChar d) = some d := by
  decide

theorem digitChar_ne : ∀ d < 16, Nat.digitChar d ≠ '/' ∧ Nat.digitChar d ≠ '"' ∧
    Nat.digitChar d ≠ '\\' := by
  decide

section

variable {n : Nat} {c : Char} {cs : List Char} {us : List Nat}

/-- A character is written by the escapes of its units. -/
theorem unitEscapes_eq (c : Char) : unitEscapes c = (utf16 c).flatMap unitEscape := by
  unfold unitEscapes utf16
  by_cases hn : c.toNat < 0x10000
  · simp only [if_pos hn, List.flatMap_singleton]
  · simp only [if_neg hn, List.flatMap_cons, List.flatMap_nil, List.append_nil]

/-- Units have sixteen bits. -/
theorem lt_of_mem_utf16 (h : n ∈ utf16 c) : n < 0x10000 := by
  have hvalid : c.toNat < 0xD800 ∨ 0xDFFF < c.toNat ∧ c.toNat < 0x110000 := c.valid
  unfold utf16 at h
  by_cases hn : c.toNat < 0x10000
  · rw [if_pos hn, List.mem_singleton] at h
    omega
  · rw [if_neg hn, List.mem_cons, List.mem_singleton] at h
    omega

/-- The escape of a unit has four digits. -/
theorem unitEscape_eq (n : Nat) : unitEscape n = ['\\', 'u', Nat.digitChar (n / 0x1000 % 16),
    Nat.digitChar (n / 0x100 % 16), Nat.digitChar (n / 0x10 % 16), Nat.digitChar (n % 16)] := by
  simp only [unitEscape, hex, Nat.div_div_eq_div_mul]
  rfl

theorem units?_unitEscape (hn : n < 0x10000) (cs : List Char) :
    units? (unitEscape n ++ cs) = (units? cs).map fun us => n :: us := by
  have hunit : unit? (Nat.digitChar (n / 0x1000 % 16)) (Nat.digitChar (n / 0x100 % 16))
      (Nat.digitChar (n / 0x10 % 16)) (Nat.digitChar (n % 16)) = some n := by
    rw [unit?, hexValue?_digitChar _ (by omega), hexValue?_digitChar _ (by omega),
      hexValue?_digitChar _ (by omega), hexValue?_digitChar _ (by omega)]
    show some _ = some n
    congr 1
    omega
  rw [unitEscape_eq]
  simp only [List.cons_append, List.nil_append, units?, hunit]
  cases units? cs <;> rfl

theorem units?_flatMap_unitEscape (hus : ∀ u ∈ us, u < 0x10000) (cs : List Char) :
    units? (us.flatMap unitEscape ++ cs) = (units? cs).map fun vs => us ++ vs := by
  induction us with
  | nil => simp
  | cons u us ih =>
    have hrest := ih fun v hv => hus v (List.mem_cons_of_mem u hv)
    rw [List.flatMap_cons, List.append_assoc, units?_unitEscape (hus u List.mem_cons_self), hrest,
      Option.map_map]
    rfl

theorem units?_shortEscape {e : Char} (he : shortEscape? e = some c) (cs : List Char) :
    units? ('\\' :: e :: cs) = (units? cs).map fun us => utf16 c ++ us := by
  have hne : e ≠ 'u' := by
    rintro rfl
    cases he
  rw [units?]
  · rw [he]
    cases units? cs <;> rfl
  · rintro _ _ _ _ _ rfl
    exact absurd rfl hne

theorem units?_plain (hc : c ≠ '\\') (cs : List Char) :
    units? (c :: cs) = (units? cs).map fun us => utf16 c ++ us := by
  rw [units?]
  all_goals simp [hc]

/-- What is written for a character is read as its units. -/
theorem units?_literalChar (c : Char) (cs : List Char) :
    units? (literalChar c ++ cs) = (units? cs).map fun us => utf16 c ++ us := by
  rcases literalChar_cases c with ⟨h, -, hne⟩ | ⟨e, h, he, -⟩ | h
  · rw [h]
    exact units?_plain hne cs
  · rw [h]
    exact units?_shortEscape he cs
  · rw [h, unitEscapes_eq]
    exact units?_flatMap_unitEscape (fun _ hu => lt_of_mem_utf16 hu) cs

/-- The units of a character are read as the character. -/
theorem ofUtf16?_utf16 (c : Char) (us : List Nat) :
    ofUtf16? (utf16 c ++ us) = (ofUtf16? us).map fun cs => c :: cs := by
  have hvalid : c.toNat < 0xD800 ∨ 0xDFFF < c.toNat ∧ c.toNat < 0x110000 := c.valid
  by_cases hn : c.toNat < 0x10000
  · have hunits : utf16 c = [c.toNat] := if_pos hn
    have hhigh : isHigh c.toNat = false := by
      simp only [isHigh, Bool.and_eq_false_iff, decide_eq_false_iff_not]
      omega
    have hlow : isLow c.toNat = false := by
      simp only [isLow, Bool.and_eq_false_iff, decide_eq_false_iff_not]
      omega
    rw [hunits, List.singleton_append, ofUtf16?.eq_def]
    simp only [hhigh, hlow, Bool.false_eq_true, if_false, Char.ofNat_toNat]
  · have hunits : utf16 c = [0xD800 + (c.toNat - 0x10000) / 0x400,
      0xDC00 + (c.toNat - 0x10000) % 0x400] := if_neg hn
    have hhigh : isHigh (0xD800 + (c.toNat - 0x10000) / 0x400) = true := by
      simp only [isHigh, Bool.and_eq_true, decide_eq_true_eq]
      omega
    have hlow : isLow (0xDC00 + (c.toNat - 0x10000) % 0x400) = true := by
      simp only [isLow, Bool.and_eq_true, decide_eq_true_eq]
      omega
    have hchar : 0x10000 + (0xD800 + (c.toNat - 0x10000) / 0x400 - 0xD800) * 0x400 +
        (0xDC00 + (c.toNat - 0x10000) % 0x400 - 0xDC00) = c.toNat := by
      omega
    rw [hunits, List.cons_append, List.singleton_append, ofUtf16?, hhigh]
    simp only [if_true, hlow, hchar, Char.ofNat_toNat]

theorem units?_flatMap (cs : List Char) :
    units? (cs.flatMap literalChar) = some (cs.flatMap utf16) := by
  induction cs with
  | nil => rfl
  | cons c cs ih =>
    rw [List.flatMap_cons, units?_literalChar, ih]
    rfl

/-- What is written between the quotes of the literal for a text is read as the text. -/
theorem unescape?_literalChar (cs : List Char) : unescape? (cs.flatMap literalChar) = some cs := by
  rw [unescape?, units?_flatMap, Option.bind_some]
  induction cs with
  | nil => rfl
  | cons c cs ih =>
    rw [List.flatMap_cons, ofUtf16?_utf16, ih]
    rfl

end

end SchemaEnums.Output
