import SchemaEnums.Text.Blank
import SchemaEnums.Text.DigitTable
import SchemaEnums.Text.Quoted

namespace SchemaEnums.Numeral

/-- Digits that write no number of the base. -/
structure BadDigits where
  base : Nat
  digits : String
deriving DecidableEq, Repr

/-- The complaint about the digits shows at most this many characters of them, quotes included. -/
def BadDigits.shownLength : Nat := 200

def BadDigits.message (e : BadDigits) : String :=
  s!"invalid literal for int() with base {e.base}: " ++
    String.ofList ((Text.quoteChars e.digits.toList).take BadDigits.shownLength)

/-- Writes a digit of any script as an ASCII digit and a blank outside ASCII as a space. No number
holds any other character outside ASCII. -/
def toAscii (c : Char) : Char :=
  if c.toNat < 0x80 then c
  else if Text.isBlank c then ' '
  else match Text.DigitTable.zeros.find? fun z => z ≤ c.toNat && c.toNat < z + 10 with
    | some z => Nat.digitChar (c.toNat - z)
    | none => '?'

/-- Holds of the blanks that may stand around a number. -/
def isPadding (c : Char) : Bool :=
  c == ' ' || (0x09 ≤ c.toNat && c.toNat ≤ 0x0D)

def trim (cs : List Char) : List Char :=
  ((cs.dropWhile isPadding).reverse.dropWhile isPadding).reverse

def digitValue? (c : Char) : Option Nat :=
  if '0' ≤ c ∧ c ≤ '9' then some (c.toNat - '0'.toNat)
  else if 'a' ≤ c ∧ c ≤ 'z' then some (c.toNat - 'a'.toNat + 10)
  else if 'A' ≤ c ∧ c ≤ 'Z' then some (c.toNat - 'A'.toNat + 10)
  else none

/-- Reads digits of the base after a number with value `n`. Between two digits one underscore may
stand; `ready` says whether a digit was the last character. -/
def readDigits? (base n : Nat) (ready : Bool) : List Char → Option Nat
  | [] => if ready then some n else none
  | c :: cs =>
    if c = '_' then
      if ready then readDigits? base n false cs else none
    else match digitValue? c with
      | some d => if d < base then readDigits? base (n * base + d) true cs else none
      | none => none

/-- Cuts off the mark of the base, and one underscore after it. -/
def dropMark (base : Nat) (cs : List Char) : List Char :=
  match cs with
  | '0' :: m :: r =>
    if (base = 16 ∧ (m = 'x' ∨ m = 'X')) ∨ (base = 8 ∧ (m = 'o' ∨ m = 'O')) then
      match r with
      | '_' :: r => r
      | r => r
    else cs
  | cs => cs

def readUnsigned? (base : Nat) (cs : List Char) : Option Nat :=
  readDigits? base 0 false (dropMark base cs)

def readSigned? (base : Nat) : List Char → Option Int
  | '-' :: cs => (readUnsigned? base cs).map fun n => -(n : Int)
  | '+' :: cs => (readUnsigned? base cs).map fun n => (n : Int)
  | cs => (readUnsigned? base cs).map fun n => (n : Int)

def read (base : Nat) (cs : List Char) : Except BadDigits Int :=
  match readSigned? base (trim (cs.map toAscii)) with
  | some n => .ok n
  | none => .error { base, digits := String.ofList cs }

/-- The value of the digits, in the notation that their beginning tells: `0x` stands before
hexadecimal digits, a `0` before octal ones. -/
def ofDigits : List Char → Except BadDigits Int
  | '0' :: 'x' :: cs => read 16 cs
  | '0' :: 'X' :: cs => read 16 cs
  | '0' :: c :: cs => read 8 (c :: cs)
  | cs => read 10 cs

/-- The value of a literal: its digits, negated after a minus sign. -/
def ofChars : List Char → Except BadDigits Int
  | '-' :: cs => (ofDigits cs).map fun n => -n
  | cs => ofDigits cs

def parse (text : String) : Except BadDigits Int :=
  ofChars text.toList

end SchemaEnums.Numeral
