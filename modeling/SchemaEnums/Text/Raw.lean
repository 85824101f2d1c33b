import SchemaEnums.Text.Quoted
import SchemaEnums.Text.Utf8

namespace SchemaEnums

/-- A character of a text from outside, where a surrogate may stand alone. The surrogates from
U+DC80 to U+DCFF stand for the bytes of names that are not UTF-8. -/
inductive RawChar where
  | char (c : Char)
  | surrogate (n : Fin 0x800)
deriving DecidableEq, Repr

/-- A text from outside: a word of the command line, a setting, a path. -/
abbrev RawText := List RawChar

namespace RawChar

def char? : RawChar → Option Char
  | char c => some c
  | surrogate _ => none

def isChar (c : RawChar) : Bool :=
  c.char?.isSome

def surrogateEscape (n : Fin 0x800) : List Char :=
  '\\' :: 'u' :: Text.hex 4 (0xD800 + n)

/-- What stands for a character where only text can stand. -/
def escaped : RawChar → List Char
  | char c => [c]
  | surrogate n => surrogateEscape n

/-- What stands for a character between the given quotes. -/
def quote (quote : Char) : RawChar → List Char
  | char c => Text.quoteChar quote c
  | surrogate n => surrogateEscape n

/-- The byte of a name that a surrogate stands for. -/
def strayByte? (n : Fin 0x800) : Option UInt8 :=
  if 0x480 ≤ n.val ∧ n.val < 0x500 then some (UInt8.ofNat (n.val - 0x400)) else none

end RawChar

/-- A run of surrogates that have no bytes, from the position `start` up to `stop`. -/
structure Unencodable where
  first : Fin 0x800
  start : Nat
  stop : Nat
deriving DecidableEq, Repr

def Unencodable.message (u : Unencodable) : String :=
  let characters :=
    if u.stop = u.start + 1 then
      let first := String.ofList (RawChar.surrogateEscape u.first)
      s!"character '{first}' in position {u.start}"
    else s!"characters in position {u.start}-{u.stop - 1}"
  s!"'utf-8' codec can't encode {characters}: surrogates not allowed"

namespace RawText

def ofString (s : String) : RawText :=
  s.toList.map .char

instance : Coe String RawText := ⟨ofString⟩

def concat (parts : List RawText) : RawText :=
  parts.flatten

def isText (t : RawText) : Bool :=
  t.all RawChar.isChar

/-- The text, if there are no surrogates in it. -/
def toString? (t : RawText) : Option String :=
  (t.mapM RawChar.char?).map String.ofList

/-- The text with an escape for each surrogate. -/
def escaped (t : RawText) : String :=
  String.ofList (t.flatMap RawChar.escaped)

def quoted (t : RawText) : String :=
  let quote := Text.quoteFor (t.flatMap RawChar.escaped)
  String.ofList (quote :: t.flatMap (RawChar.quote quote) ++ [quote])

/-- The bytes of a text at the position `start`, in UTF-8 but for the surrogates that have a byte. -/
def encodeFrom (byte? : Fin 0x800 → Option UInt8) (start : Nat) :
    RawText → Except Unencodable (List UInt8)
  | [] => .ok []
  | .char c :: t => do return String.utf8EncodeChar c ++ (← encodeFrom byte? (start + 1) t)
  | .surrogate n :: t =>
    match byte? n with
    | some b => do return b :: (← encodeFrom byte? (start + 1) t)
    | none =>
      let run := t.takeWhile fun c => !c.isChar
      .error { first := n, start, stop := start + 1 + run.length }

def encode (t : RawText) : Except Unencodable (List UInt8) :=
  encodeFrom (fun _ => none) 0 t

/-- The bytes of a name. -/
def nameBytes (t : RawText) : Except Unencodable (List UInt8) :=
  encodeFrom RawChar.strayByte? 0 t

theorem isText_concat (parts : List RawText) : (concat parts).isText = parts.all isText := by
  rw [concat, isText, List.all_flatten]
  rfl

@[simp] theorem escaped_ofString (s : String) : (ofString s).escaped = s := by
  simp [escaped, ofString, List.flatMap_map, RawChar.escaped]

theorem encodeFrom_ofString (byte? : Fin 0x800 → Option UInt8) (start : Nat) (s : String) :
    encodeFrom byte? start (ofString s) = .ok (Text.Utf8.encode s) := by
  rw [ofString, Text.Utf8.encode]
  induction s.toList generalizing start with
  | nil => rfl
  | cons c cs ih =>
    rw [List.map_cons, encodeFrom, ih]
    rfl

@[simp] theorem encode_ofString (s : String) :
    (ofString s).encode = .ok (Text.Utf8.encode s) :=
  encodeFrom_ofString _ 0 s

/-- A text with a surrogate cannot be encoded. -/
theorem exists_encode_error {t : RawText} (h : t.isText = false) : ∃ u, t.encode = .error u := by
  rw [encode]
  generalize 0 = start
  induction t generalizing start with
  | nil => simp [isText] at h
  | cons c t ih =>
    cases c with
    | char c =>
      obtain ⟨u, hu⟩ := ih h (start + 1)
      exact ⟨u, by rw [encodeFrom, hu]; rfl⟩
    | surrogate n => exact ⟨_, rfl⟩

end RawText

end SchemaEnums
