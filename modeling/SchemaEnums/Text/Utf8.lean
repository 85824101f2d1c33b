import SchemaEnums.Text.Hex

namespace SchemaEnums.Text.Utf8

inductive Reason where
  | invalidStart
  | invalidContinuation
  | unexpectedEnd
deriving DecidableEq, Repr

/-- A byte sequence that encodes no character: `length` bytes from the offset `start`, the first of
which is `first`. -/
structure Fault where
  start : Nat
  length : Nat
  first : UInt8
  reason : Reason
deriving DecidableEq, Repr

def Reason.description : Reason → String
  | invalidStart => "invalid start byte"
  | invalidContinuation => "invalid continuation byte"
  | unexpectedEnd => "unexpected end of data"

def Fault.message (f : Fault) : String :=
  let bytes :=
    if f.length = 1 then
      let byte := String.ofList (hex 2 f.first.toNat)
      s!"byte 0x{byte} in position {f.start}"
    else s!"bytes in position {f.start}-{f.start + f.length - 1}"
  s!"'utf-8' codec can't decode {bytes}: {f.reason.description}"

def isContinuation (b : UInt8) : Bool :=
  0x80 ≤ b && b ≤ 0xBF

/-- The least and the greatest second byte of a sequence that begins with `b`. They keep out forms
that are too long, surrogates, and numbers past the last code point. -/
def secondByteRange (b : UInt8) : UInt8 × UInt8 :=
  if b = 0xE0 then (0xA0, 0xBF)
  else if b = 0xED then (0x80, 0x9F)
  else if b = 0xF0 then (0x90, 0xBF)
  else if b = 0xF4 then (0x80, 0x8F)
  else (0x80, 0xBF)

def isSecond (first second : UInt8) : Bool :=
  (secondByteRange first).1 ≤ second && second ≤ (secondByteRange first).2

/-- The character of a sequence, from the bits of its first byte and the bytes that follow. -/
def assemble (lead : Nat) (rest : List UInt8) : Char :=
  Char.ofNat (rest.foldl (fun n b => n * 64 + b.toNat % 64) lead)

/-- How many bytes a sequence that begins with `b` has, if one does. -/
def sequenceLength? (b : UInt8) : Option Nat :=
  if b < 0x80 then some 1
  else if b < 0xC2 then none
  else if b < 0xE0 then some 2
  else if b < 0xF0 then some 3
  else if b < 0xF5 then some 4
  else none

/-- The bits of the first byte that belong to the character give a number below this one, in a
sequence of `length` bytes. -/
def leadSize (length : Nat) : Nat :=
  match length with
  | 1 => 0x80
  | 2 => 0x20
  | 3 => 0x10
  | _ => 0x08

/-- How many of the bytes after `first` continue its sequence, of at most `n`. -/
def continued (first : UInt8) (n : Nat) (bs : List UInt8) : Nat :=
  match n, bs with
  | 0, _ => 0
  | _, [] => 0
  | n + 1, b :: bs =>
    if isSecond first b then ((bs.take n).takeWhile isContinuation).length + 1 else 0

/-- The first character of a text and the number of bytes after its first one, or the number of
bytes of the faulty sequence and what is wrong with it. -/
def decodeChar (first : UInt8) (bs : List UInt8) : Except (Nat × Reason) (Char × Nat) :=
  match sequenceLength? first with
  | none => .error (1, .invalidStart)
  | some length =>
    let more := length - 1
    let valid := continued first more bs
    if valid = more then
      .ok (assemble (first.toNat % leadSize length) (bs.take more), more)
    else if valid < bs.length then .error (valid + 1, .invalidContinuation)
    else .error (valid + 1, .unexpectedEnd)

/-- Decodes the bytes from the offset `start` on, up to the first faulty sequence, after the
characters `done`, the latest first. -/
def decodeFrom (start : Nat) (done : List Char) : List UInt8 → Except Fault (List Char)
  | [] => .ok done.reverse
  | b :: bs =>
    match decodeChar b bs with
    | .error (length, reason) => .error { start, length, first := b, reason }
    | .ok (c, more) => decodeFrom (start + more + 1) (c :: done) (bs.drop more)
termination_by bs => bs.length
decreasing_by simp only [List.length_drop, List.length_cons]; omega

def decode (bs : List UInt8) : Except Fault (List Char) :=
  decodeFrom 0 [] bs

def encode (s : String) : List UInt8 :=
  s.toList.flatMap String.utf8EncodeChar

end SchemaEnums.Text.Utf8
