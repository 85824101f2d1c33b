import SchemaEnums.Text.Hex

namespace SchemaEnums.Text

def unitEscape (n : Nat) : List Char :=
  '\\' :: 'u' :: hex 4 n

def unitEscapes (c : Char) : List Char :=
  let n := c.toNat
  if n < 0x10000 then unitEscape n
  else
    unitEscape (0xD800 + (n - 0x10000) / 0x400) ++ unitEscape (0xDC00 + (n - 0x10000) % 0x400)

/-- What stands for a character inside a literal. Outside the printable ASCII range these are its
UTF-16 units unless it has a short form. -/
def literalChar (c : Char) : List Char :=
  if c = '"' || c = '\\' then ['\\', c]
  else if c = '\n' then ['\\', 'n']
  else if c = '\r' then ['\\', 'r']
  else if c = '\t' then ['\\', 't']
  else if c = '\x08' then ['\\', 'b']
  else if c = '\x0c' then ['\\', 'f']
  else if 0x20 ≤ c.toNat && c.toNat ≤ 0x7E then [c]
  else unitEscapes c

def literalChars (cs : List Char) : List Char :=
  '"' :: cs.flatMap literalChar ++ ['"']

/-- The literal that denotes a text, in double quotes and in ASCII. -/
def literal (s : String) : String :=
  String.ofList (literalChars s.toList)

end SchemaEnums.Text
