import SchemaEnums.Text.Hex
import SchemaEnums.Text.PrintableTable

namespace SchemaEnums.Text

/-- Holds of the characters that have a printed form, the space included. -/
def isPrintable (c : Char) : Bool :=
  if c.toNat < 0x7F then 0x20 ≤ c.toNat
  else !PrintableTable.hidden.any fun (first, last) => first ≤ c.toNat && c.toNat ≤ last

/-- The quote that encloses a text: a single one, or a double one if the text holds single ones
only. -/
def quoteFor (cs : List Char) : Char :=
  if cs.contains '\'' && !cs.contains '"' then '"' else '\''

/-- The number of a character, in as many digits as its size asks for. -/
def numericEscape (c : Char) : List Char :=
  let n := c.toNat
  if n ≤ 0xFF then '\\' :: 'x' :: hex 2 n
  else if n ≤ 0xFFFF then '\\' :: 'u' :: hex 4 n
  else '\\' :: 'U' :: hex 8 n

/-- What stands for a character between the given quotes. -/
def quoteChar (quote c : Char) : List Char :=
  if c = quote || c = '\\' then ['\\', c]
  else if c = '\t' then ['\\', 't']
  else if c = '\n' then ['\\', 'n']
  else if c = '\r' then ['\\', 'r']
  else if isPrintable c then [c]
  else numericEscape c

def quoteChars (cs : List Char) : List Char :=
  quoteFor cs :: cs.flatMap (quoteChar (quoteFor cs)) ++ [quoteFor cs]

/-- A text in quotes. The quote, the backslash and every character without a printed form are
escaped. -/
def quoted (s : String) : String :=
  String.ofList (quoteChars s.toList)

end SchemaEnums.Text
