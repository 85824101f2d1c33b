import SchemaEnums.Source.Token

namespace SchemaEnums.Source.Lexeme

def isNameStart (c : Char) : Bool :=
  c.isAlpha || c == '_'

def isNamePart (c : Char) : Bool :=
  c.isAlphanum || c == '_'

def isHexDigit (c : Char) : Bool :=
  c.isDigit || ('a' ≤ c && c ≤ 'f') || ('A' ≤ c && c ≤ 'F')

/-- The longest run of characters with a property, and the rest. -/
def run (p : Char → Bool) (cs : List Char) : List Char × List Char :=
  (cs.takeWhile p, cs.dropWhile p)

/-- A non-empty run of characters with a property, as long as possible. -/
def run? (p : Char → Bool) (cs : List Char) : Option (List Char × List Char) :=
  if (cs.takeWhile p).isEmpty then none else some (run p cs)

def behind (front : List Char) (l : List Char × List Char) : List Char × List Char :=
  (front ++ l.1, l.2)

/-- A letter or underscore, and the letters, digits and underscores that follow. Like every reader
it returns the lexeme that a text begins with and the rest of the text. -/
def name? : List Char → Option (List Char × List Char)
  | [] => none
  | c :: cs => if isNameStart c then some (behind [c] (run isNamePart cs)) else none

/-- A hexadecimal number with its mark, or a run of decimal digits. -/
def unsigned? (cs : List Char) : Option (List Char × List Char) :=
  match cs with
  | '0' :: m :: r =>
    if m = 'x' ∨ m = 'X' then ((run? isHexDigit r).map (behind ['0', m])).or (run? Char.isDigit cs)
    else run? Char.isDigit cs
  | cs => run? Char.isDigit cs

/-- A reader whose lexemes may have a minus sign before them. -/
def signed? (read? : List Char → Option (List Char × List Char)) (cs : List Char) :
    Option (List Char × List Char) :=
  match cs with
  | '-' :: r => (read? r).map (behind ['-'])
  | cs => read? cs

def integer? : List Char → Option (List Char × List Char) :=
  signed? unsigned?

/-- The digits of an exponent, with a sign before them if any. -/
def exponentDigits? : List Char → Option (List Char × List Char)
  | '+' :: cs => (run? Char.isDigit cs).map (behind ['+'])
  | '-' :: cs => (run? Char.isDigit cs).map (behind ['-'])
  | cs => run? Char.isDigit cs

def exponent? : List Char → Option (List Char × List Char)
  | 'e' :: cs => (exponentDigits? cs).map (behind ['e'])
  | 'E' :: cs => (exponentDigits? cs).map (behind ['E'])
  | _ => none

/-- Extends a lexeme by the exponent that follows it, if one does. -/
def withExponent (l : List Char × List Char) : List Char × List Char :=
  match exponent? l.2 with
  | some e => behind l.1 e
  | none => l

/-- A number without sign that has a point or an exponent. -/
def unsignedFloat? (cs : List Char) : Option (List Char × List Char) :=
  match run? Char.isDigit cs with
  | none =>
    match cs with
    | '.' :: r => (run? Char.isDigit r).map fun l => withExponent (behind ['.'] l)
    | _ => none
  | some (digits, rest) =>
    match rest with
    | '.' :: r => some (withExponent (behind (digits ++ ['.']) (run Char.isDigit r)))
    | rest => (exponent? rest).map (behind digits)

def float? : List Char → Option (List Char × List Char) :=
  signed? unsignedFloat?

/-- The rest of a string up to its closing quote. A backslash takes the next character with it;
neither it nor the string goes past the end of a line. -/
def closeString? (quote : Char) : List Char → Option (List Char × List Char)
  | [] => none
  | '\\' :: [] => none
  | '\\' :: c :: cs =>
    if c = '\n' then none else (closeString? quote cs).map (behind ['\\', c])
  | c :: cs =>
    if c = quote then some ([c], cs)
    else if c = '\n' then none
    else (closeString? quote cs).map (behind [c])

def string? : List Char → Option (List Char × List Char)
  | '"' :: cs => (closeString? '"' cs).map (behind ['"'])
  | '\'' :: cs => (closeString? '\'' cs).map (behind ['\''])
  | _ => none

def word? (word : String) (cs : List Char) : Option (List Char × List Char) :=
  if word.toList.isPrefixOf cs then some (word.toList, cs.drop word.toList.length) else none

/-- The class of a mark other than the dot. -/
def mark? : Char → Option Kind
  | ';' => some .semicolon
  | '=' => some .equal
  | '\x7b' => some .openBrace
  | '\x7d' => some .closeBrace
  | '[' => some .openBracket
  | ']' => some .closeBracket
  | '(' => some .openParen
  | ')' => some .closeParen
  | ',' => some .comma
  | '<' => some .less
  | '>' => some .greater
  | _ => none

end SchemaEnums.Source.Lexeme
