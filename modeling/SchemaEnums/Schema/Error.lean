import SchemaEnums.Numeral
import SchemaEnums.Source.Token

namespace SchemaEnums.Schema

open Source

/-- The text around a character, on its line. -/
structure Excerpt where
  before : String
  after : String
deriving DecidableEq, Repr

inductive Error where
  /-- No token of any class begins at the position. -/
  | unexpectedCharacter (position : Position) (char : Char) (excerpt : Excerpt)
  | unexpectedToken (token : Token)
  /-- The text ends inside an item; the position is that of the last token. -/
  | unexpectedEnd (last : Position)
  | badDigits (e : Numeral.BadDigits)
deriving DecidableEq, Repr

namespace Excerpt

def reach : Nat := 40

/-- The excerpt of a text around the character at an offset. -/
def ofText (source : List Char) (offset : Nat) : Excerpt :=
  let before := (source.take offset).drop (offset - reach)
  let after := (source.drop offset).take reach
  { before := String.ofList (before.reverse.takeWhile (· != '\n')).reverse
    after := String.ofList (after.takeWhile (· != '\n')) }

/-- How many characters a text has when each tab is written as spaces up to the next multiple of
eight columns; `column` characters stand before it on its line, which a carriage return begins anew.
-/
def expandedLength (column : Nat) : List Char → Nat
  | [] => 0
  | c :: cs =>
    if c = '\t' then 8 - column % 8 + expandedLength (column + (8 - column % 8)) cs
    else if c = '\r' then 1 + expandedLength 0 cs
    else 1 + expandedLength (column + 1) cs

/-- The excerpt, with a caret below the character. -/
def render (e : Excerpt) : String :=
  e.before ++ e.after ++ "\n" ++
    String.ofList (List.replicate (expandedLength 0 e.before.toList) ' ') ++ "^"

end Excerpt

def tokenMessage (title text : String) (p : Position) : String :=
  s!"Unexpected token Token('{title}', {Text.quoted text}) at line {p.line}, column {p.column}."

def Error.message : Error → String
  | .unexpectedCharacter p c excerpt =>
    s!"No terminal matches '{String.singleton c}' in the current parser context, " ++
      s!"at line {p.line} col {p.column}\n\n" ++ excerpt.render
  | .unexpectedToken t => tokenMessage t.kind.title t.text t.span.start
  | .unexpectedEnd last => tokenMessage "$END" "" last
  | .badDigits e => "Error trying to process rule \"int_lit\":\n\n" ++ e.message

end SchemaEnums.Schema
