import SchemaEnums.Schema.Literals
import SchemaEnums.Schema.State
import SchemaEnums.Source.Gap

namespace SchemaEnums.Schema

open Source

def tokenOf (l : Lexeme) (p : Position) : Token :=
  { kind := l.kind
    text := String.ofList l.text
    span := { start := p, stop := p.advance l.text } }

/-- The complaint about a character at which no token of the context begins. -/
def strayError (source : List Char) (p : Position) (c : Char) (cs : List Char) : Error :=
  match Context.all.read? (c :: cs) with
  | some l => .unexpectedToken (tokenOf l p)
  | none => .unexpectedCharacter p c (Excerpt.ofText source p.offset)

/-- Reads the rest `cs` of the text `source`, which stands at `p`, in the state `s`. The last token
began at `last`; `comments` are the comments so far, the latest first. -/
def run (source : List Char) (s : State) (comments : List Comment) (last p : Position)
    (cs : List Char) : Except Error (Schema String) :=
  let gap := Gap.read p cs
  let comments := gap.comments.reverse ++ comments
  match _hrest : gap.rest with
  | [] =>
    match s.complete? with
    | some items => .ok { items, comments := comments.reverse }
    | none => .error (.unexpectedEnd last)
  | d :: ds =>
    match _hread : s.context.read? (d :: ds) with
    | none => .error (strayError source gap.stop d ds)
    | some l =>
      let t := tokenOf l gap.stop
      match s.next? t with
      | none => .error (.unexpectedToken t)
      | some s => run source s comments t.span.start t.span.stop l.rest
termination_by cs.length
decreasing_by
  have hle := Gap.length_rest_read_le p cs
  have hlt := Context.length_rest_lt_of_read? _hread
  have hrest : (Gap.read p cs).rest = d :: ds := _hrest
  rw [hrest] at hle
  omega

def parseLiterals (source : List Char) : Except Error (Schema String) :=
  run source {} [] {} {} source

/-- Reads a schema. Every integer literal is looked at only once the whole text has been read. -/
def parse (text : String) : Except Error (Schema Int) := do
  evaluate (← parseLiterals text.toList)

end SchemaEnums.Schema
