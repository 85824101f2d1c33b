import SchemaEnums.Documentation
import SchemaEnums.Source.Comment

namespace SchemaEnums.Schema

open Source

/-- Holds if only blanks stand between the beginning of its line and the place at the offset. -/
def beginsLine (source : List Char) (offset : Nat) : Bool :=
  ((source.take offset).reverse.takeWhile (· != '\n')).all Text.isBlank

/-- The run of comments that ends on the line above `line`; `comments` are the comments before it,
the latest first. -/
def runAbove (source : List Char) (line : Nat) : List Comment → List Comment
  | [] => []
  | c :: cs =>
    if c.span.stop.line + 1 = line && beginsLine source c.span.start.offset then
      runAbove source c.span.start.line cs ++ [c]
    else []

/-- The comments that end no later than a place, the latest first. -/
def commentsBefore (comments : List Comment) (p : Position) : List Comment :=
  (comments.filter fun c => c.span.stop.offset ≤ p.offset).reverse

/-- What the leading comments of a declaration at `p` say: a run of comments on consecutive lines,
each first on its line, down to the line above the declaration. -/
def leadingText? (source : List Char) (comments : List Comment) (p : Position) : Option String :=
  match runAbove source p.line (commentsBefore comments p) with
  | [] => none
  | run => some ("\n".intercalate (run.map Comment.content))

/-- The trailing comment at `p`: the next comment, if it begins on the same line. It begins no later
than `bound`, if there is a bound. -/
def trailingComment? (comments : List Comment) (p : Position) (bound : Option Position) :
    Option Comment :=
  (comments.find? fun c => p.offset ≤ c.span.start.offset).filter fun c =>
    c.span.start.line == p.line && bound.all fun b => c.span.start.offset ≤ b.offset

def trailingText? (comments : List Comment) (p : Position) (bound : Option Position) :
    Option String :=
  (trailingComment? comments p bound).map Comment.content

end SchemaEnums.Schema
