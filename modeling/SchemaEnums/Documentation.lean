import SchemaEnums.Text.Filled

namespace SchemaEnums

/-- The comment above a declaration and the one behind it. -/
structure Documentation where
  leading : Option String := none
  trailing : Option String := none
deriving DecidableEq, Repr

namespace Documentation

/-- Two paragraphs, with a blank line between them. -/
def paragraphs (first second : String) : String :=
  first ++ "\n\n" ++ second

/-- Both comments as paragraphs. An empty comment counts as none. -/
def block? (d : Documentation) : Option String :=
  match Text.filled? d.leading, Text.filled? d.trailing with
  | some leading, some trailing => some (paragraphs leading trailing)
  | some leading, none => some leading
  | none, trailing => trailing

end Documentation

end SchemaEnums
