import SchemaEnums.Text.Blank
import SchemaEnums.Text.Lines

namespace SchemaEnums.TypeScript

/-- Breaks every closing mark of a block comment by a backslash. -/
def breakClosing : List Char → List Char
  | [] => []
  | '*' :: '/' :: cs => '*' :: '\\' :: '/' :: breakClosing cs
  | c :: cs => c :: breakClosing cs

def docLine (indent line : List Char) : List Char :=
  if line.isEmpty then indent ++ [' ', '*']
  else Text.trimEnd (indent ++ [' ', '*', ' '] ++ line)

/-- The lines of the documentation comment with the given text: a star stands before each of them.
-/
def docChars (comment indent : List Char) : List (List Char) :=
  [indent ++ ['/', '*', '*']] ++ (Text.lines (breakClosing comment)).map (docLine indent) ++
    [indent ++ [' ', '*', '/']]

def docLines (comment : String) (indent : String) : List String :=
  (docChars comment.toList indent.toList).map String.ofList

end SchemaEnums.TypeScript
