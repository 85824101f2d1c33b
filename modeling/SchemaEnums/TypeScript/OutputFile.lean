import SchemaEnums.TypeScript.Statement
import SchemaEnums.TypeScript.Scope

namespace SchemaEnums.TypeScript

/-- A file of generated code. `source` is the schema file that it was made from. -/
structure OutputFile where
  name : String
  source : Option String := none
  statements : List Statement := []
  scope : Scope := {}

namespace OutputFile

def add (f : OutputFile) (s : Statement) : OutputFile :=
  { f with statements := f.statements ++ [s] }

/-- The line that tells the schema file, if there is one. -/
def headerLines (source : Option String) : List (List Char) :=
  match Text.filled? source with
  | some file => ["// @generated by enum_wrangler from ".toList ++ file.toList]
  | none => []

def contentChars (f : OutputFile) : List Char :=
  Text.joinLines (headerLines f.source ++ f.statements.map (Statement.charsAt [])) ++ ['\n']

def content (f : OutputFile) : String :=
  String.ofList f.contentChars

end OutputFile

end SchemaEnums.TypeScript
