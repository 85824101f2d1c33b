import SchemaEnums.Descriptor
import SchemaEnums.TypeScript.OutputFile

namespace SchemaEnums

def builtInTypes : List String :=
  ["object", "Uint8Array", "array", "Array", "string", "String", "number", "Number", "boolean",
    "Boolean", "bigint", "BigInt"]

namespace EnumDescriptor

/-- The names of the messages and of the enum, joined by underscores. -/
def flatName (anonymousName : String) (d : EnumDescriptor) : String :=
  "_".intercalate (d.parents ++ [(Text.filled? d.name).getD anonymousName])

/-- The name that the enum would have alone in a file. A name of a built-in type gets a dollar sign.
-/
def codeName (anonymousName : String) (d : EnumDescriptor) : String :=
  let name := d.flatName anonymousName
  if builtInTypes.contains name then name ++ "$" else name

end EnumDescriptor

namespace TypeScript.OutputFile

/-- The current name of the enum `id` in the file. An enum without one is given the first name that
is free. -/
def nameFor (anonymousName : String) (id : Nat) (d : EnumDescriptor) (f : OutputFile) :
    String × OutputFile :=
  match f.scope.name? id with
  | some name => (name, f)
  | none =>
    let name := f.scope.freeName (d.codeName anonymousName)
    (name, { f with scope := f.scope.insert name id })

end TypeScript.OutputFile

end SchemaEnums
