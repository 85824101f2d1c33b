import SchemaEnums.Generator.Emission
import SchemaEnums.Noted
import SchemaEnums.Path

namespace SchemaEnums.Generator

open TypeScript

structure Options where
  labelTables : Bool := true
  keepPrefix : Bool := false
  anonymousName : String := "AnonymousEnum"
deriving DecidableEq, Repr

def enumNote (d : EnumDeclaration) : String :=
  s!"EnumGenerator: declared enum {d.name.text} with {d.members.length} members"

def elementCount : Expr → Nat
  | .array elements _ => elements.length
  | _ => 0

def tableNote (d : VariableDeclaration) : String :=
  s!"EnumGenerator: added translation table {d.name.text} with {elementCount d.initializer} entries"

/-- Goes on with the file of an attempt, and with a note about its result. -/
def Attempt.proceed {α : Type} (note : α → String) (a : Attempt α) : Noted Error OutputFile := do
  .note (note (← .ofExcept a.result))
  return a.file

def emit (o : Options) (id : Nat) (d : EnumDescriptor) (f : OutputFile) :
    Noted Error OutputFile := do
  let f ← (emitEnum o.anonymousName id d d.currentCatalog f).proceed enumNote
  if o.labelTables then
    (emitTable o.anonymousName id d d.currentCatalog f).proceed tableNote
  else
    return f

/-- Emits enums one after the other; `id` is the number of the first. -/
def emitAll (o : Options) (id : Nat) : List EnumDescriptor → OutputFile → Noted Error OutputFile
  | [], f => pure f
  | d :: ds, f => do
    let f ← emit o id d f
    emitAll o (id + 1) ds f

def emptyFile (file : Option String) : OutputFile :=
  match Text.filled? file with
  | some path =>
    let base := Path.baseName path.toList
    { name := String.ofList (Path.stem base) ++ ".ts", source := some (String.ofList base) }
  | none => { name := "enums.ts" }

def catalogNote (file : Option String) : String :=
  let file := file.getD "None"
  s!"Running model transform AssignEnumCatalogTransform on {file}"

def fileNote (f : OutputFile) : String :=
  s!"TypeScript generator: {f.statements.length} statements for {f.name}"

/-- Generates the text of the output file for a schema file. Each enum is assigned a new catalog
before any is emitted, whatever catalog it has. -/
def generate (o : Options) (file : FileDescriptor) : Noted Error String := do
  .note (catalogNote file.file)
  let (enums, assigned) := EnumDescriptor.assignCatalogs o.keepPrefix file.enums
  .ofExcept (assigned.mapError .duplicateMember)
  let f ← emitAll o 0 enums (emptyFile file.file)
  .note (fileNote f)
  return f.content

end SchemaEnums.Generator
