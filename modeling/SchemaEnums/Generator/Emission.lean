import SchemaEnums.Catalog.Build
import SchemaEnums.Directive
import SchemaEnums.Generator.CodeName
import SchemaEnums.Generator.TypeComment
import SchemaEnums.Label
import SchemaEnums.TypeScript.EnumDraft

namespace SchemaEnums.Generator

open TypeScript

inductive Error where
  | duplicateMember (e : DuplicateMember)
  | draft (e : DraftError)
  | invalidIdentifier (e : InvalidIdentifier)
deriving DecidableEq, Repr

def Error.message : Error → String
  | duplicateMember e => e.message
  | draft e => e.message
  | invalidIdentifier e => e.message

/-- The outcome of an emission, and the file after it. Where an emission fails, names that were
given before remain. -/
structure Attempt (α : Type) where
  result : Except Error α
  file : OutputFile

def syntheticComment : String :=
  "@generated synthetic value - TypeScript enums generated from protobuf require a 0 value"

/-- The leading comment of the first value with the number of an entry. -/
def leadingComment? (d : EnumDescriptor) (entry : CatalogEntry) : Option String :=
  (d.valueOf? entry.number).bind fun v => v.documentation.leading

def memberComment? (d : EnumDescriptor) (entry : CatalogEntry) : Option String :=
  match d.valueOf? entry.number with
  | some v => v.documentation.leading
  | none => some syntheticComment

def member (d : EnumDescriptor) (entry : CatalogEntry) : Member :=
  { name := entry.name, number := entry.number, comment := memberComment? d entry }

/-- The label of an entry: the one that its comment directs, or else that of its name. -/
def label (d : EnumDescriptor) (entry : CatalogEntry) : String :=
  (Directive.ofComment? (leadingComment? d entry)).getD (Label.ofName entry.name)

def emitEnum (anonymousName : String) (id : Nat) (d : EnumDescriptor)
    (catalog : Except DuplicateMember Catalog) (f : OutputFile) : Attempt EnumDeclaration :=
  match catalog with
  | .error e => { result := .error (.duplicateMember e), file := f }
  | .ok entries =>
    let (name, f) := f.nameFor anonymousName id d
    let draft : EnumDraft := { members := entries.map (member d) }
    match draft.finish name ["export"] with
    | .error e => { result := .error (.draft e), file := f }
    | .ok declaration =>
      let comment := CommentMode.append.attach declaration.comment d.typeComment
      let declaration := { declaration with comment }
      { result := .ok declaration, file := f.add (.enum declaration) }

def row (name : String) (d : EnumDescriptor) (entry : CatalogEntry) :
    Except InvalidIdentifier Expr := do
  let target ← Identifier.ofText name
  let field ← Identifier.ofText entry.name
  return .object [("id", .access (.identifier target) field), ("name", .string (label d entry))]

def tableSuffix : String := "Translation"

def table (name : String) (d : EnumDescriptor) (entries : Catalog) :
    Except InvalidIdentifier VariableDeclaration := do
  let rows ← entries.mapM (row name d)
  let tableName ← Identifier.ofText (name ++ tableSuffix)
  return { name := tableName, initializer := .array rows true, modifiers := ["export"] }

def emitTable (anonymousName : String) (id : Nat) (d : EnumDescriptor)
    (catalog : Except DuplicateMember Catalog) (f : OutputFile) : Attempt VariableDeclaration :=
  let (name, f) := f.nameFor anonymousName id d
  match catalog with
  | .error e => { result := .error (.duplicateMember e), file := f }
  | .ok entries =>
    match table name d entries with
    | .error e => { result := .error (.invalidIdentifier e), file := f }
    | .ok declaration => { result := .ok declaration, file := f.add (.binding declaration) }

end SchemaEnums.Generator
