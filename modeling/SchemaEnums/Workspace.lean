import SchemaEnums.Generator.Emission

namespace SchemaEnums

open TypeScript

structure Workspace where
  enums : List EnumDescriptor
  files : List OutputFile
  anonymousName : String := "AnonymousEnum"

namespace Workspace

/-- What can be asked of a workspace. Enums and files are told apart by their places in the lists. A
request that fails may leave traces: names that it gave, and catalogs that it assigned, remain. -/
inductive Request where
  /-- The name of an enum in a file. An enum that has none is given one. -/
  | nameFor (file enum : Nat)
  | codeName (enum : Nat)
  | findName (file enum : Nat)
  | hasName (file : Nat) (name : String)
  | countNames (file : Nat)
  | declareName (file enum : Nat) (name : String)
  /-- Assigns catalogs to all enums, once for each element of `keep`. -/
  | assignCatalogs (keep : List Bool)
  | catalog (enum : Nat)
  /-- Assigns a catalog to an enum, or takes its catalog away. -/
  | setCatalog (enum : Nat) (catalog : Option Catalog)
  | findValue (enum : Nat) (number : Int)
  /-- Emits the declaration of an enum, with the given catalog or its own. -/
  | emitEnum (file enum : Nat) (catalog : Option Catalog)
  /-- Emits the label table of an enum, with the given catalog or its own. -/
  | emitTable (file enum : Nat) (catalog : Option Catalog)
  | addStatement (file : Nat) (s : Statement)
  /-- Attaches the comment of an enum to a statement of a file. -/
  | addComment (file enum statement : Nat) (mode : String)
  | content (file : Nat)

inductive Error where
  | generation (e : Generator.Error)
  | nameTaken (e : NameTaken)
  | unknownMode (e : UnknownMode)
  /-- The workspace lacks an enum, a file or a statement of that number. -/
  | missing
deriving DecidableEq, Repr

def Error.message : Error → String
  | generation e => e.message
  | nameTaken e => e.message
  | unknownMode e => e.message
  | missing => "No such enum, file or statement."

inductive Reply where
  | done
  | text (text : Option String)
  | flag (b : Bool)
  | count (n : Nat)
  | catalog (c : Catalog)
  | catalogs (cs : List (Option Catalog))
  | failure (e : Error)

def setFile (w : Workspace) (file : Nat) (f : OutputFile) : Workspace :=
  { w with files := w.files.set file f }

def setEnum (w : Workspace) (enum : Nat) (d : EnumDescriptor) : Workspace :=
  { w with enums := w.enums.set enum d }

/-- Goes on with a file and an enum of the workspace. -/
def withBoth (w : Workspace) (file enum : Nat)
    (f : OutputFile → EnumDescriptor → Reply × Workspace) : Reply × Workspace :=
  match w.files[file]?, w.enums[enum]? with
  | some out, some d => f out d
  | _, _ => (.failure .missing, w)

def ask (w : Workspace) (file : Nat) (f : OutputFile → Reply) : Reply × Workspace :=
  match w.files[file]? with
  | some out => (f out, w)
  | none => (.failure .missing, w)

def askEnum (w : Workspace) (enum : Nat) (f : EnumDescriptor → Reply) : Reply × Workspace :=
  match w.enums[enum]? with
  | some d => (f d, w)
  | none => (.failure .missing, w)

/-- The catalog to work with: the given one, or else that of the enum. -/
def chosenCatalog (d : EnumDescriptor) (catalog : Option Catalog) :
    Except DuplicateMember Catalog :=
  match catalog with
  | some c => .ok c
  | none => d.currentCatalog

/-- Takes over the file of an attempt. -/
def conclude {α : Type} (w : Workspace) (file : Nat) (a : Generator.Attempt α)
    (text : α → String) : Reply × Workspace :=
  let w := w.setFile file a.file
  match a.result with
  | .ok x => (.text (text x), w)
  | .error e => (.failure (.generation e), w)

def attachComment (w : Workspace) (file : Nat) (f : OutputFile) (d : EnumDescriptor)
    (statement : Nat) (mode : CommentMode) : Reply × Workspace :=
  match f.statements[statement]? with
  | none => (.failure .missing, w)
  | some s =>
    let s := s.withComment (mode.attach s.comment d.typeComment)
    (.text s.comment, w.setFile file { f with statements := f.statements.set statement s })

def perform (w : Workspace) : Request → Reply × Workspace
  | .nameFor file enum => w.withBoth file enum fun f d =>
    let (name, f) := f.nameFor w.anonymousName enum d
    (.text name, w.setFile file f)
  | .codeName enum => w.askEnum enum fun d => .text (d.codeName w.anonymousName)
  | .findName file enum => w.ask file fun f => .text (f.scope.name? enum)
  | .hasName file name => w.ask file fun f => .flag (f.scope.contains name)
  | .countNames file => w.ask file fun f => .count f.scope.size
  | .declareName file enum name => w.withBoth file enum fun f _ =>
    match f.scope.declare name enum with
    | .ok scope => (.done, w.setFile file { f with scope })
    | .error e => (.failure (.nameTaken e), w)
  | .assignCatalogs keep =>
    let (enums, result) := EnumDescriptor.assignAllCatalogs keep w.enums
    match result with
    | .ok () => (.catalogs (enums.map (·.catalog)), { w with enums })
    | .error e => (.failure (.generation (.duplicateMember e)), { w with enums })
  | .catalog enum => w.askEnum enum fun d =>
    match d.currentCatalog with
    | .ok c => .catalog c
    | .error e => .failure (.generation (.duplicateMember e))
  | .setCatalog enum catalog =>
    match w.enums[enum]? with
    | some d => (.done, w.setEnum enum { d with catalog })
    | none => (.failure .missing, w)
  | .findValue enum number => w.askEnum enum fun d => .text ((d.valueOf? number).map (·.name))
  | .emitEnum file enum catalog => w.withBoth file enum fun f d =>
    w.conclude file (Generator.emitEnum w.anonymousName enum d (chosenCatalog d catalog) f)
      fun d => (Statement.enum d).render
  | .emitTable file enum catalog => w.withBoth file enum fun f d =>
    w.conclude file (Generator.emitTable w.anonymousName enum d (chosenCatalog d catalog) f)
      fun d => (Statement.binding d).render
  | .addStatement file s =>
    match w.files[file]? with
    | some f => (.count (f.add s).statements.length, w.setFile file (f.add s))
    | none => (.failure .missing, w)
  | .addComment file enum statement mode => w.withBoth file enum fun f d =>
    match CommentMode.ofName mode with
    | .ok mode => w.attachComment file f d statement mode
    | .error e => (.failure (.unknownMode e), w)
  | .content file => w.ask file fun f => .text f.content

def performAll (w : Workspace) : List Request → List Reply × Workspace
  | [] => ([], w)
  | r :: rs =>
    let (reply, w) := w.perform r
    let (replies, w) := w.performAll rs
    (reply :: replies, w)

end Workspace

end SchemaEnums
