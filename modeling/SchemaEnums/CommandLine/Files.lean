import SchemaEnums.Path

namespace SchemaEnums.CommandLine

inductive Obstacle where
  | notFound
  | alreadyExists
  | notFolder
  | isFolder
  | nameTooLong
deriving DecidableEq, Repr

namespace Obstacle

def code : Obstacle → Nat
  | notFound => 2
  | alreadyExists => 17
  | notFolder => 20
  | isFolder => 21
  | nameTooLong => 36

def description : Obstacle → String
  | notFound => "No such file or directory"
  | alreadyExists => "File exists"
  | notFolder => "Not a directory"
  | isFolder => "Is a directory"
  | nameTooLong => "File name too long"

end Obstacle

inductive FileError where
  /-- The path has a character that no path may have. -/
  | nullCharacter
  /-- The path has a surrogate that stands for no byte. -/
  | unencodable (u : Unencodable)
  | obstacle (o : Obstacle) (path : RawText)
  | other (description : String)
deriving DecidableEq, Repr

namespace FileError

/-- Holds of the errors about paths that no system is asked for. -/
def isMalformed : FileError → Bool
  | nullCharacter | unencodable _ => true
  | obstacle _ _ | other _ => false

def message : FileError → String
  | nullCharacter => "embedded null byte"
  | unencodable u => u.message
  | obstacle o path => s!"[Errno {o.code}] {o.description}: {path.quoted}"
  | other description => description

end FileError

/-- A monad with files and folders. A file is written in two steps. -/
class MonadFiles (m : Type → Type) where
  isPresent : RawText → m Bool
  isFolder : RawText → m Bool
  read : RawText → m (Except FileError (List UInt8))
  /-- Opens a file to be written: it is made, or it loses the bytes that it has. -/
  clear : RawText → m (Except FileError Unit)
  /-- Gives its bytes to a file that is open. -/
  fill : RawText → List UInt8 → m (Except FileError Unit)
  /-- Makes a folder in a folder that is there. -/
  createFolder : RawText → m (Except FileError Unit)

/-- Makes a folder in a folder that is there. It may be there already. -/
def makeFolder {m : Type → Type} [Monad m] [MonadFiles m] (path : RawText) :
    m (Except FileError Unit) := do
  match ← MonadFiles.createFolder path with
  | .ok () => return .ok ()
  | .error e =>
    if e.isMalformed then return .error e
    else if ← MonadFiles.isFolder path then return .ok ()
    else return .error e

/-- Makes a folder, and first those that it lies in where they are not there. -/
def makeFolders {m : Type → Type} [Monad m] [MonadFiles m] (path : RawText) :
    m (Except FileError Unit) := do
  match _h : Path.parent? path with
  | none => makeFolder path
  | some (folder, name) =>
    if ← MonadFiles.isPresent folder then
      makeFolder path
    else
      match ← makeFolders folder with
      | .ok () | .error (.obstacle .alreadyExists _) =>
        if name = [.char '.'] then return .ok () else makeFolder path
      | .error e => return .error e
termination_by path.length
decreasing_by exact Path.length_lt_of_parent? _h

end SchemaEnums.CommandLine
