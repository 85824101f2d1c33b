import SchemaEnums.CommandLine.Files

namespace SchemaEnums.CommandLine

/-- A place on a disk: the names that lead to it from the top. A name is a string of bytes. -/
abbrev Place := List (List UInt8)

/-- The files and folders of a disk, and the folder that paths begin at unless they begin with a
slash. The top is always a folder. -/
structure Disk where
  files : List (Place × List UInt8) := []
  folders : List Place := []
  working : Place := []
deriving Repr

namespace Disk

def file? (d : Disk) (p : Place) : Option (List UInt8) :=
  d.files.lookup p

def hasFolder (d : Disk) (p : Place) : Bool :=
  p.isEmpty || d.folders.contains p

/-- The disk with a file at a place, instead of the file that was there. -/
def putFile (d : Disk) (p : Place) (bytes : List UInt8) : Disk :=
  { d with files := (p, bytes) :: d.files.filter fun (q, _) => q != p }

theorem lookup_filter_ne {p q : Place} (h : q ≠ p) (files : List (Place × List UInt8)) :
    (files.filter fun (r, _) => r != p).lookup q = files.lookup q := by
  induction files with
  | nil => rfl
  | cons f files ih =>
    obtain ⟨r, bytes⟩ := f
    by_cases hr : r = p
    · have hne : (q == p) = false := beq_eq_false_iff_ne.2 h
      rw [List.filter_cons_of_neg (by simp [hr]), hr, List.lookup_cons, hne, ih]
    · rw [List.filter_cons_of_pos (by simpa using hr), List.lookup_cons, List.lookup_cons, ih]

/-- Writing changes the file at that place only. -/
theorem file?_putFile (d : Disk) (p q : Place) (bytes : List UInt8) :
    (d.putFile p bytes).file? q = if q = p then some bytes else d.file? q := by
  rw [file?, putFile, List.lookup_cons]
  by_cases h : q = p
  · simp [h]
  · have hne : (q == p) = false := beq_eq_false_iff_ne.2 h
    rw [if_neg h, hne, file?, lookup_filter_ne h]

def putFolder (d : Disk) (p : Place) : Disk :=
  { d with folders := p :: d.folders }

/-- The disk with a file at a place, and folders on the way to it. -/
def addFile (d : Disk) (p : Place) (bytes : List UInt8) : Disk :=
  ((List.range p.length).foldl (fun d n => d.putFolder (p.take n)) d).putFile p bytes

inductive Target where
  | folder (p : Place)
  | file (p : Place) (bytes : List UInt8)
  | free (p : Place)
deriving DecidableEq, Repr

def maxName : Nat := 255

def maxPath : Nat := 4095

/-- The names in a path, without empty ones. -/
def names (path : List UInt8) : List (List UInt8) :=
  (path.splitOn 0x2F).filter fun name => !name.isEmpty

/-- Follows names from a folder. One dot stays there, and two go back to the folder around it. -/
def follow (d : Disk) (here : Place) : List (List UInt8) → Except Obstacle Target
  | [] => .ok (.folder here)
  | name :: rest =>
    if name = [0x2E] then d.follow here rest
    else if name = [0x2E, 0x2E] then d.follow here.dropLast rest
    else
      let p := here ++ [name]
      if maxName < name.length then .error .nameTooLong
      else if d.hasFolder p then d.follow p rest
      else
        match d.file? p, rest with
        | some bytes, [] => .ok (.file p bytes)
        | some _, _ :: _ => .error .notFolder
        | none, [] => .ok (.free p)
        | none, _ :: _ => .error .notFound

def target (d : Disk) (path : List UInt8) : Except Obstacle Target :=
  if path.isEmpty then .error .notFound
  else if maxPath < path.length then .error .nameTooLong
  else d.follow (if path.head? == some 0x2F then [] else d.working) (names path)

/-- The bytes of a path, without the one that no path may have. -/
def pathBytes (path : RawText) : Except FileError (List UInt8) := do
  let bytes ← path.nameBytes.mapError .unencodable
  if bytes.contains 0 then .error .nullCharacter else .ok bytes

def find (d : Disk) (path : RawText) : Except FileError Target := do
  let bytes ← pathBytes path
  (d.target bytes).mapError (.obstacle · path)

/-- Holds of the paths that end with a slash, which only a folder may have. -/
def asksFolder (path : RawText) : Bool :=
  path.getLast? == some (.char '/')

def isFolder (d : Disk) (path : RawText) : Bool :=
  match d.find path with
  | .ok (.folder _) => true
  | _ => false

def isPresent (d : Disk) (path : RawText) : Bool :=
  match d.find path with
  | .ok (.folder _) => true
  | .ok (.file _ _) => !asksFolder path
  | _ => false

def read (d : Disk) (path : RawText) : Except FileError (List UInt8) := do
  match ← d.find path with
  | .folder _ => .error (.obstacle .isFolder path)
  | .file _ bytes => if asksFolder path then .error (.obstacle .notFolder path) else .ok bytes
  | .free _ => .error (.obstacle .notFound path)

/-- The disk with an empty file, if there can be a file. -/
def clear (d : Disk) (path : RawText) : Except FileError Disk := do
  match ← d.find path with
  | .folder _ => .error (.obstacle .isFolder path)
  | .file p _ | .free p =>
    if asksFolder path then .error (.obstacle .isFolder path) else .ok (d.putFile p [])

/-- The disk with the bytes in a file that is there. -/
def fill (d : Disk) (path : RawText) (bytes : List UInt8) : Except FileError Disk := do
  match ← d.find path with
  | .file p _ => .ok (d.putFile p bytes)
  | .folder _ | .free _ => .error (.obstacle .notFound path)

def createFolder (d : Disk) (path : RawText) : Except FileError Disk := do
  match ← d.find path with
  | .folder _ | .file _ _ => .error (.obstacle .alreadyExists path)
  | .free p => .ok (d.putFolder p)

/-- Takes over the disk of an operation that succeeds. -/
def change (f : Disk → Except FileError Disk) : StateM Disk (Except FileError Unit) := fun d =>
  match f d with
  | .ok d => (.ok (), d)
  | .error e => (.error e, d)

instance : MonadFiles (StateM Disk) where
  isPresent path := fun d => (d.isPresent path, d)
  isFolder path := fun d => (d.isFolder path, d)
  read path := fun d => (d.read path, d)
  clear path := change fun d => d.clear path
  fill path bytes := change fun d => d.fill path bytes
  createFolder path := change fun d => d.createFolder path

/-- A disk with nothing but the working folder and files in it, by the bytes of their paths. -/
def ofFiles (working : Place) (files : List (List UInt8 × List UInt8)) : Disk :=
  let folders := (List.range working.length).map fun n => working.take (n + 1)
  files.foldl (fun d (path, bytes) => d.addFile (working ++ names path) bytes) { folders, working }

/-- The files below the working folder that `before` has not, or has with other bytes. -/
def changedSince (before d : Disk) : List (Place × List UInt8) :=
  (d.files.filter fun (p, bytes) => before.file? p != some bytes).filterMap fun (p, bytes) =>
    (d.working.isPrefixOf? p).map fun p => (p, bytes)

end Disk

end SchemaEnums.CommandLine
