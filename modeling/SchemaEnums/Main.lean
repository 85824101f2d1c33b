import SchemaEnums.CommandLine.Program

namespace SchemaEnums.CommandLine

/-- The obstacle that an error of the system tells of. -/
def Obstacle.ofSystem (path : RawText) : IO.Error → FileError
  | .noFileOrDirectory _ _ _ => .obstacle .notFound path
  | .alreadyExists _ _ _ => .obstacle .alreadyExists path
  | .inappropriateType _ code description =>
    if code.toNat = Obstacle.notFolder.code then .obstacle .notFolder path
    else if code.toNat = Obstacle.isFolder.code then .obstacle .isFolder path
    else .other description
  | e => .other (toString e)

/-- The outcome of an action on a path. The system takes texts only, so that it has nothing at a path
with surrogates. -/
def attempt {α : Type} (path : RawText) (action : String → IO α) : BaseIO (Except FileError α) := do
  match path.toString? with
  | none => return .error (.obstacle .notFound path)
  | some text =>
    if text.toList.contains '\x00' then return .error .nullCharacter
    return (← (action text).toBaseIO).mapError (Obstacle.ofSystem path)

instance : MonadFiles BaseIO where
  isPresent path := do
    match ← attempt path fun path => IO.FS.realPath path with
    | .ok place => place.pathExists
    | .error _ => return false
  isFolder path := do
    match ← attempt path fun path => IO.FS.realPath path with
    | .ok place => place.isDir
    | .error _ => return false
  read path := do
    return (← attempt path fun path => IO.FS.readBinFile path).map fun bytes => bytes.toList
  clear path := attempt path fun path => IO.FS.writeBinFile path ByteArray.empty
  fill path bytes :=
    attempt path fun path => IO.FS.writeBinFile path (ByteArray.mk bytes.toArray)
  createFolder path := attempt path fun path => IO.FS.createDir path

def Environment.ofSystem : BaseIO Environment := do
  let setting (name : String) : BaseIO (Option RawText) :=
    return (← IO.getEnv name).map RawText.ofString
  return {
    inputFile := ← setting "EW_INPUT_FILE"
    outputFolder := ← setting "EW_OUTPUT_DIR"
    outputName := ← setting "EW_OUTPUT_NAME"
    verbose := ← setting "EW_VERBOSE"
    prints := RawChar.isChar }

def Report.show (r : Report) : IO Unit := do
  IO.eprint (Noted.transcript r.notes)
  IO.print r.output.escaped

/-- The text that the program shows when it is called for help. -/
def helpText : String :=
  "options: " ++ ", ".intercalate (Key.long.map fun (name, _) => "--" ++ name)

/-- Shows how the program ends, and gives its status. -/
def Outcome.conclude : Outcome → IO Nat
  | stopped s => do
    match s with
    | .help => IO.println helpText
    | .usage e => IO.eprintln s!"error: {e.message}"
    return s.status
  | broken b report => do
    report.show
    IO.eprintln b.message
    return 1
  | finished status report => do
    report.show
    return status

end SchemaEnums.CommandLine

def main (args : List String) : IO UInt32 := do
  let environment ← SchemaEnums.CommandLine.Environment.ofSystem
  let outcome ← (SchemaEnums.CommandLine.run (args.map SchemaEnums.RawText.ofString) environment :
    BaseIO SchemaEnums.CommandLine.Outcome)
  return (← outcome.conclude).toUInt32
