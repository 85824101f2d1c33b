import SchemaEnums.CommandLine.Arguments
import SchemaEnums.CommandLine.Files
import SchemaEnums.Descriptor.LoadBytes
import SchemaEnums.Generator.Generate

namespace SchemaEnums.CommandLine

/-- The settings of the environment, which count more than the arguments, and the characters that
standard output takes. -/
structure Environment where
  inputFile : Option RawText := none
  outputFolder : Option RawText := none
  outputName : Option RawText := none
  verbose : Option RawText := none
  prints : RawChar → Bool := fun _ => true

def Environment.isVerbose (e : Environment) : Bool :=
  (e.verbose.bind RawText.toString?).any fun text =>
    ["1", "true", "yes"].contains (String.ofList (Text.toLower text.toList))

structure Conversion where
  input : RawText
  outputFolder : RawText
  outputName : RawText
  options : Generator.Options := {}
  verbose : Bool := false
  prints : RawChar → Bool := fun _ => true
  loaded : Option FileDescriptor := none

structure Report where
  printed : List RawText := []
  notes : List String := []
deriving DecidableEq, Repr

namespace Report

def output (r : Report) : RawText :=
  .concat (r.printed.map fun line => line ++ [.char '\n'])

def append (r s : Report) : Report :=
  { printed := r.printed ++ s.printed, notes := r.notes ++ s.notes }

def print (r : Report) (line : RawText) : Report :=
  { r with printed := r.printed ++ [line] }

end Report

/-- What breaks the program off: a file operation, or a line that standard output does not take. -/
inductive Break where
  | file (e : FileError)
  | unprintable (line : RawText)
deriving DecidableEq, Repr

def Break.message : Break → String
  | file e => e.message
  | unprintable line => s!"the line {line.quoted} cannot be printed"

/-- The outcome of a step: whether it succeeded, unless it was broken off. -/
structure Step where
  conversion : Conversion
  result : Except Break Bool
  report : Report

namespace Conversion

/-- The name of the output file without its extension: the given one, or else that of the input. -/
def outputNameFor (input : RawText) (outputName : Option RawText) : RawText :=
  outputName.getD (Path.stem (Path.baseName input))

/-- The conversion that arguments and environment ask for. Enums that are loaded have names, so
nothing comes of the one for those without. -/
def ofArguments (a : Arguments) (e : Environment) : Conversion :=
  let input := e.inputFile.getD a.input
  { input
    outputFolder := e.outputFolder.getD a.output
    outputName := outputNameFor input (e.outputName.or a.outputName)
    options :=
      { labelTables := !a.noTables
        keepPrefix := a.keepPrefix
        anonymousName := a.anonymousName.escaped }
    verbose := a.verbose || e.isVerbose
    prints := e.prints }

def outputPath (c : Conversion) : RawText :=
  Path.join c.outputFolder (c.outputName ++ ".ts")

/-- Holds of the lines that can be printed. -/
def takes (c : Conversion) (line : RawText) : Bool :=
  line.all c.prints

/-- The outcome of a step that was broken off with notes, which count only if they are asked for. -/
def breakOff (c : Conversion) (b : Break) (notes : List String) : Step :=
  { conversion := c
    result := .error b
    report := { notes := if c.verbose then notes else [] } }

/-- The outcome of a step that has nothing to print. -/
def finish (c : Conversion) (success : Bool) (notes : List String) : Step :=
  { conversion := c
    result := .ok success
    report := { notes := if c.verbose then notes else [] } }

/-- The outcome of a step that prints a line in the end. -/
def finishWith (c : Conversion) (success : Bool) (line : RawText) (notes : List String) : Step :=
  if c.takes line then
    let step := c.finish success notes
    { step with report := step.report.print line }
  else c.breakOff (.unprintable line) notes

def loadInput (c : Conversion) (bytes : List UInt8) : Step :=
  let loading := FileDescriptor.loadBytes c.input bytes
  match loading.result with
  | .ok f => { c with loaded := f }.finish true loading.notes
  | .error e =>
    let line := .concat ["Error: Failed to parse '", c.input, "': ", e.message c.input]
    c.finishWith false line loading.notes

variable {m : Type → Type} [Monad m] [MonadFiles m]

def load (c : Conversion) : m Step := do
  if ← MonadFiles.isPresent c.input then
    match ← MonadFiles.read c.input with
    | .ok bytes => return c.loadInput bytes
    | .error e => return c.breakOff (.file e) []
  else
    let line := .concat ["Error: Input file '", c.input, "' does not exist."]
    return c.finishWith false line []

/-- The code with the name of the input as it is, which generation puts with escapes at the end of the
first line. -/
def rawCode (c : Conversion) (code : String) : RawText :=
  let name : RawText := Path.baseName c.input
  if name.isText then code
  else
    let line := (TypeScript.OutputFile.headerLines name.escaped).flatten
    let front := line.length - name.escaped.length
    .concat [String.ofList (code.toList.take front), name,
      String.ofList (code.toList.drop line.length)]

def failureLine (c : Conversion) (message : String) : RawText :=
  .concat ["Error: Failed to generate '", c.outputPath, "': ", message]

/-- Writes the code that was generated with notes. The file is opened before the code is encoded. -/
def writeOutput (c : Conversion) (code : RawText) (notes : List String) : m Step := do
  match ← MonadFiles.clear c.outputPath with
  | .error e =>
    if e.isMalformed then return c.finishWith false (c.failureLine e.message) notes
    else return c.breakOff (.file e) notes
  | .ok () =>
    match code.encode with
    | .error u => return c.finishWith false (c.failureLine u.message) notes
    | .ok bytes =>
      match ← MonadFiles.fill c.outputPath bytes with
      | .error e => return c.breakOff (.file e) notes
      | .ok () => return c.finishWith true (.concat ["Generated ", c.outputPath]) notes

def generate (c : Conversion) : m Step := do
  match c.loaded with
  | none =>
    return c.finishWith false "Error: No enum model available. Parse input file first." []
  | some f =>
    match ← makeFolders c.outputFolder with
    | .error e => return c.breakOff (.file e) []
    | .ok () =>
      let code := Generator.generate c.options f
      match code.result with
      | .error e => return c.finishWith false (c.failureLine e.message) code.notes
      | .ok text => c.writeOutput (c.rawCode text) code.notes

end Conversion

end SchemaEnums.CommandLine
