import SchemaEnums.Descriptor.Alias
import SchemaEnums.Descriptor.Inspect
import SchemaEnums.Descriptor.OfSchema
import SchemaEnums.Noted
import SchemaEnums.Schema.Parse

namespace SchemaEnums

inductive LoadError where
  | malformed (e : Schema.Error)
  | repeatedNumber (r : RepeatedNumber)
deriving DecidableEq, Repr

def LoadError.message : LoadError → String
  | malformed e => e.message
  | repeatedNumber r => r.message

namespace EnumDescriptor

def loadNote (d : EnumDescriptor) : String :=
  s!"Enum {d.fullName}: {inspectList (d.values.map ValueDescriptor.inspectPair)}"

/-- Makes sure that no number of the enum is repeated without leave. -/
def check (d : EnumDescriptor) : Noted LoadError Unit :=
  match d.repeated? with
  | some r => .ofExcept (.error (.repeatedNumber r))
  | none => .note d.loadNote

def checkAll : List EnumDescriptor → Noted LoadError Unit
  | [] => pure ()
  | d :: ds => do
    d.check
    checkAll ds

end EnumDescriptor

namespace FileDescriptor

def loadNote (f : FileDescriptor) : String :=
  let package := f.package.getD "None"
  s!"Loaded {f.enums.length} enums from {shownFile f.file} (package={package})"

/-- Loads a text. It fails at the first enum with a number that is repeated without leave. -/
def load (file : Option String) (text : String) : Noted LoadError FileDescriptor := do
  let s ← .ofExcept ((Schema.parse text).mapError .malformed)
  let f := ofSchema file text.toList s
  EnumDescriptor.checkAll f.enums
  .note f.loadNote
  return f

end FileDescriptor

end SchemaEnums
