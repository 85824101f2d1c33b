import SchemaEnums.Descriptor.Load
import SchemaEnums.Text.Newlines
import SchemaEnums.Text.Raw

namespace SchemaEnums

inductive LoadBytesError where
  | undecodable (f : Text.Utf8.Fault)
  | unloadable (e : LoadError)
deriving DecidableEq, Repr

/-- The message about the bytes of a file, which is named as it is. -/
def LoadBytesError.message (file : RawText) : LoadBytesError → RawText
  | undecodable f => f.message
  | unloadable (.malformed e) => e.message
  | unloadable (.repeatedNumber r) => .concat [if file.isEmpty then "<text>" else file, r.complaint]

/-- Loads the bytes of a file. Notes and errors have its name with escapes. -/
def FileDescriptor.loadBytes (file : RawText) (bytes : List UInt8) :
    Noted LoadBytesError FileDescriptor :=
  match Text.Utf8.decode bytes with
  | .error f => .ofExcept (.error (.undecodable f))
  | .ok cs => (load file.escaped (String.ofList (Text.unifyNewlines cs))).mapError .unloadable

end SchemaEnums
