import SchemaEnums.Descriptor
import SchemaEnums.Text.Case

namespace SchemaEnums

namespace SharedPrefix

def isCapital (c : Char) : Bool :=
  c.isUpper

/-- Sets an underscore before every capital, and writes it small. -/
def separate (cs : List Char) : List Char :=
  cs.flatMap fun c => if isCapital c then ['_', c.toLower] else [c]

def dropUnderscore : List Char → List Char
  | '_' :: cs => cs
  | cs => cs

/-- The prefix that belongs to the name of an enum: `MY_ENUM_` for `MyEnum`. -/
def ofName (name : List Char) : List Char :=
  Text.toUpper (dropUnderscore (separate name)) ++ ['_']

/-- Holds of what may be left of a name without its prefix: a capital, and at least one more
character on the same line. -/
def isRemainder : List Char → Bool
  | c :: d :: _ => isCapital c && d != '\n'
  | _ => false

def fits (start name : List Char) : Bool :=
  match start.isPrefixOf? name with
  | some rest => isRemainder rest
  | none => false

end SharedPrefix

namespace EnumDescriptor

/-- The prefix that all value names share, if there is one. -/
def sharedPrefixChars? (d : EnumDescriptor) : Option (List Char) :=
  match Text.filled? d.name with
  | none => none
  | some name =>
    let start := SharedPrefix.ofName name.toList
    if !d.values.isEmpty && d.values.all fun v => SharedPrefix.fits start v.name.toList then
      some start
    else none

def sharedPrefix? (d : EnumDescriptor) : Option String :=
  d.sharedPrefixChars?.map String.ofList

end EnumDescriptor

end SchemaEnums
