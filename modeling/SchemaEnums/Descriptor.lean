import SchemaEnums.Catalog.Entry
import SchemaEnums.Documentation

namespace SchemaEnums

structure ValueDescriptor where
  name : String
  number : Int
  documentation : Documentation := {}
  deprecated : Bool := false
  file : Option String := none
  line : Option Nat := none
deriving DecidableEq, Repr

/-- An enum. It need not come from a schema, and then it may lack a name. `parents` are the messages
around it, the outermost first; `catalog` is the catalog that was assigned to it, if one was. -/
structure EnumDescriptor where
  name : Option String
  values : List ValueDescriptor
  documentation : Documentation := {}
  package : Option String := none
  parents : List String := []
  deprecated : Bool := false
  allowAlias : Bool := false
  file : Option String := none
  line : Option Nat := none
  catalog : Option Catalog := none
deriving DecidableEq, Repr

/-- The enums of a file, those of inner messages included, in the order of their declarations. -/
structure FileDescriptor where
  file : Option String
  enums : List EnumDescriptor
  package : Option String := none
  edition : Option String := none
deriving DecidableEq, Repr

namespace EnumDescriptor

def anonymous : String := "<anonymous>"

/-- The parts of the enum's full name: the package, the messages around it and its own name. -/
def path (d : EnumDescriptor) : List String :=
  (Text.filled? d.package).toList ++ d.parents ++ [(Text.filled? d.name).getD anonymous]

def fullName (d : EnumDescriptor) : String :=
  ".".intercalate d.path

/-- The first value with the number. -/
def valueOf? (d : EnumDescriptor) (number : Int) : Option ValueDescriptor :=
  d.values.find? fun v => v.number == number

end EnumDescriptor

/-- How a file is named in messages and notes. -/
def shownFile (file : Option String) : String :=
  (Text.filled? file).getD "<text>"

def FileDescriptor.indexOf? (f : FileDescriptor) (fullName : String) : Option Nat :=
  f.enums.findIdx? fun d => d.fullName == fullName

end SchemaEnums
