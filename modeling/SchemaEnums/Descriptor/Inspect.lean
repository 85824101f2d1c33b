import SchemaEnums.Descriptor
import SchemaEnums.Text.Quoted

namespace SchemaEnums

/-- Items in brackets, as descriptors show them for inspection. -/
def inspectList (items : List String) : String :=
  "[" ++ ", ".intercalate items ++ "]"

def inspectName : Option String → String
  | none => "None"
  | some name => Text.quoted name

def inspectLine : Option Nat → String
  | none => "None"
  | some line => line.repr

def CatalogEntry.inspect (e : CatalogEntry) : String :=
  s!"EnumCatalogEntry(name={Text.quoted e.name}, number={e.number})"

namespace ValueDescriptor

def inspect (v : ValueDescriptor) : String :=
  s!"ModelEnumValue(name={Text.quoted v.name}, number={v.number})"

def inspectPair (v : ValueDescriptor) : String :=
  s!"({Text.quoted v.name}, {v.number})"

end ValueDescriptor

def EnumDescriptor.inspect (d : EnumDescriptor) : String :=
  let values := inspectList (d.values.map ValueDescriptor.inspect)
  s!"ModelEnum(name={inspectName d.name}, values={values})"

end SchemaEnums
