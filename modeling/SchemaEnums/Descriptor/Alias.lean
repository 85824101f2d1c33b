import SchemaEnums.Descriptor.Inspect

namespace SchemaEnums

/-- A value with a number that an earlier value of the enum has, where that is not allowed. -/
structure RepeatedNumber where
  file : Option String
  line : Option Nat
  name : String
  number : Int
  earlier : String
  enum : String
deriving DecidableEq, Repr

namespace RepeatedNumber

/-- What the message says behind the file. -/
def complaint (r : RepeatedNumber) : String :=
  s!":{inspectLine r.line}: " ++
    s!"'{r.name}' uses number {r.number} already used by '{r.earlier}' " ++
    s!"in enum '{r.enum}'. Set option allow_alias = true to allow aliases."

def message (r : RepeatedNumber) : String :=
  shownFile r.file ++ r.complaint

end RepeatedNumber

namespace ValueDescriptor

/-- The first value with a number that occurs before it, and the value that has it there. `seen` are
the values before the list. -/
def firstRepeat? (seen : List ValueDescriptor) :
    List ValueDescriptor → Option (ValueDescriptor × ValueDescriptor)
  | [] => none
  | v :: vs =>
    match seen.find? fun w => w.number == v.number with
    | some earlier => some (v, earlier)
    | none => firstRepeat? (v :: seen) vs

end ValueDescriptor

/-- The first value that repeats a number, unless the enum allows aliases. -/
def EnumDescriptor.repeated? (d : EnumDescriptor) : Option RepeatedNumber :=
  if d.allowAlias then none
  else (ValueDescriptor.firstRepeat? [] d.values).map fun (v, earlier) =>
    { file := v.file
      line := v.line
      name := v.name
      number := v.number
      earlier := earlier.name
      enum := d.fullName }

end SchemaEnums
