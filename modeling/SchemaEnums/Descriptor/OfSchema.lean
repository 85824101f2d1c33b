import SchemaEnums.Descriptor
import SchemaEnums.Schema.Attachment
import SchemaEnums.Schema.Item

namespace SchemaEnums.Schema

open Source

/-- The text between the quotes of a string. -/
def unquote (text : String) : String :=
  String.ofList (text.toList.drop 1).dropLast

/-- The name of an option as one text, without parentheses and without a dot in front. -/
def OptionName.text (n : OptionName) : String :=
  match n.root with
  | .plain name => ".".intercalate (name :: n.fields)
  | .extension _ name => ".".intercalate (name.text :: n.fields)

/-- The value of an option as one text, without quotes. -/
def Constant.text : Constant Int → String
  | .name n => n.text
  | .integer n => toString n
  | .float text => text
  | .string text => unquote text

/-- Holds if the last assignment to the option has the value `true`. -/
def isSet (option : String) (assignments : List (Assignment Int)) : Bool :=
  match (assignments.filter fun a => a.name.text == option).getLast? with
  | some a => a.value.text == "true"
  | none => false

def Item.option? : Item Int → Option (Assignment Int)
  | .statement _ (.option a) => some a
  | _ => none

/-- A value as it is declared: its name, its number, its options and its stretch of text. -/
structure ValueItem where
  span : Span
  name : String
  number : Int
  options : List (Assignment Int)
deriving DecidableEq, Repr

def Item.value? : Item Int → Option ValueItem
  | .statement span (.value name number options) => some { span, name, number, options }
  | _ => none

/-- What the descriptors of a schema have in common: the file's name, its text and its comments. -/
structure Origin where
  file : Option String
  source : List Char
  comments : List Comment
deriving Repr

namespace Origin

/-- The documentation of a declaration at `start`, with its trailing comment at `stop`. -/
def documentation (o : Origin) (start stop : Position) (bound : Option Position) : Documentation :=
  { leading := leadingText? o.source o.comments start
    trailing := trailingText? o.comments stop bound }

/-- The descriptor of a value. Its trailing comment begins no later than the next value. -/
def value (o : Origin) (v : ValueItem) (next : Option ValueItem) : ValueDescriptor :=
  { name := v.name
    number := v.number
    documentation := o.documentation v.span.start v.span.stop (next.map (·.span.start))
    deprecated := isSet "deprecated" v.options
    file := o.file
    line := v.span.start.line }

def values (o : Origin) : List ValueItem → List ValueDescriptor
  | [] => []
  | v :: vs => o.value v vs.head? :: values o vs

/-- The descriptor of an enum. Its trailing comment stands behind its name and begins no later than
its first value or, if it has none, than its end. -/
def enum (o : Origin) (package : Option String) (parents : List String) (span : Span) (head : Head)
    (items : List (Item Int)) : EnumDescriptor :=
  let vs := items.filterMap Item.value?
  let options := items.filterMap Item.option?
  { name := head.name
    values := o.values vs
    documentation :=
      o.documentation span.start head.nameEnd ((vs.head?.map (·.span.start)).getD span.stop)
    package
    parents
    deprecated := isSet "deprecated" options
    allowAlias := isSet "allow_alias" options
    file := o.file
    line := span.start.line }

mutual

/-- The enums of an item that stands in the messages `parents`. -/
def enumsOfItem (o : Origin) (package : Option String) (parents : List String) :
    Item Int → List EnumDescriptor
  | .statement _ _ => []
  | .block span head items =>
    match head.kind with
    | .enum => [o.enum package parents span head items]
    | .message => enumsOfItems o package (parents ++ [head.name]) items
    | .oneof => []

/-- The enums of the items of a message; `parents` are the messages around them. -/
def enumsOfItems (o : Origin) (package : Option String) (parents : List String) :
    List (Item Int) → List EnumDescriptor
  | [] => []
  | item :: items =>
    enumsOfItem o package parents item ++ enumsOfItems o package parents items

end

/-- The enums of a schema's items, however deep the messages are that they stand in. A package
statement counts for the enums that follow it; `package` is the one before the items. -/
def enumsAfter (o : Origin) (package : Option String) : List (Item Int) → List EnumDescriptor
  | [] => []
  | .statement _ (.package name) :: items => enumsAfter o (some name.text) items
  | item :: items => enumsOfItem o package [] item ++ enumsAfter o package items

end Origin

def Item.package? : Item Int → Option String
  | .statement _ (.package name) => some name.text
  | _ => none

def Item.edition? : Item Int → Option String
  | .statement _ (.edition text) => some (unquote text)
  | _ => none

end SchemaEnums.Schema

namespace SchemaEnums

open Schema

/-- The descriptor of a schema that was read from the text `source`. Of several package statements,
or of several statements of the edition, the last one counts for the file. -/
def FileDescriptor.ofSchema (file : Option String) (source : List Char) (s : Schema Int) :
    FileDescriptor :=
  let origin : Origin := { file, source, comments := s.comments }
  { file
    enums := origin.enumsAfter none s.items
    package := (s.items.filterMap Item.package?).getLast?
    edition := (s.items.filterMap Item.edition?).getLast? }

end SchemaEnums
