import SchemaEnums.Source.Comment

namespace SchemaEnums.Schema

open Source

structure DottedName where
  head : String
  tail : List String := []
deriving DecidableEq, Repr

namespace DottedName

def push (n : DottedName) (part : String) : DottedName :=
  { n with tail := n.tail ++ [part] }

def parts (n : DottedName) : List String :=
  n.head :: n.tail

/-- The name as it is written without gaps. -/
def text (n : DottedName) : String :=
  ".".intercalate n.parts

end DottedName

/-- The value of an option. Strings keep their quotes. -/
inductive Constant (ν : Type) where
  | name (n : DottedName)
  | integer (n : ν)
  | float (text : String)
  | string (text : String)
deriving DecidableEq, Repr

/-- The first part of an option's name: a plain name, or the name of an extension in parentheses,
with a dot before it if it is `rooted`. -/
inductive OptionRoot where
  | plain (name : String)
  | extension (rooted : Bool) (name : DottedName)
deriving DecidableEq, Repr

/-- A first part and the fields selected from it. -/
structure OptionName where
  root : OptionRoot
  fields : List String := []
deriving DecidableEq, Repr

structure Assignment (ν : Type) where
  name : OptionName
  value : Constant ν
deriving DecidableEq, Repr

/-- A part of a field declaration before its number. -/
inductive FieldToken where
  | name (text : String)
  | dot
  | comma
  | less
  | greater
deriving DecidableEq, Repr

/-- Where a range of numbers ends: where it begins, at a number, or nowhere. -/
inductive RangeEnd (ν : Type) where
  | same
  | number (n : ν)
  | max
deriving DecidableEq, Repr

/-- What is set aside by `reserved` and `extensions` statements. -/
inductive ReservedItem (ν : Type) where
  | range (first : ν) (last : RangeEnd ν)
  | string (text : String)
  | name (text : String)
deriving DecidableEq, Repr

/-- A statement without a body. An empty list of options stands for no brackets at all. -/
inductive Statement (ν : Type) where
  | edition (text : String)
  | package (name : DottedName)
  | importFile (modifier : Option String) (path : String)
  | option (assignment : Assignment ν)
  | field (tokens : List FieldToken) (number : ν) (options : List (Assignment ν))
  | value (name : String) (number : ν) (options : List (Assignment ν))
  | reserved (items : List (ReservedItem ν))
  | extensions (items : List (ReservedItem ν)) (options : List (Assignment ν))
  | empty
deriving DecidableEq, Repr

inductive BlockKind where
  | message
  | oneof
  | enum
deriving DecidableEq, Repr

/-- What stands before the body of a block; `nameEnd` is the position after its name. -/
structure Head where
  kind : BlockKind
  name : String
  nameEnd : Position
deriving DecidableEq, Repr

/-- A statement or a block, from its first token to its last. -/
inductive Item (ν : Type) where
  | statement (span : Span) (s : Statement ν)
  | block (span : Span) (head : Head) (items : List (Item ν))

def Item.span {ν : Type} : Item ν → Span
  | .statement span _ => span
  | .block span _ _ => span

end SchemaEnums.Schema

namespace SchemaEnums

/-- A schema: its items, and the comments between its tokens in order. Integers are of any type `ν`:
literals as they are written, or the numbers they stand for. -/
structure Schema (ν : Type) where
  items : List (Schema.Item ν)
  comments : List Source.Comment

end SchemaEnums
