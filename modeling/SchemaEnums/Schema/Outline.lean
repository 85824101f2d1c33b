import SchemaEnums.Schema.Item
import SchemaEnums.Source.Token

namespace SchemaEnums.Schema

open Source

/-- A node for a rule, with its stretch of text if it is an enum or one of its values, or a leaf. -/
inductive Outline where
  | node (rule : String) (children : List Outline) (span : Option Span)
  | token (kind : Kind) (text : String)
  | integer (n : Int)

namespace Outline

def rule (name : String) (children : List Outline) : Outline :=
  node name children none

def ofDottedName (n : DottedName) : Outline :=
  rule "full_ident" (n.parts.map (token .name))

def ofConstant : Constant Int → Outline
  | .name n => ofDottedName n
  | .integer n => integer n
  | .float text => token .float text
  | .string text => token .string text

def ofOptionRoot : OptionRoot → Outline
  | .plain name => token .name name
  | .extension _ name => ofDottedName name

def ofAssignmentParts (a : Assignment Int) : List Outline :=
  [rule "option_name" (ofOptionRoot a.name.root :: a.name.fields.map (token .name)),
    ofConstant a.value]

def ofOptions (name : String) (options : List (Assignment Int)) : List Outline :=
  if options.isEmpty then []
  else [rule name (options.map fun a => rule "option_assign" (ofAssignmentParts a))]

def ofFieldToken : FieldToken → Outline
  | .name text => rule "field_token" [token .name text]
  | _ => rule "field_token" []

def ofRangeEnd : RangeEnd Int → List Outline
  | .number n => [integer n]
  | _ => []

def ofReservedItem : ReservedItem Int → Outline
  | .range first last => rule "reserved_range" (integer first :: ofRangeEnd last)
  | .string text => token .string text
  | .name text => token .name text

def ofStatement (span : Span) : Statement Int → Outline
  | .edition text => rule "syntax_stmt" [token .string text]
  | .package name => rule "package_stmt" [ofDottedName name]
  | .importFile modifier path =>
    rule "import_stmt" ((modifier.map (token .modifier)).toList ++ [token .string path])
  | .option a => rule "option_stmt" (ofAssignmentParts a)
  | .field tokens number options =>
    rule "field_def"
      (tokens.map ofFieldToken ++ integer number :: ofOptions "field_options" options)
  | .value name number options =>
    node "enum_value" (token .name name :: integer number :: ofOptions "enum_value_options" options)
      (some span)
  | .reserved items => rule "reserved_stmt" (items.map ofReservedItem)
  | .extensions items options =>
    rule "extensions_stmt" (items.map ofReservedItem ++ ofOptions "field_options" options)
  | .empty => rule "empty_stmt" []

def ofBlock (span : Span) (head : Head) (items : List Outline) : Outline :=
  let children := token .name head.name :: items
  match head.kind with
  | .message => rule "message_def" children
  | .oneof => rule "oneof_def" children
  | .enum => node "enum_def" children (some span)

mutual

def ofItem : Item Int → Outline
  | .statement span s => ofStatement span s
  | .block span head items => ofBlock span head (ofItems items)

def ofItems : List (Item Int) → List Outline
  | [] => []
  | item :: items => ofItem item :: ofItems items

end

end Outline

/-- The outline of a schema. Keywords and marks leave no trace in it, so `5` and `5 to max` have the
same outline. -/
def outline (s : Schema Int) : Outline :=
  .rule "start" (Outline.ofItems s.items)

end SchemaEnums.Schema
