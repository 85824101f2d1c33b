import SchemaEnums.Text.Literal
import SchemaEnums.TypeScript.Identifier

namespace SchemaEnums.TypeScript

inductive Expr where
  | identifier (name : Identifier)
  | access (target : Expr) (name : Identifier)
  | string (text : String)
  | object (properties : List (String × Expr))
  | array (elements : List Expr) (multiLine : Bool)

def indentStep : List Char :=
  [' ', ' ', ' ', ' ']

namespace Expr

/-- Pieces of text with a separator between them. -/
def joined (separator : List Char) (pieces : List (List Char)) : List Char :=
  separator.intercalate pieces

def objectChars (properties : List (List Char)) : List Char :=
  if properties.isEmpty then ['{', '}']
  else ['{', ' '] ++ joined [',', ' '] properties ++ [' ', '}']

def propertyChars (name : String) (value : List Char) : List Char :=
  name.toList ++ [':', ' '] ++ value

/-- An array literal on a line indented by `indent`, from the texts of its elements. -/
def arrayChars (indent : List Char) (multiLine : Bool) (elements : List (List Char)) : List Char :=
  if elements.isEmpty then ['[', ']']
  else if multiLine then
    ['[', '\n'] ++ joined [',', '\n'] (elements.map fun e => indent ++ indentStep ++ e) ++ ['\n'] ++
      indent ++ [']']
  else ['['] ++ joined [',', ' '] elements ++ [']']

mutual

def chars : Expr → List Char
  | identifier name => name.text.toList
  | access target name => target.chars ++ ['.'] ++ name.text.toList
  | string text => Text.literalChars text.toList
  | object properties => objectChars (propertiesChars properties)
  | array elements multiLine => arrayChars [] multiLine (listChars elements)

def listChars : List Expr → List (List Char)
  | [] => []
  | e :: es => e.chars :: listChars es

def propertiesChars : List (String × Expr) → List (List Char)
  | [] => []
  | (name, e) :: properties => propertyChars name e.chars :: propertiesChars properties

end

/-- The text of an expression on an indented line. The elements of an array that it consists of
stand one step further in; inner arrays are not indented. -/
def charsAt (indent : List Char) : Expr → List Char
  | array elements multiLine => arrayChars indent multiLine (listChars elements)
  | e => e.chars

def render (e : Expr) : String :=
  String.ofList e.chars

def renderAt (indent : String) (e : Expr) : String :=
  String.ofList (e.charsAt indent.toList)

end Expr

end SchemaEnums.TypeScript
