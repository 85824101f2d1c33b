import SchemaEnums.Text.Filled
import SchemaEnums.TypeScript.Expr
import SchemaEnums.TypeScript.JsDoc

namespace SchemaEnums.TypeScript

structure Member where
  name : String
  number : Int
  comment : Option String := none
deriving DecidableEq, Repr

structure EnumDeclaration where
  name : Identifier
  members : List Member
  modifiers : List String := []
  comment : Option String := none
deriving DecidableEq, Repr

inductive VariableKind where
  | const
  | letBinding
  | var
deriving DecidableEq, Repr

/-- A text that declares no variable. -/
structure UnknownKeyword where
  keyword : String
deriving DecidableEq, Repr

def UnknownKeyword.message (e : UnknownKeyword) : String :=
  s!"Unknown declaration keyword '{e.keyword}'."

namespace VariableKind

def word : VariableKind → String
  | const => "const"
  | letBinding => "let"
  | var => "var"

def all : List VariableKind :=
  [const, letBinding, var]

def ofWord (keyword : String) : Except UnknownKeyword VariableKind :=
  match all.find? fun k => k.word == keyword with
  | some k => .ok k
  | none => .error { keyword }

end VariableKind

structure VariableDeclaration where
  name : Identifier
  initializer : Expr
  modifiers : List String := []
  kind : VariableKind := .const
  comment : Option String := none

inductive Statement where
  | enum (d : EnumDeclaration)
  | binding (d : VariableDeclaration)
  | expression (e : Expr) (comment : Option String)

/-- The lines of a documentation comment, if there is one. An empty comment counts as none. -/
def commentLines (indent : List Char) (comment : Option String) : List (List Char) :=
  match Text.filled? comment with
  | some text => docChars text.toList indent
  | none => []

/-- The modifiers of a declaration and its keyword, with a blank between them and behind. -/
def introduction (modifiers : List String) (keyword : String) : List Char :=
  (" ".intercalate (modifiers ++ [keyword])).toList ++ [' ']

/-- The line of a member, without the comma behind it. -/
def Member.line (indent : List Char) (m : Member) : List Char :=
  indent ++ m.name.toList ++ [' ', '=', ' '] ++ (toString m.number).toList

namespace EnumDeclaration

/-- The lines of the members. A comma stands behind all but the last. -/
def memberLines (indent : List Char) : List Member → List (List Char)
  | [] => []
  | [m] => commentLines indent m.comment ++ [m.line indent]
  | m :: ms => commentLines indent m.comment ++ [m.line indent ++ [',']] ++ memberLines indent ms

def lines (indent : List Char) (d : EnumDeclaration) : List (List Char) :=
  commentLines indent d.comment ++
    [indent ++ introduction d.modifiers "enum" ++ d.name.text.toList ++ [' ', '{']] ++
    memberLines (indent ++ indentStep) d.members ++ [indent ++ ['}']]

end EnumDeclaration

/-- The lines of the declaration; the last one may itself have several lines. -/
def VariableDeclaration.lines (indent : List Char) (d : VariableDeclaration) : List (List Char) :=
  commentLines indent d.comment ++
    [indent ++ introduction d.modifiers d.kind.word ++ d.name.text.toList ++ [' ', '=', ' '] ++
      d.initializer.charsAt indent ++ [';']]

namespace Statement

def charsAt (indent : List Char) : Statement → List Char
  | enum d => Text.joinLines (d.lines indent)
  | binding d => Text.joinLines (d.lines indent)
  | expression e _ => e.charsAt indent

/-- The text of a statement on an indented line. -/
def renderAt (indent : String) (s : Statement) : String :=
  String.ofList (s.charsAt indent.toList)

def render (s : Statement) : String :=
  s.renderAt ""

/-- The comment of a statement. An expression has one too, though it is not written. -/
def comment : Statement → Option String
  | enum d => d.comment
  | binding d => d.comment
  | expression _ comment => comment

/-- The statement with another comment. -/
def withComment (s : Statement) (comment : String) : Statement :=
  match s with
  | enum d => enum { d with comment }
  | binding d => binding { d with comment }
  | expression e _ => expression e comment

end Statement

end SchemaEnums.TypeScript
