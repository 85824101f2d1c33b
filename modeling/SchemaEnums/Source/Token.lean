import SchemaEnums.Source.Position

namespace SchemaEnums.Source

inductive Keyword where
  | syntaxLevel
  | edition
  | package
  | importFile
  | option
  | message
  | oneof
  | enum
  | reserved
  | extensions
  | upTo
  | max
deriving DecidableEq, Repr

namespace Keyword

def word : Keyword → String
  | syntaxLevel => "syntax"
  | edition => "edition"
  | package => "package"
  | importFile => "import"
  | option => "option"
  | message => "message"
  | oneof => "oneof"
  | enum => "enum"
  | reserved => "reserved"
  | extensions => "extensions"
  | upTo => "to"
  | max => "max"

def all : List Keyword :=
  [syntaxLevel, edition, package, importFile, option, message, oneof, enum, reserved, extensions,
    upTo, max]

end Keyword

inductive Kind where
  | keyword (k : Keyword)
  | name
  | integer
  | float
  | string
  | modifier
  | semicolon
  | equal
  | openBrace
  | closeBrace
  | openBracket
  | closeBracket
  | openParen
  | closeParen
  | dot
  | comma
  | less
  | greater
deriving DecidableEq, Repr

/-- The title of the class in messages. -/
def Kind.title : Kind → String
  | keyword k => k.word.toUpper
  | name => "NAME"
  | integer => "INT_LIT"
  | float => "FLOAT"
  | string => "STRING"
  | modifier => "IMPORT_MODIFIER"
  | semicolon => "SEMICOLON"
  | equal => "EQUAL"
  | openBrace => "LBRACE"
  | closeBrace => "RBRACE"
  | openBracket => "LSQB"
  | closeBracket => "RSQB"
  | openParen => "LPAR"
  | closeParen => "RPAR"
  | dot => "DOT"
  | comma => "COMMA"
  | less => "LESSTHAN"
  | greater => "MORETHAN"

structure Token where
  kind : Kind
  text : String
  span : Span
deriving DecidableEq, Repr

end SchemaEnums.Source
