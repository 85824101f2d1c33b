import SchemaEnums.Schema.Item
import SchemaEnums.Source.Context

namespace SchemaEnums.Schema

open Source

/-- Where only marks are looked for. -/
def marks : Context := {}

/-- Where a dot may follow. -/
def dotted : Context := { dot := true }

def names : Context := { name := true }

/-- What is looked for after any integer: a range may be expected, whatever the integer is for. -/
def afterInteger : Context := { keywords := [.upTo] }

/-- At the start of the text, and after a statement that occurs in no block. -/
def betweenStatements : Context :=
  { keywords := [.syntaxLevel, .edition, .package, .importFile, .option, .message, .enum] }

/-- After an item that occurs in the text and in blocks alike. -/
def betweenItems : Context :=
  { keywords := [.syntaxLevel, .edition, .package, .importFile, .option, .message, .enum, .oneof,
      .reserved, .extensions]
    name := true
    dot := true }

/-- Inside a message, and after an item that occurs in messages but not outside blocks. -/
def insideMessage : Context :=
  { keywords := [.option, .message, .enum, .oneof, .reserved, .extensions]
    name := true
    dot := true }

def insideOneof : Context :=
  { keywords := [.option], name := true, dot := true }

/-- After the opening brace of an enum, and after its values. -/
def insideEnum : Context :=
  { keywords := [.option, .reserved], name := true }

def BlockKind.opened : BlockKind → Context
  | .message => insideMessage
  | .oneof => insideOneof
  | .enum => insideEnum

def BlockKind.closed : BlockKind → Context
  | .message => betweenItems
  | .oneof => insideMessage
  | .enum => betweenItems

def Statement.follow {ν : Type} : Statement ν → Context
  | .edition _ => betweenStatements
  | .package _ => betweenStatements
  | .importFile _ _ => betweenStatements
  | .option _ => betweenItems
  | .empty => betweenItems
  | .value _ _ _ => insideEnum
  | .field _ _ _ => insideMessage
  | .reserved _ => insideMessage
  | .extensions _ _ => insideMessage

/-- A place inside an option with its value. -/
inductive OptionPlace where
  | start
  | paren
  | rootedParen
  | inParens (rooted : Bool) (name : DottedName)
  | inParensDot (rooted : Bool) (name : DottedName)
  | named (name : OptionName)
  | namedDot (name : OptionName)
  | value (name : OptionName)
  | nameValue (name : OptionName) (n : DottedName)
  | nameValueDot (name : OptionName) (n : DottedName)
  | assigned (a : Assignment String)
deriving DecidableEq, Repr

namespace OptionPlace

def context : OptionPlace → Context
  | start => names
  | paren => { name := true, dot := true }
  | rootedParen => names
  | inParens _ _ => dotted
  | inParensDot _ _ => names
  | named _ => dotted
  | namedDot _ => names
  | value _ => { name := true, integer := true, float := true }
  | nameValue _ _ => dotted
  | nameValueDot _ _ => names
  | assigned { value := .integer _, .. } => afterInteger
  | assigned _ => marks

/-- The place after one more token of the option, if the token belongs to it. -/
def next? : OptionPlace → Token → Option OptionPlace
  | start, t =>
    match t.kind with
    | .name => some (named { root := .plain t.text })
    | .openParen => some paren
    | _ => none
  | paren, t =>
    match t.kind with
    | .dot => some rootedParen
    | .name => some (inParens false { head := t.text })
    | _ => none
  | rootedParen, t =>
    match t.kind with
    | .name => some (inParens true { head := t.text })
    | _ => none
  | inParens rooted n, t =>
    match t.kind with
    | .dot => some (inParensDot rooted n)
    | .closeParen => some (named { root := .extension rooted n })
    | _ => none
  | inParensDot rooted n, t =>
    match t.kind with
    | .name => some (inParens rooted (n.push t.text))
    | _ => none
  | named o, t =>
    match t.kind with
    | .dot => some (namedDot o)
    | .equal => some (value o)
    | _ => none
  | namedDot o, t =>
    match t.kind with
    | .name => some (named { o with fields := o.fields ++ [t.text] })
    | _ => none
  | value o, t =>
    match t.kind with
    | .name => some (nameValue o { head := t.text })
    | .integer => some (assigned { name := o, value := .integer t.text })
    | .float => some (assigned { name := o, value := .float t.text })
    | .string => some (assigned { name := o, value := .string t.text })
    | _ => none
  | nameValue o n, t =>
    match t.kind with
    | .dot => some (nameValueDot o n)
    | _ => none
  | nameValueDot o n, t =>
    match t.kind with
    | .name => some (nameValue o (n.push t.text))
    | _ => none
  | assigned _, _ => none

def complete? : OptionPlace → Option (Assignment String)
  | nameValue o n => some { name := o, value := .name n }
  | assigned a => some a
  | _ => none

end OptionPlace

/-- A statement that options in brackets belong to. -/
inductive Owner where
  | field (tokens : List FieldToken) (number : String)
  | value (name number : String)
  | extensions (items : List (ReservedItem String))
deriving DecidableEq, Repr

def Owner.statement (o : Owner) (options : List (Assignment String)) : Statement String :=
  match o with
  | .field tokens number => .field tokens number options
  | .value name number => .value name number options
  | .extensions items => .extensions items options

/-- Where an option stands: in a statement of its own, or in brackets after other options. -/
inductive Site where
  | statement
  | brackets (owner : Owner) (done : List (Assignment String))
deriving DecidableEq, Repr

/-- A place inside a list of things set aside. -/
inductive RangePlace where
  | start
  | first (n : String)
  | upTo (n : String)
  | done (item : ReservedItem String)
deriving DecidableEq, Repr

namespace RangePlace

def context : RangePlace → Context
  | start => { name := true, integer := true }
  | first _ => afterInteger
  | upTo _ => { keywords := [.max], integer := true }
  | done (.range _ (.number _)) => afterInteger
  | done _ => marks

/-- The place after one more token of the thing set aside, if the token belongs to it. -/
def next? : RangePlace → Token → Option RangePlace
  | start, t =>
    match t.kind with
    | .integer => some (first t.text)
    | .name => some (done (.name t.text))
    | .string => some (done (.string t.text))
    | _ => none
  | first n, t =>
    match t.kind with
    | .keyword .upTo => some (upTo n)
    | _ => none
  | upTo n, t =>
    match t.kind with
    | .integer => some (done (.range n (.number t.text)))
    | .keyword .max => some (done (.range n .max))
    | _ => none
  | done _, _ => none

def complete? : RangePlace → Option (ReservedItem String)
  | first n => some (.range n .same)
  | done item => some item
  | _ => none

end RangePlace

/-- A place inside a statement or inside the head of a block: what has been read of it so far. The
flag of `ranges` tells an `extensions` statement from a `reserved` one. -/
inductive Place where
  | edition
  | editionText
  | editionEnd (text : String)
  | package
  | packageName (n : DottedName)
  | packageDot (n : DottedName)
  | importFile
  | importPath (modifier : String)
  | importEnd (modifier : Option String) (path : String)
  | option (site : Site) (p : OptionPlace)
  | optionsEnd (owner : Owner) (options : List (Assignment String))
  | blockName (kind : BlockKind)
  | blockOpen (head : Head)
  | field (tokens : List FieldToken)
  | fieldNumber (tokens : List FieldToken)
  | fieldEnd (tokens : List FieldToken) (number : String)
  | value (name : String)
  | valueNumber (name : String)
  | valueEnd (name number : String)
  | ranges (extensions : Bool) (done : List (ReservedItem String)) (p : RangePlace)
deriving DecidableEq, Repr

/-- What a token does: it takes the statement further, ends it, opens a block or closes one. -/
inductive Move where
  | go (p : Place)
  | finish (s : Statement String)
  | openBlock (head : Head)
  | closeBlock
deriving DecidableEq, Repr

def FieldToken.ofToken? (t : Token) : Option FieldToken :=
  match t.kind with
  | .name => some (.name t.text)
  | .dot => some .dot
  | .comma => some .comma
  | .less => some .less
  | .greater => some .greater
  | _ => none

/-- What a token does after an option that may end there. -/
def Site.close? (site : Site) (a : Assignment String) (kind : Kind) : Option Move :=
  match site with
  | .statement =>
    match kind with
    | .semicolon => some (.finish (.option a))
    | _ => none
  | .brackets owner done =>
    match kind with
    | .comma => some (.go (.option (.brackets owner (done ++ [a])) .start))
    | .closeBracket => some (.go (.optionsEnd owner (done ++ [a])))
    | _ => none

/-- What a token does after a thing set aside that may end there. -/
def closeRange? (extensions : Bool) (done : List (ReservedItem String)) (kind : Kind) :
    Option Move :=
  match kind with
  | .comma => some (.go (.ranges extensions done .start))
  | .semicolon =>
    some (.finish (if extensions then .extensions done [] else .reserved done))
  | .openBracket =>
    if extensions then some (.go (.option (.brackets (.extensions done) []) .start)) else none
  | _ => none

namespace Place

def context : Place → Context
  | edition => marks
  | editionText => marks
  | editionEnd _ => marks
  | package => names
  | packageName _ => dotted
  | packageDot _ => names
  | importFile => { modifier := true }
  | importPath _ => marks
  | importEnd _ _ => marks
  | option _ p => p.context
  | optionsEnd _ _ => marks
  | blockName _ => names
  | blockOpen _ => marks
  | field _ => { name := true, dot := true }
  | fieldNumber _ => { integer := true }
  | fieldEnd _ _ => afterInteger
  | value _ => marks
  | valueNumber _ => { integer := true }
  | valueEnd _ _ => afterInteger
  | ranges _ _ p => p.context

/-- What a token does at a place, if it is allowed there. -/
def next? : Place → Token → Option Move
  | edition, t =>
    match t.kind with
    | .equal => some (.go editionText)
    | _ => none
  | editionText, t =>
    match t.kind with
    | .string => some (.go (editionEnd t.text))
    | _ => none
  | editionEnd text, t =>
    match t.kind with
    | .semicolon => some (.finish (.edition text))
    | _ => none
  | package, t =>
    match t.kind with
    | .name => some (.go (packageName { head := t.text }))
    | _ => none
  | packageName n, t =>
    match t.kind with
    | .dot => some (.go (packageDot n))
    | .semicolon => some (.finish (.package n))
    | _ => none
  | packageDot n, t =>
    match t.kind with
    | .name => some (.go (packageName (n.push t.text)))
    | _ => none
  | importFile, t =>
    match t.kind with
    | .modifier => some (.go (importPath t.text))
    | .string => some (.go (importEnd none t.text))
    | _ => none
  | importPath m, t =>
    match t.kind with
    | .string => some (.go (importEnd (some m) t.text))
    | _ => none
  | importEnd m path, t =>
    match t.kind with
    | .semicolon => some (.finish (.importFile m path))
    | _ => none
  | option site p, t =>
    match p.next? t with
    | some q => some (.go (option site q))
    | none => p.complete?.bind fun a => site.close? a t.kind
  | optionsEnd owner options, t =>
    match t.kind with
    | .semicolon => some (.finish (owner.statement options))
    | _ => none
  | blockName kind, t =>
    match t.kind with
    | .name => some (.go (blockOpen { kind, name := t.text, nameEnd := t.span.stop }))
    | _ => none
  | blockOpen head, t =>
    match t.kind with
    | .openBrace => some (.openBlock head)
    | _ => none
  | field tokens, t =>
    match t.kind with
    | .equal => some (.go (fieldNumber tokens))
    | _ => (FieldToken.ofToken? t).map fun f => .go (field (tokens ++ [f]))
  | fieldNumber tokens, t =>
    match t.kind with
    | .integer => some (.go (fieldEnd tokens t.text))
    | _ => none
  | fieldEnd tokens n, t =>
    match t.kind with
    | .semicolon => some (.finish (.field tokens n []))
    | .openBracket => some (.go (option (.brackets (.field tokens n) []) .start))
    | _ => none
  | value name, t =>
    match t.kind with
    | .equal => some (.go (valueNumber name))
    | _ => none
  | valueNumber name, t =>
    match t.kind with
    | .integer => some (.go (valueEnd name t.text))
    | _ => none
  | valueEnd name n, t =>
    match t.kind with
    | .semicolon => some (.finish (.value name n []))
    | .openBracket => some (.go (option (.brackets (.value name n) []) .start))
    | _ => none
  | ranges extensions done p, t =>
    match p.next? t with
    | some q => some (.go (ranges extensions done q))
    | none => p.complete?.bind fun item => closeRange? extensions (done ++ [item]) t.kind

end Place

/-- What a token does at the beginning of an item, inside a block of the given kind or outside all
blocks. -/
def begin? (body : Option BlockKind) (t : Token) : Option Move :=
  match body with
  | none =>
    match t.kind with
    | .keyword .syntaxLevel => some (.go .edition)
    | .keyword .edition => some (.go .edition)
    | .keyword .package => some (.go .package)
    | .keyword .importFile => some (.go .importFile)
    | .keyword .option => some (.go (.option .statement .start))
    | .keyword .message => some (.go (.blockName .message))
    | .keyword .enum => some (.go (.blockName .enum))
    | .semicolon => some (.finish .empty)
    | _ => none
  | some .message =>
    match t.kind with
    | .keyword .option => some (.go (.option .statement .start))
    | .keyword .message => some (.go (.blockName .message))
    | .keyword .enum => some (.go (.blockName .enum))
    | .keyword .oneof => some (.go (.blockName .oneof))
    | .keyword .reserved => some (.go (.ranges false [] .start))
    | .keyword .extensions => some (.go (.ranges true [] .start))
    | .semicolon => some (.finish .empty)
    | .closeBrace => some .closeBlock
    | _ => (FieldToken.ofToken? t).map fun f => .go (.field [f])
  | some .oneof =>
    match t.kind with
    | .keyword .option => some (.go (.option .statement .start))
    | .semicolon => some (.finish .empty)
    | .closeBrace => some .closeBlock
    | _ => (FieldToken.ofToken? t).map fun f => .go (.field [f])
  | some .enum =>
    match t.kind with
    | .keyword .option => some (.go (.option .statement .start))
    | .keyword .reserved => some (.go (.ranges false [] .start))
    | .name => some (.go (.value t.text))
    | .semicolon => some (.finish .empty)
    | .closeBrace => some .closeBlock
    | _ => none

end SchemaEnums.Schema
