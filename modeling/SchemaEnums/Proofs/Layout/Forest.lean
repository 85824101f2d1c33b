import SchemaEnums.Descriptor
import SchemaEnums.Proofs.Layout.Attachment
import SchemaEnums.Proofs.Source.Spelling
import SchemaEnums.Schema.Item

namespace SchemaEnums.Layout

open Source Schema

/-- A word that may stand as a name. -/
structure Name where
  text : String
  isName : Lexeme.IsName text.toList

/-- The keywords that statements begin with. -/
def statementKeywords : List Keyword :=
  [.syntaxLevel, .edition, .package, .importFile, .option, .message, .oneof, .enum, .reserved,
    .extensions]

/-- A name that no statement begins with. -/
structure ValueName extends Name where
  ne_word : ∀ k ∈ statementKeywords, k.word ≠ text

/-- A comment on one line, without its slashes. -/
structure Remark where
  text : String
  single : '\n' ∉ text.toList

/-- A value with its comments. -/
structure Value where
  leading : List Remark := []
  name : ValueName
  number : Int
  deprecated : Bool := false
  trailing : Option Remark := none

/-- An enum with its comments. -/
structure Enumeration where
  leading : List Remark := []
  name : Name
  allowAlias : Bool := false
  deprecated : Bool := false
  trailing : Option Remark := none
  values : List Value
  distinct : allowAlias = false → (values.map Value.number).Nodup

/-- An enum, or a message with what is declared in it. -/
inductive Tree where
  | enum (e : Enumeration)
  | message (name : Name) (trees : List Tree)

/-- The declarations of a file, after the statement of their package if there is one. -/
structure Forest where
  package : Option (Name × List Name) := none
  trees : List Tree

/-- What a comment says once its trailing blanks are cut off. -/
def Remark.said (r : Remark) : String :=
  Layout.said r.text.toList

/-- What leading comments say together. -/
def saidTogether? : List Remark → Option String
  | [] => none
  | rs => some ("\n".intercalate (rs.map Remark.said))

/-- The lines of leading comments. -/
def leadLines (rs : List Remark) : List Line :=
  (rs.map fun r => r.text.toList).map commentLine

/-- A line of code, with a space and a comment behind it if there is one. -/
def codeLine (code : List Char) : Option Remark → Line
  | none => { code }
  | some r => { code := code ++ [' '], note := some (' ' :: r.text.toList) }

/-- The first line of a block, without its comment. -/
def headerCode (word : Keyword) (name : Name) : List Char :=
  word.word.toList ++ ' ' :: name.text.toList ++ [' ', '\x7b']

/-- The last line of a block. -/
def closing : Line := { code := ['\x7d'] }

/-- What stands behind the name of an option to set it. -/
def isTrue : List Char :=
  [' ', '=', ' ', 't', 'r', 'u', 'e']

/-- A statement that sets an option to `true`. -/
def flagCode (option : String) : List Char :=
  Keyword.option.word.toList ++ ' ' :: option.toList ++ isTrue ++ [';']

def flagLine (option : String) : Line := { code := flagCode option }

/-- The statement of a package. -/
def packageCode (name : Name × List Name) : List Char :=
  Keyword.package.word.toList ++ ' ' :: name.1.text.toList ++
    name.2.flatMap (fun n => '.' :: n.text.toList) ++ [';']

namespace Value

/-- The declaration of the value. -/
def code (v : Value) : List Char :=
  v.name.text.toList ++ [' ', '=', ' '] ++ (toString v.number).toList ++
    (if v.deprecated then [' ', '['] ++ "deprecated".toList ++ isTrue ++ [']'] else []) ++ [';']

def lines (v : Value) : List Line :=
  leadLines v.leading ++ [codeLine v.code v.trailing]

end Value

namespace Enumeration

/-- The names of the options that are set. -/
def flags (e : Enumeration) : List String :=
  (if e.allowAlias then ["allow_alias"] else []) ++ if e.deprecated then ["deprecated"] else []

theorem mem_flags {e : Enumeration} {option : String} (h : option ∈ e.flags) :
    option ∈ ["allow_alias", "deprecated"] := by
  unfold flags at h
  split at h <;> split at h <;> simp_all

def header (e : Enumeration) : Line :=
  codeLine (headerCode .enum e.name) e.trailing

/-- The lines between the header and the end of the enum. -/
def body (e : Enumeration) : List Line :=
  e.flags.map flagLine ++ e.values.flatMap Value.lines

def lines (e : Enumeration) : List Line :=
  leadLines e.leading ++ e.header :: e.body ++ [closing]

end Enumeration

mutual

def Tree.lines : Tree → List Line
  | .enum e => e.lines
  | .message name trees => { code := headerCode .message name } :: linesOf trees ++ [closing]

/-- The lines of the declarations of a file or of a message. -/
def linesOf : List Tree → List Line
  | [] => []
  | t :: ts => t.lines ++ linesOf ts

end

namespace Forest

/-- The line of the package statement. -/
def packageLines (f : Forest) : List Line :=
  f.package.toList.map fun name => { code := packageCode name }

def lines (f : Forest) : List Line :=
  f.packageLines ++ linesOf f.trees

/-- The forest as a schema text. -/
def text (f : Forest) : String :=
  String.ofList (render f.lines)

end Forest

section

variable {ν : Type} (number : Int → ν)

/-- The assignment of `true` to an option. -/
def flag (option : String) : Assignment ν :=
  { name := { root := .plain option }, value := .name { head := "true" } }

def Value.options (v : Value) : List (Assignment ν) :=
  if v.deprecated then [flag "deprecated"] else []

def Value.item (p : Position) (v : Value) : Item ν :=
  let start := after p (leadLines v.leading)
  .statement { start, stop := start.advance v.code }
    (.value v.name.text (number v.number) v.options)

def valueItems (p : Position) : List Value → List (Item ν)
  | [] => []
  | v :: vs => v.item number p :: valueItems (after p v.lines) vs

def flagItems (p : Position) : List String → List (Item ν)
  | [] => []
  | option :: options =>
    .statement { start := p, stop := p.advance (flagCode option) } (.option (flag option)) ::
      flagItems (after p [flagLine option]) options

namespace Enumeration

/-- The items between the header and the end of an enum. -/
def bodyItems (p : Position) (e : Enumeration) : List (Item ν) :=
  flagItems p e.flags ++ valueItems number (after p (e.flags.map flagLine)) e.values

def item (p : Position) (e : Enumeration) : Item ν :=
  let start := after p (leadLines e.leading)
  let body := after start [e.header]
  .block { start, stop := (after body e.body).advance closing.code }
    { kind := .enum
      name := e.name.text
      nameEnd := (start.advance (Keyword.enum.word.toList ++ [' '])).advance e.name.text.toList }
    (e.bodyItems number body)

end Enumeration

mutual

def Tree.item (p : Position) : Tree → Item ν
  | .enum e => e.item number p
  | .message name trees =>
    let body := after p [{ code := headerCode .message name }]
    .block { start := p, stop := (after body (linesOf trees)).advance closing.code }
      { kind := .message
        name := name.text
        nameEnd := (p.advance (Keyword.message.word.toList ++ [' '])).advance name.text.toList }
      (itemsOf body trees)

def itemsOf (p : Position) : List Tree → List (Item ν)
  | [] => []
  | t :: ts => t.item p :: itemsOf (after p t.lines) ts

end

namespace Forest

/-- The name of the package in one piece. -/
def packageName (name : Name × List Name) : DottedName :=
  { head := name.1.text, tail := name.2.map Name.text }

def packageItems (f : Forest) : List (Item ν) :=
  f.package.toList.map fun name =>
    .statement { start := {}, stop := Position.advance {} (packageCode name) }
      (.package (packageName name))

def items (f : Forest) : List (Item ν) :=
  f.packageItems ++ itemsOf number (after {} f.packageLines) f.trees

end Forest

end

section

variable (file : Option String)

def Value.descriptor (line : Nat) (v : Value) : ValueDescriptor :=
  { name := v.name.text
    number := v.number
    documentation := { leading := saidTogether? v.leading, trailing := v.trailing.map Remark.said }
    deprecated := v.deprecated
    file
    line := some (line + v.leading.length) }

def valueDescriptors (line : Nat) : List Value → List ValueDescriptor
  | [] => []
  | v :: vs => v.descriptor file line :: valueDescriptors (line + v.lines.length) vs

def Enumeration.descriptor (package : Option String) (parents : List String) (line : Nat)
    (e : Enumeration) : EnumDescriptor :=
  let start := line + e.leading.length
  { name := some e.name.text
    values := valueDescriptors file (start + 1 + e.flags.length) e.values
    documentation := { leading := saidTogether? e.leading, trailing := e.trailing.map Remark.said }
    package
    parents
    deprecated := e.deprecated
    allowAlias := e.allowAlias
    file
    line := some start }

mutual

def Tree.descriptors (package : Option String) (parents : List String) (line : Nat) :
    Tree → List EnumDescriptor
  | .enum e => [e.descriptor file package parents line]
  | .message name trees => descriptorsOf package (parents ++ [name.text]) (line + 1) trees

/-- The descriptors of the enums of a file or of a message. -/
def descriptorsOf (package : Option String) (parents : List String) (line : Nat) :
    List Tree → List EnumDescriptor
  | [] => []
  | t :: ts =>
    t.descriptors package parents line ++ descriptorsOf package parents (line + t.lines.length) ts

end

/-- What is to be loaded from the text of the forest. -/
def Forest.descriptor (f : Forest) : FileDescriptor :=
  let package := f.package.map fun name => (Forest.packageName name).text
  { file
    enums := descriptorsOf file package [] (1 + f.packageLines.length) f.trees
    package }

end

end SchemaEnums.Layout
