import SchemaEnums.Text.Blank
import SchemaEnums.Text.Case

namespace SchemaEnums.Label

/-- Holds of the characters after which a word begins. -/
def isSeparator (c : Char) : Bool :=
  c == '_' || Text.isBlank c

/-- Capitalises the ASCII letters at which a word begins; `fresh` says whether one may begin here.
-/
def capitalise (fresh : Bool) : List Char → List Char
  | [] => []
  | c :: cs => (if fresh then c.toUpper else c) :: capitalise (isSeparator c) cs

def spaced (c : Char) : Char :=
  if c = '_' then ' ' else c

def ofChars (cs : List Char) : List Char :=
  (capitalise true (Text.toLower cs)).map spaced

/-- The label of a name: the name in lower case, with a capital at the beginning of each word and
spaces in place of the underscores. -/
def ofName (name : String) : String :=
  String.ofList (ofChars name.toList)

end SchemaEnums.Label
