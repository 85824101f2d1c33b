namespace SchemaEnums.Directive

def isLabelChar (c : Char) : Bool :=
  c.isAlphanum || c == '_'

/-- What stands before the label. -/
def mark : List Char :=
  ['@', 'T', 'r', 'a', 'n', 's', 'l', 'a', 't', 'e', ':', ' ']

/-- The label of the directive that a text begins with. -/
def labelAt? (cs : List Char) : Option (List Char) :=
  if mark.isPrefixOf cs then
    match (cs.drop mark.length).takeWhile isLabelChar with
    | [] => none
    | label => some label
  else none

/-- The label of the first directive in a text: the first mark that a label follows counts. -/
def find? : List Char → Option (List Char)
  | [] => none
  | c :: cs => (labelAt? (c :: cs)).or (find? cs)

def ofComment? (comment : Option String) : Option String :=
  comment.bind fun text => (find? text.toList).map String.ofList

end SchemaEnums.Directive
