namespace SchemaEnums.Text

/-- The lines of a text, without their line feeds. There is one line more than there are line feeds. -/
def lines (cs : List Char) : List (List Char) :=
  cs.splitOn '\n'

def joinLines (ls : List (List Char)) : List Char :=
  List.intercalate ['\n'] ls

end SchemaEnums.Text
