namespace SchemaEnums.Text

/-- The text, unless it is empty. Where a text is shown, an empty one counts as none. -/
def filled? (text : Option String) : Option String :=
  text.filter fun s => !s.isEmpty

end SchemaEnums.Text
