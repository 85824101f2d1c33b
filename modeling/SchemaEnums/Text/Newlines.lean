namespace SchemaEnums.Text

/-- Writes every line end as one line feed. A carriage return, with the line feed after it if there
is one, ends a line too. -/
def unifyNewlines : List Char → List Char
  | [] => []
  | '\r' :: '\n' :: cs => '\n' :: unifyNewlines cs
  | c :: cs => (if c = '\r' then '\n' else c) :: unifyNewlines cs

end SchemaEnums.Text
