import SchemaEnums.Source.Comment

namespace SchemaEnums.Source

structure Gap where
  comments : List Comment
  stop : Position
  rest : List Char
deriving DecidableEq, Repr

namespace Gap

def isSpace (c : Char) : Bool :=
  c == ' ' || c == '\t' || c == '\x0c' || c == '\r' || c == '\n'

/-- The longest gap that a text at `p` begins with. -/
def read (p : Position) (cs : List Char) : Gap :=
  match cs with
  | [] => { comments := [], stop := p, rest := [] }
  | c :: ds =>
    if isSpace c then read (p.next c) ds
    else match _h : Comment.split? (c :: ds) with
      | none => { comments := [], stop := p, rest := c :: ds }
      | some (kind, text, rest) =>
        let q := p.advance text
        let gap := read q rest
        let comment : Comment :=
          { kind, text := String.ofList text, span := { start := p, stop := q } }
        { gap with comments := comment :: gap.comments }
termination_by cs.length
decreasing_by
  · simp
  · exact Comment.length_lt_of_split? _h

theorem length_rest_read_le (p : Position) (cs : List Char) :
    (read p cs).rest.length ≤ cs.length := by
  fun_induction read p cs with
  | case1 => simp
  | case2 p c ds _ ih => simp only [List.length_cons]; omega
  | case3 => simp
  | case4 p c ds _ kind text rest h q gap comment ih =>
    have := Comment.length_lt_of_split? h
    simp only [gap] at ih ⊢
    omega

end Gap

end SchemaEnums.Source
