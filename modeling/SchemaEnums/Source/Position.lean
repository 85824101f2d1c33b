namespace SchemaEnums.Source

/-- A place between two characters. Offsets count characters from zero; lines and columns count from
one, and only a line feed ends a line. -/
structure Position where
  offset : Nat := 0
  line : Nat := 1
  column : Nat := 1
deriving DecidableEq, Repr, Inhabited

def Position.next (p : Position) (c : Char) : Position :=
  if c = '\n' then { offset := p.offset + 1, line := p.line + 1, column := 1 }
  else { offset := p.offset + 1, line := p.line, column := p.column + 1 }

def Position.advance (p : Position) (cs : List Char) : Position :=
  cs.foldl Position.next p

@[simp] theorem Position.advance_nil (p : Position) : p.advance [] = p := rfl

@[simp] theorem Position.advance_cons (p : Position) (c : Char) (cs : List Char) :
    p.advance (c :: cs) = (p.next c).advance cs := rfl

theorem Position.advance_append (p : Position) (cs ds : List Char) :
    p.advance (cs ++ ds) = (p.advance cs).advance ds := by
  simp [Position.advance]

@[simp] theorem Position.offset_next (p : Position) (c : Char) :
    (p.next c).offset = p.offset + 1 := by
  unfold Position.next
  split <;> rfl

@[simp] theorem Position.offset_advance (p : Position) (cs : List Char) :
    (p.advance cs).offset = p.offset + cs.length := by
  induction cs generalizing p with
  | nil => rfl
  | cons c cs ih =>
    rw [Position.advance_cons, ih, Position.offset_next, List.length_cons]
    omega

/-- The stretch of text from `start` to `stop`. -/
structure Span where
  start : Position
  stop : Position
deriving DecidableEq, Repr, Inhabited

end SchemaEnums.Source
