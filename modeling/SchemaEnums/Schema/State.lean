import SchemaEnums.Schema.Place

namespace SchemaEnums.Schema

open Source

/-- A block that is open: its head, where it begins, and the items before it in the list that it
belongs to, the latest first. -/
structure Frame where
  head : Head
  first : Position
  before : List (Item String)

/-- The place between two items, or inside an item that begins at `first`. -/
inductive Stage where
  | between (context : Context)
  | inside (first : Position) (p : Place)
deriving DecidableEq, Repr

/-- The state of the parser: the open blocks, the innermost first, the items of the innermost one so
far, the latest first, and the stage of the next item. -/
structure State where
  frames : List Frame := []
  items : List (Item String) := []
  stage : Stage := .between betweenStatements

namespace State

def body (s : State) : Option BlockKind :=
  s.frames.head?.map fun f => f.head.kind

def context (s : State) : Context :=
  match s.stage with
  | .between x => x
  | .inside _ p => p.context

/-- Carries out a move whose token stands at `span`, in an item that begins at `first`. -/
def perform? (s : State) (first : Position) (span : Span) : Move → Option State
  | .go p => some { s with stage := .inside first p }
  | .finish statement =>
    some { s with
      items := .statement { start := first, stop := span.stop } statement :: s.items
      stage := .between statement.follow }
  | .openBlock head =>
    some {
      frames := { head, first, before := s.items } :: s.frames
      items := []
      stage := .between head.kind.opened }
  | .closeBlock =>
    match s.frames with
    | [] => none
    | f :: fs =>
      some {
        frames := fs
        items := .block { start := f.first, stop := span.stop } f.head s.items.reverse :: f.before
        stage := .between f.head.kind.closed }

/-- The state after one more token, if the token is allowed. -/
def next? (s : State) (t : Token) : Option State :=
  match s.stage with
  | .between _ => (begin? s.body t).bind (s.perform? t.span.start t.span)
  | .inside first p => (p.next? t).bind (s.perform? first t.span)

def complete? (s : State) : Option (List (Item String)) :=
  match s.stage, s.frames with
  | .between _, [] => some s.items.reverse
  | _, _ => none

end State

end SchemaEnums.Schema
