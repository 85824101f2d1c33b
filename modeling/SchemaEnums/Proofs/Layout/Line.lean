import SchemaEnums.Proofs.Source.Firm

namespace SchemaEnums.Layout

open Source Schema

/-- A line: its code, and what stands behind the slashes of its comment, if it has one. -/
structure Line where
  code : List Char
  note : Option (List Char) := none
deriving DecidableEq, Repr

namespace Line

/-- The comment of a line with its slashes. -/
def noteText : Option (List Char) → List Char
  | none => []
  | some t => '/' :: '/' :: t

/-- The line with its line feed. -/
def text (l : Line) : List Char :=
  l.code ++ noteText l.note ++ ['\n']

/-- The comment of a line that begins at `p`. -/
def comments (p : Position) (l : Line) : List Comment :=
  match l.note with
  | none => []
  | some t =>
    let start := p.advance l.code
    [{ kind := .line
       text := String.ofList ('/' :: '/' :: t)
       span := { start, stop := start.advance ('/' :: '/' :: t) } }]

/-- The line holds no line feed but the one at its end. -/
structure IsSingle (l : Line) : Prop where
  code : '\n' ∉ l.code
  note : ∀ t ∈ l.note, '\n' ∉ t

/-- The line has some code. -/
def HasCode (l : Line) : Prop :=
  ∃ c ∈ l.code, Text.isBlank c = false

end Line

/-- The text of the lines. -/
def render (ls : List Line) : List Char :=
  ls.flatMap Line.text

/-- The position after the lines. -/
def after (p : Position) (ls : List Line) : Position :=
  p.advance (render ls)

/-- The comments of the lines, of which the first begins at `p`. -/
def commentsOf (p : Position) : List Line → List Comment
  | [] => []
  | l :: ls => l.comments p ++ commentsOf (p.advance l.text) ls

section

variable {p : Position} {l : Line} {ls ms : List Line} {c : Comment}

theorem render_append (ls ms : List Line) : render (ls ++ ms) = render ls ++ render ms :=
  List.flatMap_append

@[simp] theorem render_nil : render [] = [] := rfl

@[simp] theorem render_cons (l : Line) (ls : List Line) : render (l :: ls) = l.text ++ render ls := rfl

@[simp] theorem after_nil (p : Position) : after p [] = p := rfl

@[simp] theorem after_cons (p : Position) (l : Line) (ls : List Line) :
    after p (l :: ls) = after (p.advance l.text) ls := by
  simp [after, Position.advance_append]

theorem after_append (p : Position) (ls ms : List Line) :
    after p (ls ++ ms) = after (after p ls) ms := by
  simp [after, render_append, Position.advance_append]

theorem commentsOf_append (p : Position) (ls ms : List Line) :
    commentsOf p (ls ++ ms) = commentsOf p ls ++ commentsOf (after p ls) ms := by
  induction ls generalizing p with
  | nil => rfl
  | cons l ls ih => simp [commentsOf, ih]

theorem offset_after (p : Position) (ls : List Line) :
    (after p ls).offset = p.offset + (render ls).length :=
  Position.offset_advance p (render ls)

theorem le_offset_after (p : Position) (ls : List Line) : p.offset ≤ (after p ls).offset := by
  rw [offset_after]
  exact Nat.le_add_right _ _

theorem Line.count_text (hl : l.IsSingle) : l.text.count '\n' = 1 := by
  obtain ⟨code, note⟩ := l
  have hcode := List.count_eq_zero.2 hl.code
  cases note with
  | none => simp [text, noteText, hcode]
  | some t =>
    have hnote := List.count_eq_zero.2 (hl.note t rfl)
    simp [text, noteText, hcode, hnote]

theorem line_after_concat (p : Position) (ls : List Line) (hl : l.IsSingle) :
    (after p (ls ++ [l])).line = (after p ls).line + 1 := by
  rw [after_append, after_cons, after_nil, Position.line_advance, Line.count_text hl]

/-- Each line takes the position to the next line. -/
theorem line_after (hls : ∀ l ∈ ls, l.IsSingle) : (after p ls).line = p.line + ls.length := by
  induction ls generalizing p with
  | nil => rfl
  | cons l ls ih =>
    rw [after_cons, ih fun m hm => hls m (List.mem_cons_of_mem l hm), Position.line_advance,
      Line.count_text (hls l List.mem_cons_self), List.length_cons]
    omega

/-- Lines are empty or end with a line feed. -/
theorem render_eq_nil_or (ls : List Line) : render ls = [] ∨ ∃ cs, render ls = cs ++ ['\n'] := by
  rcases List.eq_nil_or_concat ls with rfl | ⟨front, l, rfl⟩
  · exact .inl rfl
  · refine .inr ⟨render front ++ l.code ++ Line.noteText l.note, ?_⟩
    simp [render_append, Line.text]

/-- The comment of a line stands on it behind its code. -/
theorem Line.mem_comments (hl : l.IsSingle) (hc : c ∈ l.comments p) :
    c.span.start = p.advance l.code ∧ c.span.start.offset < c.span.stop.offset ∧
      c.span.stop.offset < p.offset + l.text.length ∧ c.span.start.line = p.line ∧
      c.span.stop.line = p.line := by
  obtain ⟨code, note⟩ := l
  cases note with
  | none => cases hc
  | some t =>
    obtain rfl := List.mem_singleton.1 hc
    have hstart : (p.advance code).line = p.line := p.line_advance_of_not_mem hl.code
    have hnote : '\n' ∉ '/' :: '/' :: t := by simp [hl.note t rfl]
    refine ⟨rfl, ?_, ?_, hstart, ?_⟩
    · simp only [Position.offset_advance, List.length_cons]
      omega
    · simp only [text, noteText, Position.offset_advance, List.length_append, List.length_cons,
        List.length_nil]
      omega
    · show ((p.advance code).advance ('/' :: '/' :: t)).line = p.line
      rw [Position.line_advance_of_not_mem _ hnote, hstart]

/-- The comments of lines stand on them, in order between the ends of the text. -/
theorem mem_commentsOf (hls : ∀ l ∈ ls, l.IsSingle) (hc : c ∈ commentsOf p ls) :
    p.offset ≤ c.span.start.offset ∧ c.span.start.offset < c.span.stop.offset ∧
      c.span.stop.offset < (after p ls).offset ∧ p.line ≤ c.span.start.line ∧
      c.span.stop.line < (after p ls).line := by
  induction ls generalizing p with
  | nil => cases hc
  | cons l ls ih =>
    have hl := hls l List.mem_cons_self
    have hrest := fun m hm => hls m (List.mem_cons_of_mem l hm)
    have hline := line_after (p := p.advance l.text) hrest
    have hoffset := offset_after (p.advance l.text) ls
    rw [Position.line_advance, Line.count_text hl] at hline
    rw [Position.offset_advance] at hoffset
    rw [after_cons]
    rcases List.mem_append.1 hc with hc | hc
    · obtain ⟨hstart, hlt, hstop, hfirst, hlast⟩ := Line.mem_comments hl hc
      have hle : p.offset ≤ c.span.start.offset := by
        rw [hstart, Position.offset_advance]
        exact Nat.le_add_right _ _
      refine ⟨hle, hlt, ?_, ?_, ?_⟩ <;> omega
    · obtain ⟨hle, hlt, hstop, hfirst, hlast⟩ := ih hrest hc
      rw [Position.offset_advance] at hle
      rw [Position.line_advance, Line.count_text hl] at hfirst
      refine ⟨?_, hlt, hstop, ?_, hlast⟩ <;> omega

end

end SchemaEnums.Layout
