import Mathlib.Data.List.Basic
import Mathlib.Data.List.Induction
import SchemaEnums.Proofs.Layout.Line

namespace SchemaEnums.Layout

open Source Schema

/-- A line that holds a comment only. -/
def commentLine (t : List Char) : Line :=
  { code := [], note := some (' ' :: t) }

/-- What a comment says that was written with a space behind its slashes. -/
def said (t : List Char) : String :=
  String.ofList (Text.trimEnd t)

/-- What comment lines say, if there are any. -/
def saidAbove? : List (List Char) → Option String
  | [] => none
  | ts => some ("\n".intercalate (ts.map said))

/-- The last line has code, if there is a line at all. -/
def Settled (ls : List Line) : Prop :=
  ∀ l ∈ ls.getLast?, l.HasCode

theorem isSingle_commentLine {t : List Char} (ht : '\n' ∉ t) : (commentLine t).IsSingle where
  code := List.not_mem_nil
  note u hu := by
    cases hu
    simp [ht]

theorem isSingle_append_commentLines {front : List Line} {lead : List (List Char)}
    (hfront : ∀ l ∈ front, l.IsSingle) (hlead : ∀ t ∈ lead, '\n' ∉ t) :
    ∀ l ∈ front ++ lead.map commentLine, l.IsSingle := by
  rw [List.forall_mem_append, List.forall_mem_map]
  exact ⟨hfront, fun t ht => isSingle_commentLine (hlead t ht)⟩

theorem Settled.nil : Settled [] := by
  simp [Settled]

theorem Settled.concat {l : Line} (ls : List Line) (hl : l.HasCode) : Settled (ls ++ [l]) := by
  simp [Settled, hl]

section

variable {front rest ls : List Line} {lead : List (List Char)} {l : Line} {c : Comment}
  {source : List Char} {p : Position}

theorem content_note (t : List Char) (span : Span) :
    Comment.content { kind := .line, text := String.ofList ('/' :: '/' :: ' ' :: t), span } =
      said t := by
  simp [Comment.content, Comment.contentOf, Comment.contentChars, Comment.dropSpace, said]

theorem map_content_commentsOf (p : Position) (lead : List (List Char)) :
    (commentsOf p (lead.map commentLine)).map Comment.content = lead.map said := by
  induction lead generalizing p with
  | nil => rfl
  | cons t ts ih =>
    rw [List.map_cons, commentsOf, List.map_append, ih, List.map_cons, ← List.singleton_append]
    congr 1
    exact congrArg (fun text => [text]) (content_note t _)

/-- The comments before the end of some lines are those of the lines. -/
theorem commentsBefore_after (hls : ∀ l ∈ ls, l.IsSingle) (hrest : ∀ l ∈ rest, l.IsSingle) :
    commentsBefore (commentsOf {} (ls ++ rest)) (after {} ls) = (commentsOf {} ls).reverse := by
  unfold commentsBefore
  rw [commentsOf_append, List.filter_append, List.filter_eq_self.2, List.filter_eq_nil_iff.2,
    List.append_nil]
  · intro c hc
    have hbounds := mem_commentsOf hrest hc
    simp only [decide_eq_true_eq]
    omega
  · intro c hc
    have hbounds := mem_commentsOf hls hc
    simp only [decide_eq_true_eq]
    omega

/-- The beginning of a line is a beginning of a line. -/
theorem beginsLine_after (ls : List Line) (cs : List Char) :
    beginsLine (render ls ++ cs) (after {} ls).offset = true := by
  have hoffset : (after {} ls).offset = (render ls).length := by
    rw [offset_after]
    exact Nat.zero_add _
  rw [beginsLine, hoffset, List.take_left]
  rcases render_eq_nil_or ls with hnil | ⟨ds, hds⟩
  · simp [hnil]
  · simp [hds]

/-- What has code before it does not begin its line. -/
theorem not_beginsLine_of_hasCode (hl : l.IsSingle) (hcode : l.HasCode) (ls : List Line)
    (cs : List Char) :
    beginsLine (render ls ++ l.code ++ cs) ((after {} ls).advance l.code).offset = false := by
  have hoffset : ((after {} ls).advance l.code).offset = (render ls ++ l.code).length := by
    rw [Position.offset_advance, offset_after, List.length_append]
    exact congrArg (· + l.code.length) (Nat.zero_add _)
  obtain ⟨c, hc, hblank⟩ := hcode
  rw [beginsLine, hoffset, List.take_left, List.all_eq_false]
  refine ⟨c, ?_, by simp [hblank]⟩
  rw [List.reverse_append, List.takeWhile_append_of_pos]
  · exact List.mem_append_left _ (List.mem_reverse.2 hc)
  · intro d hd
    have hne : d ≠ '\n' := by
      rintro rfl
      exact hl.code (List.mem_reverse.1 hd)
    simpa using hne

/-- No comment is taken up from lines of which the last has code. -/
theorem runAbove_settled (hsettled : Settled ls) (hls : ∀ l ∈ ls, l.IsSingle) (cs : List Char) :
    runAbove (render ls ++ cs) (after {} ls).line (commentsOf {} ls).reverse = [] := by
  rcases List.eq_nil_or_concat' ls with rfl | ⟨front, l, rfl⟩
  · rfl
  · have hl := hls l (by simp)
    have hfront : ∀ m ∈ front, m.IsSingle := fun m hm => hls m (by simp [hm])
    have hcode : l.HasCode := hsettled l (by simp)
    have hline := line_after_concat {} front hl
    rw [commentsOf_append, List.reverse_append]
    obtain ⟨code, note⟩ := l
    cases note with
    | none =>
      -- The last comment, if any, ends above the line with code.
      show runAbove _ _ (commentsOf {} front).reverse = []
      cases hcs : (commentsOf {} front).reverse with
      | nil => rfl
      | cons c cs =>
        have hc : c ∈ commentsOf {} front := by
          rw [← List.mem_reverse, hcs]
          exact List.mem_cons_self
        have hbounds := mem_commentsOf hfront hc
        rw [runAbove, if_neg]
        simp only [hline, Bool.and_eq_true, decide_eq_true_eq, not_and]
        omega
    | some t =>
      have hbegins := not_beginsLine_of_hasCode hl hcode front ('/' :: '/' :: t ++ '\n' :: cs)
      show runAbove _ _ (_ :: _) = []
      rw [runAbove, if_neg]
      have htext : render (front ++ [{ code, note := some t }]) ++ cs =
          render front ++ code ++ ('/' :: '/' :: t ++ '\n' :: cs) := by
        simp [render_append, Line.text, Line.noteText]
      rw [htext]
      simp only [hbegins, Bool.and_false]
      exact Bool.false_ne_true

/-- Comment lines below lines of which the last has code are taken up, all of them and no more. -/
theorem runAbove_commentLines (hfront : ∀ l ∈ front, l.IsSingle) (hsettled : Settled front)
    (hlead : ∀ t ∈ lead, '\n' ∉ t) (cs : List Char) :
    runAbove (render (front ++ lead.map commentLine) ++ cs)
        (after {} (front ++ lead.map commentLine)).line
        (commentsOf {} (front ++ lead.map commentLine)).reverse =
      commentsOf (after {} front) (lead.map commentLine) := by
  induction lead using List.reverseRecOn generalizing cs with
  | nil =>
    simp only [List.map_nil, List.append_nil]
    exact runAbove_settled hsettled hfront cs
  | append_singleton ts t ih =>
    have hts : ∀ u ∈ ts, '\n' ∉ u := fun u hu => hlead u (List.mem_append_left _ hu)
    have hbefore := isSingle_append_commentLines hfront hts
    have ht : (commentLine t).IsSingle := isSingle_commentLine (hlead t (by simp))
    have ih := ih hts ((commentLine t).text ++ cs)
    have hls : after (after {} front) (ts.map commentLine) = after {} (front ++ ts.map commentLine) :=
      (after_append {} front (ts.map commentLine)).symm
    rw [List.map_append, List.map_singleton, ← List.append_assoc,
      commentsOf_append (after {} front), hls]
    generalize front ++ ts.map commentLine = ls at ih hbefore
    have hbegins := beginsLine_after ls ((commentLine t).text ++ cs)
    have hline := line_after_concat {} ls ht
    have htext : render (ls ++ [commentLine t]) ++ cs = render ls ++ ((commentLine t).text ++ cs) := by
      simp [render_append]
    rw [commentsOf_append, List.reverse_append, htext, hline]
    obtain ⟨c, hc, hstart, hstop⟩ : ∃ c, commentsOf (after {} ls) [commentLine t] = [c] ∧
        c.span.start = after {} ls ∧ c.span.stop.line = (after {} ls).line := by
      have hmem := Line.mem_comments (p := after {} ls) ht List.mem_cons_self
      exact ⟨_, rfl, rfl, hmem.2.2.2.2⟩
    rw [hc]
    show runAbove _ _ (c :: (commentsOf {} ls).reverse) = _
    rw [runAbove, if_pos, hstart, ih]
    simp [hstart, hstop, hbegins]

/-- The leading comments of a declaration are what the comment lines right above it say. -/
theorem leadingText?_render (hfront : ∀ l ∈ front, l.IsSingle) (hsettled : Settled front)
    (hlead : ∀ t ∈ lead, '\n' ∉ t) (hrest : ∀ l ∈ rest, l.IsSingle) :
    leadingText? (render (front ++ lead.map commentLine ++ rest))
        (commentsOf {} (front ++ lead.map commentLine ++ rest))
        (after {} (front ++ lead.map commentLine)) =
      saidAbove? lead := by
  have hbefore := isSingle_append_commentLines hfront hlead
  rw [leadingText?, commentsBefore_after hbefore hrest, render_append,
    runAbove_commentLines hfront hsettled hlead]
  have hcontent := map_content_commentsOf (after {} front) lead
  cases lead with
  | nil => rfl
  | cons t ts =>
    show _ = some ("\n".intercalate _)
    rw [← hcontent]
    rfl

/-- The first comment from the end of the code on is looked for behind the lines before it. -/
theorem find?_commentsOf {code : List Char} (hfront : ∀ l ∈ front, l.IsSingle) (cs : List Comment) :
    (commentsOf {} front ++ cs).find? (fun c =>
        ((after {} front).advance code).offset ≤ c.span.start.offset) =
      cs.find? fun c => ((after {} front).advance code).offset ≤ c.span.start.offset := by
  rw [List.find?_append, List.find?_eq_none.2, Option.none_or]
  intro c hc
  have hbounds := mem_commentsOf hfront hc
  simp only [Position.offset_advance, decide_eq_true_eq]
  omega

/-- The trailing comment of a declaration is the note of its line. -/
theorem trailingComment?_render {code back : List Char} {bound : Option Position}
    (hfront : ∀ l ∈ front, l.IsSingle) (hl : l.IsSingle) (hrest : ∀ l ∈ rest, l.IsSingle)
    (hcode : l.code = code ++ back)
    (hbound : ∀ b ∈ bound, (after {} (front ++ [l])).offset ≤ b.offset) :
    trailingComment? (commentsOf {} (front ++ l :: rest)) ((after {} front).advance code) bound =
      (l.comments (after {} front)).head? := by
  have hnone : '\n' ∉ code := fun hmem => hl.code (by simp [hcode, hmem])
  rw [trailingComment?, commentsOf_append, find?_commentsOf hfront, commentsOf,
    Position.line_advance_of_not_mem _ hnone]
  cases hcomments : l.comments (after {} front) with
  | nil =>
    -- The next comment, if any, begins on a later line.
    rw [List.nil_append, List.head?_nil, Option.filter_eq_none_iff]
    intro c hc
    have hbounds := mem_commentsOf hrest (List.mem_of_find?_eq_some hc)
    have hcount := Line.count_text hl
    rw [Position.line_advance, hcount] at hbounds
    simp only [Bool.and_eq_true, beq_iff_eq, not_and]
    omega
  | cons c cs =>
    obtain ⟨hstart, hlt, hstop, hfirst, -⟩ :=
      Line.mem_comments (c := c) hl (by rw [hcomments]; exact List.mem_cons_self)
    have hle : ((after {} front).advance code).offset ≤ c.span.start.offset := by
      rw [hstart, hcode, Position.advance_append, Position.offset_advance (_ : Position) back]
      exact Nat.le_add_right _ _
    have hinside : (bound.all fun b => decide (c.span.start.offset ≤ b.offset)) = true := by
      rw [Option.all_eq_true]
      intro b hb
      have hle := hbound b hb
      rw [after_append, after_cons, after_nil, Position.offset_advance] at hle
      exact decide_eq_true (by omega)
    rw [List.cons_append, List.find?_cons_of_pos (by simpa using hle), Option.filter_some,
      if_pos (by simp [hfirst, hinside])]
    rfl

end

end SchemaEnums.Layout
