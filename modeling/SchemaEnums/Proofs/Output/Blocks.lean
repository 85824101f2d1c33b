import SchemaEnums.Proofs.Output.DocComment
import SchemaEnums.TypeScript.OutputFile

namespace SchemaEnums.Output

open TypeScript

/-- Holds of the characters that indent a line. -/
def isIndentation (c : Char) : Bool :=
  c == ' ' || c == '\t'

mutual

/-- A text outside blocks without the blocks in it; `blanks` are the blanks in front of it. -/
def outsideBlocks (blanks : List Char) : List Char → List Char
  | [] => blanks
  | '/' :: '*' :: '*' :: cs => insideBlock (blanks ++ ['/', '*', '*']) cs
  | c :: cs =>
    if isIndentation c then outsideBlocks (blanks ++ [c]) cs else blanks ++ c :: outsideBlocks [] cs

/-- What is left of a text that begins inside a block; `block` is the block before it. A block that is
not closed stays. -/
def insideBlock (block : List Char) : List Char → List Char
  | [] => block
  | '*' :: '/' :: '\n' :: cs => outsideBlocks [] cs
  | '*' :: '/' :: cs => outsideBlocks [] cs
  | c :: cs => insideBlock (block ++ [c]) cs

end

/-- The text without the blocks that run from `/**` to the next `*/`. The indentation in front of a
block and the line feed behind it go with it. -/
def withoutBlocks (text : String) : String :=
  String.ofList (outsideBlocks [] text.toList)

/-- What opens a block. -/
def openingMark : List Char :=
  ['/', '*', '*']

section

variable {c : Char} {cs ds l indent blanks block : List Char} {ls : List (List Char)}

theorem outsideBlocks_cons (h : ¬ openingMark <+: c :: cs) :
    outsideBlocks blanks (c :: cs) =
      if isIndentation c then outsideBlocks (blanks ++ [c]) cs
      else blanks ++ c :: outsideBlocks [] cs := by
  rw [outsideBlocks]
  rintro ds rfl rfl
  exact h ⟨ds, rfl⟩

theorem insideBlock_cons (h : ¬ closingMark <+: c :: cs) :
    insideBlock block (c :: cs) = insideBlock (block ++ [c]) cs := by
  rw [insideBlock]
  · rintro ds rfl rfl
    exact h ⟨'\n' :: ds, rfl⟩
  · rintro ds rfl rfl
    exact h ⟨ds, rfl⟩

theorem not_openingMark_infix_of_slash (hslash : '/' ∉ l) : ¬ openingMark <:+: l := fun h =>
  hslash (h.subset List.mem_cons_self)

/-- No block begins at the end of a line. -/
theorem openingMark_prefix_line (h : openingMark <+: l ++ '\n' :: cs) : openingMark <+: l := by
  match l with
  | [] | [_] | [_, _] => simp [openingMark, List.cons_prefix_cons] at h
  | a :: b :: c :: l => simpa [openingMark, List.cons_prefix_cons] using h

/-- A line in which no block begins stays as it is. -/
theorem outsideBlocks_line (h : ¬ openingMark <:+: l) :
    outsideBlocks blanks (l ++ '\n' :: cs) = blanks ++ l ++ '\n' :: outsideBlocks [] cs := by
  induction l generalizing blanks with
  | nil =>
    rw [List.nil_append, outsideBlocks_cons (by simp [openingMark, List.cons_prefix_cons]),
      if_neg (by decide), List.append_nil]
  | cons c l ih =>
    rw [List.infix_cons_iff, not_or] at h
    have hno : ¬ openingMark <+: c :: (l ++ '\n' :: cs) := fun hmark =>
      h.1 (openingMark_prefix_line hmark)
    rw [List.cons_append, outsideBlocks_cons hno, ih h.2, ih h.2]
    split <;> simp

/-- Blanks in front of a block go with it. -/
theorem outsideBlocks_indentation (hindent : ∀ c ∈ indent, isIndentation c = true) :
    outsideBlocks blanks (indent ++ openingMark ++ cs) =
      insideBlock (blanks ++ indent ++ openingMark) cs := by
  induction indent generalizing blanks with
  | nil => simp [openingMark, outsideBlocks]
  | cons c indent ih =>
    have hc := hindent c List.mem_cons_self
    have hno : ¬ openingMark <+: c :: (indent ++ openingMark ++ cs) := by
      rw [openingMark, List.cons_prefix_cons]
      rintro ⟨rfl, -⟩
      cases hc
    rw [List.cons_append, List.cons_append, outsideBlocks_cons hno, if_pos hc,
      ih fun d hd => hindent d (List.mem_cons_of_mem c hd)]
    simp

/-- A block goes up to the first mark that closes it. -/
theorem insideBlock_append (hl : ¬ closingMark <:+: l) :
    insideBlock block (l ++ '*' :: '/' :: '\n' :: cs) = outsideBlocks [] cs := by
  induction l generalizing block with
  | nil => rw [List.nil_append, insideBlock]
  | cons c l ih =>
    rw [closingMark_infix_cons, not_or] at hl
    have hno : ¬ closingMark <+: c :: (l ++ '*' :: '/' :: '\n' :: cs) := by
      rw [closingMark, List.cons_prefix_cons]
      rintro ⟨rfl, hslash⟩
      cases l with
      | nil => simp [List.cons_prefix_cons] at hslash
      | cons d l =>
        simp only [List.cons_append, List.cons_prefix_cons] at hslash
        exact hl.1 ⟨rfl, congrArg some hslash.1.symm⟩
    rw [List.cons_append, insideBlock_cons hno, ih hl.2]

/-- No mark closes a block across the end of a line. -/
theorem closingMark_infix_line :
    closingMark <:+: l ++ '\n' :: cs ↔ closingMark <:+: l ∨ closingMark <:+: cs := by
  induction l with
  | nil =>
    rw [List.nil_append, closingMark_infix_cons]
    simp [closingMark]
  | cons c l ih =>
    have hhead : (l ++ '\n' :: cs).head? = some '/' ↔ l.head? = some '/' := by
      cases l <;> simp
    rw [List.cons_append, closingMark_infix_cons, closingMark_infix_cons, ih, hhead, or_assoc]

theorem not_closingMark_infix_endLines (hls : ∀ l ∈ ls, ¬ closingMark <:+: l)
    (hcs : ¬ closingMark <:+: cs) : ¬ closingMark <:+: endLines ls ++ cs := by
  induction ls with
  | nil => exact hcs
  | cons l ls ih =>
    have hrest := ih fun k hk => hls k (List.mem_cons_of_mem l hk)
    have hall : endLines (l :: ls) ++ cs = l ++ '\n' :: (endLines ls ++ cs) := by simp [endLines]
    rw [hall, closingMark_infix_line, not_or]
    exact ⟨hls l List.mem_cons_self, hrest⟩

/-- The lines that are written for a text do not close the comment, not even together with the star of
the mark behind them. -/
theorem not_closingMark_infix_docLines (comment : List Char) (hindent : '*' ∉ indent) :
    ¬ closingMark <:+: endLines ((Text.lines (breakClosing comment)).map (docLine indent)) ++
      (indent ++ [' ', '*']) := by
  refine not_closingMark_infix_endLines
    (fun l hl => not_closingMark_infix_of_mem comment hindent hl) ?_
  rw [closingMark_infix_append hindent, closingMark_infix_cons, closingMark_infix_cons]
  simp [closingMark]

/-- Of the code `cs`, whatever follows, `ds` is left without blocks. -/
def Leaves (cs ds : List Char) : Prop :=
  ∀ rest, outsideBlocks [] (cs ++ rest) = ds ++ outsideBlocks [] rest

theorem Leaves.nil : Leaves [] [] := fun _ => rfl

theorem Leaves.append {cs' ds' : List Char} (h : Leaves cs ds) (h' : Leaves cs' ds') :
    Leaves (cs ++ cs') (ds ++ ds') := by
  intro rest
  rw [List.append_assoc, List.append_assoc, h, h']

theorem Leaves.line (h : ¬ openingMark <:+: l) : Leaves (l ++ ['\n']) (l ++ ['\n']) := by
  intro rest
  rw [List.append_assoc, List.singleton_append, outsideBlocks_line h]
  simp

theorem Leaves.outsideBlocks_eq (h : Leaves cs ds) : outsideBlocks [] cs = ds := by
  have hall := h []
  rwa [List.append_nil, outsideBlocks, List.append_nil] at hall

/-- Nothing is left of a block on lines of its own. -/
theorem leaves_block (hindent : ∀ c ∈ indent, isIndentation c = true)
    (hcs : ¬ closingMark <:+: cs) : Leaves (indent ++ openingMark ++ cs ++ ['*', '/', '\n']) [] := by
  intro rest
  rw [List.append_assoc, List.append_assoc, outsideBlocks_indentation hindent]
  exact insideBlock_append hcs

/-- Nothing is left of a documentation comment, whatever its text. -/
theorem leaves_commentLines (comment : Option String)
    (hindent : ∀ c ∈ indent, isIndentation c = true) :
    Leaves (endLines (commentLines indent comment)) [] := by
  unfold commentLines
  split
  next text htext =>
    have hstar : '*' ∉ indent := fun hmem => nomatch hindent _ hmem
    -- The body begins with the line feed behind the opening mark.
    have hbody : ¬ closingMark <:+: endLines
        ([] :: (Text.lines (breakClosing text.toList)).map (docLine indent)) ++ (indent ++ [' ']) := by
      intro h
      have hcons : closingMark <:+: '\n' :: (endLines
          ((Text.lines (breakClosing text.toList)).map (docLine indent)) ++ (indent ++ [' '])) := h
      rw [closingMark_infix_cons] at hcons
      obtain ⟨hline, -⟩ | hcons := hcons
      · cases hline
      · refine not_closingMark_infix_docLines text.toList hstar (hcons.trans ?_)
        exact ⟨[], ['*'], by simp⟩
    have hblock := leaves_block hindent hbody
    simpa [docChars, endLines, openingMark] using hblock
  next => exact .nil

/-- Marks in a comment change nothing about where it ends. -/
example : withoutBlocks "a\n    /**\n     * /** b *\\/ c\n     */\n    d" = "a\n    d" := by cbv

end

end SchemaEnums.Output
