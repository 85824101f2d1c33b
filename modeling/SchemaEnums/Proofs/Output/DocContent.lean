import SchemaEnums.Proofs.Output.Blocks
import SchemaEnums.Proofs.Spacing.Filler
import SchemaEnums.Proofs.Text.Lines

namespace SchemaEnums.Output

open Source TypeScript

/-- What stands in the place of a closing mark. -/
def brokenMark : List Char :=
  ['*', '\\', '/']

/-- One text is the other with every closing mark broken. -/
def Breaks (cs ds : List Char) : Prop :=
  ∃ parts, (∀ p ∈ parts, ¬ closingMark <:+: p) ∧ cs = closingMark.intercalate parts ∧
    ds = brokenMark.intercalate parts

/-- What stands between the marks of a documentation comment. -/
def docBody (comment indent : List Char) : List Char :=
  '*' :: '\n' :: endLines ((Text.lines (breakClosing comment)).map (docLine indent)) ++
    (indent ++ [' '])

/-- A documentation comment, without the indent in front of it. -/
def docBlock (comment indent : List Char) : List Char :=
  '/' :: '*' :: docBody comment indent ++ ['*', '/']

section

variable {cs ds l p indent : List Char} {ls parts : List (List Char)}

theorem breakClosing_append (hp : ¬ closingMark <:+: p) (cs : List Char) :
    breakClosing (p ++ (closingMark ++ cs)) = p ++ (brokenMark ++ breakClosing cs) := by
  induction p with
  | nil => rfl
  | cons c p ih =>
    rw [closingMark_infix_cons, not_or, not_and] at hp
    rw [List.cons_append, breakClosing.eq_3, ih hp.2]
    · rfl
    · rintro ds rfl heq
      cases p with
      | nil => cases heq
      | cons d p => exact hp.1 rfl (congrArg some (List.cons.inj heq).1)

theorem breakClosing_eq_self (hcs : ¬ closingMark <:+: cs) : breakClosing cs = cs := by
  induction cs with
  | nil => rfl
  | cons c cs ih =>
    rw [closingMark_infix_cons, not_or, not_and] at hcs
    rw [breakClosing.eq_3, ih hcs.2]
    rintro ds rfl rfl
    exact hcs.1 rfl rfl

theorem breakClosing_intercalate (hparts : ∀ p ∈ parts, ¬ closingMark <:+: p) :
    breakClosing (closingMark.intercalate parts) = brokenMark.intercalate parts := by
  induction parts with
  | nil => rfl
  | cons p parts ih =>
    obtain ⟨hp, hparts⟩ := List.forall_mem_cons.1 hparts
    cases parts with
    | nil => simpa using breakClosing_eq_self hp
    | cons q parts =>
      rw [List.intercalate_cons_cons, List.intercalate_cons_cons, List.append_assoc,
        List.append_assoc, breakClosing_append hp, ih hparts]

/-- A text can be cut at its closing marks. -/
theorem exists_parts (cs : List Char) :
    ∃ parts, (∀ p ∈ parts, ¬ closingMark <:+: p) ∧ cs = closingMark.intercalate parts := by
  suffices hcut : ∃ p parts, (∀ q ∈ p :: parts, ¬ closingMark <:+: q) ∧
      cs = closingMark.intercalate (p :: parts) by
    obtain ⟨p, parts, hparts⟩ := hcut
    exact ⟨p :: parts, hparts⟩
  fun_induction breakClosing cs with
  | case1 => exact ⟨[], [], by simp [closingMark], rfl⟩
  | case2 cs ih =>
    obtain ⟨p, parts, hparts, rfl⟩ := ih
    refine ⟨[], p :: parts, List.forall_mem_cons.2 ⟨by simp [closingMark], hparts⟩, ?_⟩
    rw [List.intercalate_cons_cons]
    rfl
  | case3 c cs hno ih =>
    obtain ⟨p, parts, hparts, rfl⟩ := ih
    obtain ⟨hp, hparts⟩ := List.forall_mem_cons.1 hparts
    have hcons : closingMark.intercalate ((c :: p) :: parts) =
        c :: closingMark.intercalate (p :: parts) := by
      cases parts with
      | nil => simp
      | cons q parts => rw [List.intercalate_cons_cons, List.intercalate_cons_cons]; rfl
    refine ⟨c :: p, parts, List.forall_mem_cons.2 ⟨?_, hparts⟩, hcons.symm⟩
    rw [closingMark_infix_cons, not_or, not_and]
    refine ⟨fun hc hhead => ?_, hp⟩
    -- A slash at the front of the part would have been the end of a mark.
    obtain ⟨ds, rfl⟩ := List.head?_eq_some_iff.1 hhead
    cases parts with
    | nil => exact hno _ hc (List.intercalate_singleton)
    | cons q parts => exact hno _ hc List.intercalate_cons_cons

theorem breaks_breakClosing (cs : List Char) : Breaks cs (breakClosing cs) := by
  obtain ⟨parts, hparts, rfl⟩ := exists_parts cs
  exact ⟨parts, hparts, rfl, breakClosing_intercalate hparts⟩

theorem joinLines_append_singleton (ls : List (List Char)) (l : List Char) :
    Text.joinLines (ls ++ [l]) = endLines ls ++ l := by
  have hlines := joinLines_concat (List.append_ne_nil_of_right_ne_nil ls (List.cons_ne_nil l []))
  rw [endLines_append] at hlines
  have hlast : endLines [l] = l ++ ['\n'] := by simp [endLines]
  rw [hlast, ← List.append_assoc] at hlines
  exact List.append_cancel_right hlines

theorem joinLines_docChars (comment indent : List Char) :
    Text.joinLines (docChars comment indent) = indent ++ docBlock comment indent := by
  rw [docChars, joinLines_append_singleton]
  simp [endLines, docBlock, docBody]

/-- Nothing between the marks closes the comment, not even together with the star of the mark behind
it. -/
theorem not_closingMark_infix_docBody (comment : List Char) (hindent : '*' ∉ indent) :
    ¬ closingMark <:+: docBody comment indent ++ ['*'] := by
  have hlines := not_closingMark_infix_docLines comment hindent
  have hbody : docBody comment indent ++ ['*'] = ['*'] ++ '\n' ::
      (endLines ((Text.lines (breakClosing comment)).map (docLine indent)) ++
        (indent ++ [' ', '*'])) := by
    simp [docBody]
  rw [hbody, closingMark_infix_line, closingMark_infix_cons]
  simpa [closingMark] using hlines

theorem closingMark_suffix_docBlock (comment indent : List Char) :
    closingMark <:+ docBlock comment indent :=
  List.suffix_append _ _

/-- The comment holds no closing mark but its last two characters. -/
theorem not_closingMark_infix_dropLast_docBlock (comment : List Char) (hindent : '*' ∉ indent) :
    ¬ closingMark <:+: (docBlock comment indent).dropLast := by
  have hdrop : (docBlock comment indent).dropLast = '/' :: '*' :: (docBody comment indent ++ ['*']) := by
    have hend : docBlock comment indent = '/' :: '*' :: (docBody comment indent ++ ['*']) ++ ['/'] := by
      simp [docBlock]
    rw [hend, List.dropLast_concat]
  have hbody := not_closingMark_infix_docBody comment hindent
  have hhead : (docBody comment indent ++ ['*']).head? = some '*' := rfl
  rw [hdrop, closingMark_infix_cons, closingMark_infix_cons, hhead]
  simp [hbody]

/-- Whatever follows, the text is one block comment. -/
theorem split?_docBlock (comment : List Char) (hindent : '*' ∉ indent) (rest : List Char) :
    Comment.split? (docBlock comment indent ++ rest) =
      some (.block, docBlock comment indent, rest) := by
  have hbody : ¬ closingMark <:+: docBody comment indent := fun h =>
    not_closingMark_infix_docBody comment hindent (h.trans (List.prefix_append _ _).isInfix)
  have hsplit := Spacing.split?_block hbody rest
  simpa [docBlock] using hsplit

theorem newline_not_mem_docLine (hindent : '\n' ∉ indent) (hl : '\n' ∉ l) :
    '\n' ∉ docLine indent l := by
  unfold docLine
  split
  · simp [hindent]
  · intro hmem
    have hall := (isPrefix_trimEnd _).subset hmem
    simp [hindent, hl] at hall

theorem lineContent_cons_star (hindent : ∀ c ∈ indent, Text.isBlank c = true) (l : List Char) :
    Comment.lineContent (indent ++ ' ' :: '*' :: l) =
      Text.trimEnd (Comment.dropSpace l) := by
  have hstart : Text.trimStart (indent ++ ' ' :: '*' :: l) = '*' :: l := by
    rw [Text.trimStart_append hindent]
    rfl
  rw [Comment.lineContent, hstart]
  rfl

/-- A line of the comment says what the line of the text says, less its trailing blanks. -/
theorem lineContent_docLine (hindent : ∀ c ∈ indent, Text.isBlank c = true) (l : List Char) :
    Comment.lineContent (docLine indent l) = Text.trimEnd l := by
  unfold docLine
  split
  next hl =>
    rw [lineContent_cons_star hindent, List.isEmpty_iff.1 hl]
    rfl
  next =>
    have hline : Text.trimEnd (indent ++ [' ', '*', ' '] ++ l) =
        indent ++ ' ' :: '*' :: Text.trimEnd (' ' :: l) := by
      have hkept := Text.trimEnd_append_cons (c := '*') rfl (indent ++ [' ']) (' ' :: l)
      simpa using hkept
    rw [hline, lineContent_cons_star hindent]
    -- The space in front of the line goes with its trailing blanks if there is nothing else.
    by_cases hblank : ∀ c ∈ l, Text.isBlank c = true
    · have hnil : Text.trimEnd (' ' :: l) = [] :=
        Text.trimEnd_eq_nil_iff.2 (List.forall_mem_cons.2 ⟨rfl, hblank⟩)
      rw [hnil, Text.trimEnd_eq_nil_iff.2 hblank]
      rfl
    · rw [Text.trimEnd_cons hblank]
      exact Text.trimEnd_trimEnd l

theorem body_docBlock (comment indent : List Char) :
    Comment.body (docBlock comment indent) = docBody comment indent := by
  simp [Comment.body, docBlock]

theorem contentChars_docBlock (comment : List Char)
    (hindent : ∀ c ∈ indent, Text.isBlank c = true ∧ c ≠ '\n') :
    Comment.contentChars (docBlock comment indent) =
      Text.joinLines (Comment.trimLines ((Text.lines (breakClosing comment)).map Text.trimEnd)) := by
  have hblank := fun c hc => (hindent c hc).1
  have hnewline : '\n' ∉ indent := fun hmem => (hindent _ hmem).2 rfl
  have hdocLines : ∀ l ∈ (Text.lines (breakClosing comment)).map (docLine indent), '\n' ∉ l := by
    refine List.forall_mem_map.2 fun l hl => ?_
    exact newline_not_mem_docLine hnewline (Text.newline_not_mem_of_mem_lines hl)
  have hlines : Text.lines (docBody comment indent) =
      ['*'] :: ((Text.lines (breakClosing comment)).map (docLine indent) ++ [indent ++ [' ']]) := by
    have hfront := List.splitOn_append_cons_self_of_not_mem (show '\n' ∉ ['*'] by simp)
      (endLines ((Text.lines (breakClosing comment)).map (docLine indent)) ++ (indent ++ [' ']))
    exact hfront.trans (congrArg _ (Text.lines_endLines_append hdocLines (by simp [hnewline])))
  have hcontent : Comment.contentChars (docBlock comment indent) = Text.joinLines
      (Comment.trimLines ((Text.lines (docBody comment indent)).map Comment.lineContent)) := by
    rw [← body_docBlock]
    rfl
  have hfirst : Comment.lineContent ['*'] = [] := rfl
  have hlast : Comment.lineContent (indent ++ [' ']) = [] := by
    rw [Comment.lineContent, Text.trimStart_append hblank]
    rfl
  have hmiddle : ((Text.lines (breakClosing comment)).map (docLine indent)).map Comment.lineContent =
      (Text.lines (breakClosing comment)).map Text.trimEnd := by
    rw [List.map_map]
    exact List.map_congr_left fun l _ => lineContent_docLine hblank l
  rw [hcontent, hlines, List.map_cons, List.map_append, hmiddle, List.map_singleton, hfirst, hlast,
    Text.trimLines_cons_nil, Text.trimLines_concat_nil]

end

/-- Written in front of any text, a documentation comment is one block comment that holds no closing
mark but its own. It says what the text says, each closing mark broken, each line without trailing
blanks and none of the empty lines at both ends. So a text without closing marks, trailing blanks and
outer empty lines is read back as it was. -/
theorem contentOf_docLines (comment indent : String)
    (hindent : ∀ c ∈ indent.toList, Text.isBlank c = true ∧ c ≠ '\n') :
    ∃ block : String, "\n".intercalate (docLines comment indent) = indent ++ block ∧
      (∀ rest, Comment.split? (block.toList ++ rest) = some (.block, block.toList, rest)) ∧
      (closingMark <:+ block.toList ∧ ¬ closingMark <:+: block.toList.dropLast) ∧
      (∃ broken kept, Breaks comment.toList broken ∧
        Text.Trims ((Text.lines broken).map Text.trimEnd) kept ∧
        Comment.contentOf block = String.ofList (Text.joinLines kept)) ∧
      (¬ closingMark <:+: comment.toList →
        (∀ l ∈ Text.lines comment.toList, ∀ c ∈ l.getLast?, Text.isBlank c = false) →
        (comment = "" ∨ (Text.lines comment.toList).head? ≠ some [] ∧
          (Text.lines comment.toList).getLast? ≠ some []) →
        Comment.contentOf block = comment) := by
  have hstar : '*' ∉ indent.toList := fun hmem => nomatch (hindent _ hmem).1
  have hcontent := contentChars_docBlock comment.toList hindent
  refine ⟨String.ofList (docBlock comment.toList indent.toList), ?_, ?_, ?_, ?_, ?_⟩
  · rw [← String.toList_inj, String.toList_intercalate, docLines, List.map_map]
    have hlines := joinLines_docChars comment.toList indent.toList
    simpa [Function.comp_def, Text.joinLines] using hlines
  · rw [String.toList_ofList]
    exact split?_docBlock comment.toList hstar
  · rw [String.toList_ofList]
    exact ⟨closingMark_suffix_docBlock _ _, not_closingMark_infix_dropLast_docBlock _ hstar⟩
  · refine ⟨_, _, breaks_breakClosing comment.toList, Text.trims_trimLines _, ?_⟩
    rw [Comment.contentOf, String.toList_ofList, hcontent]
  · intro hmarks hblanks houter
    have hlines : (Text.lines comment.toList).map Text.trimEnd = Text.lines comment.toList :=
      (List.map_congr_left fun l hl => Text.trimEnd_eq_self (hblanks l hl)).trans (List.map_id _)
    rw [Comment.contentOf, String.toList_ofList, hcontent, breakClosing_eq_self hmarks, hlines]
    obtain rfl | ⟨hhead, hlast⟩ := houter
    · rfl
    · rw [Text.trimLines_eq_self hhead hlast, Text.joinLines, Text.lines, List.intercalate_splitOn,
        String.ofList_toList]

theorem contentOf_docLines_starred :
    ∃ block : String, "\n".intercalate (docLines "  * a /*\n\n ** / b" " \t") = " \t" ++ block ∧
      Comment.split? block.toList = some (.block, block.toList, []) ∧
      Comment.contentOf block = "  * a /*\n\n ** / b" := by
  obtain ⟨block, hblock, hsplit, -, -, hcontent⟩ :=
    contentOf_docLines "  * a /*\n\n ** / b" " \t" (by simp [Text.isBlank])
  have hlines : Text.lines "  * a /*\n\n ** / b".toList =
      ["  * a /*".toList, [], " ** / b".toList] := by decide +kernel
  rw [hlines] at hcontent
  have hone := hsplit []
  rw [List.append_nil] at hone
  exact ⟨block, hblock, hone,
    hcontent (by decide +kernel) (by simp [Text.isBlank]) (.inr (by decide))⟩

end SchemaEnums.Output
