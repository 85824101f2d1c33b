import Mathlib.Data.List.Infix
import SchemaEnums.Proofs.Output.Reader
import SchemaEnums.TypeScript.JsDoc

namespace SchemaEnums.Output

open TypeScript

/-- The text of lines, each with its line feed. -/
def endLines (ls : List (List Char)) : List Char :=
  ls.flatMap fun l => l ++ ['\n']

/-- What closes a comment. -/
def closingMark : List Char :=
  ['*', '/']

section

variable {c : Char} {cs ds l indent : List Char} {ls : List (List Char)}

theorem endLines_append (ls ls' : List (List Char)) :
    endLines (ls ++ ls') = endLines ls ++ endLines ls' :=
  List.flatMap_append

theorem joinLines_cons_cons (l l' : List Char) (ls : List (List Char)) :
    Text.joinLines (l :: l' :: ls) = l ++ '\n' :: Text.joinLines (l' :: ls) := by
  simp [Text.joinLines, List.intercalate, List.intersperse]

theorem joinLines_concat (hls : ls ≠ []) : Text.joinLines ls ++ ['\n'] = endLines ls := by
  induction ls with
  | nil => exact absurd rfl hls
  | cons l ls ih =>
    cases ls with
    | nil => simp [Text.joinLines, List.intercalate, endLines]
    | cons l' ls =>
      have hrest := ih (List.cons_ne_nil l' ls)
      rw [joinLines_cons_cons, List.append_assoc, List.cons_append, hrest]
      simp [endLines]

theorem infix_joinLines (hl : l ∈ ls) : l <:+: Text.joinLines ls := by
  induction ls with
  | nil => cases hl
  | cons k ls ih =>
    cases ls with
    | nil =>
      rw [List.mem_singleton.1 hl]
      simp [Text.joinLines, List.intercalate]
    | cons k' ls =>
      rw [joinLines_cons_cons]
      rcases List.mem_cons.1 hl with rfl | hl
      · exact (List.prefix_append l _).isInfix
      · exact (ih hl).trans ((List.suffix_cons '\n' _).trans (List.suffix_append k _)).isInfix

theorem infix_of_mem_lines (hl : l ∈ Text.lines cs) : l <:+: cs := by
  have hinfix := infix_joinLines hl
  rwa [Text.joinLines, Text.lines, List.intercalate_splitOn] at hinfix

theorem isPrefix_trimEnd (cs : List Char) : Text.trimEnd cs <+: cs := by
  have hsuffix := List.dropWhile_suffix Text.isBlank (l := cs.reverse)
  rw [← List.reverse_prefix, List.reverse_reverse] at hsuffix
  exact hsuffix

/-- Only a star with a slash behind it closes a comment. -/
theorem closingMark_infix_cons :
    closingMark <:+: c :: cs ↔ c = '*' ∧ cs.head? = some '/' ∨ closingMark <:+: cs := by
  rw [List.infix_cons_iff, closingMark, List.cons_prefix_cons]
  refine or_congr_left (and_congr eq_comm ?_)
  cases cs with
  | nil => simp
  | cons d ds => simp [List.cons_prefix_cons, eq_comm]

theorem closingMark_infix_append (hindent : '*' ∉ indent) :
    closingMark <:+: indent ++ cs ↔ closingMark <:+: cs := by
  induction indent with
  | nil => rfl
  | cons c indent ih =>
    rw [List.mem_cons, not_or] at hindent
    rw [List.cons_append, closingMark_infix_cons, ih hindent.2]
    simp [Ne.symm hindent.1]

theorem head?_breakClosing (cs : List Char) : (breakClosing cs).head? = cs.head? := by
  unfold breakClosing
  split <;> rfl

theorem not_closingMark_infix_breakClosing (cs : List Char) :
    ¬ closingMark <:+: breakClosing cs := by
  fun_induction breakClosing cs with
  | case1 => simp [closingMark]
  | case2 cs ih => simp [closingMark_infix_cons, ih]
  | case3 c cs hno ih =>
    rw [closingMark_infix_cons, head?_breakClosing]
    rintro (⟨rfl, hhead⟩ | h)
    · obtain ⟨ds, rfl⟩ := List.head?_eq_some_iff.1 hhead
      exact hno ds rfl rfl
    · exact ih h

/-- A line of a comment does not close it. -/
theorem not_closingMark_infix_docLine (hindent : '*' ∉ indent) (hl : ¬ closingMark <:+: l) :
    ¬ closingMark <:+: docLine indent l := by
  unfold docLine
  split
  · rw [closingMark_infix_append hindent]
    simp only [closingMark_infix_cons, List.head?_cons, List.head?_nil]
    simp [closingMark]
  · intro h
    have hline := h.trans (isPrefix_trimEnd _).isInfix
    rw [List.append_assoc, closingMark_infix_append hindent] at hline
    simp [closingMark_infix_cons, hl] at hline

/-- No line that is written for a text closes the comment. -/
theorem not_closingMark_infix_of_mem (comment : List Char) (hindent : '*' ∉ indent)
    (hl : l ∈ (Text.lines (breakClosing comment)).map (docLine indent)) : ¬ closingMark <:+: l := by
  obtain ⟨k, hk, rfl⟩ := List.mem_map.1 hl
  apply not_closingMark_infix_docLine hindent
  intro h
  exact not_closingMark_infix_breakClosing comment (h.trans (infix_of_mem_lines hk))

/-- Inside a comment a line that does not close it is dropped. -/
theorem goes_commentLine (hcs : ¬ closingMark <:+: cs) :
    comments.Goes .inside (cs ++ ['\n']) [] .inside ∧
      (cs.head? ≠ some '/' → comments.Goes .star (cs ++ ['\n']) [] .inside) := by
  induction cs with
  | nil => exact ⟨.single rfl, fun _ => .single rfl⟩
  | cons c cs ih =>
    rw [closingMark_infix_cons, not_or, not_and] at hcs
    obtain ⟨hinside, hstar⟩ := ih hcs.2
    by_cases hc : c = '*'
    · subst hc
      have hrest := hstar (hcs.1 rfl)
      exact ⟨.skip rfl hrest, fun _ => .skip rfl hrest⟩
    · have hnext : CommentPlace.inside.next c = (.inside, []) := if_neg hc
      refine ⟨.skip (congrArg some hnext) hinside, fun hslash => ?_⟩
      have hne : c ≠ '/' := by simpa using hslash
      have hnext' : CommentPlace.star.next c = (.inside, []) := by
        rw [CommentPlace.next, if_neg hne, if_neg hc]
      exact .skip (congrArg some hnext') hinside

theorem goes_commentLines (hls : ∀ l ∈ ls, ¬ closingMark <:+: l) :
    comments.Goes .inside (endLines ls) [] .inside := by
  induction ls with
  | nil => exact .nil _
  | cons l ls ih =>
    have hl := (goes_commentLine (hls l List.mem_cons_self)).1
    exact hl.append (ih fun k hk => hls k (List.mem_cons_of_mem l hk))

/-- Outside comments everything but slashes is kept. -/
theorem goes_code (hcs : '/' ∉ cs) : comments.Goes .code cs cs .code := by
  induction cs with
  | nil => exact .nil _
  | cons c cs ih =>
    rw [List.mem_cons, not_or] at hcs
    have hnext : CommentPlace.code.next c = (.code, [c]) := if_neg (Ne.symm hcs.1)
    exact .cons (congrArg some hnext) (ih hcs.2)

/-- Of a documentation comment on lines of its own an empty line is left. -/
theorem goes_docChars (comment : List Char) (hslash : '/' ∉ indent) (hstar : '*' ∉ indent) :
    comments.Goes .code (endLines (docChars comment indent)) (indent ++ ['\n']) .code := by
  have hopen : comments.Goes .code (indent ++ ['/', '*', '*', '\n']) indent .inside := by
    have hmark : comments.Goes .code ['/', '*', '*', '\n'] [] .inside := rfl
    have hall := (goes_code hslash).append hmark
    rwa [List.append_nil] at hall
  have hlines : comments.Goes .inside
      (endLines ((Text.lines (breakClosing comment)).map (docLine indent))) [] .inside :=
    goes_commentLines fun l hl => not_closingMark_infix_of_mem comment hstar hl
  have hindent : comments.Goes .inside indent [] .inside := by
    clear hopen hlines hslash
    induction indent with
    | nil => exact .nil _
    | cons c indent ih =>
      rw [List.mem_cons, not_or] at hstar
      have hnext : CommentPlace.inside.next c = (.inside, []) := if_neg (Ne.symm hstar.1)
      exact .skip (congrArg some hnext) (ih hstar.2)
  have hclose : comments.Goes .inside [' ', '*', '/', '\n'] ['\n'] .code := rfl
  have hall := ((hopen.append hlines).append hindent).append hclose
  simpa [docChars, endLines] using hall

end

end SchemaEnums.Output
