import Mathlib.Data.List.DropRight
import SchemaEnums.Proofs.Output.DocComment
import SchemaEnums.Source.Comment

namespace SchemaEnums.Text

section

variable {c : Char} {cs ds l : List Char} {ls : List (List Char)}

/-- A text has the lines that it is put together from. -/
theorem lines_endLines_append (hls : ∀ l ∈ ls, '\n' ∉ l) (hl : '\n' ∉ l) :
    lines (Output.endLines ls ++ l) = ls ++ [l] := by
  rw [lines]
  induction ls with
  | nil => exact List.splitOn_eq_singleton hl
  | cons k ls ih =>
    obtain ⟨hk, hls⟩ := List.forall_mem_cons.1 hls
    have hcons : Output.endLines (k :: ls) = k ++ '\n' :: Output.endLines ls := by
      simp [Output.endLines]
    rw [hcons, List.append_assoc, List.cons_append,
      List.splitOn_append_cons_self_of_not_mem hk, ih hls]
    rfl

theorem newline_not_mem_of_mem_lines (h : l ∈ lines cs) : '\n' ∉ l := by
  rw [lines] at h
  induction cs generalizing l with
  | nil =>
    rw [List.mem_singleton.1 h]
    exact List.not_mem_nil
  | cons c cs ih =>
    rw [List.splitOn_cons_eq_if_modifyHead] at h
    split at h
    · obtain rfl | h := List.mem_cons.1 h
      · exact List.not_mem_nil
      · exact ih h
    next hc =>
      cases hcs : cs.splitOn '\n' with
      | nil => exact absurd hcs (List.splitOn_ne_nil '\n' cs)
      | cons k ks =>
        rw [hcs] at h ih
        obtain rfl | h := List.mem_cons.1 h
        · rw [List.mem_cons, not_or]
          exact ⟨fun heq => hc (beq_iff_eq.2 heq.symm), ih List.mem_cons_self⟩
        · exact ih (List.mem_cons_of_mem k h)

theorem trimStart_append (h : ∀ c ∈ cs, isBlank c = true) (ds : List Char) :
    trimStart (cs ++ ds) = trimStart ds :=
  List.dropWhile_append_of_pos h

/-- A character that is no blank keeps itself and everything in front of it. -/
theorem trimEnd_append_cons (hc : isBlank c = false) (cs ds : List Char) :
    trimEnd (cs ++ c :: ds) = cs ++ c :: trimEnd ds := by
  induction ds using List.reverseRecOn with
  | nil => exact List.rdropWhile_concat_neg _ _ _ (by simp [hc])
  | append_singleton ds d ih =>
    rw [← List.cons_append, ← List.append_assoc]
    by_cases hd : isBlank d = true
    · have hleft : trimEnd (cs ++ c :: ds ++ [d]) = trimEnd (cs ++ c :: ds) :=
        List.rdropWhile_concat_pos _ _ _ hd
      have hright : trimEnd (ds ++ [d]) = trimEnd ds := List.rdropWhile_concat_pos _ _ _ hd
      rw [hleft, hright, ih]
    · have hleft : trimEnd (cs ++ c :: ds ++ [d]) = cs ++ c :: ds ++ [d] :=
        List.rdropWhile_concat_neg _ _ _ hd
      have hright : trimEnd (ds ++ [d]) = ds ++ [d] := List.rdropWhile_concat_neg _ _ _ hd
      rw [hleft, hright, List.append_assoc, List.cons_append]

/-- In front of a text that is not all blank every character is kept. -/
theorem trimEnd_cons (h : ¬ ∀ d ∈ cs, isBlank d = true) (c : Char) :
    trimEnd (c :: cs) = c :: trimEnd cs := by
  push Not at h
  obtain ⟨d, hd, hblank⟩ := h
  obtain ⟨as, bs, rfl⟩ := List.append_of_mem hd
  have hd : isBlank d = false := by simpa using hblank
  rw [trimEnd_append_cons hd, ← List.cons_append, trimEnd_append_cons hd, List.cons_append]

theorem trimEnd_eq_nil_iff : trimEnd cs = [] ↔ ∀ c ∈ cs, isBlank c = true :=
  List.rdropWhile_eq_nil_iff

theorem trimEnd_eq_self (h : ∀ c ∈ cs.getLast?, isBlank c = false) : trimEnd cs = cs :=
  List.rdropWhile_eq_self_iff.2 fun hne => by
    simpa using h _ (List.getLast?_eq_some_getLast hne)

theorem trimEnd_trimEnd (cs : List Char) : trimEnd (trimEnd cs) = trimEnd cs :=
  List.rdropWhile_idempotent _ _

end

/-- The lines that are kept are all but the empty lines at both ends. -/
structure Trims (ls kept : List (List Char)) : Prop where
  split : ∃ front back, ls = front ++ kept ++ back ∧ ∀ l ∈ front ++ back, l = []
  head : kept.head? ≠ some []
  last : kept.getLast? ≠ some []

section

open Source (Comment)

variable {ls : List (List Char)}

theorem trimLines_cons_nil (ls : List (List Char)) :
    Comment.trimLines ([] :: ls) = Comment.trimLines ls :=
  rfl

theorem trimLines_concat_nil (ls : List (List Char)) :
    Comment.trimLines (ls ++ [[]]) = Comment.trimLines ls := by
  have hlast (ks : List (List Char)) :
      (ks ++ [[]]).rdropWhile List.isEmpty = ks.rdropWhile List.isEmpty :=
    List.rdropWhile_concat_pos _ _ _ rfl
  show ((ls ++ [[]]).dropWhile List.isEmpty).rdropWhile List.isEmpty =
    (ls.dropWhile List.isEmpty).rdropWhile List.isEmpty
  rw [List.dropWhile_append]
  split
  next hempty =>
    rw [List.isEmpty_iff.1 hempty]
    rfl
  next => exact hlast _

theorem trims_trimLines (ls : List (List Char)) : Trims ls (Comment.trimLines ls) where
  split := by
    refine ⟨ls.takeWhile List.isEmpty, (ls.dropWhile List.isEmpty).rtakeWhile List.isEmpty, ?_, ?_⟩
    · rw [List.append_assoc]
      exact ((congrArg _ List.rdropWhile_append_rtakeWhile).trans
        List.takeWhile_append_dropWhile).symm
    · intro l hl
      obtain hl | hl := List.mem_append.1 hl
      · exact List.isEmpty_iff.1 (List.mem_takeWhile_imp hl)
      · exact List.isEmpty_iff.1 (List.mem_rtakeWhile_imp hl)
  head := by
    intro hhead
    obtain ⟨ks, hks⟩ := List.head?_eq_some_iff.1 hhead
    obtain ⟨back, hback⟩ := List.rdropWhile_prefix List.isEmpty (ls.dropWhile List.isEmpty)
    have hfirst := List.head?_dropWhile_not List.isEmpty ls
    rw [← hback, show (ls.dropWhile List.isEmpty).rdropWhile List.isEmpty = [] :: ks from hks] at hfirst
    cases hfirst
  last := by
    intro hlast
    have hne : Comment.trimLines ls ≠ [] := by
      intro hnil
      rw [hnil] at hlast
      cases hlast
    rw [List.getLast?_eq_some_getLast hne, Option.some.injEq] at hlast
    refine List.rdropWhile_last_not List.isEmpty _ hne ?_
    exact List.isEmpty_iff.2 hlast

/-- Lines that neither begin nor end with an empty one are all kept. -/
theorem trimLines_eq_self (hhead : ls.head? ≠ some []) (hlast : ls.getLast? ≠ some []) :
    Comment.trimLines ls = ls := by
  have hfront : ls.dropWhile List.isEmpty = ls := by
    cases ls with
    | nil => rfl
    | cons l ls =>
      refine List.dropWhile_cons_of_neg fun hl => hhead ?_
      rw [List.isEmpty_iff.1 hl, List.head?_cons]
  have hback : ls.rdropWhile List.isEmpty = ls :=
    List.rdropWhile_eq_self_iff.2 fun hne hempty => hlast (by
      rw [List.getLast?_eq_some_getLast hne, List.isEmpty_iff.1 hempty])
  show (ls.dropWhile List.isEmpty).rdropWhile List.isEmpty = ls
  rw [hfront, hback]

end

end SchemaEnums.Text
