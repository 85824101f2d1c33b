import SchemaEnums.Proofs.Output.Blocks
import SchemaEnums.Proofs.Output.Generate
import SchemaEnums.Proofs.TypeScript.Bare

namespace SchemaEnums.Output

open TypeScript

/-- The code of the statement has no slash. -/
def SlashFree (s : Statement) : Prop :=
  '/' ∉ s.bare.charsAt []

section

variable {indent : List Char} {ss : List Statement}

theorem Leaves.lines {ls : List (List Char)} (hls : ∀ l ∈ ls, '/' ∉ l) :
    Leaves (endLines ls) (endLines ls) := by
  induction ls with
  | nil => exact .nil
  | cons l ls ih =>
    have hline := Leaves.line (not_openingMark_infix_of_slash (hls l List.mem_cons_self))
    exact hline.append (ih fun k hk => hls k (List.mem_cons_of_mem l hk))

theorem slash_not_mem_endLines {ls : List (List Char)} :
    '/' ∉ endLines ls ↔ ∀ l ∈ ls, '/' ∉ l := by
  simp [endLines]

theorem slashFree_enum_iff {d : EnumDeclaration} :
    SlashFree (.enum d) ↔ ∀ l ∈ d.bare.lines [], '/' ∉ l := by
  rw [SlashFree, Statement.bare, ← slash_not_mem_endLines, ← text_enum]
  simp

theorem slashFree_binding_iff {d : VariableDeclaration} :
    SlashFree (.binding d) ↔ ∀ l ∈ d.bare.lines [], '/' ∉ l := by
  rw [SlashFree, Statement.bare, ← slash_not_mem_endLines, ← text_binding]
  simp

theorem leaves_memberLines {ms : List Member} (hindent : ∀ c ∈ indent, isIndentation c = true)
    (hms : ∀ l ∈ EnumDeclaration.memberLines indent (ms.map Member.bare), '/' ∉ l) :
    Leaves (endLines (EnumDeclaration.memberLines indent ms))
      (endLines (EnumDeclaration.memberLines indent (ms.map Member.bare))) := by
  induction ms with
  | nil => exact .nil
  | cons m ms ih =>
    have hcomment := leaves_commentLines m.comment hindent
    have hbare : commentLines indent m.bare.comment = [] ∧ m.bare.line indent = m.line indent :=
      ⟨rfl, rfl⟩
    cases ms with
    | nil =>
      simp only [List.map_cons, List.map_nil, EnumDeclaration.memberLines, hbare, List.nil_append,
        endLines_append] at hms ⊢
      exact hcomment.append (.lines hms)
    | cons m' ms =>
      simp only [List.map_cons, EnumDeclaration.memberLines, hbare, List.nil_append, endLines_append,
        List.forall_mem_append] at ih hms ⊢
      exact (hcomment.append (.lines hms.1)).append (ih hms.2)

theorem leaves_enum {d : EnumDeclaration} (h : ∀ l ∈ d.bare.lines [], '/' ∉ l) :
    Leaves (endLines (d.lines [])) (endLines (d.bare.lines [])) := by
  have hcomment := @leaves_commentLines [] d.comment (by simp)
  have hbare : commentLines [] d.bare.comment = [] ∧ d.bare.modifiers = d.modifiers ∧
      d.bare.name = d.name ∧ d.bare.members = d.members.map Member.bare :=
    ⟨rfl, rfl, rfl, rfl⟩
  simp only [EnumDeclaration.lines, hbare, endLines_append, List.nil_append,
    List.forall_mem_append] at h ⊢
  have hmembers := leaves_memberLines (List.all_eq_true.1 rfl) h.1.2
  exact ((hcomment.append (.lines h.1.1)).append hmembers).append (.lines h.2)

theorem leaves_binding {d : VariableDeclaration} (h : ∀ l ∈ d.bare.lines [], '/' ∉ l) :
    Leaves (endLines (d.lines [])) (endLines (d.bare.lines [])) := by
  have hcomment := @leaves_commentLines [] d.comment (by simp)
  have hbare : commentLines [] d.bare.comment = [] := rfl
  simp only [VariableDeclaration.lines, hbare, endLines_append, List.nil_append] at h ⊢
  exact hcomment.append (.lines h)

theorem SlashFree.leaves {s : Statement} (h : SlashFree s) :
    Leaves (s.charsAt [] ++ ['\n']) (s.bare.charsAt [] ++ ['\n']) := by
  cases s with
  | enum d =>
    rw [Statement.bare, text_enum, text_enum]
    exact leaves_enum (slashFree_enum_iff.1 h)
  | binding d =>
    rw [Statement.bare, text_binding, text_binding]
    exact leaves_binding (slashFree_binding_iff.1 h)
  | expression e comment => exact .line (not_openingMark_infix_of_slash h)

theorem leaves_statementsText (h : ∀ s ∈ ss, SlashFree s) :
    Leaves (statementsText ss) (statementsText (ss.map Statement.bare)) := by
  induction ss with
  | nil => exact .nil
  | cons s ss ih =>
    have hrest := ih fun t ht => h t (List.mem_cons_of_mem s ht)
    exact (h s List.mem_cons_self).leaves.append hrest

theorem leaves_headerLines {source : Option String} (hsource : ∀ name ∈ source, '/' ∉ name.toList) :
    Leaves (endLines (OutputFile.headerLines source)) (endLines (OutputFile.headerLines source)) := by
  unfold OutputFile.headerLines
  split
  next name hname =>
    have hslash := hsource name (Option.filter_eq_some_iff.1 hname).1
    have hmark : "// @generated by enum_wrangler from ".toList =
      '/' :: '/' :: ' ' :: "@generated by enum_wrangler from ".toList := rfl
    have hrest : '/' ∉ "@generated by enum_wrangler from ".toList ++ name.toList := by
      rw [List.mem_append, not_or]
      exact ⟨by decide, hslash⟩
    have hline : ¬ openingMark <:+: "// @generated by enum_wrangler from ".toList ++ name.toList := by
      simp only [hmark, List.cons_append, List.infix_cons_iff, not_or]
      refine ⟨?_, ?_, ?_, not_openingMark_infix_of_slash hrest⟩
      all_goals simp [openingMark, List.cons_prefix_cons]
    have hall := Leaves.line hline
    simpa [endLines] using hall
  next => exact .nil

/-- The text of a file. One that has no lines ends with a line feed still. -/
theorem contentChars_eq (f : OutputFile) :
    f.contentChars = if OutputFile.headerLines f.source = [] ∧ f.statements = [] then ['\n']
      else endLines (OutputFile.headerLines f.source) ++ statementsText f.statements := by
  unfold OutputFile.contentChars
  split
  next h =>
    rw [h.1, h.2]
    rfl
  next h =>
    rw [joinLines_concat (by simpa using h), ← endLines_statements, endLines, List.flatMap_append]
    rfl

/-- Without its blocks the text of a file is that of the file without comments. -/
theorem withoutBlocks_content {f : OutputFile} (hsource : ∀ name ∈ f.source, '/' ∉ name.toList)
    (hstatements : ∀ s ∈ f.statements, SlashFree s) :
    withoutBlocks f.content = f.bare.content := by
  have hbare : f.bare.statements = [] ↔ f.statements = [] := List.map_eq_nil_iff
  have hsource' : f.bare.source = f.source := rfl
  rw [withoutBlocks, OutputFile.content, OutputFile.content, String.toList_ofList, contentChars_eq,
    contentChars_eq, hsource']
  simp only [hbare]
  congr 1
  split
  · rfl
  · exact ((leaves_headerLines hsource).append (leaves_statementsText hstatements)).outsideBlocks_eq

end

end SchemaEnums.Output
