import SchemaEnums.Proofs.Generator.Uncommented
import SchemaEnums.Proofs.Output.Bare

namespace SchemaEnums.Output

open TypeScript Generator

section

variable {o : Options} {name : String} {d : EnumDescriptor} {ss : List Statement}

theorem slash_not_mem_of_mem_memberLines {ms : List Member} (hms : ∀ m ∈ ms, '/' ∉ m.name.toList) :
    ∀ l ∈ EnumDeclaration.memberLines indentStep (ms.map Member.bare), '/' ∉ l := by
  induction ms with
  | nil => simp [EnumDeclaration.memberLines]
  | cons m ms ih =>
    have hline := slash_not_mem_memberLine (hms m List.mem_cons_self)
    have hrest := ih fun k hk => hms k (List.mem_cons_of_mem m hk)
    have hbare : commentLines indentStep m.bare.comment = [] ∧
      m.bare.line indentStep = m.line indentStep := ⟨rfl, rfl⟩
    cases ms with
    | nil => simpa [EnumDeclaration.memberLines, hbare] using hline
    | cons m' ms =>
      simp only [List.map_cons, EnumDeclaration.memberLines, hbare, List.nil_append,
        List.forall_mem_append, List.forall_mem_singleton] at hrest ⊢
      exact ⟨by simp [hline], hrest⟩

theorem slashFree_enum {declaration : EnumDeclaration}
    (hmodifiers : declaration.modifiers = ["export"])
    (hmembers : ∀ m ∈ declaration.members, '/' ∉ m.name.toList) :
    SlashFree (.enum declaration) := by
  have hname := slash_not_mem_of_isIdentifier declaration.name.isIdentifier_text
  have hlines := slash_not_mem_of_mem_memberLines hmembers
  rw [slashFree_enum_iff, EnumDeclaration.lines]
  simp only [EnumDeclaration.bare, hmodifiers, introduction_export.1, List.forall_mem_append,
    List.forall_mem_singleton, List.nil_append]
  exact ⟨⟨⟨List.forall_mem_nil _, by simp [hname]⟩, hlines⟩, by decide⟩

theorem slash_not_mem_joined {separator : List Char} {pieces : List (List Char)}
    (hseparator : '/' ∉ separator) (hpieces : ∀ p ∈ pieces, '/' ∉ p) :
    '/' ∉ Expr.joined separator pieces := by
  induction pieces with
  | nil => simp [Expr.joined, List.intercalate]
  | cons p ps ih =>
    have hp := hpieces p List.mem_cons_self
    have hrest := ih fun q hq => hpieces q (List.mem_cons_of_mem p hq)
    cases ps with
    | nil => simpa [Expr.joined, List.intercalate] using hp
    | cons q qs =>
      simpa [Expr.joined, List.intercalate, List.intersperse, hp, hseparator] using hrest

theorem slashFree_binding {declaration : VariableDeclaration} {es : List Expr}
    (hmodifiers : declaration.modifiers = ["export"]) (hkind : declaration.kind = .const)
    (hinitializer : declaration.initializer = .array es true)
    (hes : ∀ l ∈ Expr.listChars es, '/' ∉ l) : SlashFree (.binding declaration) := by
  have hname := slash_not_mem_of_isIdentifier declaration.name.isIdentifier_text
  have hrows : '/' ∉ Expr.arrayChars [] true (Expr.listChars es) := by
    unfold Expr.arrayChars
    split
    · decide
    · have hlines : ∀ l ∈ (Expr.listChars es).map fun e => [] ++ indentStep ++ e, '/' ∉ l := by
        intro l hl
        obtain ⟨e, he, rfl⟩ := List.mem_map.1 hl
        simp [indentStep, hes e he]
      have hjoined := @slash_not_mem_joined [',', '\n'] _ (by decide) hlines
      simpa using hjoined
  rw [slashFree_binding_iff, VariableDeclaration.lines]
  simp only [VariableDeclaration.bare, hmodifiers, hkind, hinitializer, introduction_export.2,
    List.forall_mem_append, List.forall_mem_singleton, List.nil_append, Expr.charsAt]
  exact ⟨List.forall_mem_nil _, by simp [hname, hrows]⟩

/-- The statements that are added for an enum have no slash outside comments. -/
theorem Emitted.slashFree {entries : Catalog} (h : Emitted o name d entries ss) :
    ∀ s ∈ ss, SlashFree s := by
  obtain ⟨-, hidentifier, declaration, rfl, hmembers, hmodifiers, hss⟩ := h
  have henum : SlashFree (.enum declaration) := by
    apply slashFree_enum hmodifiers
    intro m hm
    rw [hmembers] at hm
    obtain ⟨e, he, rfl⟩ := List.mem_map.1 hm
    exact slash_not_mem_of_isIdentifier (hidentifier e he)
  by_cases htables : o.labelTables = true
  · rw [if_pos htables] at hss
    obtain ⟨t, ht, rfl⟩ := hss
    obtain ⟨rows, tableName, hrows, -, rfl⟩ := table_ok ht
    have htable : SlashFree
        (.binding { name := tableName, initializer := .array rows true, modifiers := ["export"] }) := by
      apply slashFree_binding rfl rfl rfl
      rw [listChars_of_mapM hrows]
      intro l hl
      obtain ⟨r, hr, rfl⟩ := List.mem_map.1 hl
      obtain ⟨e, he, rfl⟩ := List.mem_map.1 hr
      have hlabel := @slash_not_mem_label d e (unslashed_of_isIdentifier (hidentifier e he))
      exact slash_not_mem_rowChars (slash_not_mem_of_isIdentifier declaration.name.isIdentifier_text)
        (slash_not_mem_of_isIdentifier (hidentifier e he)) hlabel
    rw [List.forall_mem_cons, List.forall_mem_singleton]
    exact ⟨henum, htable⟩
  · rw [if_neg htables] at hss
    rw [hss, List.forall_mem_singleton]
    exact henum

/-- When enums are emitted no slash gets into the code. -/
theorem slashFree_emitAll {ds : List EnumDescriptor} {id : Nat} {f f' : OutputFile}
    (hds : ∀ d ∈ ds, ∃ entries, d.currentCatalog = .ok entries)
    (hf : ∀ s ∈ f.statements, SlashFree s) (h : (emitAll o id ds f).result = .ok f') :
    (∀ s ∈ f'.statements, SlashFree s) ∧ f'.source = f.source := by
  induction ds generalizing f id with
  | nil =>
    cases h
    exact ⟨hf, rfl⟩
  | cons d ds ih =>
    obtain ⟨entries, hentries⟩ := hds d List.mem_cons_self
    rw [emitAll, Noted.result_bind] at h
    obtain ⟨f₁, hf₁, h⟩ := Schema.bind_eq_ok h
    obtain ⟨ss, hemitted, hstatements, hsource, -⟩ := emit_ok hentries hf₁
    have hslash : ∀ s ∈ f₁.statements, SlashFree s := by
      rw [hstatements, List.forall_mem_append]
      exact ⟨hf, Emitted.slashFree hemitted⟩
    obtain ⟨hall, hsource'⟩ := ih (fun k hk => hds k (List.mem_cons_of_mem d hk)) hslash h
    exact ⟨hall, hsource'.trans hsource⟩

/-- The file that is named in the output has no folders in its name. -/
theorem slash_not_mem_source (file : Option String) :
    ∀ source ∈ (emptyFile file).source, '/' ∉ source.toList := by
  intro source hsource hslash
  obtain ⟨path, -, hpath⟩ := path_of_mem_source hsource
  rw [hpath] at hslash
  exact (mem_baseName hslash).2 rfl

/-- Without its blocks an output file is the file without comments. -/
theorem withoutBlocks_outputFile {file : FileDescriptor} {out : OutputFile}
    (h : outputFile o file = .ok out) : withoutBlocks out.content = out.bare.content := by
  obtain ⟨hassigned, hemitAll⟩ := outputFile_ok h
  have hcatalogs := EnumDescriptor.exists_currentCatalog hassigned
  have hempty : ∀ s ∈ (emptyFile file.file).statements, SlashFree s := by
    rw [(emptyFile_spec file.file).1]
    exact List.forall_mem_nil _
  obtain ⟨hstatements, hsource⟩ := slashFree_emitAll hcatalogs hempty hemitAll
  apply withoutBlocks_content _ hstatements
  rw [hsource]
  exact slash_not_mem_source file.file

theorem map_withoutBlocks_generate (o : Options) (file : FileDescriptor) :
    (generate o file).result.map withoutBlocks =
      ((outputFile o file).map OutputFile.bare).map OutputFile.content := by
  rw [result_generate]
  cases hout : outputFile o file with
  | error e => rfl
  | ok out => exact congrArg Except.ok (withoutBlocks_outputFile hout)

end

/-- Schemas that differ in their comments only, and in none of the directives for labels, fail in the
same way or are given the same code but for the blocks of its comments: what is left without these is
the text of the output file without comments. The comments behind values play no part at all. -/
theorem withoutBlocks_generate_congr (o : Options) {f g : FileDescriptor}
    (hcode : f.uncommented = g.uncommented) (hdirectives : f.directives = g.directives) :
    (generate o f).result.map withoutBlocks = (generate o g).result.map withoutBlocks ∧
      (generate o f).result.map withoutBlocks =
        ((outputFile o f).map OutputFile.bare).map OutputFile.content ∧
      generate o f.withoutTrailing = generate o f := by
  refine ⟨?_, map_withoutBlocks_generate o f, generate_withoutTrailing o f⟩
  rw [map_withoutBlocks_generate, map_withoutBlocks_generate, outputFile_congr o hcode hdirectives]

/-- An enum with a value, whose comments are `type` and `value`. -/
def commented (type value : String) : FileDescriptor where
  file := some "dir/e.proto"
  enums := [{ name := some "E"
              values := [{ name := "A", number := 1, documentation := { leading := some value } }]
              documentation := { leading := some type, trailing := some value } }]

/-- Comments with closing marks and with code in them do no harm. -/
theorem withoutBlocks_generate_congr_sample :
    (commented "*/ export const x = 1;" "@Translate: B */").uncommented =
        (commented "" "* @Translate: B\n/**").uncommented ∧
      (commented "*/ export const x = 1;" "@Translate: B */").directives =
        (commented "" "* @Translate: B\n/**").directives ∧
      ∃ code, (generate {} (commented "*/ export const x = 1;" "@Translate: B */")).result = .ok code ∧
        (generate {} (commented "" "* @Translate: B\n/**")).result.map withoutBlocks =
          .ok (withoutBlocks code) := by
  have hdirectives : (commented "*/ export const x = 1;" "@Translate: B */").directives =
      (commented "" "* @Translate: B\n/**").directives := by decide
  have hcode : (commented "*/ export const x = 1;" "@Translate: B */").uncommented =
      (commented "" "* @Translate: B\n/**").uncommented := rfl
  obtain ⟨code, hok⟩ : ∃ code,
      (generate {} (commented "*/ export const x = 1;" "@Translate: B */")).result = .ok code :=
    ⟨_, rfl⟩
  obtain ⟨hgenerate, -⟩ := withoutBlocks_generate_congr {} hcode hdirectives
  rw [hok] at hgenerate
  exact ⟨hcode, hdirectives, code, hok, hgenerate.symm⟩

end SchemaEnums.Output
