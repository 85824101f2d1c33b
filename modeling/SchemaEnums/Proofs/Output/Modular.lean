import SchemaEnums.Proofs.Output.Bare

namespace SchemaEnums

open TypeScript

theorem TypeScript.Scope.freeName_eq_self {s : Scope} {base : String}
    (h : s.contains base = false) : s.freeName base = base :=
  IsFirstFree.freeName_eq ⟨h, fun k hk => absurd hk (Nat.not_lt_zero k)⟩

namespace Generator

/-- The declaration of an enum that has the name. -/
def declaration (name : String) (d : EnumDescriptor) (entries : Catalog) :
    Except Error EnumDeclaration :=
  match EnumDraft.finish { members := entries.map (member d) } name ["export"] with
  | .error e => .error (.draft e)
  | .ok x => .ok { x with comment := CommentMode.append.attach x.comment d.typeComment }

/-- The statements for an enum that has the name. -/
def block (o : Options) (name : String) (d : EnumDescriptor) : Except Error (List Statement) :=
  match d.currentCatalog with
  | .error e => .error (.duplicateMember e)
  | .ok entries => do
    let x ← declaration name d entries
    if o.labelTables then
      let t ← (table name d entries).mapError .invalidIdentifier
      return [.enum x, .binding t]
    else
      return [.enum x]

section

variable {o : Options} {a name : String} {id : Nat} {d : EnumDescriptor} {ds : List EnumDescriptor}
  {entries : Catalog} {f : OutputFile} {ss : List Statement}

theorem block_ne_nil (h : block o name d = .ok ss) : ss ≠ [] := by
  unfold block at h
  split at h
  · cases h
  · obtain ⟨x, -, h⟩ := Schema.bind_eq_ok h
    by_cases htables : o.labelTables = true
    · rw [if_pos htables] at h
      obtain ⟨t, -, h⟩ := Schema.bind_eq_ok h
      cases h
      exact List.cons_ne_nil _ _
    · rw [if_neg htables] at h
      cases h
      exact List.cons_ne_nil _ _

theorem result_proceed_emitEnum :
    ((emitEnum a id d (.ok entries) f).proceed enumNote).result =
      (declaration (f.nameFor a id d).1 d entries).map fun x =>
        (f.nameFor a id d).2.add (.enum x) := by
  rw [Attempt.result_proceed]
  simp only [emitEnum, declaration]
  cases EnumDraft.finish { members := entries.map (member d) } (f.nameFor a id d).1 ["export"] <;> rfl

theorem result_proceed_emitTable :
    ((emitTable a id d (.ok entries) f).proceed tableNote).result =
      ((table (f.nameFor a id d).1 d entries).mapError .invalidIdentifier).map fun t =>
        (f.nameFor a id d).2.add (.binding t) := by
  rw [Attempt.result_proceed]
  simp only [emitTable]
  cases table (f.nameFor a id d).1 d entries <;> rfl

/-- The emission of an enum adds its statements to the file in which it was given its name. -/
theorem result_emit_eq_block (o : Options) (id : Nat) (d : EnumDescriptor) (f : OutputFile) :
    (emit o id d f).result =
      (block o (f.nameFor o.anonymousName id d).1 d).map fun ss =>
        { (f.nameFor o.anonymousName id d).2 with statements := f.statements ++ ss } := by
  have hkeeps := (f.nameFor_keeps o.anonymousName id d).1
  rw [result_emit, block]
  cases d.currentCatalog with
  | error e => rfl
  | ok entries =>
    simp only [result_proceed_emitEnum]
    cases declaration (f.nameFor o.anonymousName id d).1 d entries with
    | error e => rfl
    | ok x =>
      simp only [Except.map, bind, Except.bind]
      by_cases htables : o.labelTables = true
      · simp only [if_pos htables, result_proceed_emitTable, OutputFile.nameFor_add]
        cases table (f.nameFor o.anonymousName id d).1 d entries with
        | error e => rfl
        | ok t => simp [OutputFile.add, hkeeps, Except.mapError, Except.map, pure, Except.pure]
      · simp [htables, OutputFile.add, hkeeps, pure, Except.pure]

/-- The enums have different names, which are all free in the file, and they are new to it; `id` is the
number of the first. -/
structure AllFresh (o : Options) (id : Nat) (ds : List EnumDescriptor) (f : OutputFile) : Prop where
  nodup : (ds.map fun d => d.codeName o.anonymousName).Nodup
  free : ∀ d ∈ ds, f.scope.contains (d.codeName o.anonymousName) = false
  unnamed : ∀ j, id ≤ j → f.scope.name? j = none

/-- The first of the enums gets its own name, and the others find theirs free. -/
theorem AllFresh.nameFor (h : AllFresh o id (d :: ds) f) :
    (f.nameFor o.anonymousName id d).1 = d.codeName o.anonymousName ∧
      AllFresh o (id + 1) ds (f.nameFor o.anonymousName id d).2 := by
  have hfree := h.free d List.mem_cons_self
  have hname : f.nameFor o.anonymousName id d = (d.codeName o.anonymousName,
      { f with scope := f.scope.insert (d.codeName o.anonymousName) id }) := by
    rw [OutputFile.nameFor, h.unnamed id (Nat.le_refl id)]
    simp only [Scope.freeName_eq_self hfree]
  have hnodup := h.nodup
  rw [List.map_cons, List.nodup_cons] at hnodup
  rw [hname]
  refine ⟨rfl, hnodup.2, fun k hk => ?_, fun j hj => ?_⟩
  · have hne : k.codeName o.anonymousName ≠ d.codeName o.anonymousName := by
      intro heq
      exact hnodup.1 (heq ▸ List.mem_map_of_mem hk)
    have hrest := h.free k (List.mem_cons_of_mem d hk)
    rw [Scope.contains_eq_isSome_owner?] at hrest ⊢
    rw [Scope.owner?_insert, if_neg hne, hrest]
  · have hne : j ≠ id := by omega
    exact (Scope.name?_insert_of_ne hfree hne).trans (h.unnamed j (by omega))

/-- Fresh enums add the statements that they have under their own names. -/
theorem emitAll_eq_blocks (h : AllFresh o id ds f) :
    (emitAll o id ds f).result.map (fun g => (g.source, g.statements)) =
      (ds.mapM fun d => block o (d.codeName o.anonymousName) d).map fun bs =>
        (f.source, f.statements ++ bs.flatten) := by
  induction ds generalizing f id with
  | nil =>
    rw [List.mapM_nil, emitAll]
    simp [Except.map, pure, Except.pure]
  | cons d ds ih =>
    obtain ⟨hname, hrest⟩ := h.nameFor
    rw [emitAll, Noted.result_bind, result_emit_eq_block, hname, List.mapM_cons]
    cases block o (d.codeName o.anonymousName) d with
    | error e => rfl
    | ok ss =>
      have hafter : AllFresh o (id + 1) ds
          { (f.nameFor o.anonymousName id d).2 with statements := f.statements ++ ss } :=
        ⟨hrest.nodup, hrest.free, hrest.unnamed⟩
      refine (ih hafter).trans ?_
      rw [(f.nameFor_keeps o.anonymousName id d).2]
      cases ds.mapM fun d => block o (d.codeName o.anonymousName) d with
      | error e => rfl
      | ok bs => simp [Except.map, bind, Except.bind, pure, Except.pure]

theorem exists_ok_of_mapM {ε α β : Type} {g : α → Except ε β} {xs : List α} {ys : List β}
    (h : xs.mapM g = .ok ys) {x : α} (hx : x ∈ xs) : ∃ y, g x = .ok y := by
  have hall := Schema.forall₂_of_mapM h
  clear h
  induction hall with
  | nil => cases hx
  | cons hy _ ih =>
    obtain rfl | hx := List.mem_cons.1 hx
    · exact ⟨_, hy⟩
    · exact ih hx

theorem exists_of_mapM_eq_error {ε α β : Type} {g : α → Except ε β} {xs : List α} {e : ε}
    (h : xs.mapM g = .error e) : ∃ x ∈ xs, g x = .error e := by
  induction xs with
  | nil =>
    rw [List.mapM_nil] at h
    cases h
  | cons x xs ih =>
    rw [List.mapM_cons] at h
    cases hx : g x with
    | error e' =>
      rw [hx] at h
      cases h
      exact ⟨x, List.mem_cons_self, hx⟩
    | ok y =>
      rw [hx] at h
      cases hxs : xs.mapM g with
      | error e' =>
        rw [hxs] at h
        cases h
        obtain ⟨x', hx', heq⟩ := ih hxs
        exact ⟨x', List.mem_cons_of_mem x hx', heq⟩
      | ok ys =>
        rw [hxs] at h
        cases h

end

/-- A file with one enum that comes from no schema file. -/
def alone (d : EnumDescriptor) : FileDescriptor :=
  { file := none, enums := [d] }

/-- The line that names the schema file without its folders, if there is anything to name. -/
def sourceLine (file : Option String) : String :=
  match Text.filled? (file.map fun path => String.ofList (Path.baseName path.toList)) with
  | some base => "// @generated by enum_wrangler from " ++ base ++ "\n"
  | none => ""

/-- The statements for an enum under its own name, with the members of a new catalog. -/
def ownBlock (o : Options) (d : EnumDescriptor) : Except Error (List Statement) :=
  block o (d.codeName o.anonymousName)
    { d with catalog := some (Catalog.entries d o.keepPrefix) }

section

variable {o : Options} {file : FileDescriptor} {d : EnumDescriptor}

theorem toList_sourceLine (file : Option String) :
    (sourceLine file).toList = Output.endLines (OutputFile.headerLines (emptyFile file).source) := by
  have hsource : Text.filled? (emptyFile file).source =
      Text.filled? (file.map fun path => String.ofList (Path.baseName path.toList)) := by
    unfold emptyFile
    cases file with
    | none => rfl
    | some path =>
      by_cases hpath : path = ""
      · rw [hpath]
        rfl
      · have hfilled : Text.filled? (some path) = some path := by simp [Text.filled?, hpath]
        rw [hfilled]
        rfl
  rw [sourceLine, OutputFile.headerLines, hsource]
  cases Text.filled? (file.map fun path => String.ofList (Path.baseName path.toList)) with
  | none => rfl
  | some base => simp [Output.endLines]

theorem statementsText_flatten (bs : List (List Statement)) :
    Output.statementsText bs.flatten = bs.flatMap Output.statementsText := by
  induction bs with
  | nil => rfl
  | cons ss bs ih =>
    rw [List.flatten_cons, Output.statementsText, List.flatMap_append]
    exact congrArg _ ih

/-- A file with statements is the line that names its source and the text of the statements. -/
theorem content_eq {f : OutputFile} {file : Option String} (hsource : f.source = (emptyFile file).source)
    (hne : f.statements ≠ []) :
    f.content = sourceLine file ++ String.ofList (Output.statementsText f.statements) := by
  apply String.toList_inj.1
  rw [OutputFile.content, String.toList_append, String.toList_ofList, String.toList_ofList,
    toList_sourceLine, Output.contentChars_eq, if_neg fun h => hne h.2, hsource]

theorem allFresh_emptyFile {enums : List EnumDescriptor} (path : Option String)
    (hnames : (enums.map fun d => d.codeName o.anonymousName).Nodup) :
    AllFresh o 0 enums (emptyFile path) := by
  refine ⟨hnames, fun d _ => ?_, fun j _ => ?_⟩
  · rw [(emptyFile_spec path).2]
    rfl
  · rw [(emptyFile_spec path).2]
    rfl

theorem flatten_ne_nil {ds : List EnumDescriptor} {bs : List (List Statement)} (hne : ds ≠ [])
    (h : ds.mapM (ownBlock o) = .ok bs) : bs.flatten ≠ [] := by
  cases Schema.forall₂_of_mapM h with
  | nil => exact absurd rfl hne
  | cons hb _ => simp [block_ne_nil hb]

/-- Enums that have catalogs and different names make a file of their blocks. -/
theorem result_generate_eq_blocks (hne : file.enums ≠ [])
    (hnames : (file.enums.map fun d => d.codeName o.anonymousName).Nodup)
    (hassigned : (EnumDescriptor.assignCatalogs o.keepPrefix file.enums).2 = .ok ()) :
    (generate o file).result = (file.enums.mapM (ownBlock o)).map fun bs =>
      sourceLine file.file ++ String.ofList (Output.statementsText bs.flatten) := by
  obtain ⟨-, henums⟩ := EnumDescriptor.assignCatalogs_ok hassigned
  have hfresh : AllFresh o 0 (EnumDescriptor.assignCatalogs o.keepPrefix file.enums).1
      (emptyFile file.file) := by
    apply allFresh_emptyFile
    rw [henums, List.map_map]
    exact hnames
  have hblocks := emitAll_eq_blocks hfresh
  simp only [(emptyFile_spec file.file).1, List.nil_append] at hblocks
  rw [henums, List.mapM_map] at hblocks
  change _ = (file.enums.mapM (ownBlock o)).map _ at hblocks
  have hout : outputFile o file =
      (emitAll o 0 (EnumDescriptor.assignCatalogs o.keepPrefix file.enums).1
        (emptyFile file.file)).result := by
    simp only [outputFile, hassigned]
    rfl
  rw [result_generate, hout, henums]
  cases hbs : file.enums.mapM (ownBlock o) with
  | error e =>
    rw [hbs] at hblocks
    cases hresult : (emitAll o 0 (file.enums.map _) (emptyFile file.file)).result with
    | error e' =>
      rw [hresult] at hblocks
      cases hblocks
      rfl
    | ok out =>
      rw [hresult] at hblocks
      cases hblocks
  | ok bs =>
    rw [hbs] at hblocks
    cases hresult : (emitAll o 0 (file.enums.map _) (emptyFile file.file)).result with
    | error e =>
      rw [hresult] at hblocks
      cases hblocks
    | ok out =>
      rw [hresult] at hblocks
      obtain ⟨hsource, hstatements⟩ := Prod.mk.inj (Except.ok.inj hblocks)
      have hcontent := content_eq hsource (hstatements ▸ flatten_ne_nil hne hbs)
      rw [hstatements] at hcontent
      exact congrArg Except.ok hcontent

/-- The output for one enum is its block. -/
theorem result_generate_alone (h : ∃ c, Catalog.build d o.keepPrefix = .ok c) :
    (generate o (alone d)).result =
      (ownBlock o d).map fun ss => String.ofList (Output.statementsText ss) := by
  have hassigned : (EnumDescriptor.assignCatalogs o.keepPrefix (alone d).enums).2 = .ok () :=
    EnumDescriptor.assignCatalogs_eq_ok fun k hk => by rwa [List.mem_singleton.1 hk]
  have hnames : ((alone d).enums.map fun d => d.codeName o.anonymousName).Nodup :=
    List.nodup_singleton _
  rw [result_generate_eq_blocks (List.cons_ne_nil _ _) hnames hassigned]
  simp only [alone, List.mapM_cons, List.mapM_nil]
  cases ownBlock o d with
  | error e => rfl
  | ok ss => simp [Except.map, bind, Except.bind, pure, Except.pure, sourceLine, Text.filled?]

theorem result_generate_alone_of_build_error {e : DuplicateMember}
    (h : Catalog.build d o.keepPrefix = .error e) :
    (generate o (alone d)).result = .error (.duplicateMember e) := by
  rw [result_generate]
  simp only [outputFile, alone, EnumDescriptor.assignCatalogs, h]
  rfl

/-- Generation is modular. Where the enums have different names to begin with, generation fails exactly
if it fails for one of them alone. Otherwise the output is the line that names the schema file and then
what is generated for each enum alone. -/
theorem generate_modular (o : Options) (file : FileDescriptor) (hne : file.enums ≠ [])
    (hnames : (file.enums.map fun d => d.codeName o.anonymousName).Nodup) :
    ((∃ e, (generate o file).result = .error e) ↔
      ∃ d ∈ file.enums, ∃ e, (generate o (alone d)).result = .error e) ∧
    ∀ code, (generate o file).result = .ok code →
      ∃ codes, List.Forall₂ (fun d c => (generate o (alone d)).result = .ok c) file.enums codes ∧
        code = sourceLine file.file ++ String.join codes := by
  cases hassigned : (EnumDescriptor.assignCatalogs o.keepPrefix file.enums).2 with
  | error e =>
    have herror : (generate o file).result = .error (.duplicateMember e) := by
      rw [result_generate]
      simp only [outputFile, hassigned]
      rfl
    obtain ⟨before, d, after, henums, hd, -⟩ := EnumDescriptor.assignCatalogs_error hassigned
    have hmem : d ∈ file.enums := by simp [henums]
    refine ⟨iff_of_true ⟨_, herror⟩ ⟨d, hmem, _, result_generate_alone_of_build_error hd⟩, ?_⟩
    intro code hcode
    rw [herror] at hcode
    cases hcode
  | ok u =>
    obtain ⟨hbuild, -⟩ := EnumDescriptor.assignCatalogs_ok hassigned
    have halone : ∀ d ∈ file.enums, (generate o (alone d)).result =
        (ownBlock o d).map fun ss => String.ofList (Output.statementsText ss) := fun d hd =>
      result_generate_alone ⟨_, hbuild d hd⟩
    rw [result_generate_eq_blocks hne hnames hassigned]
    cases hbs : file.enums.mapM (ownBlock o) with
    | error e =>
      obtain ⟨d, hd, hblock⟩ := exists_of_mapM_eq_error hbs
      refine ⟨iff_of_true ⟨e, rfl⟩ ⟨d, hd, e, ?_⟩, fun code hcode => by cases hcode⟩
      rw [halone d hd, hblock]
      rfl
    | ok bs =>
      have hblocks := Schema.forall₂_of_mapM hbs
      refine ⟨iff_of_false ?_ ?_, fun code hcode => ?_⟩
      · rintro ⟨e, he⟩
        cases he
      · rintro ⟨d, hd, e, he⟩
        obtain ⟨ss, hss⟩ := exists_ok_of_mapM hbs hd
        rw [halone d hd, hss] at he
        cases he
      · cases hcode
        refine ⟨bs.map fun ss => String.ofList (Output.statementsText ss), ?_, ?_⟩
        · rw [List.forall₂_map_right_iff]
          refine ((List.forall₂_and_left _ _).2 ⟨halone, hblocks⟩).imp ?_
          rintro d ss ⟨hd, hss⟩
          rw [hd, hss]
          rfl
        · apply String.toList_inj.1
          simp [statementsText_flatten, List.flatMap_map]

end

/-- An enum inside of a message, and one that is called like a built-in type. -/
def twoEnums : FileDescriptor where
  file := some "schemas/e.proto"
  enums := [{ name := some "E", values := [{ name := "E_ONE", number := 1 }], parents := ["M"] },
    { name := some "string", values := [{ name := "A", number := 0 }, { name := "B", number := 0 }] }]

theorem generate_modular_twoEnums :
    (twoEnums.enums.map fun d => d.codeName "Anonymous") = ["M_E", "string$"] ∧
      ∃ code codes, (generate { anonymousName := "Anonymous" } twoEnums).result = .ok code ∧
        List.Forall₂ (fun d c =>
          (generate { anonymousName := "Anonymous" } (alone d)).result = .ok c) twoEnums.enums codes ∧
        code = "// @generated by enum_wrangler from e.proto\n" ++ String.join codes := by
  obtain ⟨code, hcode⟩ : ∃ code,
      (generate { anonymousName := "Anonymous" } twoEnums).result = .ok code := ⟨_, rfl⟩
  obtain ⟨-, hmodular⟩ := generate_modular { anonymousName := "Anonymous" } twoEnums
    (List.cons_ne_nil _ _) (by decide)
  obtain ⟨codes, hcodes, heq⟩ := hmodular code hcode
  exact ⟨by decide, code, codes, hcode, hcodes, heq⟩

end Generator

end SchemaEnums
