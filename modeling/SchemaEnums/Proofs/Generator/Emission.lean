import SchemaEnums.Generator.Generate
import SchemaEnums.Proofs.Catalog.Names
import SchemaEnums.Proofs.Schema.Parsed
import SchemaEnums.Proofs.TypeScript.Scope

namespace SchemaEnums

open TypeScript

section

variable {f : OutputFile} {a name : String} {id other : Nat} {d : EnumDescriptor}

/-- An enum with a name keeps it. -/
theorem TypeScript.OutputFile.nameFor_of_name? (h : f.scope.name? id = some name) :
    f.nameFor a id d = (name, f) := by
  rw [OutputFile.nameFor, h]

/-- An enum without a name is given the first free one. -/
theorem TypeScript.OutputFile.nameFor_of_none (h : f.scope.name? id = none) :
    f.nameFor a id d = (f.scope.freeName (d.codeName a),
      { f with scope := f.scope.insert (f.scope.freeName (d.codeName a)) id }) := by
  rw [OutputFile.nameFor, h]

/-- An enum that was given a name has it. -/
theorem TypeScript.OutputFile.name?_nameFor :
    (f.nameFor a id d).2.scope.name? id = some (f.nameFor a id d).1 := by
  cases h : f.scope.name? id with
  | some name =>
    rw [OutputFile.nameFor_of_name? h]
    exact h
  | none =>
    rw [OutputFile.nameFor_of_none h]
    exact Scope.name?_insert_self _ _ _

/-- An enum that was given a name has it still when a statement was added. -/
theorem TypeScript.OutputFile.nameFor_add (s : Statement) :
    ((f.nameFor a id d).2.add s).nameFor a id d = ((f.nameFor a id d).1, (f.nameFor a id d).2.add s) :=
  OutputFile.nameFor_of_name? OutputFile.name?_nameFor

/-- When an enum is given a name, all enums keep the names that they have. -/
theorem TypeScript.OutputFile.name?_nameFor_of_name? (h : f.scope.name? other = some name) :
    (f.nameFor a id d).2.scope.name? other = some name := by
  cases hid : f.scope.name? id with
  | some current =>
    rw [OutputFile.nameFor_of_name? hid]
    exact h
  | none =>
    have hne : other ≠ id := by
      rintro rfl
      rw [h] at hid
      cases hid
    rw [OutputFile.nameFor_of_none hid]
    exact (Scope.name?_insert_of_ne (f.scope.contains_freeName _) hne).trans h

/-- Giving a name adds no statement and changes nothing about the source. -/
theorem TypeScript.OutputFile.nameFor_keeps (f : OutputFile) (a : String) (id : Nat)
    (d : EnumDescriptor) :
    (f.nameFor a id d).2.statements = f.statements ∧ (f.nameFor a id d).2.source = f.source := by
  unfold OutputFile.nameFor
  split <;> exact ⟨rfl, rfl⟩

/-- The name that an enum is given depends on the scope of the file only. -/
theorem TypeScript.OutputFile.nameFor_congr {g : OutputFile} (a : String) (id : Nat)
    (d : EnumDescriptor) (h : f.scope = g.scope) :
    (f.nameFor a id d).1 = (g.nameFor a id d).1 ∧
      (f.nameFor a id d).2.scope = (g.nameFor a id d).2.scope := by
  unfold OutputFile.nameFor
  rw [h]
  cases g.scope.name? id with
  | some name => exact ⟨rfl, h⟩
  | none => exact ⟨rfl, rfl⟩

/-- All statements of the first file stand in the other, in front, and enums with a name in the first
file have it in the other. -/
structure TypeScript.OutputFile.Extends (f g : OutputFile) : Prop where
  statements : f.statements <+: g.statements
  name? : ∀ {id name}, f.scope.name? id = some name → g.scope.name? id = some name

namespace TypeScript.OutputFile.Extends

theorem refl (f : OutputFile) : f.Extends f :=
  ⟨List.prefix_refl _, id⟩

theorem trans {f g h : OutputFile} (hfg : f.Extends g) (hgh : g.Extends h) : f.Extends h :=
  ⟨hfg.statements.trans hgh.statements, fun hname => hgh.name? (hfg.name? hname)⟩

theorem nameFor (f : OutputFile) (a : String) (id : Nat) (d : EnumDescriptor) :
    f.Extends (f.nameFor a id d).2 := by
  refine ⟨⟨[], ?_⟩, OutputFile.name?_nameFor_of_name?⟩
  rw [List.append_nil, (f.nameFor_keeps a id d).1]

theorem add (f : OutputFile) (s : Statement) : f.Extends (f.add s) :=
  ⟨List.prefix_append _ _, id⟩

end TypeScript.OutputFile.Extends

end

theorem TypeScript.EnumDraft.checkMembers_ok {enum : String} {seen : List String} {ms : List Member}
    (h : checkMembers enum seen ms = .ok ()) : ∀ m ∈ ms, isIdentifier m.name = true := by
  induction ms generalizing seen with
  | nil => simp
  | cons m ms ih =>
    rw [checkMembers] at h
    split at h
    · cases h
    next hm =>
      split at h
      · cases h
      · intro k hk
        rcases List.mem_cons.1 hk with rfl | hk
        · simpa using hm
        · exact ih h k hk

/-- What is known of a declaration that was finished. -/
theorem TypeScript.EnumDraft.finish_ok {draft : EnumDraft} {name : String} {modifiers : List String}
    {declaration : EnumDeclaration} (h : draft.finish name modifiers = .ok declaration) :
    draft.members ≠ [] ∧ (∀ m ∈ draft.members, isIdentifier m.name = true) ∧
      declaration.name.text = name ∧ declaration.members = draft.members ∧
      declaration.modifiers = modifiers := by
  unfold finish at h
  split at h
  · cases h
  next hne =>
    obtain ⟨u, hcheck, h⟩ := Schema.bind_eq_ok h
    obtain ⟨identifier, hidentifier, h⟩ := Schema.bind_eq_ok h
    cases h
    refine ⟨by simpa using hne, checkMembers_ok hcheck, ?_, rfl, rfl⟩
    cases hofText : Identifier.ofText name with
    | error e =>
      rw [hofText] at hidentifier
      cases hidentifier
    | ok i =>
      rw [hofText] at hidentifier
      cases hidentifier
      exact Identifier.text_of_ofText hofText

namespace Generator

section

variable {a : String} {id : Nat} {d : EnumDescriptor} {entries : Catalog} {f f' : OutputFile}

/-- What an enum that was emitted adds to the file. -/
theorem emitEnum_ok {declaration : EnumDeclaration}
    (h : (emitEnum a id d (.ok entries) f).result = .ok declaration) :
    entries ≠ [] ∧ (∀ e ∈ entries, isIdentifier e.name = true) ∧
      declaration.name.text = (f.nameFor a id d).1 ∧
      declaration.members = entries.map (member d) ∧ declaration.modifiers = ["export"] ∧
      (emitEnum a id d (.ok entries) f).file = (f.nameFor a id d).2.add (.enum declaration) := by
  unfold emitEnum at h ⊢
  cases hfinish : EnumDraft.finish { members := entries.map (member d) } (f.nameFor a id d).1
    ["export"] with
  | error e =>
    simp only [hfinish] at h
    cases h
  | ok finished =>
    simp only [hfinish] at h ⊢
    cases h
    obtain ⟨hne, hmembers, hname, hms, hmodifiers⟩ := EnumDraft.finish_ok hfinish
    refine ⟨by simpa using hne, fun e he => ?_, hname, hms, hmodifiers, rfl⟩
    exact hmembers _ (List.mem_map_of_mem he)

/-- What is known of a label table that was made. -/
theorem table_ok {name : String} {declaration : VariableDeclaration}
    (h : table name d entries = .ok declaration) :
    ∃ rows tableName, entries.mapM (row name d) = .ok rows ∧ tableName.text = name ++ tableSuffix ∧
      declaration =
        { name := tableName, initializer := .array rows true, modifiers := ["export"] } := by
  obtain ⟨rows, hrows, h⟩ := Schema.bind_eq_ok h
  obtain ⟨tableName, htableName, h⟩ := Schema.bind_eq_ok h
  cases h
  exact ⟨rows, tableName, hrows, Identifier.text_of_ofText htableName, rfl⟩

/-- What a label table that was emitted adds to the file. -/
theorem emitTable_ok {declaration : VariableDeclaration}
    (h : (emitTable a id d (.ok entries) f).result = .ok declaration) :
    table (f.nameFor a id d).1 d entries = .ok declaration ∧
      (emitTable a id d (.ok entries) f).file =
        (f.nameFor a id d).2.add (.binding declaration) := by
  unfold emitTable at h ⊢
  cases htable : table (f.nameFor a id d).1 d entries with
  | error e =>
    simp only [htable] at h
    cases h
  | ok t =>
    simp only [htable] at h ⊢
    cases h
    exact ⟨rfl, rfl⟩

/-- The file after an attempt to declare an enum. -/
theorem extends_emitEnum (a : String) (id : Nat) (d : EnumDescriptor)
    (catalog : Except DuplicateMember Catalog) (f : OutputFile) :
    f.Extends (emitEnum a id d catalog f).file := by
  cases catalog with
  | error e => exact .refl f
  | ok entries =>
    simp only [emitEnum]
    split
    · exact .nameFor f a id d
    · exact (OutputFile.Extends.nameFor f a id d).trans (.add _ _)

/-- The file after an attempt to add a label table. -/
theorem extends_emitTable (a : String) (id : Nat) (d : EnumDescriptor)
    (catalog : Except DuplicateMember Catalog) (f : OutputFile) :
    f.Extends (emitTable a id d catalog f).file := by
  have hname := OutputFile.Extends.nameFor f a id d
  cases catalog with
  | error e => exact hname
  | ok entries =>
    simp only [emitTable]
    split
    · exact hname
    · exact hname.trans (.add _ _)

theorem Attempt.result_proceed {α : Type} (note : α → String) (attempt : Attempt α) :
    (attempt.proceed note).result = attempt.result.map fun _ => attempt.file := by
  unfold Attempt.proceed
  cases attempt.result <;> rfl

theorem Attempt.proceed_ok {α : Type} {note : α → String} {attempt : Attempt α}
    (h : (attempt.proceed note).result = .ok f') :
    ∃ x, attempt.result = .ok x ∧ f' = attempt.file := by
  rw [Attempt.result_proceed] at h
  cases hresult : attempt.result with
  | error e =>
    rw [hresult] at h
    cases h
  | ok x =>
    rw [hresult] at h
    cases h
    exact ⟨x, rfl, rfl⟩

theorem result_emit (o : Options) (id : Nat) (d : EnumDescriptor) (f : OutputFile) :
    (emit o id d f).result =
      ((emitEnum o.anonymousName id d d.currentCatalog f).proceed enumNote).result >>= fun f =>
        if o.labelTables then
          ((emitTable o.anonymousName id d d.currentCatalog f).proceed tableNote).result
        else .ok f := by
  rw [emit, Noted.result_bind]
  cases o.labelTables <;> rfl

theorem extends_emit {o : Options} (h : (emit o id d f).result = .ok f') : f.Extends f' := by
  rw [result_emit] at h
  obtain ⟨f₁, hf₁, h⟩ := Schema.bind_eq_ok h
  obtain ⟨-, -, rfl⟩ := Attempt.proceed_ok hf₁
  have henum := extends_emitEnum o.anonymousName id d d.currentCatalog f
  by_cases htables : o.labelTables = true
  · rw [if_pos htables] at h
    obtain ⟨-, -, rfl⟩ := Attempt.proceed_ok h
    exact henum.trans (extends_emitTable ..)
  · rw [if_neg htables] at h
    cases h
    exact henum

/-- Emission of enums takes no name from an enum that has one. -/
theorem extends_emitAll {o : Options} {ds : List EnumDescriptor}
    (h : (emitAll o id ds f).result = .ok f') : f.Extends f' := by
  induction ds generalizing f id with
  | nil =>
    cases h
    exact .refl f'
  | cons d ds ih =>
    rw [emitAll, Noted.result_bind] at h
    obtain ⟨f₁, hf₁, h⟩ := Schema.bind_eq_ok h
    exact (extends_emit hf₁).trans (ih h)

/-- The statements that were added for an enum that has the name in the file. -/
structure Emitted (o : Options) (name : String) (d : EnumDescriptor) (entries : Catalog)
    (ss : List Statement) : Prop where
  ne_nil : entries ≠ []
  isIdentifier : ∀ e ∈ entries, isIdentifier e.name = true
  statements : ∃ declaration : EnumDeclaration, declaration.name.text = name ∧
    declaration.members = entries.map (member d) ∧ declaration.modifiers = ["export"] ∧
    if o.labelTables then
      ∃ t, table name d entries = .ok t ∧ ss = [.enum declaration, .binding t]
    else ss = [.enum declaration]

/-- What the emission of an enum with its table adds to the file. -/
theorem emit_ok {o : Options} (hcatalog : d.currentCatalog = .ok entries)
    (h : (emit o id d f).result = .ok f') :
    ∃ ss, Emitted o (f.nameFor o.anonymousName id d).1 d entries ss ∧
      f'.statements = f.statements ++ ss ∧ f'.source = f.source ∧
      f'.scope = (f.nameFor o.anonymousName id d).2.scope := by
  rw [result_emit, hcatalog] at h
  obtain ⟨f₁, hf₁, h⟩ := Schema.bind_eq_ok h
  obtain ⟨declaration, hdeclaration, rfl⟩ := Attempt.proceed_ok hf₁
  obtain ⟨hne, hidentifier, hname, hmembers, hmodifiers, hfile⟩ := emitEnum_ok hdeclaration
  obtain ⟨hstatements, hsource⟩ := f.nameFor_keeps o.anonymousName id d
  rw [hfile] at h
  by_cases htables : o.labelTables = true
  · rw [if_pos htables] at h
    obtain ⟨t, ht, rfl⟩ := Attempt.proceed_ok h
    obtain ⟨htable, hfile'⟩ := emitTable_ok ht
    -- The enum has its name already when the table is emitted.
    rw [OutputFile.nameFor_add] at htable hfile'
    refine ⟨[.enum declaration, .binding t], ⟨hne, hidentifier, declaration, hname, hmembers,
      hmodifiers, ?_⟩, ?_⟩
    · rw [if_pos htables]
      exact ⟨t, htable, rfl⟩
    · rw [hfile']
      simp [OutputFile.add, hstatements, hsource]
  · rw [if_neg htables] at h
    cases h
    refine ⟨[.enum declaration], ⟨hne, hidentifier, declaration, hname, hmembers, hmodifiers, ?_⟩, ?_⟩
    · rw [if_neg htables]
    · simp [OutputFile.add, hstatements, hsource]

end

end Generator

namespace Generator

/-- An output file has no statements and no names in the beginning. -/
theorem emptyFile_spec (file : Option String) :
    (emptyFile file).statements = [] ∧ (emptyFile file).scope = {} := by
  unfold emptyFile
  split <;> exact ⟨rfl, rfl⟩

theorem mem_baseName {c : Char} {path : List Char} (h : c ∈ Path.baseName path) :
    c ∈ path ∧ c ≠ '/' := by
  rw [Path.baseName, Path.splitBase, List.mem_reverse] at h
  have hslash := List.mem_takeWhile_imp h
  exact ⟨List.mem_reverse.1 ((List.takeWhile_sublist _).subset h), bne_iff_ne.1 hslash⟩

/-- An output file names the schema file without its folders. -/
theorem path_of_mem_source {file : Option String} {source : String}
    (h : source ∈ (emptyFile file).source) :
    ∃ path ∈ file, source.toList = Path.baseName path.toList := by
  unfold emptyFile at h
  split at h
  next path hpath =>
    cases h
    exact ⟨path, (Option.filter_eq_some_iff.1 hpath).1, String.toList_ofList⟩
  next => cases h

/-- The output file for a schema file, with all its statements. -/
def outputFile (o : Options) (file : FileDescriptor) : Except Error OutputFile := do
  let (enums, assigned) := EnumDescriptor.assignCatalogs o.keepPrefix file.enums
  assigned.mapError .duplicateMember
  (emitAll o 0 enums (emptyFile file.file)).result

theorem outputFile_ok {o : Options} {file : FileDescriptor} {out : OutputFile}
    (h : outputFile o file = .ok out) :
    (EnumDescriptor.assignCatalogs o.keepPrefix file.enums).2 = .ok () ∧
      (emitAll o 0 (EnumDescriptor.assignCatalogs o.keepPrefix file.enums).1
        (emptyFile file.file)).result = .ok out := by
  unfold outputFile at h
  cases hassigned : (EnumDescriptor.assignCatalogs o.keepPrefix file.enums).2 with
  | error e =>
    simp only [hassigned] at h
    cases h
  | ok u =>
    simp only [hassigned] at h
    exact ⟨rfl, h⟩

/-- What is generated is the text of the output file. -/
theorem result_generate (o : Options) (file : FileDescriptor) :
    (generate o file).result = (outputFile o file).map OutputFile.content := by
  unfold generate outputFile
  simp only [Noted.result_bind]
  cases (EnumDescriptor.assignCatalogs o.keepPrefix file.enums).2 with
  | error e => rfl
  | ok u =>
    show ((emitAll o 0 _ _).result >>= _) = Except.map _ ((emitAll o 0 _ _).result)
    cases (emitAll o 0 _ _).result <;> rfl

theorem exists_outputFile {o : Options} {file : FileDescriptor} {code : String}
    (h : (generate o file).result = .ok code) :
    ∃ out, outputFile o file = .ok out ∧ code = out.content := by
  rw [result_generate] at h
  cases hout : outputFile o file with
  | error e =>
    rw [hout] at h
    cases h
  | ok out =>
    rw [hout] at h
    exact ⟨out, rfl, (Except.ok.inj h).symm⟩

end Generator

end SchemaEnums
