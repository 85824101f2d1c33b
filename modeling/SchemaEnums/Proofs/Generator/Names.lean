import Mathlib.Data.List.Perm.Basic
import SchemaEnums.Descriptor.Load
import SchemaEnums.Proofs.Generator.Emission

namespace SchemaEnums

open TypeScript

namespace TypeScript

/-- The name that an enum declaration declares. -/
def Statement.enumName? : Statement → Option String
  | .enum d => some d.name.text
  | _ => none

/-- The name that the declaration of a variable declares. -/
def Statement.variableName? : Statement → Option String
  | .binding d => some d.name.text
  | _ => none

/-- The name that a statement declares. -/
def Statement.declaredName? (s : Statement) : Option String :=
  s.enumName?.or s.variableName?

namespace OutputFile

/-- The names of the enums that a file declares. -/
def enumNames (f : OutputFile) : List String :=
  f.statements.filterMap Statement.enumName?

/-- The names of the variables that a file declares. -/
def variableNames (f : OutputFile) : List String :=
  f.statements.filterMap Statement.variableName?

/-- All names that a file declares at top level. -/
def declaredNames (f : OutputFile) : List String :=
  f.statements.filterMap Statement.declaredName?

end OutputFile

end TypeScript

namespace Generator

section

variable {o : Options} {name : String} {id : Nat} {d : EnumDescriptor} {f f' : OutputFile}

/-- The names of the label tables for an enum with the name. -/
def tableNames (o : Options) (name : String) : List String :=
  if o.labelTables then [name ++ tableSuffix] else []

/-- The names that are declared for an enum. -/
theorem Emitted.names {entries : Catalog} {ss : List Statement} (h : Emitted o name d entries ss) :
    ss.filterMap Statement.enumName? = [name] ∧
      ss.filterMap Statement.variableName? = tableNames o name ∧
        ss.filterMap Statement.declaredName? = name :: tableNames o name := by
  obtain ⟨-, -, declaration, hname, -, -, hss⟩ := h
  unfold tableNames
  by_cases htables : o.labelTables = true
  · rw [if_pos htables] at hss ⊢
    obtain ⟨t, ht, rfl⟩ := hss
    obtain ⟨rows, tableName, -, htableName, rfl⟩ := table_ok ht
    simp [List.filterMap_cons, Statement.enumName?, Statement.variableName?,
      Statement.declaredName?, hname, htableName]
  · rw [if_neg htables] at hss ⊢
    subst hss
    simp [List.filterMap_cons, Statement.enumName?, Statement.variableName?,
      Statement.declaredName?, hname]

/-- The enums that are emitted into a file declare the names that they have in its scope in the end.
-/
theorem emitAll_names {ds : List EnumDescriptor}
    (hds : ∀ d ∈ ds, ∃ entries, d.currentCatalog = .ok entries)
    (h : (emitAll o id ds f).result = .ok f') :
    ∃ names, names.map some = (List.range' id ds.length).map f'.scope.name? ∧
      f'.enumNames = f.enumNames ++ names ∧
        f'.variableNames = f.variableNames ++ names.flatMap (tableNames o) ∧
          f'.declaredNames = f.declaredNames ++ names.flatMap fun n => n :: tableNames o n := by
  induction ds generalizing f id with
  | nil =>
    cases h
    exact ⟨[], rfl, by simp⟩
  | cons d ds ih =>
    obtain ⟨entries, hentries⟩ := hds d List.mem_cons_self
    have hrest : ∀ k ∈ ds, ∃ entries, k.currentCatalog = .ok entries := fun k hk =>
      hds k (List.mem_cons_of_mem d hk)
    rw [emitAll, Noted.result_bind] at h
    obtain ⟨f₁, hf₁, h⟩ := Schema.bind_eq_ok h
    obtain ⟨ss, hemitted, hstatements, -, hscope⟩ := emit_ok hentries hf₁
    obtain ⟨henum, hvariable, hdeclared⟩ := hemitted.names
    obtain ⟨names, hnames, henums, hvariables, hall⟩ := ih hrest h
    have hname : f₁.scope.name? id = some (f.nameFor o.anonymousName id d).1 := by
      rw [hscope]
      exact OutputFile.name?_nameFor
    refine ⟨(f.nameFor o.anonymousName id d).1 :: names, ?_, ?_, ?_, ?_⟩
    · rw [List.map_cons, hnames, List.length_cons, List.range'_succ, List.map_cons,
        (extends_emitAll h).name? hname]
    · rw [henums, OutputFile.enumNames, hstatements, List.filterMap_append, henum]
      simp [OutputFile.enumNames]
    · rw [hvariables, OutputFile.variableNames, hstatements, List.filterMap_append, hvariable]
      simp [OutputFile.variableNames]
    · rw [hall, OutputFile.declaredNames, hstatements, List.filterMap_append, hdeclared]
      simp [OutputFile.declaredNames]

/-- Names that enums have in a scope are different. -/
theorem nodup_of_map_name? {s : Scope} {names : List String} {ids : List Nat} (hids : ids.Nodup)
    (h : names.map some = ids.map s.name?) : names.Nodup := by
  induction ids generalizing names with
  | nil =>
    rw [List.map_nil, List.map_eq_nil_iff] at h
    rw [h]
    exact List.nodup_nil
  | cons i ids ih =>
    obtain ⟨hi, hids⟩ := List.nodup_cons.1 hids
    cases names with
    | nil => cases h
    | cons n names =>
      simp only [List.map_cons, List.cons.injEq] at h
      obtain ⟨hn, hnames⟩ := h
      refine List.nodup_cons.2 ⟨fun hmem => ?_, ih hids hnames⟩
      have hsome : some n ∈ ids.map s.name? := hnames ▸ List.mem_map_of_mem hmem
      obtain ⟨j, hj, hjname⟩ := List.mem_map.1 hsome
      rw [Scope.owner_unique hn.symm hjname] at hi
      exact hi hj

theorem flatMap_tableNames (o : Options) (names : List String) :
    names.flatMap (tableNames o) =
      if o.labelTables then names.map fun n => n ++ tableSuffix else [] := by
  unfold tableNames
  by_cases htables : o.labelTables = true
  · simp only [if_pos htables, List.map_eq_flatMap]
  · simp [htables]

/-- Different names and the names of their tables are all different exactly if no table has a name of
the list. -/
theorem nodup_flatMap_tableNames {names : List String} (hnames : names.Nodup) :
    (names.flatMap fun n => n :: tableNames o n).Nodup ↔
      (o.labelTables = true → ∀ n ∈ names, n ++ tableSuffix ∉ names) := by
  have hperm : (names ++ names.flatMap (tableNames o)).Perm
      (names.flatMap fun n => n :: tableNames o n) := by
    simpa using List.map_append_flatMap_perm names id (tableNames o)
  rw [← hperm.nodup_iff, flatMap_tableNames]
  by_cases htables : o.labelTables = true
  · have htableNames : (names.map fun n => n ++ tableSuffix).Nodup :=
      (List.nodup_map_iff fun _ _ => (String.append_left_inj tableSuffix).1).2 hnames
    rw [if_pos htables, List.nodup_append', and_iff_right hnames, and_iff_right htableNames,
      List.disjoint_right, List.forall_mem_map]
    simp [htables]
  · simp [htables, hnames]

/-- The names in an output file: those of its enums are different, and with each of them there is the
name of its table. -/
theorem outputFile_names {file : FileDescriptor} {out : OutputFile}
    (h : outputFile o file = .ok out) :
    out.enumNames.Nodup ∧ out.variableNames = out.enumNames.flatMap (tableNames o) ∧
      out.declaredNames = out.enumNames.flatMap fun n => n :: tableNames o n := by
  obtain ⟨hassigned, hemitAll⟩ := outputFile_ok h
  have hcatalogs := EnumDescriptor.exists_currentCatalog hassigned
  obtain ⟨names, hnames, henumNames, hvariableNames, hdeclaredNames⟩ :=
    emitAll_names hcatalogs hemitAll
  simp only [OutputFile.enumNames, OutputFile.variableNames, OutputFile.declaredNames,
    (emptyFile_spec file.file).1, List.filterMap_nil, List.nil_append]
    at henumNames hvariableNames hdeclaredNames ⊢
  rw [henumNames, hvariableNames, hdeclaredNames]
  exact ⟨nodup_of_map_name? List.nodup_range' hnames, rfl, rfl⟩

end

/-- The code that is generated declares different names for the enums, and different names for their
tables, which are named for them. Names of both kinds are different exactly if no enum is called like
the table of an enum. -/
theorem nodup_declaredNames_iff {o : Options} {file : FileDescriptor} {code : String}
    (h : (generate o file).result = .ok code) :
    ∃ out, outputFile o file = .ok out ∧ out.content = code ∧ out.enumNames.Nodup ∧
      out.variableNames =
        (if o.labelTables then out.enumNames.map fun n => n ++ tableSuffix else []) ∧
      (out.declaredNames.Nodup ↔
        (o.labelTables = true → ∀ n ∈ out.enumNames, n ++ tableSuffix ∉ out.enumNames)) := by
  obtain ⟨out, hout, rfl⟩ := exists_outputFile h
  obtain ⟨hnodup, hvariableNames, hdeclaredNames⟩ := outputFile_names hout
  refine ⟨out, hout, rfl, hnodup, ?_, ?_⟩
  · rw [hvariableNames, flatMap_tableNames]
  · rw [hdeclaredNames]
    exact nodup_flatMap_tableNames hnodup

/-- Two enums, one of which is called like the table of the other. -/
def tableLike : FileDescriptor where
  file := none
  enums := [{ name := some "A", values := [{ name := "X", number := 0, line := some 1 }]
              line := some 1 },
    { name := some "ATranslation", values := [{ name := "Y", number := 0, line := some 2 }]
      line := some 2 }]

/-- An enum `A` in a message `M`, and one that is called like it in the code. -/
def twins : FileDescriptor where
  file := none
  enums := [{ name := some "A", parents := ["M"], values := [{ name := "X", number := 0 }] },
    { name := some "M_A", values := [{ name := "Y", number := 0 }] }]

/-- Without tables the two names do not meet, and with tables the names of two other enums do not. -/
theorem nodup_declaredNames_iff_sample :
    (∃ code, (generate { labelTables := false } tableLike).result = .ok code ∧
      ∃ out, outputFile { labelTables := false } tableLike = .ok out ∧ out.content = code ∧
        out.declaredNames.Nodup) ∧
    ∃ code, (generate {} twins).result = .ok code ∧
      ∃ out, outputFile {} twins = .ok out ∧ out.content = code ∧ out.enumNames = ["M_A", "M_A$1"] ∧
        out.declaredNames.Nodup := by
  constructor
  · obtain ⟨code, hcode⟩ : ∃ code,
        (generate { labelTables := false } tableLike).result = .ok code := ⟨_, rfl⟩
    obtain ⟨out, hout, hcontent, -, -, hiff⟩ := nodup_declaredNames_iff hcode
    exact ⟨code, hcode, out, hout, hcontent, hiff.2 fun htables => nomatch htables⟩
  · obtain ⟨code, hcode⟩ : ∃ code, (generate {} twins).result = .ok code := ⟨_, rfl⟩
    obtain ⟨out, hout, hcontent, -, -, hiff⟩ := nodup_declaredNames_iff hcode
    have hnames : out.enumNames = ["M_A", "M_A$1"] := by
      have hsome : (outputFile {} twins).toOption.map OutputFile.enumNames = some ["M_A", "M_A$1"] := by
        decide +kernel
      rw [hout] at hsome
      exact Option.some.inj hsome
    refine ⟨code, hcode, out, hout, hcontent, hnames, hiff.2 fun _ => ?_⟩
    rw [hnames]
    decide

/-- With tables the code for the text declares `ATranslation` twice. -/
theorem not_nodup_declaredNames :
    (FileDescriptor.load none
        "enum A \x7b X = 0; \x7d\nenum ATranslation \x7b Y = 0; \x7d").result = .ok tableLike ∧
      ∃ out, outputFile {} tableLike = .ok out ∧ ¬ out.declaredNames.Nodup := by
  refine ⟨by decide +kernel, _, rfl, ?_⟩
  decide +kernel

end Generator

end SchemaEnums
