import SchemaEnums.Proofs.Catalog.Names
import SchemaEnums.Proofs.Generator.Words

namespace SchemaEnums

open Source TypeScript

section

variable {d : EnumDescriptor} {keepPrefix : Bool} {e : CatalogEntry}

theorem isAlpha_of_isCapital {c : Char} (h : SharedPrefix.isCapital c = true) : c.isAlpha = true :=
  Bool.or_eq_true_iff.2 (.inl h)

theorem SharedPrefix.isCapital_of_isRemainder {c : Char} {cs : List Char}
    (h : isRemainder (c :: cs) = true) : isCapital c = true := by
  cases cs with
  | nil => cases h
  | cons c' cs => exact (Bool.and_eq_true_iff.1 h).1

/-- Members of enums that are named by words have strict identifiers for names. -/
theorem EnumDescriptor.Named.isStrictIdentifier_of_mem (h : d.Named)
    (he : e ∈ Catalog.entries d keepPrefix) : IsStrictIdentifier e.name.toList := by
  obtain he | he := List.mem_append.1 he
  · unfold Catalog.zeroEntry at he
    split at he
    · cases he
    · rw [List.mem_singleton.1 he]
      exact ⟨'U', "NSPECIFIED$".toList, rfl, rfl, List.all_eq_true.1 rfl⟩
  · obtain ⟨v, hv, rfl⟩ := List.mem_map.1 he
    have hname := isStrictIdentifier_of_isName (h.values v hv)
    obtain ⟨rest, hrest, hdropped⟩ := Catalog.droppedPrefix_spec keepPrefix hv
    rw [Catalog.entry, String.toList_ofList, hrest, List.drop_left]
    rw [hrest] at hname
    obtain hdropped | hdropped := hdropped
    · rwa [hdropped] at hname
    · -- What is left begins with a capital.
      cases rest with
      | nil => cases hdropped
      | cons c cs =>
        have hstart : isIdentifierStart c = true := by
          have hcapital := SharedPrefix.isCapital_of_isRemainder hdropped
          rw [isIdentifierStart, isAlpha_of_isCapital hcapital]
          rfl
        exact ⟨c, cs, rfl, hstart, fun c' hc' => hname.isIdentifierPart_of_mem (by simp [hc'])⟩

/-- The added member has the name of no value, because there is a dollar sign in it. -/
theorem EnumDescriptor.Named.zeroName_not_mem_valueNames (h : d.Named) :
    Catalog.zeroName ∉ Catalog.valueNames d keepPrefix := by
  intro hzero
  obtain ⟨v, hv, hname⟩ := List.mem_map.1 hzero
  have hdollar : '$' ∈ (Catalog.entry (Catalog.droppedPrefix d keepPrefix) v).name.toList := by
    rw [hname]
    decide
  rw [Catalog.entry, String.toList_ofList] at hdollar
  cases (h.values v hv).isNamePart_of_mem (List.mem_of_mem_drop hdollar)

theorem EnumDescriptor.Named.nodup_names_entries_iff (h : d.Named) :
    ((Catalog.entries d keepPrefix).map (·.name)).Nodup ↔ (d.values.map (·.name)).Nodup := by
  rw [Catalog.nodup_names_entries_iff, and_iff_left]
  exact fun _ => h.zeroName_not_mem_valueNames

/-- An enum that is named by words has a catalog exactly if its values have different names. -/
theorem EnumDescriptor.Named.exists_build_iff (h : d.Named) :
    (∃ c, Catalog.build d keepPrefix = .ok c) ↔ (d.values.map (·.name)).Nodup :=
  Catalog.exists_build_iff.trans h.nodup_names_entries_iff

/-- What occurs twice among the names in its catalog is the name of two values. -/
theorem EnumDescriptor.Named.duplicate_valueNames (h : d.Named) {name : String}
    (hdup : List.Duplicate name ((Catalog.entries d keepPrefix).map (·.name))) :
    List.Duplicate name (Catalog.valueNames d keepPrefix) := by
  rw [Catalog.names_entries] at hdup
  unfold Catalog.zeroEntry at hdup
  split at hdup
  · exact hdup
  · obtain ⟨rfl, hmem⟩ | hdup := List.duplicate_cons_iff.1 hdup
    · exact absurd hmem h.zeroName_not_mem_valueNames
    · exact hdup

end

theorem TypeScript.EnumDraft.checkMembers_eq_ok {enum : String} {seen : List String}
    {ms : List Member} (hms : ∀ m ∈ ms, isIdentifier m.name = true)
    (hnodup : (ms.map (·.name)).Nodup) (hseen : ∀ m ∈ ms, m.name ∉ seen) :
    checkMembers enum seen ms = .ok () := by
  induction ms generalizing seen with
  | nil => rfl
  | cons m ms ih =>
    rw [List.map_cons, List.nodup_cons] at hnodup
    have hm : ¬ (!isIdentifier m.name) = true := by simp [hms m List.mem_cons_self]
    have hfresh : ¬ seen.contains m.name = true := fun h =>
      hseen m List.mem_cons_self (List.contains_iff_mem.1 h)
    rw [checkMembers, if_neg hm, if_neg hfresh]
    apply ih (fun k hk => hms k (List.mem_cons_of_mem m hk)) hnodup.2
    intro k hk hmem
    obtain hname | hmem := List.mem_cons.1 hmem
    · exact hnodup.1 (hname ▸ List.mem_map_of_mem hk)
    · exact hseen k (List.mem_cons_of_mem m hk) hmem

/-- A draft with members whose names are different identifiers can be finished. -/
theorem TypeScript.EnumDraft.finish_eq_ok {name : String} (draft : EnumDraft)
    (modifiers : List String) (hne : draft.members ≠ [])
    (hms : ∀ m ∈ draft.members, isIdentifier m.name = true)
    (hnodup : (draft.members.map (·.name)).Nodup) (hname : isIdentifier name = true) :
    ∃ declaration, draft.finish name modifiers = .ok declaration := by
  have hempty : ¬ draft.members.isEmpty = true := by simpa using hne
  refine ⟨{ name := ⟨name, hname⟩, members := draft.members, modifiers }, ?_⟩
  rw [finish, if_neg hempty, checkMembers_eq_ok hms hnodup (by simp), Identifier.ofText_eq_ok hname]
  rfl

namespace Generator

section

variable {o : Options} {a name : String} {id : Nat} {d : EnumDescriptor} {entries : Catalog}
  {f : OutputFile}

theorem emitEnum_eq_ok (hne : entries ≠ []) (hentries : ∀ e ∈ entries, isIdentifier e.name = true)
    (hnodup : (entries.map (·.name)).Nodup)
    (hname : isIdentifier (f.nameFor a id d).1 = true) :
    ∃ declaration, (emitEnum a id d (.ok entries) f).result = .ok declaration := by
  have hmembers : ∀ m ∈ entries.map (member d), isIdentifier m.name = true := by
    intro m hm
    obtain ⟨e, he, rfl⟩ := List.mem_map.1 hm
    exact hentries e he
  have hnames : (entries.map (member d)).map (·.name) = entries.map (·.name) := List.map_map
  obtain ⟨declaration, hfinish⟩ := EnumDraft.finish_eq_ok ⟨entries.map (member d)⟩ ["export"]
    (by simpa using hne) hmembers (by rwa [hnames]) hname
  simp only [emitEnum, hfinish]
  exact ⟨_, rfl⟩

theorem row_eq_ok {e : CatalogEntry} (d : EnumDescriptor) (hname : isIdentifier name = true)
    (he : isIdentifier e.name = true) : ∃ x, row name d e = .ok x := by
  rw [row, Identifier.ofText_eq_ok hname, Identifier.ofText_eq_ok he]
  exact ⟨_, rfl⟩

theorem rows_eq_ok (d : EnumDescriptor) (hname : isIdentifier name = true)
    (hentries : ∀ e ∈ entries, isIdentifier e.name = true) :
    ∃ rows, entries.mapM (row name d) = .ok rows := by
  induction entries with
  | nil => exact ⟨[], rfl⟩
  | cons e entries ih =>
    obtain ⟨x, hx⟩ := row_eq_ok d hname (hentries e List.mem_cons_self)
    obtain ⟨rows, hrows⟩ := ih fun k hk => hentries k (List.mem_cons_of_mem e hk)
    rw [List.mapM_cons, hx, hrows]
    exact ⟨x :: rows, rfl⟩

theorem emitTable_eq_ok (hname : IsStrictIdentifier (f.nameFor a id d).1.toList)
    (hentries : ∀ e ∈ entries, isIdentifier e.name = true) :
    ∃ declaration, (emitTable a id d (.ok entries) f).result = .ok declaration := by
  obtain ⟨rows, hrows⟩ := rows_eq_ok d hname.isIdentifierChars hentries
  have htableName : isIdentifier ((f.nameFor a id d).1 ++ tableSuffix) = true := by
    rw [isIdentifier, String.toList_append]
    exact (hname.append (List.all_eq_true.1 rfl)).isIdentifierChars
  have htable : table (f.nameFor a id d).1 d entries =
      .ok { name := ⟨_, htableName⟩, initializer := .array rows true, modifiers := ["export"] } := by
    rw [table, hrows, Identifier.ofText_eq_ok htableName]
    rfl
  simp only [emitTable, htable]
  exact ⟨_, rfl⟩

/-- All names of a file are strict identifiers. -/
def HasStrictNames (f : OutputFile) : Prop :=
  ∀ e ∈ f.scope.declared, IsStrictIdentifier e.name.toList

/-- The emission of an enum succeeds if its values have different names. -/
theorem emit_eq_ok (hd : d.Named)
    (hcatalog : d.currentCatalog = .ok (Catalog.entries d o.keepPrefix))
    (hnodup : (d.values.map (·.name)).Nodup) (hf : HasStrictNames f) (id : Nat) :
    ∃ f', (emit o id d f).result = .ok f' ∧ HasStrictNames f' := by
  obtain ⟨hname, hnames⟩ := hd.nameFor_all (fun _ hcs => hcs) hf o.anonymousName id
  have hentries : ∀ e ∈ Catalog.entries d o.keepPrefix, isIdentifier e.name = true := fun e he =>
    (hd.isStrictIdentifier_of_mem he).isIdentifierChars
  obtain ⟨declaration, henum⟩ := emitEnum_eq_ok (Catalog.entries_ne_nil d o.keepPrefix) hentries
    (hd.nodup_names_entries_iff.2 hnodup) hname.isIdentifierChars
  obtain ⟨-, -, -, -, -, hfile⟩ := emitEnum_ok henum
  have hresult : ∃ f', (emit o id d f).result = .ok f' := by
    simp only [result_emit, hcatalog, Attempt.result_proceed, henum, hfile, Except.map, bind,
      Except.bind]
    by_cases htables : o.labelTables = true
    · have hagain : IsStrictIdentifier (((f.nameFor o.anonymousName id d).2.add
          (.enum declaration)).nameFor o.anonymousName id d).1.toList := by
        rwa [OutputFile.nameFor_add]
      obtain ⟨t, ht⟩ := emitTable_eq_ok hagain hentries
      rw [if_pos htables, ht]
      exact ⟨_, rfl⟩
    · rw [if_neg htables]
      exact ⟨_, rfl⟩
  obtain ⟨f', hf'⟩ := hresult
  obtain ⟨-, -, -, -, hscope⟩ := emit_ok hcatalog hf'
  refine ⟨f', hf', ?_⟩
  rw [HasStrictNames, hscope]
  exact hnames

/-- Enums whose values have different names are emitted one after the other. -/
theorem emitAll_eq_ok {ds : List EnumDescriptor}
    (hds : ∀ d ∈ ds, d.Named ∧ d.currentCatalog = .ok (Catalog.entries d o.keepPrefix) ∧
      (d.values.map (·.name)).Nodup) (hf : HasStrictNames f) (id : Nat) :
    ∃ f', (emitAll o id ds f).result = .ok f' := by
  induction ds generalizing f id with
  | nil => exact ⟨f, rfl⟩
  | cons d ds ih =>
    obtain ⟨hd, hcatalog, hnodup⟩ := hds d List.mem_cons_self
    obtain ⟨f₁, hf₁, hstrict⟩ := emit_eq_ok hd hcatalog hnodup hf id
    obtain ⟨f', hf'⟩ := ih (fun k hk => hds k (List.mem_cons_of_mem d hk)) hstrict (id + 1)
    refine ⟨f', ?_⟩
    rw [emitAll, Noted.result_bind, hf₁]
    exact hf'

/-- An output file can be made for enums whose values have different names. -/
theorem outputFile_eq_ok {file : FileDescriptor} (o : Options) (hfile : ∀ d ∈ file.enums, d.Named)
    (hnodup : ∀ d ∈ file.enums, (d.values.map (·.name)).Nodup) :
    ∃ out, outputFile o file = .ok out := by
  have hassigned : (EnumDescriptor.assignCatalogs o.keepPrefix file.enums).2 = .ok () :=
    EnumDescriptor.assignCatalogs_eq_ok fun d hd => (hfile d hd).exists_build_iff.2 (hnodup d hd)
  obtain ⟨-, henums⟩ := EnumDescriptor.assignCatalogs_ok hassigned
  have hds : ∀ d ∈ (EnumDescriptor.assignCatalogs o.keepPrefix file.enums).1,
      d.Named ∧ d.currentCatalog = .ok (Catalog.entries d o.keepPrefix) ∧
        (d.values.map (·.name)).Nodup := by
    intro d hd
    rw [henums] at hd
    obtain ⟨e, he, rfl⟩ := List.mem_map.1 hd
    exact ⟨⟨(hfile e he).name, (hfile e he).parents, (hfile e he).values⟩, rfl, hnodup e he⟩
  have hempty : HasStrictNames (emptyFile file.file) := by
    rw [HasStrictNames, (emptyFile_spec file.file).2]
    intro e he
    cases he
  obtain ⟨out, hout⟩ := emitAll_eq_ok hds hempty 0
  refine ⟨out, ?_⟩
  simp only [outputFile, hassigned, hout]
  rfl

/-- Where no output file can be made, the first enum with a name that two of its values have is
reported. -/
theorem outputFile_error {file : FileDescriptor} {e : Error} (hfile : ∀ d ∈ file.enums, d.Named)
    (h : outputFile o file = .error e) :
    ∃ before d after name, file.enums = before ++ d :: after ∧
      (∀ b ∈ before, (b.values.map (·.name)).Nodup) ∧ ¬ (d.values.map (·.name)).Nodup ∧
        List.Duplicate name (Catalog.valueNames d o.keepPrefix) ∧
          e = .duplicateMember { enum := d.fullName, name } := by
  cases hassigned : (EnumDescriptor.assignCatalogs o.keepPrefix file.enums).2 with
  | ok u =>
    obtain ⟨hbuild, -⟩ := EnumDescriptor.assignCatalogs_ok hassigned
    obtain ⟨out, hout⟩ := outputFile_eq_ok o hfile fun d hd =>
      (hfile d hd).exists_build_iff.1 ⟨_, hbuild d hd⟩
    rw [hout] at h
    cases h
  | error e' =>
    obtain ⟨before, d, after, henums, hd, hbefore⟩ := EnumDescriptor.assignCatalogs_error hassigned
    have hnamed : d.Named := hfile d (by simp [henums])
    obtain ⟨henum, hdup⟩ := Catalog.build_error hd
    refine ⟨before, d, after, e'.name, henums, fun b hb => ?_, fun hnodup => ?_,
      hnamed.duplicate_valueNames hdup, ?_⟩
    · exact (hfile b (by simp [henums, hb])).exists_build_iff.1 (hbefore b hb)
    · exact hdup.not_nodup (hnamed.nodup_names_entries_iff.2 hnodup)
    · simp only [outputFile, hassigned] at h
      cases h
      rw [← henum]

end

/-- Whatever was loaded can be generated unless two values of an enum have one name. The error reports
then the first such enum with a name that occurs twice in its catalog. -/
theorem generate_error_iff_of_load {file : Option String} {text : String} {f : FileDescriptor}
    (o : Options) (hload : (FileDescriptor.load file text).result = .ok f) :
    ((∃ e, (generate o f).result = .error e) ↔ ∃ d ∈ f.enums, ¬ (d.values.map (·.name)).Nodup) ∧
      ∀ e, (generate o f).result = .error e →
        ∃ before d after name, f.enums = before ++ d :: after ∧
          (∀ b ∈ before, (b.values.map (·.name)).Nodup) ∧ ¬ (d.values.map (·.name)).Nodup ∧
            List.Duplicate name (Catalog.valueNames d o.keepPrefix) ∧
              e = .duplicateMember { enum := d.fullName, name } := by
  have hnamed := FileDescriptor.named_of_load hload
  have herror : ∀ e, (generate o f).result = .error e ↔ outputFile o f = .error e := by
    intro e
    rw [result_generate]
    cases outputFile o f <;> simp [Except.map]
  refine ⟨⟨?_, ?_⟩, fun e he => outputFile_error hnamed ((herror e).1 he)⟩
  · rintro ⟨e, he⟩
    obtain ⟨before, d, after, -, henums, -, hd, -⟩ := outputFile_error hnamed ((herror e).1 he)
    exact ⟨d, by simp [henums], hd⟩
  · rintro ⟨d, hd, hrepeated⟩
    cases hassigned : (EnumDescriptor.assignCatalogs o.keepPrefix f.enums).2 with
    | ok u =>
      obtain ⟨hbuild, -⟩ := EnumDescriptor.assignCatalogs_ok hassigned
      exact absurd ((hnamed d hd).exists_build_iff.1 ⟨_, hbuild d hd⟩) hrepeated
    | error e =>
      refine ⟨.duplicateMember e, (herror _).2 ?_⟩
      simp only [outputFile, hassigned]
      rfl

/-- An enum with two values of one name. -/
def repeatedName : FileDescriptor where
  file := none
  enums := [{ name := some "MyEnum"
              values := [{ name := "MY_ENUM_AB", number := 0, line := some 1 },
                { name := "MY_ENUM_AB", number := 1, line := some 2 }]
              line := some 1 }]

theorem generate_error_iff_of_load_sample :
    (FileDescriptor.load none
        "enum MyEnum \x7b MY_ENUM_AB = 0;\n MY_ENUM_AB = 1; \x7d").result = .ok repeatedName ∧
      (∃ e, (generate {} repeatedName).result = .error e) ∧
      ∀ e, (generate {} repeatedName).result = .error e →
        ∃ d ∈ repeatedName.enums, ∃ name ∈ Catalog.valueNames d false,
          e = .duplicateMember { enum := d.fullName, name } := by
  have hload : (FileDescriptor.load none
      "enum MyEnum \x7b MY_ENUM_AB = 0;\n MY_ENUM_AB = 1; \x7d").result = .ok repeatedName := by
    decide +kernel
  obtain ⟨hiff, hreport⟩ := generate_error_iff_of_load {} hload
  refine ⟨hload, hiff.2 ⟨_, List.mem_cons_self, by decide⟩, fun e he => ?_⟩
  obtain ⟨before, d, after, name, henums, -, -, hdup, heq⟩ := hreport e he
  exact ⟨d, by simp [henums], name, hdup.mem, heq⟩

end Generator

end SchemaEnums
