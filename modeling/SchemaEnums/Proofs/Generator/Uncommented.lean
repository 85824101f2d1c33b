import Mathlib.Data.List.Forall2
import SchemaEnums.Proofs.Generator.Emission
import SchemaEnums.Proofs.TypeScript.Bare

namespace SchemaEnums

open TypeScript

/-- The value without its comments. -/
def ValueDescriptor.uncommented (v : ValueDescriptor) : ValueDescriptor :=
  { v with documentation := {} }

/-- The value without the comment behind it. -/
def ValueDescriptor.withoutTrailing (v : ValueDescriptor) : ValueDescriptor :=
  { v with documentation := { v.documentation with trailing := none } }

namespace EnumDescriptor

/-- The enum with its values replaced. -/
def mapValues (g : ValueDescriptor → ValueDescriptor) (d : EnumDescriptor) : EnumDescriptor :=
  { d with values := d.values.map g }

/-- The enum without its comments and those of its values. -/
def uncommented (d : EnumDescriptor) : EnumDescriptor :=
  { d.mapValues ValueDescriptor.uncommented with documentation := {} }

/-- The enum without the comments behind its values. -/
def withoutTrailing (d : EnumDescriptor) : EnumDescriptor :=
  d.mapValues ValueDescriptor.withoutTrailing

/-- The directives in the leading comments of the values. -/
def directives (d : EnumDescriptor) : List (Option String) :=
  d.values.map fun v => Directive.ofComment? v.documentation.leading

end EnumDescriptor

namespace FileDescriptor

/-- The schema without comments. -/
def uncommented (f : FileDescriptor) : FileDescriptor :=
  { f with enums := f.enums.map EnumDescriptor.uncommented }

/-- The directives in the leading comments of all values. -/
def directives (f : FileDescriptor) : List (List (Option String)) :=
  f.enums.map EnumDescriptor.directives

/-- The schema without the comments behind its values. -/
def withoutTrailing (f : FileDescriptor) : FileDescriptor :=
  { f with enums := f.enums.map EnumDescriptor.withoutTrailing }

end FileDescriptor

section

variable (g : ValueDescriptor → ValueDescriptor)

/-- The entries of a catalog come from the names and the numbers of the values. -/
theorem Catalog.entries_mapValues (hg : ∀ v, (g v).name = v.name ∧ (g v).number = v.number)
    (d : EnumDescriptor) (keepPrefix : Bool) :
    Catalog.entries (d.mapValues g) keepPrefix = Catalog.entries d keepPrefix := by
  have hvalues : (d.mapValues g).values = d.values.map g := rfl
  have hname : (d.mapValues g).name = d.name := rfl
  have hprefix : (d.mapValues g).sharedPrefixChars? = d.sharedPrefixChars? := by
    simp only [EnumDescriptor.sharedPrefixChars?, hvalues, hname, List.all_map, Function.comp_def,
      hg, List.isEmpty_map]
  simp [Catalog.entries, Catalog.zeroEntry, Catalog.droppedPrefix, Catalog.entry, hprefix, hvalues,
    List.any_map, Function.comp_def, hg]

theorem Catalog.build_mapValues (hg : ∀ v, (g v).name = v.name ∧ (g v).number = v.number)
    (d : EnumDescriptor) (keepPrefix : Bool) :
    Catalog.build (d.mapValues g) keepPrefix = Catalog.build d keepPrefix := by
  rw [Catalog.build, Catalog.build, Catalog.entries_mapValues g hg]
  rfl

theorem EnumDescriptor.currentCatalog_mapValues
    (hg : ∀ v, (g v).name = v.name ∧ (g v).number = v.number) (d : EnumDescriptor) :
    (d.mapValues g).currentCatalog = d.currentCatalog := by
  have hcatalog : (d.mapValues g).catalog = d.catalog := rfl
  rw [EnumDescriptor.currentCatalog, EnumDescriptor.currentCatalog, hcatalog,
    Catalog.build_mapValues g hg]

end

theorem Catalog.build_uncommented (d : EnumDescriptor) (keepPrefix : Bool) :
    Catalog.build d.uncommented keepPrefix = Catalog.build d keepPrefix :=
  Catalog.build_mapValues ValueDescriptor.uncommented (fun _ => ⟨rfl, rfl⟩) d keepPrefix

theorem EnumDescriptor.currentCatalog_uncommented (d : EnumDescriptor) :
    d.uncommented.currentCatalog = d.currentCatalog :=
  EnumDescriptor.currentCatalog_mapValues ValueDescriptor.uncommented (fun _ => ⟨rfl, rfl⟩) d

/-- The enums differ in their comments only, and the same labels are directed for their values. -/
structure EnumDescriptor.SameCode (d e : EnumDescriptor) : Prop where
  uncommented : d.uncommented = e.uncommented
  directives : d.directives = e.directives

/-- The label that is directed for a number, from the numbers and the directives of all values. -/
theorem Generator.ofComment?_leadingComment? (d : EnumDescriptor) (x : CatalogEntry) :
    Directive.ofComment? (leadingComment? d x) =
      (((d.values.map (·.number)).zip d.directives).find? fun p => p.1 == x.number).bind
        Prod.snd := by
  have hzip : (d.values.map (·.number)).zip d.directives =
      d.values.map fun v => (v.number, Directive.ofComment? v.documentation.leading) :=
    List.zip_map'
  rw [hzip, List.find?_map, leadingComment?, EnumDescriptor.valueOf?]
  show _ = Option.bind (Option.map _ (d.values.find? fun v => v.number == x.number)) _
  cases d.values.find? fun v => v.number == x.number <;> rfl

namespace EnumDescriptor.SameCode

variable {d e : EnumDescriptor}

theorem build (h : d.SameCode e) (keepPrefix : Bool) :
    Catalog.build d keepPrefix = Catalog.build e keepPrefix := by
  rw [← Catalog.build_uncommented, h.uncommented, Catalog.build_uncommented]

theorem currentCatalog (h : d.SameCode e) : d.currentCatalog = e.currentCatalog := by
  rw [← EnumDescriptor.currentCatalog_uncommented, h.uncommented,
    EnumDescriptor.currentCatalog_uncommented]

theorem nameFor (h : d.SameCode e) (a : String) (id : Nat) (f : OutputFile) :
    f.nameFor a id d = f.nameFor a id e := by
  have hname (d : EnumDescriptor) : f.nameFor a id d.uncommented = f.nameFor a id d := rfl
  rw [← hname d, h.uncommented, hname]

/-- Comments play a part in labels by their directives only. -/
theorem label (h : d.SameCode e) : Generator.label d = Generator.label e := by
  have hnumbers : d.values.map (·.number) = e.values.map (·.number) := by
    have hvalues (d : EnumDescriptor) : d.uncommented.values.map (·.number) = d.values.map (·.number) :=
      List.map_map
    rw [← hvalues, h.uncommented, hvalues]
  funext x
  rw [Generator.label, Generator.label, Generator.ofComment?_leadingComment?,
    Generator.ofComment?_leadingComment?, hnumbers, h.directives]

/-- The enums still differ in their comments only when they are assigned one catalog. -/
theorem assign (h : d.SameCode e) (c : Option Catalog) :
    SameCode { d with catalog := c } { e with catalog := c } :=
  ⟨congrArg (fun d => { d with catalog := c }) h.uncommented, h.directives⟩

theorem forall₂_assignCatalogs (keepPrefix : Bool) {ds es : List EnumDescriptor}
    (h : List.Forall₂ SameCode ds es) :
    (assignCatalogs keepPrefix ds).2 = (assignCatalogs keepPrefix es).2 ∧
      List.Forall₂ SameCode (assignCatalogs keepPrefix ds).1 (assignCatalogs keepPrefix es).1 := by
  induction h with
  | nil => exact ⟨rfl, .nil⟩
  | @cons d e ds es hd hds ih =>
    rw [assignCatalogs, assignCatalogs, hd.build]
    cases Catalog.build e keepPrefix with
    | error err => exact ⟨rfl, .cons hd hds⟩
    | ok c => exact ⟨ih.1, .cons (hd.assign (some c)) ih.2⟩

end EnumDescriptor.SameCode

/-- The enums of schemas that differ in their comments only. -/
theorem FileDescriptor.forall₂_sameCode {f g : FileDescriptor} (hcode : f.uncommented = g.uncommented)
    (hdirectives : f.directives = g.directives) :
    List.Forall₂ EnumDescriptor.SameCode f.enums g.enums := by
  have henums : f.enums.map EnumDescriptor.uncommented = g.enums.map EnumDescriptor.uncommented :=
    congrArg FileDescriptor.enums hcode
  rw [← List.forall₂_eq_eq_eq, List.forall₂_map_left_iff, List.forall₂_map_right_iff] at henums
  have hlabels : f.enums.map EnumDescriptor.directives = g.enums.map EnumDescriptor.directives :=
    hdirectives
  rw [← List.forall₂_eq_eq_eq, List.forall₂_map_left_iff, List.forall₂_map_right_iff] at hlabels
  exact henums.mp (fun _ _ hd hl => ⟨hd, hl⟩) hlabels

theorem TypeScript.OutputFile.nameFor_bare (f : OutputFile) (a : String) (id : Nat)
    (d : EnumDescriptor) :
    f.bare.nameFor a id d = ((f.nameFor a id d).1, (f.nameFor a id d).2.bare) := by
  have hscope : f.bare.scope = f.scope := rfl
  rw [OutputFile.nameFor, OutputFile.nameFor, hscope]
  cases f.scope.name? id <;> rfl

theorem TypeScript.OutputFile.bare_add (f : OutputFile) (s : Statement) :
    (f.add s).bare = f.bare.add s.bare := by
  simp [OutputFile.bare, OutputFile.add]

/-- What comes to the same when it is mapped has failed in the same way, or has values that are mapped
to the same. -/
theorem eq_or_of_map_eq_map {ε α β : Type} {h : α → β} {x y : Except ε α} (hxy : x.map h = y.map h) :
    (∃ e, x = .error e ∧ y = .error e) ∨ ∃ a b, x = .ok a ∧ y = .ok b ∧ h a = h b := by
  cases x with
  | error e =>
    cases y with
    | error e' =>
      cases hxy
      exact .inl ⟨e, rfl, rfl⟩
    | ok b => cases hxy
  | ok a =>
    cases y with
    | error e => cases hxy
    | ok b => exact .inr ⟨a, b, rfl, rfl, Except.ok.inj hxy⟩

namespace Generator

section

variable {d e : EnumDescriptor} {f g : OutputFile}

/-- Enums that differ in their comments are given the same name in files that do. -/
theorem nameFor_congr_bare (h : d.SameCode e) (hfg : f.bare = g.bare) (a : String) (id : Nat) :
    (f.nameFor a id d).1 = (g.nameFor a id e).1 ∧
      (f.nameFor a id d).2.bare = (g.nameFor a id e).2.bare := by
  have hname := f.nameFor_bare a id d
  rw [hfg, g.nameFor_bare, h.nameFor, h.nameFor, Prod.mk.injEq] at hname
  rw [h.nameFor]
  exact ⟨hname.1.symm, hname.2.symm⟩

theorem finish_congr (d e : EnumDescriptor) (entries : Catalog) (name : String)
    (modifiers : List String) :
    (EnumDraft.finish ⟨entries.map (member d)⟩ name modifiers).map EnumDeclaration.bare =
      (EnumDraft.finish ⟨entries.map (member e)⟩ name modifiers).map EnumDeclaration.bare := by
  have hdraft : EnumDraft.bare ⟨entries.map (member d)⟩ =
      EnumDraft.bare ⟨entries.map (member e)⟩ := by
    simp [EnumDraft.bare, Function.comp_def, Member.bare, member]
  rw [← EnumDraft.finish_bare, ← EnumDraft.finish_bare, hdraft]

/-- The same is declared but for the comments. -/
theorem emitEnum_congr (h : d.SameCode e) (hfg : f.bare = g.bare) (a : String) (id : Nat)
    (catalog : Except DuplicateMember Catalog) :
    (emitEnum a id d catalog f).result.map EnumDeclaration.bare =
        (emitEnum a id e catalog g).result.map EnumDeclaration.bare ∧
      (emitEnum a id d catalog f).file.bare = (emitEnum a id e catalog g).file.bare := by
  cases catalog with
  | error err => exact ⟨rfl, hfg⟩
  | ok entries =>
    obtain ⟨hname, hfile⟩ := nameFor_congr_bare h hfg a id
    have hfinish := finish_congr d e entries (g.nameFor a id e).1 ["export"]
    simp only [emitEnum, hname]
    obtain ⟨err, hd, he⟩ | ⟨x, y, hd, he, hxy⟩ := eq_or_of_map_eq_map hfinish
    · rw [hd, he]
      exact ⟨rfl, hfile⟩
    · simp only [hd, he]
      refine ⟨congrArg Except.ok hxy, ?_⟩
      rw [OutputFile.bare_add, OutputFile.bare_add, hfile]
      exact congrArg (fun d => (g.nameFor a id e).2.bare.add (.enum d)) hxy

/-- The same labels are given. -/
theorem emitTable_congr (h : d.SameCode e) (hfg : f.bare = g.bare) (a : String) (id : Nat)
    (catalog : Except DuplicateMember Catalog) :
    (emitTable a id d catalog f).result = (emitTable a id e catalog g).result ∧
      (emitTable a id d catalog f).file.bare = (emitTable a id e catalog g).file.bare := by
  obtain ⟨hname, hfile⟩ := nameFor_congr_bare h hfg a id
  cases catalog with
  | error err => exact ⟨rfl, hfile⟩
  | ok entries =>
    have htable : table (f.nameFor a id d).1 d entries = table (g.nameFor a id e).1 e entries := by
      have hrow : row (g.nameFor a id e).1 d = row (g.nameFor a id e).1 e := by
        funext x
        rw [row, row, h.label]
      rw [hname, table, table, hrow]
    simp only [emitTable, htable]
    cases table (g.nameFor a id e).1 e entries with
    | error err => exact ⟨rfl, hfile⟩
    | ok declaration =>
      refine ⟨rfl, ?_⟩
      rw [OutputFile.bare_add, OutputFile.bare_add, hfile]

/-- The same is added to the file but for the comments. -/
theorem emit_congr (h : d.SameCode e) (hfg : f.bare = g.bare) (o : Options) (id : Nat) :
    (emit o id d f).result.map OutputFile.bare = (emit o id e g).result.map OutputFile.bare := by
  obtain ⟨henum, hfile⟩ := emitEnum_congr h hfg o.anonymousName id e.currentCatalog
  rw [result_emit, result_emit, h.currentCatalog, Attempt.result_proceed, Attempt.result_proceed]
  obtain ⟨err, hd, he⟩ | ⟨x, y, hd, he, -⟩ := eq_or_of_map_eq_map henum
  · rw [hd, he]
    rfl
  · rw [hd, he]
    show Except.map _ (if _ then _ else _) = Except.map _ (if _ then _ else _)
    by_cases htables : o.labelTables = true
    · obtain ⟨htable, hfile'⟩ := emitTable_congr h hfile o.anonymousName id e.currentCatalog
      rw [if_pos htables, if_pos htables, Attempt.result_proceed, Attempt.result_proceed, htable]
      cases (emitTable o.anonymousName id e e.currentCatalog _).result with
      | error err => rfl
      | ok t => exact congrArg Except.ok hfile'
    · rw [if_neg htables, if_neg htables]
      exact congrArg Except.ok hfile

theorem emitAll_congr {ds es : List EnumDescriptor} (h : List.Forall₂ EnumDescriptor.SameCode ds es)
    (hfg : f.bare = g.bare) (o : Options) (id : Nat) :
    (emitAll o id ds f).result.map OutputFile.bare =
      (emitAll o id es g).result.map OutputFile.bare := by
  induction h generalizing f g id with
  | nil => exact congrArg Except.ok hfg
  | @cons d e ds es hd hds ih =>
    have hemit := emit_congr hd hfg o id
    rw [emitAll, emitAll, Noted.result_bind, Noted.result_bind]
    obtain ⟨err, hf, hg⟩ | ⟨f₁, g₁, hf, hg, hfg₁⟩ := eq_or_of_map_eq_map hemit
    · rw [hf, hg]
      rfl
    · rw [hf, hg]
      exact ih hfg₁ (id + 1)

/-- For schemas that differ in their comments only, the same output file is made but for its comments,
if the directives are the same. -/
theorem outputFile_congr (o : Options) {f g : FileDescriptor} (hcode : f.uncommented = g.uncommented)
    (hdirectives : f.directives = g.directives) :
    (outputFile o f).map OutputFile.bare = (outputFile o g).map OutputFile.bare := by
  have hfile : f.file = g.file := by
    have huncommented (f : FileDescriptor) : f.uncommented.file = f.file := rfl
    rw [← huncommented f, hcode, huncommented]
  have henums := FileDescriptor.forall₂_sameCode hcode hdirectives
  obtain ⟨hassigned, hafter⟩ := EnumDescriptor.SameCode.forall₂_assignCatalogs o.keepPrefix
    henums
  simp only [outputFile, hassigned, hfile]
  cases (EnumDescriptor.assignCatalogs o.keepPrefix g.enums).2 with
  | error err => rfl
  | ok u => exact emitAll_congr hafter rfl o 0

theorem valueOf?_withoutTrailing (d : EnumDescriptor) (number : Int) :
    d.withoutTrailing.valueOf? number =
      (d.valueOf? number).map ValueDescriptor.withoutTrailing :=
  List.find?_map

theorem member_withoutTrailing (d : EnumDescriptor) :
    member d.withoutTrailing = member d := by
  funext x
  rw [member, member, memberComment?, memberComment?, valueOf?_withoutTrailing]
  cases d.valueOf? x.number <;> rfl

theorem label_withoutTrailing (d : EnumDescriptor) :
    label d.withoutTrailing = label d := by
  funext x
  rw [label, label, leadingComment?, leadingComment?, valueOf?_withoutTrailing]
  cases d.valueOf? x.number <;> rfl

theorem emit_withoutTrailing (o : Options) (id : Nat) (d : EnumDescriptor) (f : OutputFile) :
    emit o id d.withoutTrailing f = emit o id d f := by
  have hcatalog : d.withoutTrailing.currentCatalog = d.currentCatalog :=
    EnumDescriptor.currentCatalog_mapValues ValueDescriptor.withoutTrailing (fun _ => ⟨rfl, rfl⟩) d
  have henum (catalog) (f : OutputFile) :
      emitEnum o.anonymousName id d.withoutTrailing catalog f =
        emitEnum o.anonymousName id d catalog f := by
    simp only [emitEnum, member_withoutTrailing]
    rfl
  have htable (catalog) (f : OutputFile) :
      emitTable o.anonymousName id d.withoutTrailing catalog f =
        emitTable o.anonymousName id d catalog f := by
    have hrow (name : String) : row name d.withoutTrailing = row name d := by
      funext x
      rw [row, row, label_withoutTrailing]
    simp only [emitTable, table, hrow]
    rfl
  simp only [emit, hcatalog, henum, htable]

theorem emitAll_withoutTrailing (o : Options) (id : Nat) (ds : List EnumDescriptor) (f : OutputFile) :
    emitAll o id (ds.map EnumDescriptor.withoutTrailing) f =
      emitAll o id ds f := by
  induction ds generalizing id f with
  | nil => rfl
  | cons d ds ih =>
    rw [List.map_cons, emitAll, emitAll, emit_withoutTrailing]
    simp only [ih]

theorem assignCatalogs_withoutTrailing (keepPrefix : Bool) (ds : List EnumDescriptor) :
    EnumDescriptor.assignCatalogs keepPrefix
        (ds.map EnumDescriptor.withoutTrailing) =
      ((EnumDescriptor.assignCatalogs keepPrefix ds).1.map
        EnumDescriptor.withoutTrailing,
        (EnumDescriptor.assignCatalogs keepPrefix ds).2) := by
  induction ds with
  | nil => rfl
  | cons d ds ih =>
    have hbuild : Catalog.build d.withoutTrailing keepPrefix = Catalog.build d keepPrefix :=
      Catalog.build_mapValues ValueDescriptor.withoutTrailing (fun _ => ⟨rfl, rfl⟩) d keepPrefix
    rw [List.map_cons, EnumDescriptor.assignCatalogs, EnumDescriptor.assignCatalogs, hbuild]
    cases Catalog.build d keepPrefix with
    | error e => rfl
    | ok c =>
      simp only [ih]
      rfl

/-- The comments behind values play no part in what is generated. -/
theorem generate_withoutTrailing (o : Options) (f : FileDescriptor) :
    generate o f.withoutTrailing = generate o f := by
  have hfile : f.withoutTrailing.file = f.file := rfl
  have henums : f.withoutTrailing.enums =
    f.enums.map EnumDescriptor.withoutTrailing := rfl
  simp only [generate, hfile, henums, assignCatalogs_withoutTrailing, emitAll_withoutTrailing]

end

end Generator

end SchemaEnums
