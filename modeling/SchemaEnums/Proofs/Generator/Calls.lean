import Mathlib.Data.List.Forall2
import SchemaEnums.Proofs.Directive
import SchemaEnums.Proofs.Generator.Emission

namespace SchemaEnums.Generator

open TypeScript

/-- The value is the first one of the enum with the number. -/
def IsFirstValue (d : EnumDescriptor) (number : Int) (v : ValueDescriptor) : Prop :=
  ∃ before after, d.values = before ++ v :: after ∧ v.number = number ∧
    ∀ w ∈ before, w.number ≠ number

/-- The comment on a number: the leading comment of the first value with it, if there is such a value.
Numbers of no value have the comment of members that were added. -/
inductive HasComment (d : EnumDescriptor) (number : Int) : Option String → Prop where
  | declared {v : ValueDescriptor} (h : IsFirstValue d number v) :
    HasComment d number v.documentation.leading
  | synthetic (h : ∀ v ∈ d.values, v.number ≠ number) : HasComment d number (some syntheticComment)

/-- The label of an entry: that of the first directive in its comment, or that of its name. -/
inductive HasLabel (d : EnumDescriptor) (e : CatalogEntry) : String → Prop where
  | directed {comment label : String} (h : HasComment d e.number (some comment))
    (hfirst : Directive.IsFirst comment.toList label.toList) : HasLabel d e label
  | named (h : ∀ comment, HasComment d e.number (some comment) →
      ∀ before label after, ¬ Directive.Splits comment.toList before label after) :
    HasLabel d e (Label.ofName e.name)

/-- The member stands for the entry. -/
structure IsMember (d : EnumDescriptor) (e : CatalogEntry) (m : Member) : Prop where
  name : m.name = e.name
  number : m.number = e.number
  comment : HasComment d e.number m.comment

/-- The row refers to the entry by the name of the enum, and has its label. -/
def IsRow (name : String) (d : EnumDescriptor) (e : CatalogEntry) (x : Expr) : Prop :=
  ∃ (target field : Identifier) (label : String), target.text = name ∧ field.text = e.name ∧
    HasLabel d e label ∧
      x = .object [("id", .access (.identifier target) field), ("name", .string label)]

/-- The label table belongs to the enum with the name and has a row for each entry. -/
def IsTable (name : String) (d : EnumDescriptor) (c : Catalog) (t : VariableDeclaration) : Prop :=
  t.name.text = name ++ "Translation" ∧
    ∃ rows, t.initializer = .array rows true ∧ List.Forall₂ (IsRow name d) c rows

section

variable {name : String} {d : EnumDescriptor} {e : CatalogEntry} {c : Catalog} {v : ValueDescriptor}
  {number : Int}

theorem valueOf?_eq_some_iff : d.valueOf? number = some v ↔ IsFirstValue d number v := by
  rw [EnumDescriptor.valueOf?, List.find?_eq_some_iff_append, beq_iff_eq]
  constructor
  · rintro ⟨hnumber, before, after, hvalues, hbefore⟩
    exact ⟨before, after, hvalues, hnumber, fun w hw => by simpa using hbefore w hw⟩
  · rintro ⟨before, after, hvalues, hnumber, hbefore⟩
    exact ⟨hnumber, before, after, hvalues, fun w hw => by simpa using hbefore w hw⟩

theorem valueOf?_eq_none_iff : d.valueOf? number = none ↔ ∀ v ∈ d.values, v.number ≠ number := by
  rw [EnumDescriptor.valueOf?, List.find?_eq_none]
  simp only [beq_iff_eq, ne_eq]

/-- The comment of the member for an entry is the one on its number. -/
theorem hasComment_iff {comment : Option String} :
    HasComment d e.number comment ↔ memberComment? d e = comment := by
  constructor
  · rintro (hfirst | hnone)
    · rw [memberComment?, valueOf?_eq_some_iff.2 hfirst]
    · rw [memberComment?, valueOf?_eq_none_iff.2 hnone]
  · rintro rfl
    unfold memberComment?
    split
    next v hv => exact .declared (valueOf?_eq_some_iff.1 hv)
    next hnone => exact .synthetic (valueOf?_eq_none_iff.1 hnone)

/-- No label is directed for members that no value declares. -/
theorem ofComment?_memberComment? (d : EnumDescriptor) (e : CatalogEntry) :
    Directive.ofComment? (memberComment? d e) = Directive.ofComment? (leadingComment? d e) := by
  rw [memberComment?, leadingComment?]
  cases d.valueOf? e.number with
  | none => decide
  | some v => rfl

/-- The label of an entry is the one it is to have. -/
theorem hasLabel_label (d : EnumDescriptor) (e : CatalogEntry) : HasLabel d e (label d e) := by
  rw [label, ← ofComment?_memberComment?]
  cases hdirective : Directive.ofComment? (memberComment? d e) with
  | some label =>
    obtain ⟨comment, hcomment, hfirst⟩ := Directive.ofComment?_eq_some_iff.1 hdirective
    exact .directed (hasComment_iff.2 hcomment) hfirst
  | none =>
    apply HasLabel.named
    intro comment hcomment
    exact Directive.ofComment?_eq_none_iff.1 hdirective comment (hasComment_iff.1 hcomment)

theorem isMember_member (d : EnumDescriptor) (e : CatalogEntry) : IsMember d e (member d e) :=
  ⟨rfl, rfl, hasComment_iff.2 rfl⟩

theorem isRow_of_row {x : Expr} (h : row name d e = .ok x) : IsRow name d e x := by
  obtain ⟨target, htarget, h⟩ := Schema.bind_eq_ok h
  obtain ⟨field, hfield, h⟩ := Schema.bind_eq_ok h
  cases h
  exact ⟨target, field, label d e, Identifier.text_of_ofText htarget, Identifier.text_of_ofText hfield,
    hasLabel_label d e, rfl⟩

theorem isTable_of_table {t : VariableDeclaration} (h : table name d c = .ok t) :
    IsTable name d c t := by
  obtain ⟨rows, tableName, hrows, htableName, rfl⟩ := table_ok h
  exact ⟨htableName, rows, rfl, (Schema.forall₂_of_mapM hrows).imp fun _ _ => isRow_of_row⟩

end

/-- What can be called for an enum on a file. -/
inductive Call where
  | nameFor (anonymousName : String) (id : Nat) (d : EnumDescriptor)
  | emitEnum (anonymousName : String) (id : Nat) (d : EnumDescriptor)
    (catalog : Except DuplicateMember Catalog)
  | emitTable (anonymousName : String) (id : Nat) (d : EnumDescriptor)
    (catalog : Except DuplicateMember Catalog)

/-- The file after a call, whether or not it fails. -/
def Call.run (f : OutputFile) : Call → OutputFile
  | nameFor a id d => (f.nameFor a id d).2
  | emitEnum a id d catalog => (Generator.emitEnum a id d catalog f).file
  | emitTable a id d catalog => (Generator.emitTable a id d catalog f).file

/-- The file after calls one after the other. -/
def runAll (f : OutputFile) (calls : List Call) : OutputFile :=
  calls.foldl Call.run f

/-- One of the calls declares the enum `id` for the catalog and succeeds with the declaration. -/
def Declares (start : OutputFile) (calls : List Call) (id : Nat) (d : EnumDescriptor) (c : Catalog)
    (declaration : EnumDeclaration) : Prop :=
  ∃ a before after, calls = before ++ .emitEnum a id d (.ok c) :: after ∧
    (emitEnum a id d (.ok c) (runAll start before)).result = .ok declaration

/-- One of the calls makes a label table of the enum `id` for the catalog and succeeds with it. -/
def Tabulates (start : OutputFile) (calls : List Call) (id : Nat) (d : EnumDescriptor) (c : Catalog)
    (t : VariableDeclaration) : Prop :=
  ∃ a before after, calls = before ++ .emitTable a id d (.ok c) :: after ∧
    (emitTable a id d (.ok c) (runAll start before)).result = .ok t

section

variable {start : OutputFile} {calls : List Call} {id : Nat} {d : EnumDescriptor} {c : Catalog}

theorem Call.extends_run (call : Call) (f : OutputFile) : f.Extends (call.run f) := by
  cases call with
  | nameFor a id d => exact .nameFor f a id d
  | emitEnum a id d catalog => exact extends_emitEnum a id d catalog f
  | emitTable a id d catalog => exact extends_emitTable a id d catalog f

theorem extends_runAll (f : OutputFile) (calls : List Call) : f.Extends (runAll f calls) := by
  induction calls generalizing f with
  | nil => exact .refl f
  | cons call calls ih => exact (call.extends_run f).trans (ih (call.run f))

theorem runAll_append_cons (before after : List Call) (call : Call) :
    runAll start (before ++ call :: after) = runAll (call.run (runAll start before)) after := by
  rw [runAll, List.foldl_append, List.foldl_cons]
  rfl

/-- What was declared is in the file in the end, where the enum has the name of the declaration. -/
theorem Declares.spec {declaration : EnumDeclaration} (h : Declares start calls id d c declaration) :
    List.Forall₂ (IsMember d) c declaration.members ∧
      .enum declaration ∈ (runAll start calls).statements ∧
        (runAll start calls).scope.name? id = some declaration.name.text := by
  obtain ⟨a, before, after, rfl, hresult⟩ := h
  obtain ⟨-, -, hname, hmembers, -, hfile⟩ := emitEnum_ok hresult
  have hextends : ((runAll start before).nameFor a id d).2.add (.enum declaration) |>.Extends
      (runAll start (before ++ .emitEnum a id d (.ok c) :: after)) := by
    rw [runAll_append_cons, ← hfile]
    exact extends_runAll _ after
  refine ⟨?_, hextends.statements.subset (by simp [OutputFile.add]), ?_⟩
  · rw [hmembers, List.forall₂_map_right_iff, List.forall₂_same]
    exact fun e _ => isMember_member d e
  · rw [hname]
    exact hextends.name? OutputFile.name?_nameFor

/-- A table that was made is in the file in the end, and refers to the enum by the name it has there. -/
theorem Tabulates.spec {t : VariableDeclaration} (h : Tabulates start calls id d c t) :
    .binding t ∈ (runAll start calls).statements ∧
      ∃ name, (runAll start calls).scope.name? id = some name ∧ IsTable name d c t := by
  obtain ⟨a, before, after, rfl, hresult⟩ := h
  obtain ⟨htable, hfile⟩ := emitTable_ok hresult
  have hextends : ((runAll start before).nameFor a id d).2.add (.binding t) |>.Extends
      (runAll start (before ++ .emitTable a id d (.ok c) :: after)) := by
    rw [runAll_append_cons, ← hfile]
    exact extends_runAll _ after
  exact ⟨hextends.statements.subset (by simp [OutputFile.add]), _,
    hextends.name? OutputFile.name?_nameFor, isTable_of_table htable⟩

end

/-- In every history of a file, whatever the file was in the beginning: a declaration that is made of an
enum has a member for each entry of the catalog, and a table has a row for each. Where both are made,
the rows and the name of the table refer to the name of the declaration. -/
theorem emissions_agree (start : OutputFile) (calls : List Call) (id : Nat) (d : EnumDescriptor)
    (c : Catalog) :
    (∀ declaration, Declares start calls id d c declaration →
      List.Forall₂ (IsMember d) c declaration.members ∧
        .enum declaration ∈ (runAll start calls).statements) ∧
    (∀ t, Tabulates start calls id d c t →
      (∃ name, IsTable name d c t) ∧ .binding t ∈ (runAll start calls).statements) ∧
    ∀ declaration t, Declares start calls id d c declaration → Tabulates start calls id d c t →
      IsTable declaration.name.text d c t := by
  refine ⟨fun declaration hdeclares => ?_, fun t htabulates => ?_,
    fun declaration t hdeclares htabulates => ?_⟩
  · obtain ⟨hmembers, hmem, -⟩ := hdeclares.spec
    exact ⟨hmembers, hmem⟩
  · obtain ⟨hmem, name, -, htable⟩ := htabulates.spec
    exact ⟨⟨name, htable⟩, hmem⟩
  · -- The name that the enum has in the end is that of both.
    obtain ⟨-, -, hdeclared⟩ := hdeclares.spec
    obtain ⟨-, name, htabulated, htable⟩ := htabulates.spec
    rw [hdeclared] at htabulated
    rwa [Option.some.inj htabulated]

/-- An enum with two values of one number. -/
def aliased : EnumDescriptor where
  name := some "E"
  values := [{ name := "A", number := 0, documentation := { leading := some "@Translate: Alpha." } },
    { name := "B", number := 0, documentation := { leading := some "b" } }]

/-- The table of an enum is made first, and an enum like it is declared before this one. -/
def history : List Call :=
  [.emitTable "" 1 aliased (.ok [⟨"A", 0⟩, ⟨"C", 7⟩]), .emitEnum "" 2 aliased (.ok [⟨"A", 0⟩]),
    .emitEnum "" 1 aliased (.ok [⟨"A", 0⟩, ⟨"C", 7⟩])]

theorem emissions_agree_sample :
    ∃ declaration t, Declares { name := "e.ts" } history 1 aliased [⟨"A", 0⟩, ⟨"C", 7⟩] declaration ∧
      Tabulates { name := "e.ts" } history 1 aliased [⟨"A", 0⟩, ⟨"C", 7⟩] t ∧
      IsTable declaration.name.text aliased [⟨"A", 0⟩, ⟨"C", 7⟩] t := by
  obtain ⟨declaration, hdeclares⟩ : ∃ declaration,
      Declares { name := "e.ts" } history 1 aliased [⟨"A", 0⟩, ⟨"C", 7⟩] declaration :=
    ⟨_, "", [_, _], [], rfl, rfl⟩
  obtain ⟨t, htabulates⟩ : ∃ t,
      Tabulates { name := "e.ts" } history 1 aliased [⟨"A", 0⟩, ⟨"C", 7⟩] t :=
    ⟨_, "", [], [_, _], rfl, rfl⟩
  obtain ⟨-, -, hagree⟩ := emissions_agree { name := "e.ts" } history 1 aliased [⟨"A", 0⟩, ⟨"C", 7⟩]
  exact ⟨declaration, t, hdeclares, htabulates, hagree declaration t hdeclares htabulates⟩

end SchemaEnums.Generator
