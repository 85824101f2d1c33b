import SchemaEnums.Proofs.Generator.Calls
import SchemaEnums.Proofs.Workspace

namespace SchemaEnums.Generator

open TypeScript

/-- What a call succeeds with: the name of the enum, or a statement that was added to the file. -/
inductive Given where
  | name (name : String)
  | statement (s : Statement)

namespace Call

/-- The enum that is called for. -/
def id : Call → Nat
  | nameFor _ id _ => id
  | emitEnum _ id _ _ => id
  | emitTable _ id _ _ => id

/-- The name that the enum would have alone in a file. -/
def codeName : Call → String
  | nameFor a _ d => d.codeName a
  | emitEnum a _ d _ => d.codeName a
  | emitTable a _ d _ => d.codeName a

/-- The name of the enum in the file, and the file after it was asked for. -/
def named (f : OutputFile) : Call → String × OutputFile
  | nameFor a id d => f.nameFor a id d
  | emitEnum a id d _ => f.nameFor a id d
  | emitTable a id d _ => f.nameFor a id d

/-- What a call on the file succeeds with, or why it fails. -/
def outcome (f : OutputFile) : Call → Except Error Given
  | nameFor a id d => .ok (.name (f.nameFor a id d).1)
  | emitEnum a id d catalog =>
    (Generator.emitEnum a id d catalog f).result.map fun s => .statement (.enum s)
  | emitTable a id d catalog =>
    (Generator.emitTable a id d catalog f).result.map fun s => .statement (.binding s)

/-- A declaration without a catalog. It fails before the enum is named. -/
inductive Unresolved : Call → Prop where
  | emitEnum (a : String) (id : Nat) (d : EnumDescriptor) (e : DuplicateMember) :
    Unresolved (.emitEnum a id d (.error e))

end Call

/-- What calls one after the other succeed with. -/
def outcomes (f : OutputFile) : List Call → List (Except Error Given)
  | [] => []
  | call :: calls => call.outcome f :: outcomes (call.run f) calls

/-- The file with the statement that a call gave, if it gave one. -/
def addGiven (f : OutputFile) : Except Error Given → OutputFile
  | .ok (.statement s) => f.add s
  | _ => f

/-- Calls on `g` go as they go on `f`, but for the names that the enum `id` has. -/
structure GoesAs (id : Nat) (f g : OutputFile) (calls : List Call) : Prop where
  outcomes : outcomes g calls = outcomes f calls
  statements : (runAll g calls).statements = (runAll f calls).statements
  name? : ∀ other, other ≠ id →
    (runAll g calls).scope.name? other = (runAll f calls).scope.name? other

section

variable {f g : OutputFile} {call : Call} {calls : List Call} {id owner : Nat} {name : String}
  {e : Error}

theorem Call.run_of_unresolved (h : call.Unresolved) : call.run f = f := by
  cases h
  rfl

/-- All other calls name the enum first, and then add what they succeed with. -/
theorem Call.run_eq (h : ¬ call.Unresolved) : call.run f = addGiven (call.named f).2 (call.outcome f) := by
  cases call with
  | nameFor a id d => rfl
  | emitEnum a id d catalog =>
    cases catalog with
    | error e => exact absurd (.emitEnum a id d e) h
    | ok entries =>
      simp only [run, outcome, named, Generator.emitEnum]
      split <;> rfl
  | emitTable a id d catalog =>
    cases catalog with
    | error e => rfl
    | ok entries =>
      simp only [run, outcome, named, Generator.emitTable]
      split <;> rfl

/-- What a call succeeds with depends on the file only by the name that the enum has in it. -/
theorem Call.outcome_congr (h : (call.named g).1 = (call.named f).1) :
    call.outcome g = call.outcome f := by
  cases call with
  | nameFor a id d => exact congrArg (fun name => Except.ok (Given.name name)) h
  | emitEnum a id d catalog =>
    cases catalog with
    | error e => rfl
    | ok entries =>
      rw [named, named] at h
      simp only [outcome, Generator.emitEnum, h]
      split <;> rfl
  | emitTable a id d catalog =>
    cases catalog with
    | error e => rfl
    | ok entries =>
      rw [named, named] at h
      simp only [outcome, Generator.emitTable, h]
      split <;> rfl

theorem Call.named_of_name? (h : f.scope.name? call.id = some name) : call.named f = (name, f) := by
  cases call <;> exact OutputFile.nameFor_of_name? h

theorem Call.named_of_none (h : f.scope.name? call.id = none) :
    call.named f = (f.scope.freeName call.codeName,
      { f with scope := f.scope.insert (f.scope.freeName call.codeName) call.id }) := by
  cases call <;> exact OutputFile.nameFor_of_none h

@[simp] theorem scope_addGiven (f : OutputFile) (given : Except Error Given) :
    (addGiven f given).scope = f.scope := by
  unfold addGiven
  split <;> rfl

theorem Call.scope_run (h : ¬ call.Unresolved) : (call.run f).scope = (call.named f).2.scope := by
  rw [run_eq h, scope_addGiven]

theorem Call.keeps_run (call : Call) (f : OutputFile) :
    f.scope.Keeps (fun _ => False) (call.run f).scope := by
  cases call with
  | nameFor a id d => exact (f.givesName_nameFor a id d).keeps
  | emitEnum a id d catalog => exact keeps_emitEnum
  | emitTable a id d catalog => exact keeps_emitTable

theorem keeps_runAll (f : OutputFile) (calls : List Call) :
    f.scope.Keeps (fun _ => False) (runAll f calls).scope := by
  induction calls generalizing f with
  | nil => exact .refl _ _
  | cons call calls ih => exact (call.keeps_run f).trans (ih (call.run f))

/-- A name that is new after a call is the current name of the enum that was called for. -/
theorem Call.owner?_run (h : (call.run f).scope.owner? name = some owner) :
    f.scope.owner? name = some owner ∨
      call.id = owner ∧ (call.run f).scope.name? owner = some name := by
  by_cases hunresolved : call.Unresolved
  · rw [run_of_unresolved hunresolved] at h
    exact .inl h
  · rw [scope_run hunresolved] at h ⊢
    cases hname : f.scope.name? call.id with
    | some current =>
      rw [named_of_name? hname] at h
      exact .inl h
    | none =>
      rw [named_of_none hname] at h ⊢
      rw [Scope.owner?_insert] at h
      split at h
      next heq =>
        cases h
        rw [heq]
        exact .inr ⟨rfl, Scope.name?_insert_self _ _ _⟩
      next => exact .inl h

theorem exists_call_of_owner?_runAll (h : (runAll f calls).scope.owner? name = some owner) :
    f.scope.owner? name = some owner ∨
      ∃ call ∈ calls, (runAll f calls).scope.name? call.id = some name := by
  induction calls generalizing f with
  | nil => exact .inl h
  | cons call calls ih =>
    rcases ih h with hfirst | ⟨later, hlater, hname⟩
    · rcases call.owner?_run hfirst with hbefore | ⟨rfl, hname⟩
      · exact .inl hbefore
      · exact .inr ⟨call, List.mem_cons_self, (extends_runAll _ calls).name? hname⟩
    · exact .inr ⟨later, List.mem_cons_of_mem call hlater, hname⟩

/-- `g` is `f` with one name more, that of the enum `id`. -/
structure Reserves (id : Nat) (name : String) (f g : OutputFile) : Prop where
  statements : g.statements = f.statements
  owner?_self : g.scope.owner? name = some id
  owner? : ∀ other, other ≠ name → g.scope.owner? other = f.scope.owner? other
  name? : ∀ other, other ≠ id → g.scope.name? other = f.scope.name? other

namespace Reserves

theorem insert (hfree : f.scope.owner? name = none) :
    Reserves id name f { f with scope := f.scope.insert name id } where
  statements := rfl
  owner?_self := by rw [Scope.owner?_insert, if_pos rfl]
  owner? other hne := by rw [Scope.owner?_insert, if_neg hne]
  name? other hne := Scope.name?_insert_of_owner?_ne (by simp [hfree]) hne

/-- The search for a name ends at the same candidate, unless that is the name that one file has more. -/
theorem freeName (h : Reserves id name f g) {base : String} (hne : f.scope.freeName base ≠ name) :
    g.scope.freeName base = f.scope.freeName base := by
  obtain ⟨n, -, hfound, hfirst⟩ := f.scope.freeName_spec base
  rw [hfound] at hne ⊢
  -- Candidates that are taken in one file are taken in the other, as that has more names.
  refine Scope.IsFirstFree.freeName_eq ⟨?_, fun k hk => ?_⟩
  · rw [Scope.contains_eq_isSome_owner?, h.owner? _ hne, ← Scope.contains_eq_isSome_owner?]
    exact hfirst.free
  · by_cases hname : Scope.candidate base k = name
    · rw [hname, Scope.contains_eq_isSome_owner?, h.owner?_self]
      rfl
    · rw [Scope.contains_eq_isSome_owner?, h.owner? _ hname, ← Scope.contains_eq_isSome_owner?]
      exact hfirst.taken k hk

/-- Another enum has or gets the same name in both files, as long as that is not the name that one file
has more. -/
theorem named (h : Reserves id name f g) (hid : call.id ≠ id)
    (hfree : (call.named f).2.scope.owner? name = none) :
    (call.named g).1 = (call.named f).1 ∧ Reserves id name (call.named f).2 (call.named g).2 := by
  cases hname : f.scope.name? call.id with
  | some current =>
    have hname' : g.scope.name? call.id = some current := (h.name? _ hid).trans hname
    rw [Call.named_of_name? hname, Call.named_of_name? hname']
    exact ⟨rfl, h⟩
  | none =>
    have hname' : g.scope.name? call.id = none := (h.name? _ hid).trans hname
    rw [Call.named_of_none hname] at hfree ⊢
    have hne : f.scope.freeName call.codeName ≠ name := by
      intro heq
      rw [Scope.owner?_insert, if_pos heq.symm] at hfree
      cases hfree
    rw [Call.named_of_none hname', h.freeName hne]
    obtain ⟨howners, hnames⟩ :=
      Scope.lookups_of_declare (f.scope.declare_freeName call.codeName call.id)
    obtain ⟨howners', hnames'⟩ :=
      Scope.lookups_of_declare (g.scope.declare_freeName call.codeName call.id)
    rw [h.freeName hne] at howners' hnames'
    refine ⟨rfl, h.statements, ?_, fun other hother => ?_, fun other hother => ?_⟩
    · rw [howners', if_neg hne.symm, h.owner?_self]
    · rw [howners, howners', h.owner? other hother]
    · rw [hnames, hnames', h.name? other hother]

theorem addGiven (h : Reserves id name f g) (given : Except Error Given) :
    Reserves id name (Generator.addGiven f given) (Generator.addGiven g given) := by
  unfold Generator.addGiven
  split
  · exact ⟨congrArg (· ++ [_]) h.statements, h.owner?_self, h.owner?, h.name?⟩
  · exact h

/-- Calls for other enums do the same to both files. -/
theorem run (h : Reserves id name f g) (hid : call.id ≠ id)
    (hfree : (call.run f).scope.owner? name = none) :
    call.outcome g = call.outcome f ∧ Reserves id name (call.run f) (call.run g) := by
  by_cases hunresolved : call.Unresolved
  · rw [Call.run_of_unresolved hunresolved, Call.run_of_unresolved hunresolved]
    cases hunresolved
    exact ⟨rfl, h⟩
  · rw [Call.scope_run hunresolved] at hfree
    obtain ⟨hname, hnamed⟩ := h.named hid hfree
    have houtcome := Call.outcome_congr hname
    rw [Call.run_eq hunresolved, Call.run_eq hunresolved, houtcome]
    exact ⟨rfl, hnamed.addGiven _⟩

theorem runAll (h : Reserves id name f g) (hid : ∀ call ∈ calls, call.id ≠ id)
    (hfree : (Generator.runAll f calls).scope.owner? name = none) :
    outcomes g calls = outcomes f calls ∧
      Reserves id name (Generator.runAll f calls) (Generator.runAll g calls) := by
  induction calls generalizing f g with
  | nil => exact ⟨rfl, h⟩
  | cons call calls ih =>
    obtain ⟨hfirst, hrest⟩ := List.forall_mem_cons.1 hid
    -- The name is free after the first call, as names stay with their owners.
    have hfree₁ : (call.run f).scope.owner? name = none := by
      rw [Option.eq_none_iff_forall_ne_some]
      intro owner howner
      have hlater := (keeps_runAll (call.run f) calls).owner? howner
      exact Option.some_ne_none _ (hlater.symm.trans hfree)
    obtain ⟨houtcome, hrun⟩ := h.run hfirst hfree₁
    obtain ⟨houtcomes, hruns⟩ := ih hrun hrest hfree
    exact ⟨congrArg₂ List.cons houtcome houtcomes, hruns⟩

/-- Calls for other enums go the same way exactly if none of these enums would have been given the name
that one file has more. -/
theorem goesAs_iff (h : Reserves id name f g) (hfree : f.scope.owner? name = none)
    (hid : ∀ call ∈ calls, call.id ≠ id) :
    GoesAs id f g calls ↔
      ∀ call ∈ calls, (Generator.runAll f calls).scope.name? call.id ≠ some name := by
  constructor
  · intro hgoes call hcall hname
    rw [← hgoes.name? _ (hid call hcall)] at hname
    have howner := Scope.owner?_of_name? hname
    rw [(keeps_runAll g calls).owner? h.owner?_self] at howner
    exact hid call hcall (Option.some.inj howner).symm
  · intro hnames
    have hlater : (Generator.runAll f calls).scope.owner? name = none := by
      rw [Option.eq_none_iff_forall_ne_some]
      intro owner howner
      rcases exists_call_of_owner?_runAll howner with hbefore | ⟨call, hcall, hname⟩
      · exact Option.some_ne_none _ (hbefore.symm.trans hfree)
      · exact hnames call hcall hname
    obtain ⟨houtcomes, hruns⟩ := h.runAll hid hlater
    exact ⟨houtcomes, hruns.statements, hruns.name?⟩

end Reserves

/-- A call that fails does no more than to name the enum. -/
theorem Call.run_of_error (h : call.outcome f = .error e) (hresolved : ¬ call.Unresolved) :
    call.run f = (call.named f).2 := by
  rw [run_eq hresolved, h]
  rfl

end

/-- A call that fails adds no statement. It leaves the file as it was if the enum has a name already, or
if it is a declaration without a catalog; else the enum has a name afterwards, the first one that was
free. That name stays with the enum. Later calls for other enums go as if the failed one had not been
made exactly if none of these enums would have been given that name. -/
theorem run_of_failure (f : OutputFile) (call : Call) (e : Error) (h : call.outcome f = .error e) :
    (call.run f).statements = f.statements ∧
    (call.Unresolved ∨ f.scope.name? call.id ≠ none → call.run f = f) ∧
    (¬ call.Unresolved → f.scope.name? call.id = none →
      ∃ name, name = f.scope.freeName call.codeName ∧ f.scope.owner? name = none ∧
        call.run f = { f with scope := f.scope.insert name call.id } ∧
        ∀ later : List Call, (∀ c ∈ later, c.id ≠ call.id) →
          (runAll (call.run f) later).scope.owner? name = some call.id ∧
          (GoesAs call.id f (call.run f) later ↔
            ∀ c ∈ later, (runAll f later).scope.name? c.id ≠ some name)) := by
  by_cases hunresolved : call.Unresolved
  · rw [Call.run_of_unresolved hunresolved]
    exact ⟨rfl, fun _ => rfl, fun hnot => absurd hunresolved hnot⟩
  rw [Call.run_of_error h hunresolved]
  cases hname : f.scope.name? call.id with
  | some name =>
    rw [Call.named_of_name? hname]
    exact ⟨rfl, fun _ => rfl, fun _ hnone => by cases hnone⟩
  | none =>
    rw [Call.named_of_none hname]
    refine ⟨rfl, fun hor => ?_, fun _ _ => ⟨_, rfl, f.scope.owner?_freeName _, rfl, fun later hlater => ?_⟩⟩
    · rcases hor with h | h
      · exact absurd h hunresolved
      · exact absurd rfl h
    · have hreserves : Reserves call.id (f.scope.freeName call.codeName) f _ :=
        .insert (f.scope.owner?_freeName call.codeName)
      exact ⟨(keeps_runAll _ later).owner? hreserves.owner?_self,
        hreserves.goesAs_iff (f.scope.owner?_freeName _) hlater⟩

/-- A declaration that cannot be made, as its catalog has no entries. -/
def emptyDeclaration : Call :=
  .emitEnum "" 0 { name := some "E", values := [] } (.ok [])

/-- The question for the name of another enum. -/
def nameOther (name : String) : Call :=
  .nameFor "" 1 { name := some name, values := [] }

/-- A call that fails can change the names that are given later: an enum that is called like the one that
could not be declared gets a count. -/
theorem run_not_undone :
    emptyDeclaration.outcome { name := "e.ts" } = .error (.draft (.noMembers "E")) ∧
    (emptyDeclaration.run { name := "e.ts" }).scope.size = 1 ∧
    (nameOther "E").outcome { name := "e.ts" } = .ok (.name "E") ∧
    (nameOther "E").outcome (emptyDeclaration.run { name := "e.ts" }) = .ok (.name "E$1") :=
  ⟨rfl, rfl, rfl, rfl⟩

theorem run_of_failure_emptyDeclaration :
    (emptyDeclaration.run { name := "e.ts" }).scope.owner? "E" = some 0 ∧
    GoesAs 0 { name := "e.ts" } (emptyDeclaration.run { name := "e.ts" }) [nameOther "F"] ∧
    ¬ GoesAs 0 { name := "e.ts" } (emptyDeclaration.run { name := "e.ts" }) [nameOther "E"] := by
  obtain ⟨-, -, hnamed⟩ := run_of_failure { name := "e.ts" } emptyDeclaration _ rfl
  have hresolved : ¬ emptyDeclaration.Unresolved := fun h => nomatch h
  obtain ⟨name, hname, -, -, hlater⟩ := hnamed hresolved rfl
  obtain rfl : name = "E" := hname
  refine ⟨(hlater [] (by simp)).1, (hlater [nameOther "F"] (by decide)).2.2 ?_, fun hgoes => ?_⟩
  · rw [List.forall_mem_singleton]
    decide +kernel
  · exact (hlater [nameOther "E"] (by decide)).2.1 hgoes _ List.mem_cons_self (by decide +kernel)

end SchemaEnums.Generator
