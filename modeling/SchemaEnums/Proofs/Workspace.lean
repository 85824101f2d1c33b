import SchemaEnums.Proofs.Generator.Emission
import SchemaEnums.Workspace

namespace SchemaEnums

open TypeScript

theorem dollar_not_mem_of_builtIn : ∀ t ∈ builtInTypes, '$' ∉ t.toList := by
  decide

theorem EnumDescriptor.codeName_not_mem_builtInTypes (a : String) (d : EnumDescriptor) :
    d.codeName a ∉ builtInTypes := by
  by_cases h : builtInTypes.contains (d.flatName a) = true
  · have hcode : d.codeName a = d.flatName a ++ "$" := if_pos h
    rw [hcode]
    intro hmem
    exact dollar_not_mem_of_builtIn _ hmem (by simp)
  · have hcode : d.codeName a = d.flatName a := if_neg h
    rw [hcode]
    simpa using h

theorem TypeScript.Scope.candidate_not_mem_builtInTypes {base : String} (h : base ∉ builtInTypes)
    (n : Nat) : Scope.candidate base n ∉ builtInTypes := by
  cases n with
  | zero => exact h
  | succ n =>
    intro hmem
    exact dollar_not_mem_of_builtIn _ hmem (by simp [Scope.candidate])

namespace TypeScript.OutputFile

/-- How the enum `id` comes to its name in a file, and the file after that: it has the name already,
or the name is free, is that of no built-in type, and can be declared. -/
inductive GivesName (f : OutputFile) (id : Nat) (name : String) : OutputFile → Prop where
  | known (h : f.scope.name? id = some name) : f.GivesName id name f
  | fresh {scope : Scope} (hnone : f.scope.name? id = none) (hbuiltIn : name ∉ builtInTypes)
    (hfree : f.scope.owner? name = none) (hdeclare : f.scope.declare name id = .ok scope) :
    f.GivesName id name { f with scope }

theorem givesName_nameFor (f : OutputFile) (a : String) (id : Nat) (d : EnumDescriptor) :
    f.GivesName id (f.nameFor a id d).1 (f.nameFor a id d).2 := by
  unfold nameFor
  split
  next name hname => exact .known hname
  next hnone =>
    obtain ⟨n, -, hfound, -⟩ := f.scope.freeName_spec (d.codeName a)
    refine .fresh hnone ?_ (f.scope.owner?_freeName _) (f.scope.declare_freeName _ id)
    rw [hfound]
    exact Scope.candidate_not_mem_builtInTypes (d.codeName_not_mem_builtInTypes a) n

variable {f f' : OutputFile} {id : Nat} {name : String}

/-- No enum loses its name when one is given a name. -/
theorem GivesName.keeps (h : f.GivesName id name f') :
    f.scope.Keeps (fun _ => False) f'.scope := by
  cases h with
  | known _ => exact .refl _ _
  | fresh hnone _ _ hdeclare =>
    have hkeeps := Scope.Keeps.declare hdeclare
    refine ⟨hkeeps.owner?, fun hname _ => hkeeps.name? hname ?_⟩
    rintro rfl
    rw [hnone] at hname
    cases hname

end TypeScript.OutputFile

namespace Generator

variable {a : String} {id : Nat} {d : EnumDescriptor} {catalog : Except DuplicateMember Catalog}
  {f : OutputFile}

theorem keeps_emitEnum :
    f.scope.Keeps (fun _ => False) (emitEnum a id d catalog f).file.scope := by
  cases catalog with
  | error e => exact .refl _ _
  | ok entries =>
    simp only [emitEnum]
    split <;> exact (f.givesName_nameFor a id d).keeps

theorem keeps_emitTable :
    f.scope.Keeps (fun _ => False) (emitTable a id d catalog f).file.scope := by
  cases catalog with
  | error e => exact (f.givesName_nameFor a id d).keeps
  | ok entries =>
    simp only [emitTable]
    split <;> exact (f.givesName_nameFor a id d).keeps

end Generator

namespace EnumDescriptor

theorem length_assignCatalogs (keepPrefix : Bool) (ds : List EnumDescriptor) :
    (assignCatalogs keepPrefix ds).1.length = ds.length := by
  induction ds with
  | nil => rfl
  | cons d ds ih =>
    rw [assignCatalogs]
    split
    · rfl
    · simpa using ih

theorem length_assignAllCatalogs (keep : List Bool) (ds : List EnumDescriptor) :
    (assignAllCatalogs keep ds).1.length = ds.length := by
  induction keep generalizing ds with
  | nil => rfl
  | cons keepPrefix keep ih =>
    have hlength := length_assignCatalogs keepPrefix ds
    rw [assignAllCatalogs]
    split
    next heq =>
      rw [heq] at hlength
      exact hlength
    next heq =>
      rw [heq] at hlength
      exact (ih _).trans hlength

end EnumDescriptor

namespace Workspace

/-- The file that a request is about, if it is about one. -/
def Request.file? : Request → Option Nat
  | .nameFor file _ => some file
  | .findName file _ => some file
  | .hasName file _ => some file
  | .countNames file => some file
  | .declareName file _ _ => some file
  | .emitEnum file _ _ => some file
  | .emitTable file _ _ => some file
  | .addStatement file _ => some file
  | .addComment file _ _ _ => some file
  | .content file => some file
  | _ => none

/-- The request declares a name for the enum `id` in the file. -/
def Request.Renames (r : Request) (file id : Nat) : Prop :=
  ∃ name, r = .declareName file id name

/-- What a request does to the files: nothing, or it puts another file in the place of the one that it
is about. -/
inductive FilesStep (r : Request) (files : List OutputFile) : List OutputFile → Prop where
  | same : FilesStep r files files
  | set {file : Nat} {f f' : OutputFile} (hrequest : r.file? = some file)
    (hfile : files[file]? = some f) (hkeeps : f.scope.Keeps (r.Renames file) f'.scope) :
    FilesStep r files (files.set file f')

/-- What a request can do. -/
structure Step (w : Workspace) (r : Request) (w' : Workspace) : Prop where
  enums : w'.enums.length = w.enums.length
  files : FilesStep r w.files w'.files

section

variable {w w' : Workspace} {r : Request} {file id : Nat} {f f' : OutputFile} {d : EnumDescriptor}

theorem Step.refl : w.Step r w :=
  ⟨rfl, .same⟩

theorem Step.setFile (hrequest : r.file? = some file) (hfile : w.files[file]? = some f)
    (hkeeps : f.scope.Keeps (r.Renames file) f'.scope) : w.Step r (w.setFile file f') :=
  ⟨rfl, .set hrequest hfile hkeeps⟩

theorem Step.withBoth {act : OutputFile → EnumDescriptor → Reply × Workspace}
    (h : ∀ f d, w.files[file]? = some f → w.enums[id]? = some d → w.Step r (act f d).2) :
    w.Step r (w.withBoth file id act).2 := by
  unfold Workspace.withBoth
  split
  next f d hf hd => exact h f d hf hd
  next => exact .refl

theorem Step.ask {act : OutputFile → Reply} : w.Step r (w.ask file act).2 := by
  unfold Workspace.ask
  split <;> exact .refl

theorem Step.askEnum {act : EnumDescriptor → Reply} : w.Step r (w.askEnum id act).2 := by
  unfold Workspace.askEnum
  split <;> exact .refl

theorem Step.conclude {α : Type} {attempt : Generator.Attempt α} {text : α → String}
    (hrequest : r.file? = some file) (hfile : w.files[file]? = some f)
    (hkeeps : f.scope.Keeps (fun _ => False) attempt.file.scope) :
    w.Step r (w.conclude file attempt text).2 := by
  unfold Workspace.conclude
  cases attempt.result <;> exact .setFile hrequest hfile (hkeeps.mono fun _ => False.elim)

/-- Every request takes such a step. -/
theorem perform_step (w : Workspace) (r : Request) : w.Step r (w.perform r).2 := by
  cases r with
  | nameFor file enum =>
    refine .withBoth fun f d hf _ => .setFile rfl hf ?_
    exact (f.givesName_nameFor _ enum d).keeps.mono fun _ => False.elim
  | codeName enum => exact .askEnum
  | findName file enum => exact .ask
  | hasName file name => exact .ask
  | countNames file => exact .ask
  | declareName file enum name =>
    refine .withBoth fun f d hf _ => ?_
    split
    next scope hscope =>
      exact .setFile rfl hf ((Scope.Keeps.declare hscope).mono fun _ hid => ⟨name, hid ▸ rfl⟩)
    next => exact .refl
  | assignCatalogs keep =>
    have hlength := EnumDescriptor.length_assignAllCatalogs keep w.enums
    simp only [perform]
    split <;> exact ⟨hlength, .same⟩
  | catalog enum => exact .askEnum
  | setCatalog enum catalog =>
    simp only [perform]
    split
    · exact ⟨List.length_set, .same⟩
    · exact .refl
  | findValue enum number => exact .askEnum
  | emitEnum file enum catalog =>
    exact .withBoth fun f d hf _ => .conclude rfl hf Generator.keeps_emitEnum
  | emitTable file enum catalog =>
    exact .withBoth fun f d hf _ => .conclude rfl hf Generator.keeps_emitTable
  | addStatement file s =>
    simp only [perform]
    split
    next f hf => exact .setFile rfl hf (.refl _ _)
    next => exact .refl
  | addComment file enum statement mode =>
    refine .withBoth fun f d hf _ => ?_
    split
    · unfold attachComment
      split
      · exact .refl
      · exact .setFile rfl hf (.refl _ _)
    · exact .refl
  | content file => exact .ask

/-- Later the file is there, with the names that it had. -/
theorem Step.exists_keeps (h : w.Step r w') (hfile : w.files[file]? = some f) :
    ∃ f', w'.files[file]? = some f' ∧ f.scope.Keeps (r.Renames file) f'.scope := by
  obtain ⟨-, hstep⟩ := h
  generalize w'.files = files at hstep
  cases hstep with
  | same => exact ⟨f, hfile, .refl _ _⟩
  | @set other out out' _ hout hkeeps =>
    by_cases hne : other = file
    · subst hne
      rw [hfile] at hout
      cases hout
      have hlt : other < w.files.length := (List.getElem?_eq_some_iff.1 hfile).1
      exact ⟨out', List.getElem?_set_self hlt, hkeeps⟩
    · exact ⟨f, (List.getElem?_set_ne hne).trans hfile, .refl _ _⟩

/-- All other files stay as they are. -/
theorem Step.getElem?_of_ne (h : w.Step r w') (hne : r.file? ≠ some file) :
    w'.files[file]? = w.files[file]? := by
  obtain ⟨-, hstep⟩ := h
  generalize w'.files = files at hstep
  cases hstep with
  | same => rfl
  | set hrequest _ _ =>
    refine List.getElem?_set_ne ?_
    rintro rfl
    exact hne hrequest

end

/-- A request, and the name that enums without one are to have. -/
structure Call where
  anonymousName : String
  request : Request

/-- Grants the request of a call. -/
def Call.run (c : Call) (w : Workspace) : Reply × Workspace :=
  ({ w with anonymousName := c.anonymousName }).perform c.request

/-- The workspace after calls one after the other. -/
def after (w : Workspace) (calls : List Call) : Workspace :=
  calls.foldl (fun w c => (c.run w).2) w

section

variable {w : Workspace} {calls : List Call} {file id : Nat} {f : OutputFile}

theorem Call.step (c : Call) (w : Workspace) : w.Step c.request (c.run w).2 :=
  let h := perform_step { w with anonymousName := c.anonymousName } c.request
  ⟨h.enums, h.files⟩

theorem length_enums_after (w : Workspace) (calls : List Call) :
    (w.after calls).enums.length = w.enums.length := by
  induction calls generalizing w with
  | nil => rfl
  | cons c calls ih => exact (ih (c.run w).2).trans (c.step w).enums

theorem exists_keeps_after (hfile : w.files[file]? = some f) :
    ∃ f', (w.after calls).files[file]? = some f' ∧
      f.scope.Keeps (fun id => ∃ c ∈ calls, c.request.Renames file id) f'.scope := by
  induction calls generalizing w f with
  | nil => exact ⟨f, hfile, .refl _ _⟩
  | cons c calls ih =>
    obtain ⟨f₁, hf₁, hfirst⟩ := (c.step w).exists_keeps hfile
    obtain ⟨f', hf', hrest⟩ := ih hf₁
    refine ⟨f', hf', (hfirst.mono ?_).trans (hrest.mono ?_)⟩
    · exact fun id hid => ⟨c, List.mem_cons_self, hid⟩
    · exact fun id ⟨c', hc', hid⟩ => ⟨c', List.mem_cons_of_mem c hc', hid⟩

/-- What is answered to the question for the name of an enum, and the files after it. -/
theorem run_nameFor (a : String) (hfile : w.files[file]? = some f) (hid : id < w.enums.length) :
    ∃ name f', f.GivesName id name f' ∧ (Call.run ⟨a, .nameFor file id⟩ w).1 = .text (some name) ∧
      (Call.run ⟨a, .nameFor file id⟩ w).2.files = w.files.set file f' := by
  have henum : w.enums[id]? = some w.enums[id] := List.getElem?_eq_getElem hid
  have hrun : Call.run ⟨a, .nameFor file id⟩ w =
      (.text (some (f.nameFor a id w.enums[id]).1),
        ({ w with anonymousName := a }).setFile file (f.nameFor a id w.enums[id]).2) := by
    simp only [Call.run, perform, withBoth, hfile, henum]
  exact ⟨_, _, f.givesName_nameFor a id w.enums[id], by rw [hrun], by rw [hrun]; rfl⟩

theorem run_nameFor_of_name? {name : String} (a : String) (hfile : w.files[file]? = some f)
    (hid : id < w.enums.length) (hname : f.scope.name? id = some name) :
    (Call.run ⟨a, .nameFor file id⟩ w).1 = .text (some name) := by
  obtain ⟨name', f', hgives, hreply, -⟩ := run_nameFor a hfile hid
  cases hgives with
  | known h =>
    rw [hname] at h
    cases h
    exact hreply
  | fresh hnone =>
    rw [hname] at hnone
    cases hnone

/-- A declaration that is rejected changes nothing. -/
theorem run_declareName_of_failure {a name : String} {e : Error}
    (h : (Call.run ⟨a, .declareName file id name⟩ w).1 = .failure e) :
    (Call.run ⟨a, .declareName file id name⟩ w).2 = { w with anonymousName := a } := by
  simp only [Call.run, perform, withBoth] at h ⊢
  split
  next f d hf hd =>
    simp only [hf, hd] at h
    cases hdeclare : f.scope.declare name id with
    | ok scope =>
      simp only [hdeclare] at h
      cases h
    | error e => rfl
  next => rfl

end

/-- Names stay one-to-one over whole runs. Whatever calls were made on whatever files: the current name
of an enum in a file belongs to it, and to no other enum; a name that has an owner keeps it; an enum
that has a name is called by it until another is declared for it; a declaration that is rejected changes
nothing; the question for a name is always answered, with a name that `GivesName` describes; and no call
changes a file that it is not about. -/
theorem names_after (w : Workspace) (calls : List Call) :
    (∀ (file : Nat) (f : OutputFile), (w.after calls).files[file]? = some f →
      ∀ id name, f.scope.name? id = some name → f.scope.owner? name = some id ∧
        ∀ other, f.scope.name? other = some name → other = id) ∧
    (∀ (file : Nat) (f : OutputFile), w.files[file]? = some f →
      ∃ f', (w.after calls).files[file]? = some f' ∧ ∀ id name,
        f.scope.owner? name = some id → f'.scope.owner? name = some id) ∧
    (∀ (file : Nat) (f : OutputFile) (id : Nat) (name a : String), w.files[file]? = some f →
      id < w.enums.length →
      f.scope.name? id = some name → (∀ c ∈ calls, ¬ c.request.Renames file id) →
        (Call.run ⟨a, .nameFor file id⟩ (w.after calls)).1 = .text (some name)) ∧
    (∀ (a : String) (file id : Nat) (name : String) (e : Error),
      (Call.run ⟨a, .declareName file id name⟩ (w.after calls)).1 = .failure e →
        (Call.run ⟨a, .declareName file id name⟩ (w.after calls)).2 =
          { w.after calls with anonymousName := a }) ∧
    (∀ (a : String) (file : Nat) (f : OutputFile) (id : Nat),
      (w.after calls).files[file]? = some f → id < (w.after calls).enums.length →
      ∃ name f', f.GivesName id name f' ∧
        (Call.run ⟨a, .nameFor file id⟩ (w.after calls)).1 = .text (some name) ∧
          (Call.run ⟨a, .nameFor file id⟩ (w.after calls)).2.files =
            (w.after calls).files.set file f') ∧
    ∀ (c : Call) (file : Nat), c.request.file? ≠ some file →
      (c.run (w.after calls)).2.files[file]? = (w.after calls).files[file]? := by
  refine ⟨fun file f _ id name hname => ?_, fun file f hfile => ?_,
    fun file f id name a hfile hid hname hcalls => ?_, fun a file id name e => ?_,
    fun a file f id hfile hid => ?_, fun c file hne => ?_⟩
  · exact ⟨Scope.owner?_of_name? hname, fun other hother => Scope.owner_unique hother hname⟩
  · obtain ⟨f', hf', hkeeps⟩ := exists_keeps_after hfile
    exact ⟨f', hf', fun id name => hkeeps.owner?⟩
  · obtain ⟨f', hf', hkeeps⟩ := exists_keeps_after hfile
    have hlater : f'.scope.name? id = some name := by
      apply hkeeps.name? hname
      rintro ⟨c, hc, hrenames⟩
      exact hcalls c hc hrenames
    have hid' : id < (w.after calls).enums.length := by rwa [length_enums_after]
    exact run_nameFor_of_name? a hf' hid' hlater
  · exact run_declareName_of_failure
  · exact run_nameFor a hfile hid
  · exact (c.step _).getElem?_of_ne hne

/-- Four enums, of which two flatten to one name and a third has that name with a count; the last one
is called like a built-in type. -/
def lookalikes : Workspace where
  enums := [{ name := some "B", values := [], parents := ["A"] }, { name := some "A_B", values := [] },
    { name := some "A_B$1", values := [] }, { name := none, values := [] }]
  files := [{ name := "a.ts", scope := ⟨[], List.nodup_nil⟩ },
    { name := "b.ts", scope := ⟨[], List.nodup_nil⟩ }]

/-- Names are given in both files. -/
def firstCalls : List Call :=
  [⟨"", .nameFor 0 2⟩, ⟨"", .nameFor 0 0⟩, ⟨"", .nameFor 0 1⟩, ⟨"string", .nameFor 0 3⟩,
    ⟨"", .nameFor 1 1⟩]

/-- Names are declared, some of them in vain. -/
def laterCalls : List Call :=
  [⟨"", .declareName 0 0 "A_B$2"⟩, ⟨"", .declareName 0 0 "C"⟩, ⟨"", .declareName 1 1 "string$"⟩,
    ⟨"", .declareName 0 3 "A_B"⟩]

theorem names_after_lookalikes :
    (Call.run ⟨"", .nameFor 0 1⟩ ((lookalikes.after firstCalls).after laterCalls)).1 =
        .text (some "A_B$2") ∧
      (Call.run ⟨"", .declareName 0 3 "A_B"⟩ (lookalikes.after firstCalls)).2 =
        { lookalikes.after firstCalls with anonymousName := "" } ∧
      (Call.run ⟨"", .declareName 1 1 "string$"⟩ (lookalikes.after firstCalls)).2.files[0]? =
        (lookalikes.after firstCalls).files[0]? := by
  obtain ⟨-, -, hkept, -⟩ := names_after (lookalikes.after firstCalls) laterCalls
  obtain ⟨-, -, -, hrejected, -, hothers⟩ := names_after lookalikes firstCalls
  refine ⟨hkept 0 _ 1 "A_B$2" "" rfl (by decide) (by decide +kernel) ?_, hrejected "" 0 3 "A_B" _ rfl,
    hothers ⟨"", .declareName 1 1 "string$"⟩ 0 (by decide)⟩
  simp [laterCalls, Request.Renames]

end Workspace

end SchemaEnums
