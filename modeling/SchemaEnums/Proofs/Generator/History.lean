import SchemaEnums.Generator.Generate
import SchemaEnums.Proofs.Catalog.Names

namespace SchemaEnums

namespace EnumDescriptor

/-- The enum as it was before a catalog was assigned to it. -/
def withoutCatalog (d : EnumDescriptor) : EnumDescriptor :=
  { d with catalog := none }

variable {keepPrefix : Bool} {keep : List Bool} {ds es : List EnumDescriptor}

/-- A catalog is built from the name and the values of an enum. -/
theorem build_withoutCatalog (d : EnumDescriptor) (keepPrefix : Bool) :
    Catalog.build d.withoutCatalog keepPrefix = Catalog.build d keepPrefix := rfl

/-- Whether catalogs can be assigned does not depend on the catalogs that are there. -/
theorem assignCatalogs_withoutCatalog (keepPrefix : Bool) (ds : List EnumDescriptor) :
    (assignCatalogs keepPrefix (ds.map withoutCatalog)).2 = (assignCatalogs keepPrefix ds).2 := by
  induction ds with
  | nil => rfl
  | cons d ds ih =>
    rw [List.map_cons, assignCatalogs, assignCatalogs, build_withoutCatalog]
    cases Catalog.build d keepPrefix with
    | error e => rfl
    | ok c => exact ih

/-- Assigned catalogs take the place of those that were there. -/
theorem assignCatalogs_congr (keepPrefix : Bool) (h : ds.map withoutCatalog = es.map withoutCatalog) :
    (assignCatalogs keepPrefix ds).2 = (assignCatalogs keepPrefix es).2 ∧
      ((assignCatalogs keepPrefix ds).2 = .ok () →
        (assignCatalogs keepPrefix ds).1 = (assignCatalogs keepPrefix es).1) := by
  have hresult : (assignCatalogs keepPrefix ds).2 = (assignCatalogs keepPrefix es).2 := by
    rw [← assignCatalogs_withoutCatalog, h, assignCatalogs_withoutCatalog]
  refine ⟨hresult, fun hok => ?_⟩
  have hforget (ds : List EnumDescriptor) :
      (ds.map fun d => { d with catalog := some (Catalog.entries d keepPrefix) }) =
        (ds.map withoutCatalog).map fun d =>
          { d with catalog := some (Catalog.entries d keepPrefix) } := by
    rw [List.map_map]
    rfl
  rw [(assignCatalogs_ok hok).2, (assignCatalogs_ok (hresult ▸ hok)).2, hforget, h, ← hforget]

/-- Assigning catalogs changes nothing but catalogs, even where it fails on the way. -/
theorem map_withoutCatalog_assignCatalogs (keepPrefix : Bool) (ds : List EnumDescriptor) :
    (assignCatalogs keepPrefix ds).1.map withoutCatalog = ds.map withoutCatalog := by
  induction ds with
  | nil => rfl
  | cons d ds ih =>
    rw [assignCatalogs]
    cases Catalog.build d keepPrefix with
    | error e => rfl
    | ok c => exact congrArg (d.withoutCatalog :: ·) ih

theorem map_withoutCatalog_assignAllCatalogs (keep : List Bool) (ds : List EnumDescriptor) :
    (assignAllCatalogs keep ds).1.map withoutCatalog = ds.map withoutCatalog := by
  induction keep generalizing ds with
  | nil => rfl
  | cons keepPrefix keep ih =>
    have hfirst := map_withoutCatalog_assignCatalogs keepPrefix ds
    rw [assignAllCatalogs]
    split
    next heq =>
      rw [heq] at hfirst
      exact hfirst
    next heq =>
      rw [heq] at hfirst
      exact (ih _).trans hfirst

/-- Where all assignments succeed, the last one alone would have assigned the same catalogs. -/
theorem assignAllCatalogs_concat
    (h : (assignAllCatalogs (keep ++ [keepPrefix]) ds).2 = .ok ()) :
    assignAllCatalogs (keep ++ [keepPrefix]) ds = assignCatalogs keepPrefix ds := by
  induction keep generalizing ds with
  | nil =>
    rw [List.nil_append, assignAllCatalogs]
    split
    next heq => rw [heq]
    next heq => rw [heq, assignAllCatalogs]
  | cons first keep ih =>
    have hforget := map_withoutCatalog_assignCatalogs first ds
    rw [List.cons_append, assignAllCatalogs] at h ⊢
    split at h
    next => cases h
    next after heq =>
      rw [heq] at hforget
      have hrest := ih h
      obtain ⟨hresult, henums⟩ := assignCatalogs_congr keepPrefix hforget
      rw [hrest] at h ⊢
      exact Prod.ext (henums h) hresult

end EnumDescriptor

namespace Generator

/-- What may be done with a schema time and again. -/
inductive Use where
  | generate (o : Options)
  /-- Assigns catalogs once for each element of `keep`. -/
  | assignCatalogs (keep : List Bool)

/-- The assignments of catalogs that belong to the use. -/
def Use.keep : Use → List Bool
  | generate o => [o.keepPrefix]
  | assignCatalogs keep => keep

end Generator

namespace FileDescriptor

open Generator

/-- The schema as it was before catalogs were assigned to its enums. -/
def withoutCatalogs (f : FileDescriptor) : FileDescriptor :=
  { f with enums := f.enums.map EnumDescriptor.withoutCatalog }

/-- The schema after a use of it, whether that succeeded or not. -/
def after (f : FileDescriptor) (u : Use) : FileDescriptor :=
  { f with enums := (EnumDescriptor.assignAllCatalogs u.keep f.enums).1 }

/-- The schema after uses of it, one after the other. -/
def afterAll (f : FileDescriptor) (us : List Use) : FileDescriptor :=
  us.foldl after f

theorem withoutCatalogs_after (f : FileDescriptor) (u : Use) :
    (f.after u).withoutCatalogs = f.withoutCatalogs := by
  rw [withoutCatalogs, after, EnumDescriptor.map_withoutCatalog_assignAllCatalogs]
  rfl

/-- A use leaves catalogs behind and nothing else, so all uses do. -/
theorem withoutCatalogs_afterAll (f : FileDescriptor) (us : List Use) :
    (f.afterAll us).withoutCatalogs = f.withoutCatalogs := by
  induction us generalizing f with
  | nil => rfl
  | cons u us ih => exact (ih (f.after u)).trans (f.withoutCatalogs_after u)

theorem withoutCatalogs_withoutCatalogs (f : FileDescriptor) :
    f.withoutCatalogs.withoutCatalogs = f.withoutCatalogs := by
  simp [withoutCatalogs, EnumDescriptor.withoutCatalog]

end FileDescriptor

namespace Generator

variable {f g : FileDescriptor}

theorem enums_after_generate (o : Options) (f : FileDescriptor) :
    (f.after (.generate o)).enums = (EnumDescriptor.assignCatalogs o.keepPrefix f.enums).1 := by
  simp only [FileDescriptor.after, Use.keep, EnumDescriptor.assignAllCatalogs]
  split
  next heq => rw [heq]
  next heq => rw [heq]

/-- The enums that generation works with are those that it leaves behind. -/
theorem generate_eq_after (o : Options) (f : FileDescriptor) : generate o f = (do
    .note (catalogNote f.file)
    .ofExcept ((EnumDescriptor.assignCatalogs o.keepPrefix f.enums).2.mapError .duplicateMember)
    let out ← emitAll o 0 (f.after (.generate o)).enums (emptyFile f.file)
    .note (fileNote out)
    return out.content) := by
  rw [enums_after_generate]
  rfl

/-- The catalogs that enums have play no part in what is generated, nor in the notes about it. -/
theorem generate_congr (o : Options) (h : f.withoutCatalogs = g.withoutCatalogs) :
    generate o f = generate o g := by
  have hfile : f.file = g.file := by
    have hwithout (f : FileDescriptor) : f.withoutCatalogs.file = f.file := rfl
    rw [← hwithout f, h, hwithout]
  obtain ⟨hresult, henums⟩ := EnumDescriptor.assignCatalogs_congr o.keepPrefix
    (congrArg FileDescriptor.enums h)
  rw [generate_eq_after, generate_eq_after, enums_after_generate, enums_after_generate, hfile,
    ← hresult]
  cases hassigned : (EnumDescriptor.assignCatalogs o.keepPrefix f.enums).2 with
  | error e => rfl
  | ok u => rw [henums hassigned]

/-- Generation does not remember. What it gives and notes does not depend on the catalogs that the enums
have, so after any uses of a schema, also those that failed halfway, it gives what it gives for the
schema without catalogs. Where several assignments of catalogs all succeed, the schema has the catalogs
of the last one. -/
theorem generate_afterAll (o : Options) (f : FileDescriptor) :
    (∀ g : FileDescriptor, g.withoutCatalogs = f.withoutCatalogs → generate o g = generate o f) ∧
    (∀ us, generate o (f.afterAll us) = generate o f.withoutCatalogs) ∧
    ∀ keep keepPrefix,
      (EnumDescriptor.assignAllCatalogs (keep ++ [keepPrefix]) f.enums).2 = .ok () →
      EnumDescriptor.assignAllCatalogs (keep ++ [keepPrefix]) f.enums =
        EnumDescriptor.assignCatalogs keepPrefix f.enums := by
  refine ⟨fun g hg => generate_congr o hg, fun us => generate_congr o ?_, fun keep keepPrefix h =>
    EnumDescriptor.assignAllCatalogs_concat h⟩
  rw [f.withoutCatalogs_afterAll, f.withoutCatalogs_withoutCatalogs]

/-- The second enum has no catalog without its prefix, so that only the first one is assigned one. -/
def halfAssigned : FileDescriptor :=
  { file := none
    enums := [{ name := some "Job", values := [{ name := "JOB_NEW", number := 1 }] },
              { name := some "E", values := [{ name := "E_UNSPECIFIED$", number := 1 }] }] }

theorem generate_afterAll_halfAssigned :
    (halfAssigned.after (.generate {})).enums.map (·.catalog) =
      [some [{ name := "UNSPECIFIED$", number := 0 }, { name := "NEW", number := 1 }], none] ∧
    generate { keepPrefix := true } (halfAssigned.afterAll
        [.assignCatalogs [true], .generate {}, .assignCatalogs [true, false]]) =
      generate { keepPrefix := true } halfAssigned.withoutCatalogs ∧
    generate { keepPrefix := true } (halfAssigned.after (.generate {})) =
      generate { keepPrefix := true } halfAssigned ∧
    EnumDescriptor.assignAllCatalogs ([false] ++ [true]) (halfAssigned.enums.take 1) =
      EnumDescriptor.assignCatalogs true (halfAssigned.enums.take 1) := by
  obtain ⟨hcongr, hafter, -⟩ := generate_afterAll { keepPrefix := true } halfAssigned
  obtain ⟨-, -, hlast⟩ :=
    generate_afterAll {} { halfAssigned with enums := halfAssigned.enums.take 1 }
  exact ⟨by decide +kernel, hafter _, hcongr _ (by decide +kernel), hlast _ _ (by decide +kernel)⟩

end Generator

end SchemaEnums
