import Mathlib.Data.List.Induction
import SchemaEnums.Proofs.Generator.History

namespace SchemaEnums.EnumDescriptor

/-- The enum with the catalog that is assigned to it. -/
def assigned (keepPrefix : Bool) (d : EnumDescriptor) : EnumDescriptor :=
  { d with catalog := some (Catalog.entries d keepPrefix) }

/-- An assignment comes past the enum at the place `i`: that enum and all in front of it have
catalogs. -/
def Passes (ds : List EnumDescriptor) (i : Nat) (keepPrefix : Bool) : Prop :=
  ∀ d ∈ ds.take (i + 1), ∃ c, Catalog.build d keepPrefix = .ok c

/-- The enums after assignments one after the other, each of which may have failed. -/
def afterAssignments (ds : List EnumDescriptor) (keep : List Bool) : List EnumDescriptor :=
  keep.foldl (fun ds keepPrefix => (assignCatalogs keepPrefix ds).1) ds

/-- What the enum at the place `i` answers when it is asked for its catalog after assignments: what the
last of them that came past it had built, or what it answered before if none did. -/
inductive Answers (ds : List EnumDescriptor) (i : Nat) (keep : List Bool) (d : EnumDescriptor) :
    Except DuplicateMember Catalog → Prop where
  | last {before after : List Bool} {keepPrefix : Bool} {c : Catalog}
    (hkeep : keep = before ++ keepPrefix :: after) (hpasses : Passes ds i keepPrefix)
    (hafter : ∀ k ∈ after, ¬ Passes ds i k) (hbuild : Catalog.build d keepPrefix = .ok c) :
    Answers ds i keep d (.ok c)
  | unchanged (h : ∀ k ∈ keep, ¬ Passes ds i k) : Answers ds i keep d d.currentCatalog

section

variable {ds es : List EnumDescriptor} {d : EnumDescriptor} {keepPrefix : Bool} {keep : List Bool}
  {i : Nat}

theorem passes_cons_zero : Passes (d :: ds) 0 keepPrefix ↔ ∃ c, Catalog.build d keepPrefix = .ok c := by
  simp [Passes]

theorem passes_cons_succ : Passes (d :: ds) (i + 1) keepPrefix ↔
    (∃ c, Catalog.build d keepPrefix = .ok c) ∧ Passes ds i keepPrefix := by
  simp [Passes]

/-- Whether an assignment comes past an enum does not depend on the catalogs that are there. -/
theorem passes_congr (h : ds.map withoutCatalog = es.map withoutCatalog) :
    Passes ds i keepPrefix ↔ Passes es i keepPrefix := by
  have hiff (ds : List EnumDescriptor) : Passes ds i keepPrefix ↔
      ∀ d ∈ (ds.map withoutCatalog).take (i + 1), ∃ c, Catalog.build d keepPrefix = .ok c := by
    rw [← List.map_take, List.forall_mem_map]
    rfl
  rw [hiff, h, ← hiff]

/-- An assignment gives a catalog to each enum that it comes past, and leaves the others alone. -/
theorem getElem?_assignCatalogs (ds : List EnumDescriptor) (i : Nat) (keepPrefix : Bool) :
    (Passes ds i keepPrefix →
      (assignCatalogs keepPrefix ds).1[i]? = ds[i]?.map (assigned keepPrefix)) ∧
    (¬ Passes ds i keepPrefix → (assignCatalogs keepPrefix ds).1[i]? = ds[i]?) := by
  induction ds generalizing i with
  | nil => exact ⟨fun _ => rfl, fun _ => rfl⟩
  | cons d ds ih =>
    rw [assignCatalogs]
    cases hbuild : Catalog.build d keepPrefix with
    | error e =>
      refine ⟨fun hpasses => ?_, fun _ => rfl⟩
      obtain ⟨c, hc⟩ := hpasses d (by simp)
      rw [hbuild] at hc
      cases hc
    | ok c =>
      obtain rfl := Catalog.eq_entries_of_build hbuild
      cases i with
      | zero => exact ⟨fun _ => rfl, fun hnot => absurd (passes_cons_zero.2 ⟨_, hbuild⟩) hnot⟩
      | succ i =>
        obtain ⟨hpast, hnot⟩ := ih i
        exact ⟨fun h => hpast (passes_cons_succ.1 h).2,
          fun h => hnot fun hi => h (passes_cons_succ.2 ⟨⟨_, hbuild⟩, hi⟩)⟩

/-- Where an assignment fails, the enums in front of the first one without a catalog have new ones, and
all others are as they were. -/
theorem exists_split_of_assignCatalogs_error {e : DuplicateMember}
    (h : (assignCatalogs keepPrefix ds).2 = .error e) :
    ∃ before d after, ds = before ++ d :: after ∧ Catalog.build d keepPrefix = .error e ∧
      (∀ b ∈ before, ∃ c, Catalog.build b keepPrefix = .ok c) ∧
      (assignCatalogs keepPrefix ds).1 = before.map (assigned keepPrefix) ++ d :: after := by
  induction ds with
  | nil => cases h
  | cons d ds ih =>
    rw [assignCatalogs] at h ⊢
    cases hbuild : Catalog.build d keepPrefix with
    | error e' =>
      rw [hbuild] at h
      cases h
      exact ⟨[], d, ds, rfl, hbuild, by simp, rfl⟩
    | ok c =>
      rw [hbuild] at h
      obtain ⟨before, failed, after, rfl, hfailed, hbefore, hassigned⟩ := ih h
      obtain rfl := Catalog.eq_entries_of_build hbuild
      refine ⟨d :: before, failed, after, rfl, hfailed,
        List.forall_mem_cons.2 ⟨⟨_, hbuild⟩, hbefore⟩, ?_⟩
      exact congrArg (assigned keepPrefix d :: ·) hassigned

theorem map_withoutCatalog_afterAssignments (ds : List EnumDescriptor) (keep : List Bool) :
    (afterAssignments ds keep).map withoutCatalog = ds.map withoutCatalog := by
  induction keep generalizing ds with
  | nil => rfl
  | cons keepPrefix keep ih =>
    exact (ih _).trans (map_withoutCatalog_assignCatalogs keepPrefix ds)

theorem afterAssignments_concat (ds : List EnumDescriptor) (keep : List Bool) (keepPrefix : Bool) :
    afterAssignments ds (keep ++ [keepPrefix]) =
      (assignCatalogs keepPrefix (afterAssignments ds keep)).1 := by
  rw [afterAssignments, List.foldl_append]
  rfl

/-- An assignment that does not come past an enum does not change what it answers. -/
theorem Answers.concat {answer : Except DuplicateMember Catalog} (h : Answers ds i keep d answer)
    (hpasses : ¬ Passes ds i keepPrefix) : Answers ds i (keep ++ [keepPrefix]) d answer := by
  cases h with
  | last hkeep hearlier hafter hbuild =>
    refine .last (by rw [hkeep, List.append_assoc]; rfl) hearlier ?_ hbuild
    exact List.forall_mem_append.2 ⟨hafter, by simpa using hpasses⟩
  | unchanged h => exact .unchanged (List.forall_mem_append.2 ⟨h, by simpa using hpasses⟩)

/-- Each enum answers with the catalog of the last assignment that came past it. The induction is on the
assignments from the last one back: that one decides, or leaves the enum as it was before. -/
theorem exists_answers_afterAssignments (hd : ds[i]? = some d) (keep : List Bool) :
    ∃ d', (afterAssignments ds keep)[i]? = some d' ∧ Answers ds i keep d d'.currentCatalog := by
  induction keep using List.reverseRecOn with
  | nil => exact ⟨d, hd, .unchanged (by simp)⟩
  | append_singleton keep keepPrefix ih =>
    have hwithout := map_withoutCatalog_afterAssignments ds keep
    obtain ⟨hpast, hnot⟩ := getElem?_assignCatalogs (afterAssignments ds keep) i keepPrefix
    obtain ⟨d', hd', hanswers⟩ := ih
    rw [passes_congr hwithout, hd'] at hpast hnot
    rw [afterAssignments_concat]
    by_cases hpasses : Passes ds i keepPrefix
    · have hbuild : ∃ c, Catalog.build d keepPrefix = .ok c :=
        hpasses d (List.mem_of_getElem? ((List.getElem?_take_of_lt i.lt_succ_self).trans hd))
      obtain ⟨c, hc⟩ := hbuild
      have hsame : d'.withoutCatalog = d.withoutCatalog := by
        have hget := congrArg (·[i]?) hwithout
        simpa [hd', hd] using hget
      -- The catalog is that of the enum in the beginning, as only catalogs have changed since.
      have hc' : Catalog.build d' keepPrefix = .ok c := by
        rw [← build_withoutCatalog, hsame, build_withoutCatalog, hc]
      refine ⟨assigned keepPrefix d', hpast hpasses, ?_⟩
      obtain rfl := Catalog.eq_entries_of_build hc'
      exact .last rfl hpasses (by simp) hc
    · exact ⟨d', hnot hpasses, hanswers.concat hpasses⟩

end

/-- Assignments are not undone. One that fails does so at the first enum without a catalog; the enums in
front of that one have new catalogs then, and all others are as before. One that succeeds gives every enum
the catalog that is built for it. After several assignments each enum answers with the catalog of the last
one that came past it, and as before if none did. -/
theorem assignCatalogs_partial (keepPrefix : Bool) (ds : List EnumDescriptor) :
    (∀ e, (assignCatalogs keepPrefix ds).2 = .error e →
      ∃ before d after, ds = before ++ d :: after ∧ Catalog.build d keepPrefix = .error e ∧
        (∀ b ∈ before, ∃ c, Catalog.build b keepPrefix = .ok c) ∧
        (assignCatalogs keepPrefix ds).1 = before.map (assigned keepPrefix) ++ d :: after) ∧
    ((assignCatalogs keepPrefix ds).2 = .ok () →
      List.Forall₂ (fun d d' => ∃ c, Catalog.build d keepPrefix = .ok c ∧
        d' = { d with catalog := some c }) ds (assignCatalogs keepPrefix ds).1) ∧
    ∀ keep i d, ds[i]? = some d →
      ∃ d', (afterAssignments ds keep)[i]? = some d' ∧ Answers ds i keep d d'.currentCatalog := by
  refine ⟨fun e => exists_split_of_assignCatalogs_error, fun hok => ?_, fun keep i d hd =>
    exists_answers_afterAssignments hd keep⟩
  obtain ⟨hbuild, hassigned⟩ := assignCatalogs_ok hok
  rw [hassigned, List.forall₂_map_right_iff, List.forall₂_same]
  exact fun d hd => ⟨_, hbuild d hd, rfl⟩

/-- Without its prefix the value would be called like the member with number zero that is added. -/
def prefixedZero : EnumDescriptor :=
  { name := some "E", values := [{ name := "E_UNSPECIFIED$", number := 1 }] }

/-- Both enums have catalogs as long as prefixes are kept. -/
def jobAndPrefixedZero : List EnumDescriptor :=
  [{ name := some "Job", values := [{ name := "JOB_NEW", number := 1 }] }, prefixedZero]

/-- A failed assignment is not undone: with prefixes dropped, the first enum gets its catalog before
the second one fails, and from then on the two answer with catalogs of different assignments. -/
theorem assignCatalogs_not_undone :
    assignCatalogs true jobAndPrefixedZero =
      (jobAndPrefixedZero.map (assigned true), .ok ()) ∧
    (assignCatalogs false (jobAndPrefixedZero.map (assigned true))).2 =
      .error { enum := "E", name := "UNSPECIFIED$" } ∧
    (assignCatalogs false (jobAndPrefixedZero.map (assigned true))).1.map (·.catalog) =
      [some [{ name := "UNSPECIFIED$", number := 0 }, { name := "NEW", number := 1 }],
       some [{ name := "UNSPECIFIED$", number := 0 }, { name := "E_UNSPECIFIED$", number := 1 }]] ∧
    jobAndPrefixedZero.map (fun d => (assigned true d).catalog) =
      [some [{ name := "UNSPECIFIED$", number := 0 }, { name := "JOB_NEW", number := 1 }],
       some [{ name := "UNSPECIFIED$", number := 0 }, { name := "E_UNSPECIFIED$", number := 1 }]] := by
  decide +kernel

theorem assignCatalogs_partial_prefixedZero :
    (∃ before d after, jobAndPrefixedZero = before ++ d :: after ∧
      Catalog.build d = .error { enum := "E", name := "UNSPECIFIED$" } ∧
      (∀ b ∈ before, ∃ c, Catalog.build b = .ok c) ∧
      (assignCatalogs false jobAndPrefixedZero).1 = before.map (assigned false) ++ d :: after) ∧
    List.Forall₂ (fun d d' => ∃ c, Catalog.build d true = .ok c ∧ d' = { d with catalog := some c })
      jobAndPrefixedZero (assignCatalogs true jobAndPrefixedZero).1 ∧
    ∃ d', (afterAssignments jobAndPrefixedZero [true, false])[1]? = some d' ∧
      Answers jobAndPrefixedZero 1 [true, false] prefixedZero d'.currentCatalog := by
  obtain ⟨hfailed, -, hanswers⟩ := assignCatalogs_partial false jobAndPrefixedZero
  obtain ⟨-, hdone, -⟩ := assignCatalogs_partial true jobAndPrefixedZero
  exact ⟨hfailed _ (by decide +kernel), hdone (by decide +kernel), hanswers _ _ _ rfl⟩

end SchemaEnums.EnumDescriptor
