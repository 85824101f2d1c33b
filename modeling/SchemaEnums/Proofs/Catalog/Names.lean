import Mathlib.Data.List.Duplicate
import Mathlib.Data.List.Nodup
import SchemaEnums.Catalog.Build

namespace SchemaEnums.Catalog

section

variable {d : EnumDescriptor} {keepPrefix : Bool} {v : ValueDescriptor} {name : String}

/-- A prefix that is shared can be cut off the name of each value. -/
theorem exists_remainder {start : List Char} (h : d.sharedPrefixChars? = some start)
    (hv : v ∈ d.values) :
    ∃ rest, v.name.toList = start ++ rest ∧ SharedPrefix.isRemainder rest = true := by
  unfold EnumDescriptor.sharedPrefixChars? at h
  cases hname : Text.filled? d.name with
  | none =>
    rw [hname] at h
    cases h
  | some name =>
    simp only [hname, Option.ite_none_right_eq_some, Option.some.injEq] at h
    obtain ⟨hall, rfl⟩ := h
    have hfits := List.all_eq_true.1 (Bool.and_eq_true_iff.1 hall).2 v hv
    unfold SharedPrefix.fits at hfits
    split at hfits
    next rest hrest =>
      exact ⟨rest, (List.isPrefixOf?_eq_some_iff_append_eq.1 hrest).symm, hfits⟩
    next => cases hfits

/-- What is cut off the names of an enum stands in front of each of them, and either it is nothing or
what is left is long enough. -/
theorem droppedPrefix_spec (keepPrefix : Bool) (hv : v ∈ d.values) :
    ∃ rest, v.name.toList = droppedPrefix d keepPrefix ++ rest ∧
      (droppedPrefix d keepPrefix = [] ∨ SharedPrefix.isRemainder rest = true) := by
  unfold droppedPrefix
  cases keepPrefix with
  | true => exact ⟨v.name.toList, rfl, .inl rfl⟩
  | false =>
    cases hshared : d.sharedPrefixChars? with
    | none => exact ⟨v.name.toList, rfl, .inl rfl⟩
    | some start =>
      obtain ⟨rest, hname, hrest⟩ := exists_remainder hshared hv
      exact ⟨rest, hname, .inr hrest⟩

/-- The name of a value is what was cut off it and the name of its entry. -/
theorem prefix_append_entry (hv : v ∈ d.values) :
    String.ofList (droppedPrefix d keepPrefix) ++ (entry (droppedPrefix d keepPrefix) v).name =
      v.name := by
  obtain ⟨rest, hname, -⟩ := droppedPrefix_spec keepPrefix hv
  rw [← String.toList_inj, String.toList_append, entry, String.toList_ofList, String.toList_ofList,
    hname, List.drop_left]

/-- The names that the values of an enum have in its catalog. -/
def valueNames (d : EnumDescriptor) (keepPrefix : Bool) : List String :=
  d.values.map fun v => (entry (droppedPrefix d keepPrefix) v).name

/-- The names of the values are their names in the catalog behind what was cut off. -/
theorem map_append_valueNames (d : EnumDescriptor) (keepPrefix : Bool) :
    (valueNames d keepPrefix).map (String.ofList (droppedPrefix d keepPrefix) ++ ·) =
      d.values.map (·.name) := by
  rw [valueNames, List.map_map]
  exact List.map_congr_left fun v hv => prefix_append_entry hv

/-- Cutting the prefix off keeps different names different and equal names equal. -/
theorem nodup_valueNames_iff (d : EnumDescriptor) (keepPrefix : Bool) :
    (valueNames d keepPrefix).Nodup ↔ (d.values.map (·.name)).Nodup := by
  rw [← map_append_valueNames d keepPrefix,
    List.nodup_map_iff fun _ _ => (String.append_right_inj _).1]

theorem names_entries (d : EnumDescriptor) (keepPrefix : Bool) :
    (entries d keepPrefix).map (·.name) =
      (zeroEntry d.values).map (·.name) ++ valueNames d keepPrefix := by
  rw [entries, List.map_append, List.map_map]
  rfl

/-- All names of a catalog differ exactly if those of the values do and the added member has none of
them. -/
theorem nodup_names_entries_iff :
    ((entries d keepPrefix).map (·.name)).Nodup ↔
      (d.values.map (·.name)).Nodup ∧
        (zeroEntry d.values ≠ [] → zeroName ∉ valueNames d keepPrefix) := by
  rw [names_entries, ← nodup_valueNames_iff d keepPrefix]
  unfold zeroEntry
  split
  · simp
  · simp [and_comm]

/-- A catalog has an entry at least. -/
theorem entries_ne_nil (d : EnumDescriptor) (keepPrefix : Bool) : entries d keepPrefix ≠ [] := by
  intro hnil
  obtain ⟨hzero, hvalues⟩ := List.append_eq_nil_iff.1 hnil
  rw [List.map_eq_nil_iff.1 hvalues] at hzero
  cases hzero

/-- The name that is found occurs again, or before. -/
theorem duplicate_of_firstDuplicate? {seen names : List String}
    (h : firstDuplicate? seen names = some name) :
    name ∈ names ∧ (name ∈ seen ∨ List.Duplicate name names) := by
  induction names generalizing seen with
  | nil => cases h
  | cons n names ih =>
    rw [firstDuplicate?] at h
    by_cases hn : seen.contains n = true
    · rw [if_pos hn] at h
      cases h
      exact ⟨List.mem_cons_self, .inl (List.contains_iff_mem.1 hn)⟩
    · rw [if_neg hn] at h
      obtain ⟨hmem, hseen | hdup⟩ := ih h
      · refine ⟨List.mem_cons_of_mem n hmem, ?_⟩
        obtain rfl | hseen := List.mem_cons.1 hseen
        · exact .inr hmem.duplicate_cons_self
        · exact .inl hseen
      · exact ⟨List.mem_cons_of_mem n hmem, .inr (hdup.duplicate_cons n)⟩

theorem eq_entries_of_build {c : Catalog} (h : build d keepPrefix = .ok c) :
    c = entries d keepPrefix := by
  simp only [build] at h
  split at h <;> cases h
  rfl

/-- A catalog is built exactly where all its names differ. -/
theorem exists_build_iff :
    (∃ c, build d keepPrefix = .ok c) ↔ ((entries d keepPrefix).map (·.name)).Nodup := by
  constructor
  · rintro ⟨c, hc⟩
    have hnodup := nodup_names_of_build hc
    rwa [eq_entries_of_build hc] at hnodup
  · intro hnodup
    have hnone : firstDuplicate? [] ((entries d keepPrefix).map (·.name)) = none :=
      firstDuplicate?_eq_none_iff.2 ⟨hnodup, by simp⟩
    refine ⟨entries d keepPrefix, ?_⟩
    simp only [build, hnone]

/-- An enum without a catalog has a name that would occur in it twice. -/
theorem build_error {e : DuplicateMember} (h : build d keepPrefix = .error e) :
    e.enum = d.fullName ∧ List.Duplicate e.name ((entries d keepPrefix).map (·.name)) := by
  simp only [build] at h
  split at h
  next name hname =>
    cases h
    obtain ⟨-, hseen | hdup⟩ := duplicate_of_firstDuplicate? hname
    · cases hseen
    · exact ⟨rfl, hdup⟩
  next => cases h

end

end SchemaEnums.Catalog

namespace SchemaEnums.EnumDescriptor

variable {keepPrefix : Bool} {ds : List EnumDescriptor}

/-- The enums after catalogs were assigned to all of them. -/
theorem assignCatalogs_ok (h : (assignCatalogs keepPrefix ds).2 = .ok ()) :
    (∀ d ∈ ds, Catalog.build d keepPrefix = .ok (Catalog.entries d keepPrefix)) ∧
      (assignCatalogs keepPrefix ds).1 =
        ds.map fun d => { d with catalog := some (Catalog.entries d keepPrefix) } := by
  induction ds with
  | nil => exact ⟨by simp, rfl⟩
  | cons d ds ih =>
    unfold assignCatalogs at h ⊢
    cases hc : Catalog.build d keepPrefix with
    | error e =>
      rw [hc] at h
      cases h
    | ok c =>
      rw [hc] at h
      obtain ⟨hds, hassigned⟩ := ih h
      obtain rfl := Catalog.eq_entries_of_build hc
      refine ⟨fun e he => ?_, ?_⟩
      · obtain rfl | he := List.mem_cons.1 he
        · exact hc
        · exact hds e he
      · rw [List.map_cons, ← hassigned]

/-- Enums that were assigned catalogs have them. -/
theorem exists_currentCatalog (h : (assignCatalogs keepPrefix ds).2 = .ok ()) :
    ∀ d ∈ (assignCatalogs keepPrefix ds).1, ∃ entries, d.currentCatalog = .ok entries := by
  intro d hd
  rw [(assignCatalogs_ok h).2] at hd
  obtain ⟨e, -, rfl⟩ := List.mem_map.1 hd
  exact ⟨_, rfl⟩

/-- Where every enum has a catalog, all of them are assigned. -/
theorem assignCatalogs_eq_ok (h : ∀ d ∈ ds, ∃ c, Catalog.build d keepPrefix = .ok c) :
    (assignCatalogs keepPrefix ds).2 = .ok () := by
  induction ds with
  | nil => rfl
  | cons d ds ih =>
    obtain ⟨c, hc⟩ := h d List.mem_cons_self
    have hrest := ih fun e he => h e (List.mem_cons_of_mem d he)
    simp only [assignCatalogs, hc, hrest]

/-- Where the assignment fails it is the first enum without a catalog that makes it fail. -/
theorem assignCatalogs_error {e : DuplicateMember}
    (h : (assignCatalogs keepPrefix ds).2 = .error e) :
    ∃ before d after, ds = before ++ d :: after ∧ Catalog.build d keepPrefix = .error e ∧
      ∀ b ∈ before, ∃ c, Catalog.build b keepPrefix = .ok c := by
  induction ds with
  | nil => cases h
  | cons d ds ih =>
    unfold assignCatalogs at h
    cases hd : Catalog.build d keepPrefix with
    | error e' =>
      rw [hd] at h
      cases h
      exact ⟨[], d, ds, rfl, hd, by simp⟩
    | ok c =>
      rw [hd] at h
      obtain ⟨before, failed, after, rfl, hfailed, hbefore⟩ := ih h
      refine ⟨d :: before, failed, after, rfl, hfailed, fun b hb => ?_⟩
      obtain rfl | hb := List.mem_cons.1 hb
      · exact ⟨c, hd⟩
      · exact hbefore b hb

end SchemaEnums.EnumDescriptor
