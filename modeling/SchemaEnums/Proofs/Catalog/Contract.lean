import SchemaEnums.Proofs.Catalog.Names

namespace SchemaEnums

namespace EnumDescriptor

/-- The prefix that the names of the enum lose in its catalog, if they lose one. -/
def lostPrefix? (d : EnumDescriptor) (keepPrefix : Bool) : Option String :=
  if keepPrefix then none else d.sharedPrefix?

/-- A value has the number zero. -/
def HasZero (d : EnumDescriptor) : Prop :=
  ∃ v ∈ d.values, v.number = 0

instance (d : EnumDescriptor) : Decidable d.HasZero :=
  inferInstanceAs (Decidable (∃ v ∈ d.values, v.number = 0))

end EnumDescriptor

namespace Catalog

/-- The name of the value is `name`, or `name` behind the prefix that is lost. -/
def ShowsName : (lost : Option String) → (v : ValueDescriptor) → (name : String) → Prop
  | none, v, name => v.name = name
  | some start, v, name => v.name = start ++ name

instance : (lost : Option String) → (v : ValueDescriptor) → (name : String) →
    Decidable (ShowsName lost v name)
  | none, v, name => inferInstanceAs (Decidable (v.name = name))
  | some start, v, name => inferInstanceAs (Decidable (v.name = start ++ name))

/-- The entry has the number of the value, and its name less the prefix that is lost. -/
structure Shows (lost : Option String) (v : ValueDescriptor) (e : CatalogEntry) : Prop where
  name : ShowsName lost v e.name
  number : e.number = v.number

/-- The catalog shows the values of the enum one by one, behind a member with the number zero if no
value has it. Its names differ, and one of its entries has the number zero. -/
structure Lists (d : EnumDescriptor) (keepPrefix : Bool) (c : Catalog) : Prop where
  shows : ∃ shown, c = (if d.HasZero then [] else [{ name := zeroName, number := 0 }]) ++ shown ∧
    List.Forall₂ (Shows (d.lostPrefix? keepPrefix)) d.values shown
  nodup : (c.map (·.name)).Nodup
  zero : ∃ e ∈ c, e.number = 0

section

variable {d : EnumDescriptor} {keepPrefix : Bool} {v : ValueDescriptor} {name : String}

theorem zeroEntry_eq (d : EnumDescriptor) :
    zeroEntry d.values = if d.HasZero then [] else [{ name := zeroName, number := 0 }] := by
  unfold zeroEntry
  refine ite_congr (propext ?_) (fun _ => rfl) (fun _ => rfl)
  simp [EnumDescriptor.HasZero]

/-- What is cut off the names is the prefix that they lose. -/
theorem ofList_droppedPrefix (d : EnumDescriptor) (keepPrefix : Bool) :
    String.ofList (droppedPrefix d keepPrefix) = (d.lostPrefix? keepPrefix).getD "" := by
  unfold droppedPrefix EnumDescriptor.lostPrefix? EnumDescriptor.sharedPrefix?
  cases keepPrefix with
  | true => rfl
  | false => cases d.sharedPrefixChars? <;> rfl

theorem showsName_iff_append {lost : Option String} :
    ShowsName lost v name ↔ v.name = lost.getD "" ++ name := by
  cases lost with
  | none => simp [ShowsName]
  | some start => rfl

/-- The name that a value has in the catalog is the only one that shows it. -/
theorem showsName_iff (hv : v ∈ d.values) : ShowsName (d.lostPrefix? keepPrefix) v name ↔
    (entry (droppedPrefix d keepPrefix) v).name = name := by
  rw [showsName_iff_append, ← ofList_droppedPrefix, ← prefix_append_entry hv, String.append_right_inj]

theorem shows_iff {e : CatalogEntry} (hv : v ∈ d.values) :
    Shows (d.lostPrefix? keepPrefix) v e ↔ e = entry (droppedPrefix d keepPrefix) v := by
  constructor
  · rintro ⟨hname, hnumber⟩
    rw [showsName_iff hv] at hname
    rw [← CatalogEntry.toPair_inj, CatalogEntry.toPair, CatalogEntry.toPair, hname, hnumber]
    rfl
  · rintro rfl
    exact ⟨(showsName_iff hv).2 rfl, rfl⟩

/-- The entries that show the values one by one are those of the catalog. -/
theorem forall₂_shows_iff {shown : Catalog} :
    List.Forall₂ (Shows (d.lostPrefix? keepPrefix)) d.values shown ↔
      shown = d.values.map (entry (droppedPrefix d keepPrefix)) := by
  suffices hall : ∀ vs ⊆ d.values, ∀ shown, List.Forall₂ (Shows (d.lostPrefix? keepPrefix)) vs shown ↔
      shown = vs.map (entry (droppedPrefix d keepPrefix)) from
    hall d.values (List.Subset.refl _) shown
  intro vs hvs
  induction vs with
  | nil => simp
  | cons v vs ih =>
    obtain ⟨hv, hvs⟩ := List.cons_subset.1 hvs
    intro shown
    rw [List.forall₂_cons_left_iff, List.map_cons]
    constructor
    · rintro ⟨e, es, he, hes, rfl⟩
      rw [(shows_iff hv).1 he, (ih hvs es).1 hes]
    · rintro rfl
      exact ⟨_, _, (shows_iff hv).2 rfl, (ih hvs _).2 rfl, rfl⟩

/-- An entry has the number zero, whether it is added or shows a value. -/
theorem exists_zero_entries (d : EnumDescriptor) (keepPrefix : Bool) :
    ∃ e ∈ entries d keepPrefix, e.number = 0 := by
  rw [entries, zeroEntry_eq]
  by_cases hzero : d.HasZero
  · obtain ⟨v, hv, hnumber⟩ := hzero
    exact ⟨_, List.mem_append_right _ (List.mem_map_of_mem hv), hnumber⟩
  · rw [if_neg hzero]
    exact ⟨_, List.mem_cons_self, rfl⟩

theorem lists_iff {c : Catalog} :
    Lists d keepPrefix c ↔ c = entries d keepPrefix ∧ (c.map (·.name)).Nodup := by
  constructor
  · rintro ⟨⟨shown, rfl, hshown⟩, hnodup, -⟩
    rw [forall₂_shows_iff] at hshown
    subst hshown
    exact ⟨by rw [entries, zeroEntry_eq], hnodup⟩
  · rintro ⟨rfl, hnodup⟩
    exact ⟨⟨_, by rw [entries, zeroEntry_eq], forall₂_shows_iff.2 rfl⟩, hnodup,
      exists_zero_entries d keepPrefix⟩

theorem build_eq_ok_iff {c : Catalog} :
    build d keepPrefix = .ok c ↔ c = entries d keepPrefix ∧ (c.map (·.name)).Nodup := by
  constructor
  · exact fun h => ⟨eq_entries_of_build h, nodup_names_of_build h⟩
  · rintro ⟨rfl, hnodup⟩
    obtain ⟨c, hc⟩ := exists_build_iff.2 hnodup
    rwa [← eq_entries_of_build hc]

theorem mem_valueNames_iff :
    name ∈ valueNames d keepPrefix ↔ ∃ v ∈ d.values, ShowsName (d.lostPrefix? keepPrefix) v name := by
  rw [valueNames, List.mem_map]
  exact exists_congr fun v => and_congr_right fun hv => (showsName_iff hv).symm

/-- A catalog is built unless two values have one name, or a member is added and a value has its
name. -/
theorem exists_build_iff_nodup : (∃ c, build d keepPrefix = .ok c) ↔
    (d.values.map (·.name)).Nodup ∧
      (¬ d.HasZero → ∀ v ∈ d.values, ¬ ShowsName (d.lostPrefix? keepPrefix) v zeroName) := by
  have hadded : zeroEntry d.values ≠ [] ↔ ¬ d.HasZero := by
    rw [zeroEntry_eq]
    by_cases hzero : d.HasZero <;> simp [hzero]
  rw [exists_build_iff, nodup_names_entries_iff, hadded, mem_valueNames_iff]
  simp only [not_exists, not_and]

theorem exists_error_iff :
    (∃ e, build d keepPrefix = .error e) ↔ ¬ ∃ c, build d keepPrefix = .ok c := by
  cases build d keepPrefix with
  | error e => simp
  | ok c => simp

/-- A catalog is built exactly if it lists the values of the enum. There is none exactly if two values
have one name, or a member is added and a value has its name in the catalog. So where no value has it,
with the prefix or without, keeping the prefix and dropping it succeed or fail together. -/
theorem build_contract (d : EnumDescriptor) :
    (∀ keepPrefix c, build d keepPrefix = .ok c ↔ Lists d keepPrefix c) ∧
    (∀ keepPrefix, (∃ e, build d keepPrefix = .error e) ↔ ¬ (d.values.map (·.name)).Nodup ∨
      ¬ d.HasZero ∧ ∃ v ∈ d.values, ShowsName (d.lostPrefix? keepPrefix) v zeroName) ∧
    ((∀ keepPrefix, ∀ v ∈ d.values, ¬ ShowsName (d.lostPrefix? keepPrefix) v zeroName) →
      ((∃ c, build d true = .ok c) ↔ ∃ c, build d false = .ok c)) := by
  refine ⟨fun keepPrefix c => build_eq_ok_iff.trans lists_iff.symm, fun keepPrefix => ?_,
    fun hnames => ?_⟩
  · rw [exists_error_iff, exists_build_iff_nodup, not_and_or]
    simp only [Classical.not_imp, not_forall, not_not]
  · have hbuilds (keepPrefix : Bool) :
        (∃ c, build d keepPrefix = .ok c) ↔ (d.values.map (·.name)).Nodup := by
      rw [exists_build_iff_nodup]
      exact and_iff_left fun _ => hnames keepPrefix
    rw [hbuilds true, hbuilds false]

end

/-- An enum whose values share a number and a prefix. -/
def sharedNumber : EnumDescriptor :=
  { name := some "MyEnum"
    values := [{ name := "MY_ENUM_RED", number := 1 }, { name := "MY_ENUM_CRIMSON", number := 1 }] }

theorem build_contract_sharedNumber :
    Lists sharedNumber false [{ name := zeroName, number := 0 }, { name := "RED", number := 1 },
      { name := "CRIMSON", number := 1 }] ∧
    ((∃ c, build sharedNumber true = .ok c) ↔ ∃ c, build sharedNumber false = .ok c) := by
  obtain ⟨hlists, -, hsame⟩ := build_contract sharedNumber
  exact ⟨(hlists false _).1 (by decide +kernel), hsame (by decide +kernel)⟩

end Catalog

end SchemaEnums
