import SchemaEnums.Proofs.Generator.Emission

namespace SchemaEnums.TypeScript

namespace Scope

/-- The search for a free name. When `name` is tried, at the count `count`, it ends with the name `found`,
at the count `last`. -/
inductive Search (s : Scope) (base : String) :
    (name : String) → (count : Nat) → (found : String) → (last : Nat) → Prop where
  | free {name : String} {count : Nat} (h : s.contains name = false) :
    s.Search base name count name count
  | taken {name found : String} {count last : Nat} (h : s.contains name = true)
    (rest : s.Search base (base ++ "$" ++ toString (count + 1)) (count + 1) found last) :
    s.Search base name count found last

variable {s : Scope} {base name found : String} {count last n : Nat}

/-- What the search ends with is free, and it has come past taken candidates only. -/
theorem Search.sound (h : s.Search base name count found last) (hname : name = candidate base count) :
    found = candidate base last ∧ count ≤ last ∧ s.contains found = false ∧
      ∀ k, count ≤ k → k < last → s.contains (candidate base k) = true := by
  induction h with
  | free hfree => exact ⟨hname, Nat.le_refl _, hfree, fun k hk hlt => by omega⟩
  | taken htaken rest ih =>
    obtain ⟨hfound, hle, hfree, hbefore⟩ := ih rfl
    refine ⟨hfound, by omega, hfree, fun k hk hlt => ?_⟩
    obtain rfl | hk := Nat.eq_or_lt_of_le hk
    · rwa [← hname]
    · exact hbefore k hk hlt

/-- The search comes to the first free candidate from every candidate in front of it. -/
theorem IsFirstFree.search (h : s.IsFirstFree base n) (hle : count ≤ n) :
    s.Search base (candidate base count) count (candidate base n) n := by
  -- From the end of the search backwards, as each step is put in front of the steps that follow it.
  induction hle using Nat.decreasingInduction with
  | self => exact .free h.free
  | of_succ k hlt ih => exact .taken (h.taken k hlt) ih

/-- The search for a base ends, and in one way only. -/
theorem IsFirstFree.search_iff (h : s.IsFirstFree base n) :
    s.Search base base 0 found last ↔ found = candidate base n ∧ last = n := by
  constructor
  · intro hsearch
    obtain ⟨rfl, -, hfree, htaken⟩ := hsearch.sound rfl
    obtain rfl := h.unique ⟨hfree, fun k hk => htaken k (Nat.zero_le k) hk⟩
    exact ⟨rfl, rfl⟩
  · rintro ⟨rfl, rfl⟩
    exact h.search (Nat.zero_le last)

end Scope

namespace OutputFile

open Scope (candidate)

/-- The search for any base ends in one way: at a count that is no greater than the number of names in
the file, with the first candidate that is free. An enum that has no name in the file can be given
this one, and is given it if the base is its own; the file then has this name more. -/
theorem nameFor_search (f : OutputFile) (id : Nat) (base : String) (hnew : f.scope.name? id = none) :
    ∃ n ≤ f.scope.size,
      (∀ found last, f.scope.Search base base 0 found last ↔ found = candidate base n ∧ last = n) ∧
      f.scope.IsFirstFree base n ∧
      ∃ scope, f.scope.declare (candidate base n) id = .ok scope ∧
        scope.size = f.scope.size + 1 ∧
        (∀ name, scope.contains name = true ↔
          name = candidate base n ∨ f.scope.contains name = true) ∧
        ∀ a d, d.codeName a = base → f.nameFor a id d = (candidate base n, { f with scope }) := by
  obtain ⟨n, hn, hfound, hfirst⟩ := f.scope.freeName_spec base
  refine ⟨n, hn, fun found last => hfirst.search_iff, hfirst,
    f.scope.insert (candidate base n) id, ?_, Scope.size_insert_of_free hfirst.free,
    fun name => Scope.contains_insert, ?_⟩
  · rw [← hfound, Scope.declare_freeName]
  · rintro a d rfl
    rw [nameFor_of_none hnew, hfound]

/-- A file whose names look like counted ones, with gaps between the counts. -/
def counted : OutputFile where
  name := "e.ts"
  scope :=
    { declared := [⟨"E$1$1", 3⟩, ⟨"E$1$3", 2⟩, ⟨"E$1", 1⟩, ⟨"E", 0⟩]
      nodup_names := by decide }

theorem nameFor_search_counted :
    counted.scope.name? 4 = none ∧
      (∀ found last, counted.scope.Search "E$1" "E$1" 0 found last ↔ found = "E$1$2" ∧ last = 2) ∧
      (counted.nameFor "" 4 { name := some "E$1", values := [] }).1 = "E$1$2" ∧
      (counted.nameFor "" 4 { name := some "E$1", values := [] }).2.scope.size = 5 := by
  have hnew : counted.scope.name? 4 = none := by decide
  obtain ⟨n, -, hsearch, hfirst, scope, -, hsize, -, hname⟩ := nameFor_search counted 4 "E$1" hnew
  have hsecond : counted.scope.IsFirstFree "E$1" 2 := ⟨by decide, by decide⟩
  obtain rfl := hfirst.unique hsecond
  rw [hname "" { name := some "E$1", values := [] } (by decide)]
  exact ⟨hnew, hsearch, rfl, hsize⟩

end OutputFile

end SchemaEnums.TypeScript
