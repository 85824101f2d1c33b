import Mathlib.Data.List.Find
import Mathlib.Data.List.Nodup
import SchemaEnums.TypeScript.Scope

namespace SchemaEnums.TypeScript

namespace Scope

variable {s : Scope} {base name : String} {owner other : Nat}

theorem contains_iff : s.contains name = true ↔ name ∈ s.declared.map (·.name) := by
  simp [contains]

/-- All candidates for a base are different. -/
theorem candidate_inj {i j : Nat} (h : candidate base i = candidate base j) : i = j := by
  have hne (k : Nat) : base ≠ base ++ "$" ++ (k + 1).repr := by
    intro heq
    have hlength := congrArg String.length heq
    simp only [String.length_append] at hlength
    have hdollar : "$".length = 1 := rfl
    omega
  cases i with
  | zero =>
    cases j with
    | zero => rfl
    | succ j => exact absurd h (hne j)
  | succ i =>
    cases j with
    | zero => exact absurd h.symm (hne i)
    | succ j =>
      have hdigits := congrArg String.toList ((String.append_right_inj _).1 h)
      rw [Nat.toList_repr, Nat.toList_repr] at hdigits
      have hvalue := congrArg (fun cs => Nat.ofDigitChars 10 cs 0) hdigits
      simpa [Nat.ofDigitChars_ten_toDigits] using hvalue

/-- One of the first candidates is free, because there is one more of them than the scope has
names. -/
theorem exists_free (s : Scope) (base : String) :
    ∃ n ≤ s.size, s.contains (candidate base n) = false := by
  by_contra hnone
  have hall : ∀ n ≤ s.size, candidate base n ∈ s.declared.map (·.name) := by
    intro n hn
    by_contra hmem
    exact hnone ⟨n, hn, Bool.eq_false_iff.2 fun h => hmem (contains_iff.1 h)⟩
  have hnodup : ((List.range (s.size + 1)).map (candidate base)).Nodup :=
    List.pairwise_map.2 (List.nodup_range.imp fun hne heq => hne (candidate_inj heq))
  have hsubset : (List.range (s.size + 1)).map (candidate base) ⊆ s.declared.map (·.name) := by
    intro c hc
    obtain ⟨n, hn, rfl⟩ := List.mem_map.1 hc
    exact hall n (Nat.le_of_lt_succ (List.mem_range.1 hn))
  have hlength := hnodup.length_le_of_subset hsubset
  simp only [List.length_map, List.length_range, size] at hlength
  omega

/-- Where a candidate within the bound is free, the search ends with the first one that is. -/
theorem freeFrom_spec {count bound n : Nat} (hcount : count ≤ n) (hbound : n ≤ count + bound)
    (hfree : s.contains (candidate base n) = false) :
    ∃ k, count ≤ k ∧ k ≤ n ∧ s.freeFrom base count bound = candidate base k ∧
      s.contains (candidate base k) = false ∧
      ∀ j, count ≤ j → j < k → s.contains (candidate base j) = true := by
  induction bound generalizing count with
  | zero =>
    obtain rfl : n = count := by omega
    exact ⟨n, Nat.le_refl _, Nat.le_refl _, rfl, hfree, fun j hj hlt => by omega⟩
  | succ bound ih =>
    rw [freeFrom]
    by_cases htaken : s.contains (candidate base count) = true
    · have hne : count ≠ n := by
        rintro rfl
        rw [hfree] at htaken
        cases htaken
      obtain ⟨k, hk, hkn, hfound, hkfree, hbefore⟩ := @ih (count + 1) (by omega) (by omega)
      rw [if_pos htaken]
      refine ⟨k, by omega, hkn, hfound, hkfree, fun j hj hlt => ?_⟩
      by_cases hjcount : j = count
      · rw [hjcount]
        exact htaken
      · exact hbefore j (by omega) hlt
    · rw [if_neg htaken]
      exact ⟨count, Nat.le_refl _, hcount, rfl, Bool.eq_false_iff.2 htaken,
        fun j hj hlt => by omega⟩

/-- The candidate at the count `n` is free, and all candidates before it are taken. -/
structure IsFirstFree (s : Scope) (base : String) (n : Nat) : Prop where
  free : s.contains (candidate base n) = false
  taken : ∀ k < n, s.contains (candidate base k) = true

theorem IsFirstFree.unique {n m : Nat} (h : s.IsFirstFree base n) (h' : s.IsFirstFree base m) :
    n = m := by
  rcases Nat.lt_trichotomy n m with hlt | heq | hlt
  · have htaken := h'.taken n hlt
    rw [h.free] at htaken
    cases htaken
  · exact heq
  · have htaken := h.taken m hlt
    rw [h'.free] at htaken
    cases htaken

/-- The name that is found is the first candidate that the scope does not have. -/
theorem freeName_spec (s : Scope) (base : String) :
    ∃ n ≤ s.size, s.freeName base = candidate base n ∧ s.IsFirstFree base n := by
  obtain ⟨m, hm, hfree⟩ := s.exists_free base
  obtain ⟨n, -, hnm, hfound, hnfree, hbefore⟩ := freeFrom_spec (Nat.zero_le m) (by simpa using hm) hfree
  exact ⟨n, by omega, hfound, hnfree, fun k hk => hbefore k (Nat.zero_le k) hk⟩

theorem IsFirstFree.freeName_eq {n : Nat} (h : s.IsFirstFree base n) :
    s.freeName base = candidate base n := by
  obtain ⟨m, -, hfound, hfirst⟩ := s.freeName_spec base
  rw [hfound, h.unique hfirst]

theorem contains_freeName (s : Scope) (base : String) : s.contains (s.freeName base) = false := by
  obtain ⟨n, -, hfound, hfirst⟩ := s.freeName_spec base
  rw [hfound]
  exact hfirst.free

theorem mem_of_name? (h : s.name? owner = some name) : { name, owner } ∈ s.declared := by
  obtain ⟨d, hfind, rfl⟩ := Option.map_eq_some_iff.1 h
  have howner : d.owner = owner := by simpa using List.find?_some hfind
  rw [← howner]
  exact List.mem_of_find?_eq_some hfind

/-- Two enums never have the same name. -/
theorem owner_unique (h : s.name? owner = some name) (h' : s.name? other = some name) :
    owner = other := by
  have heq := List.inj_on_of_nodup_map s.nodup_names (mem_of_name? h) (mem_of_name? h') rfl
  exact congrArg Declared.owner heq

/-- Every name that is declared is found with its owner, as no name occurs twice. -/
theorem owner?_eq_some_iff : s.owner? name = some owner ↔ { name, owner } ∈ s.declared := by
  constructor
  · intro h
    obtain ⟨d, hfind, rfl⟩ := Option.map_eq_some_iff.1 h
    have hname : d.name = name := by simpa using List.find?_some hfind
    rw [← hname]
    exact List.mem_of_find?_eq_some hfind
  · intro hmem
    have hcontains : s.contains name = true := contains_iff.2 (List.mem_map_of_mem hmem)
    rw [contains_eq_isSome_owner?, Option.isSome_iff_exists] at hcontains
    obtain ⟨other, hother⟩ := hcontains
    obtain ⟨d, hfind, rfl⟩ := Option.map_eq_some_iff.1 hother
    have hname : d.name = name := by simpa using List.find?_some hfind
    have heq := List.inj_on_of_nodup_map s.nodup_names (List.mem_of_find?_eq_some hfind) hmem hname
    rw [hother, heq]

/-- The current name of an enum belongs to it. -/
theorem owner?_of_name? (h : s.name? owner = some name) : s.owner? name = some owner :=
  owner?_eq_some_iff.2 (mem_of_name? h)

theorem owner?_freeName (s : Scope) (base : String) : s.owner? (s.freeName base) = none := by
  have hfree := s.contains_freeName base
  rwa [contains_eq_isSome_owner?, Option.isSome_eq_false_iff, Option.isNone_iff_eq_none] at hfree

/-- A name that another enum does not have can be given away without a change for that enum. -/
theorem name?_insert_of_owner?_ne (howner : s.owner? name ≠ some other) (hne : other ≠ owner) :
    (s.insert name owner).name? other = s.name? other := by
  have hfirst : (owner == other) = false := beq_eq_false_iff_ne.2 (Ne.symm hne)
  have hrest : ∀ d ∈ s.declared,
      decide ((d.name != name) = true ∧ (d.owner == other) = true) = (d.owner == other) := by
    intro d hd
    by_cases hother : d.owner = other
    · have hname : d.name ≠ name := by
        rintro rfl
        exact howner (owner?_eq_some_iff.2 (hother ▸ hd))
      simp [hother, hname]
    · simp [hother]
  simp only [name?, insert, List.find?_cons, hfirst, List.find?_filter, List.find?_congr hrest]

/-- A free name can be given to an enum without a change for the others. -/
theorem name?_insert_of_ne (hfree : s.contains name = false) (hne : other ≠ owner) :
    (s.insert name owner).name? other = s.name? other := by
  refine name?_insert_of_owner?_ne (fun howner => ?_) hne
  rw [contains_eq_isSome_owner?, howner] at hfree
  cases hfree

/-- Giving a name adds it to the names of the scope. -/
theorem contains_insert :
    (s.insert name owner).contains base = true ↔ base = name ∨ s.contains base = true := by
  simp only [contains_eq_isSome_owner?, owner?_insert]
  by_cases h : base = name <;> simp [h]

/-- A free name is one name more. -/
theorem size_insert_of_free (hfree : s.contains name = false) :
    (s.insert name owner).size = s.size + 1 := by
  have hkept : s.declared.filter (fun d => d.name != name) = s.declared := by
    rw [List.filter_eq_self]
    intro d hd
    rw [bne_iff_ne]
    rintro rfl
    have htaken : s.contains d.name = true := contains_iff.2 (List.mem_map_of_mem hd)
    rw [hfree] at htaken
    cases htaken
  rw [size, insert, List.length_cons, hkept, size]

/-- A name can be declared unless another enum has it. -/
theorem declare_eq_ok_iff {s' : Scope} : s.declare name owner = .ok s' ↔
    (∀ other, s.owner? name = some other → other = owner) ∧ s' = s.insert name owner := by
  unfold declare
  cases howner : s.owner? name with
  | none => simp [eq_comm]
  | some other =>
    by_cases h : other = owner
    · simp [h, eq_comm]
    · simp [h]

/-- A free name can be declared. -/
theorem declare_freeName (s : Scope) (base : String) (owner : Nat) :
    s.declare (s.freeName base) owner = .ok (s.insert (s.freeName base) owner) := by
  rw [declare_eq_ok_iff, s.owner?_freeName]
  simp

/-- A declaration changes the owner of one name and the current name of one enum, as if both were kept
in tables of their own. -/
theorem lookups_of_declare {s' : Scope} (h : s.declare name owner = .ok s') :
    (∀ n, s'.owner? n = if n = name then some owner else s.owner? n) ∧
      ∀ id, s'.name? id = if id = owner then some name else s.name? id := by
  obtain ⟨howner, rfl⟩ := declare_eq_ok_iff.1 h
  refine ⟨fun n => s.owner?_insert name n owner, fun id => ?_⟩
  split
  next heq => rw [heq, name?_insert_self]
  next hne => exact name?_insert_of_owner?_ne (fun hid => hne (howner id hid)) hne

/-- All names stay with their owners, and all enums but those that may be `renamed` keep their current
names. -/
structure Keeps (renamed : Nat → Prop) (s s' : Scope) : Prop where
  owner? : ∀ {name id}, s.owner? name = some id → s'.owner? name = some id
  name? : ∀ {name id}, s.name? id = some name → ¬ renamed id → s'.name? id = some name

namespace Keeps

variable {renamed renamed' : Nat → Prop} {s' s'' : Scope}

theorem refl (renamed : Nat → Prop) (s : Scope) : s.Keeps renamed s :=
  ⟨id, fun h _ => h⟩

theorem trans (h : s.Keeps renamed s') (h' : s'.Keeps renamed s'') : s.Keeps renamed s'' :=
  ⟨fun howner => h'.owner? (h.owner? howner), fun hname hid => h'.name? (h.name? hname hid) hid⟩

theorem mono (h : s.Keeps renamed s') (hle : ∀ id, renamed id → renamed' id) :
    s.Keeps renamed' s' :=
  ⟨h.owner?, fun hname hid => h.name? hname fun hrenamed => hid (hle _ hrenamed)⟩

/-- What is declared for an enum is kept from all others. -/
theorem declare (h : s.declare name owner = .ok s') : s.Keeps (· = owner) s' := by
  obtain ⟨howners, hnames⟩ := lookups_of_declare h
  obtain ⟨howner, -⟩ := declare_eq_ok_iff.1 h
  constructor
  · intro n id hid
    rw [howners]
    split
    next heq => rw [howner id (heq ▸ hid)]
    next => exact hid
  · intro n id hname hne
    rw [hnames, if_neg hne]
    exact hname

end Keeps

end Scope

end SchemaEnums.TypeScript
