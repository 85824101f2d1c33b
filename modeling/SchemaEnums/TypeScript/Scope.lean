namespace SchemaEnums.TypeScript

structure Declared where
  name : String
  owner : Nat
deriving DecidableEq, Repr

/-- The names of a file, the latest first. No name occurs twice. An enum may have several names; the
one it was given last is its current one. Enums are told apart by numbers. -/
structure Scope where
  declared : List Declared := []
  nodup_names : (declared.map (·.name)).Nodup := by simp
deriving DecidableEq, Repr

/-- A name that another enum has already. -/
structure NameTaken where
  name : String
deriving DecidableEq, Repr

def NameTaken.message (e : NameTaken) : String :=
  s!"Name '{e.name}' is already registered in this file."

namespace Scope

def size (s : Scope) : Nat :=
  s.declared.length

def owner? (s : Scope) (name : String) : Option Nat :=
  (s.declared.find? fun d => d.name == name).map (·.owner)

def contains (s : Scope) (name : String) : Bool :=
  s.declared.any fun d => d.name == name

def name? (s : Scope) (owner : Nat) : Option String :=
  (s.declared.find? fun d => d.owner == owner).map (·.name)

/-- The scope with the name given to the enum, whoever had it before. -/
def insert (s : Scope) (name : String) (owner : Nat) : Scope :=
  { declared := { name, owner } :: s.declared.filter fun d => d.name != name
    nodup_names := by
      rw [List.map_cons, List.nodup_cons]
      constructor
      · simp
      · exact s.nodup_names.sublist (List.filter_sublist.map _) }

/-- Gives the name to the enum, unless another enum has it. -/
def declare (s : Scope) (name : String) (owner : Nat) : Except NameTaken Scope :=
  match s.owner? name with
  | some other => if other = owner then .ok (s.insert name owner) else .error { name }
  | none => .ok (s.insert name owner)

/-- The name that is tried at the count: the base itself, and then the base with the count. -/
def candidate (base : String) : Nat → String
  | 0 => base
  | count + 1 => base ++ "$" ++ (count + 1).repr

/-- The first candidate that is free, from the count on; `bound` limits the search. -/
def freeFrom (s : Scope) (base : String) (count : Nat) : (bound : Nat) → String
  | 0 => candidate base count
  | bound + 1 =>
    if s.contains (candidate base count) then s.freeFrom base (count + 1) bound
    else candidate base count

/-- The first candidate that the scope does not hold. One of the first candidates is free, as there
is one more of them than the scope has names. -/
def freeName (s : Scope) (base : String) : String :=
  s.freeFrom base 0 s.size

theorem contains_eq_isSome_owner? (s : Scope) (name : String) :
    s.contains name = (s.owner? name).isSome := by
  rw [contains, owner?, Option.isSome_map, Bool.eq_iff_iff, List.find?_isSome, List.any_eq_true]

theorem find?_name_filter {name other : String} (h : other ≠ name) (ds : List Declared) :
    ((ds.filter fun d => d.name != name).find? fun d => d.name == other) =
      ds.find? fun d => d.name == other := by
  induction ds with
  | nil => rfl
  | cons d ds ih =>
    by_cases hd : d.name = name
    · have hne : (d.name == other) = false := by
        rw [hd]
        exact beq_eq_false_iff_ne.2 (Ne.symm h)
      rw [List.filter_cons_of_neg (by simp [hd]), List.find?_cons, hne, ih]
    · rw [List.filter_cons_of_pos (by simpa using hd), List.find?_cons, List.find?_cons, ih]

/-- Giving a name changes the owner of that name only. -/
theorem owner?_insert (s : Scope) (name other : String) (owner : Nat) :
    (s.insert name owner).owner? other = if other = name then some owner else s.owner? other := by
  rw [owner?, insert, List.find?_cons]
  by_cases h : other = name
  · simp [h]
  · have hne : (name == other) = false := beq_eq_false_iff_ne.2 (Ne.symm h)
    rw [if_neg h, hne, owner?, find?_name_filter h]

@[simp] theorem name?_insert_self (s : Scope) (name : String) (owner : Nat) :
    (s.insert name owner).name? owner = some name := by
  simp [name?, insert]

end Scope

end SchemaEnums.TypeScript
