import SchemaEnums.Proofs.Descriptor.Outline

namespace SchemaEnums.Schema

open Source

/-- An enum in a schema: the package that was stated last in front of it, the messages around it, the
outermost first, and its block. -/
structure LocatedEnum where
  package : Option String
  parents : List String
  span : Span
  head : Head
  items : List (Item Int)

namespace LocatedEnum

def block (e : LocatedEnum) : Item Int :=
  .block e.span e.head e.items

def values (e : LocatedEnum) : List ValueItem :=
  e.items.filterMap Item.value?

/-- The assignments of the option statements in the body. -/
def options (e : LocatedEnum) : List (Assignment Int) :=
  e.items.filterMap Item.option?

/-- The full name of the enum: its package, the messages around it and its own name. -/
def fullName (e : LocatedEnum) : String :=
  ".".intercalate ((Text.filled? e.package).toList ++ e.parents ++
    [(Text.filled? (some e.head.name)).getD EnumDescriptor.anonymous])

end LocatedEnum

/-- The descriptor of an enum. -/
def Origin.describe (o : Origin) (e : LocatedEnum) : EnumDescriptor :=
  o.enum e.package e.parents e.span e.head e.items

/-- The elements of a list, each with the one behind it. -/
def withNext {α : Type} : List α → List (α × Option α)
  | [] => []
  | x :: xs => (x, xs.head?) :: withNext xs

mutual

/-- The enums in an item, however deep. -/
def Item.located (package : Option String) (parents : List String) : Item Int → List LocatedEnum
  | .statement _ _ => []
  | .block span head items =>
    match head.kind with
    | .enum => [{ package, parents, span, head, items }]
    | .message => locatedIn package (parents ++ [head.name]) items
    | .oneof => []

/-- The enums in the items of a message; `parents` are the messages around them. -/
def locatedIn (package : Option String) (parents : List String) : List (Item Int) → List LocatedEnum
  | [] => []
  | item :: items => item.located package parents ++ locatedIn package parents items

end

/-- The enums in the items behind the package statement `package`. -/
def locatedAfter (package : Option String) : List (Item Int) → List LocatedEnum
  | [] => []
  | .statement _ (.package name) :: items => locatedAfter (some name.text) items
  | item :: items => item.located package [] ++ locatedAfter package items

/-- The item is the other one, or stands in it at any depth. -/
inductive Item.Within {ν : Type} (x : Item ν) : Item ν → Prop
  | self : Item.Within x x
  | inner {span : Span} {head : Head} {items : List (Item ν)} {item : Item ν} (hmem : item ∈ items)
      (h : Item.Within x item) : Item.Within x (.block span head items)

section

variable {o : Origin} {package : Option String} {e : LocatedEnum}

theorem map_fst_withNext {α : Type} (xs : List α) : (withNext xs).map Prod.fst = xs := by
  induction xs with
  | nil => rfl
  | cons x xs ih => rw [withNext, List.map_cons, ih]

theorem mem_of_mem_withNext {α : Type} {x : α} {y : Option α} {xs : List α} (h : (x, y) ∈ withNext xs) :
    x ∈ xs ∧ ∀ z ∈ y, z ∈ xs := by
  induction xs with
  | nil => cases h
  | cons a xs ih =>
    rw [withNext] at h
    rcases List.mem_cons.1 h with heq | h
    · cases heq
      exact ⟨List.mem_cons_self, fun z hz => List.mem_cons_of_mem _ (List.mem_of_head? hz)⟩
    · obtain ⟨hx, hy⟩ := ih h
      exact ⟨List.mem_cons_of_mem a hx, fun z hz => List.mem_cons_of_mem a (hy z hz)⟩

theorem values_eq_map (o : Origin) (vs : List ValueItem) :
    o.values vs = (withNext vs).map fun v => o.value v.1 v.2 := by
  induction vs with
  | nil => rfl
  | cons v vs ih => rw [Origin.values, withNext, List.map_cons, ih]

theorem values_describe (o : Origin) (e : LocatedEnum) :
    (o.describe e).values = (withNext e.values).map fun v => o.value v.1 v.2 :=
  values_eq_map o e.values

mutual

theorem enumsOfItem_eq_map (o : Origin) (package : Option String) : (item : Item Int) →
    (parents : List String) →
    o.enumsOfItem package parents item = (item.located package parents).map o.describe
  | .statement span s, parents => by
    rw [Origin.enumsOfItem, Item.located, List.map_nil]
  | .block span head items, parents => by
    rw [Origin.enumsOfItem, Item.located]
    cases head.kind with
    | enum => rfl
    | message => exact enumsOfItems_eq_map o package items (parents ++ [head.name])
    | oneof => rfl

theorem enumsOfItems_eq_map (o : Origin) (package : Option String) : (items : List (Item Int)) →
    (parents : List String) →
    o.enumsOfItems package parents items = (locatedIn package parents items).map o.describe
  | [], parents => by
    rw [Origin.enumsOfItems, locatedIn, List.map_nil]
  | item :: items, parents => by
    rw [Origin.enumsOfItems, locatedIn, List.map_append, enumsOfItem_eq_map o package item parents,
      enumsOfItems_eq_map o package items parents]

end

theorem enumsAfter_eq_map (o : Origin) (package : Option String) (items : List (Item Int)) :
    o.enumsAfter package items = (locatedAfter package items).map o.describe := by
  fun_induction locatedAfter package items with
  | case1 => rfl
  | case2 package span name items ih => exact ih
  | case3 package item items hitem ih =>
    rw [Origin.enumsAfter, List.map_append, enumsOfItem_eq_map, ih]
    exact hitem

mutual

theorem enumNodes_ofItem (package : Option String) : {b : Option BlockKind} → (item : Item Int) →
    item.StandsIn b → (parents : List String) →
    (Outline.ofItem item).enumNodes parents =
      (item.located package parents).map fun e => (e.parents, Outline.ofItem e.block)
  | b, .statement span s, _, parents => by
    rw [Outline.ofItem, Outline.noEnums_ofStatement, Item.located, List.map_nil]
  | b, .block span head items, hstands, parents => by
    cases hstands with
    | block _ hinner =>
    cases hkind : head.kind with
    | message =>
      rw [Outline.enumNodes_message hkind, Item.located, hkind]
      exact enumNodesOf_ofItems package items hinner (parents ++ [head.name])
    | oneof =>
      rw [hkind] at hinner
      rw [Outline.noEnums_oneof hkind hinner, Item.located, hkind]
      rfl
    | enum =>
      rw [hkind] at hinner
      rw [Outline.enumNodes_enum hkind hinner, Item.located, hkind]
      rfl

theorem enumNodesOf_ofItems (package : Option String) : {b : Option BlockKind} →
    (items : List (Item Int)) → (∀ item ∈ items, item.StandsIn b) → (parents : List String) →
    Outline.enumNodesOf parents (Outline.ofItems items) =
      (locatedIn package parents items).map fun e => (e.parents, Outline.ofItem e.block)
  | b, [], _, parents => by
    rw [Outline.ofItems, Outline.enumNodesOf, locatedIn, List.map_nil]
  | b, item :: items, hstands, parents => by
    obtain ⟨hfirst, hrest⟩ := List.forall_mem_cons.1 hstands
    rw [Outline.ofItems, Outline.enumNodesOf, locatedIn, List.map_append,
      enumNodes_ofItem package item hfirst parents, enumNodesOf_ofItems package items hrest parents]

end

theorem enumNodesOf_ofItems_after (package : Option String) {items : List (Item Int)}
    (hstands : ∀ item ∈ items, item.StandsIn none) :
    Outline.enumNodesOf [] (Outline.ofItems items) =
      (locatedAfter package items).map fun e => (e.parents, Outline.ofItem e.block) := by
  fun_induction locatedAfter package items with
  | case1 => rw [Outline.ofItems, Outline.enumNodesOf, List.map_nil]
  | case2 package span name items ih =>
    obtain ⟨-, hrest⟩ := List.forall_mem_cons.1 hstands
    rw [Outline.ofItems, Outline.enumNodesOf, Outline.ofItem, Outline.noEnums_ofStatement, ih hrest,
      List.nil_append]
  | case3 package item items hitem ih =>
    obtain ⟨hfirst, hrest⟩ := List.forall_mem_cons.1 hstands
    rw [Outline.ofItems, Outline.enumNodesOf, List.map_append, enumNodes_ofItem package item hfirst,
      ih hrest]

mutual

theorem within_of_mem_located : (item : Item Int) → {parents : List String} →
    e ∈ item.located package parents → e.head.kind = .enum ∧ e.block.Within item
  | .statement span s, parents, he => by
    rw [Item.located] at he
    cases he
  | .block span head items, parents, he => by
    rw [Item.located] at he
    cases hkind : head.kind with
    | enum =>
      rw [hkind] at he
      rw [List.mem_singleton.1 he]
      exact ⟨hkind, .self⟩
    | message =>
      rw [hkind] at he
      obtain ⟨henum, item, hitem, hwithin⟩ := within_of_mem_locatedIn items he
      exact ⟨henum, .inner hitem hwithin⟩
    | oneof =>
      rw [hkind] at he
      cases he

theorem within_of_mem_locatedIn : (items : List (Item Int)) → {parents : List String} →
    e ∈ locatedIn package parents items → e.head.kind = .enum ∧ ∃ item ∈ items, e.block.Within item
  | [], parents, he => by
    rw [locatedIn] at he
    cases he
  | item :: items, parents, he => by
    rw [locatedIn] at he
    rcases List.mem_append.1 he with he | he
    · obtain ⟨henum, hwithin⟩ := within_of_mem_located item he
      exact ⟨henum, item, List.mem_cons_self, hwithin⟩
    · obtain ⟨henum, inner, hinner, hwithin⟩ := within_of_mem_locatedIn items he
      exact ⟨henum, inner, List.mem_cons_of_mem item hinner, hwithin⟩

end

/-- Every enum that is found is an enum, and stands in one of the items. -/
theorem within_of_mem_locatedAfter {items : List (Item Int)} (he : e ∈ locatedAfter package items) :
    e.head.kind = .enum ∧ ∃ item ∈ items, e.block.Within item := by
  fun_induction locatedAfter package items with
  | case1 => cases he
  | case2 package span name items ih =>
    obtain ⟨henum, inner, hinner, hwithin⟩ := ih he
    exact ⟨henum, inner, List.mem_cons_of_mem _ hinner, hwithin⟩
  | case3 package item items hitem ih =>
    rcases List.mem_append.1 he with he | he
    · obtain ⟨henum, hwithin⟩ := within_of_mem_located item he
      exact ⟨henum, item, List.mem_cons_self, hwithin⟩
    · obtain ⟨henum, inner, hinner, hwithin⟩ := ih he
      exact ⟨henum, inner, List.mem_cons_of_mem item hinner, hwithin⟩

/-- What passes from blocks to the items in them passes to all items within. -/
theorem Item.Within.of_inner {ν : Type} {P : Item ν → Prop} {x item : Item ν} (hx : x.Within item)
    (hinner : ∀ span head items, P (.block span head items) → ∀ i ∈ items, P i) (h : P item) : P x := by
  induction hx with
  | self => exact h
  | inner hmem _ ih => exact ih (hinner _ _ _ h _ hmem)

theorem Item.Placed.of_within {ν : Type} {m : Landmarks} {x item : Item ν} (h : item.Placed m)
    (hx : x.Within item) : x.Placed m := by
  refine hx.of_inner (fun span head items hblock => ?_) h
  cases hblock with
  | block _ _ _ _ _ _ _ hitems => exact hitems

end

end SchemaEnums.Schema

namespace SchemaEnums

open Schema

/-- The enums of a schema in the order of the text. -/
def Schema.locatedEnums (s : Schema Int) : List LocatedEnum :=
  locatedAfter none s.items

/-- The descriptors of a schema describe its enums one by one. -/
theorem FileDescriptor.enums_eq_map_describe (file : Option String) (source : List Char) (s : Schema Int) :
    (ofSchema file source s).enums =
      s.locatedEnums.map (Origin.describe { file, source, comments := s.comments }) :=
  enumsAfter_eq_map _ none s.items

/-- The enums that are found in a schema are those that its outline has, at any depth. -/
theorem Schema.enumNodes_outline {text : String} {s : Schema Int} (h : parse text = .ok s) :
    (outline s).enumNodes [] =
      s.locatedEnums.map fun e => (e.parents, Outline.ofItem e.block) := by
  rw [outline, Outline.rule, Outline.enumNodes, if_neg (by decide), if_neg (by decide)]
  exact enumNodesOf_ofItems_after none (standsIn_of_parse h)

end SchemaEnums
