import SchemaEnums.Descriptor.Load
import SchemaEnums.Proofs.Schema.Parsed

namespace SchemaEnums.Schema

open Source

/-- A declaration begins at `start`. Its trailing comment stands behind `tail` and begins no later
than `bound`, if there is a bound. -/
structure Declaration where
  start : Position
  tail : Position
  bound : Option Position
deriving DecidableEq, Repr

namespace Declaration

/-- The declarations of the values of an enum. -/
def ofValues : List ValueItem → List Declaration
  | [] => []
  | v :: vs =>
    { start := v.span.start, tail := v.span.stop, bound := vs.head?.map (·.span.start) } :: ofValues vs

/-- The declarations of an enum and of its values. -/
def ofEnum (span : Span) (head : Head) (items : List (Item Int)) : List Declaration :=
  let vs := items.filterMap Item.value?
  { start := span.start
    tail := head.nameEnd
    bound := some ((vs.head?.map (·.span.start)).getD span.stop) } :: ofValues vs

mutual

/-- The declarations in an item. -/
def ofItem : Item Int → List Declaration
  | .statement _ _ => []
  | .block span head items =>
    match head.kind with
    | .enum => ofEnum span head items
    | .message => ofItems items
    | .oneof => []

/-- The declarations in a list of items, in the order of the text. -/
def ofItems : List (Item Int) → List Declaration
  | [] => []
  | item :: items => ofItem item ++ ofItems items

end

/-- The documentation of the declaration, and the line on which it begins. -/
def described (o : Origin) (d : Declaration) : Documentation × Option Nat :=
  (o.documentation d.start d.tail d.bound, some d.start.line)

end Declaration

/-- The declarations of a schema. -/
def declarations (s : Schema Int) : List Declaration :=
  Declaration.ofItems s.items

/-- What the descriptors of a schema that was read from a text have in common. -/
def origin (s : Schema Int) (file : Option String) (text : String) : Origin :=
  { file, source := text.toList, comments := s.comments }

end SchemaEnums.Schema

namespace SchemaEnums

open Source Schema

/-- The documentation and the line of an enum, and those of its values. -/
def EnumDescriptor.documented (d : EnumDescriptor) : List (Documentation × Option Nat) :=
  (d.documentation, d.line) :: d.values.map fun v => (v.documentation, v.line)

/-- The documentation and the lines of all enums of a file and of all their values. -/
def FileDescriptor.documented (f : FileDescriptor) : List (Documentation × Option Nat) :=
  f.enums.flatMap EnumDescriptor.documented

namespace Schema

variable {o : Origin}

theorem Declaration.map_described_ofValues (vs : List ValueItem) :
    (o.values vs).map (fun v => (v.documentation, v.line)) =
      (Declaration.ofValues vs).map (Declaration.described o) := by
  induction vs with
  | nil => rfl
  | cons v vs ih =>
    rw [Origin.values, List.map_cons, ih]
    rfl

theorem Declaration.documented_enum (package : Option String) (parents : List String) (span : Span)
    (head : Head) (items : List (Item Int)) :
    (o.enum package parents span head items).documented =
      (Declaration.ofEnum span head items).map (Declaration.described o) := by
  have hvalues := Declaration.map_described_ofValues (o := o) (items.filterMap Item.value?)
  unfold EnumDescriptor.documented
  rw [Declaration.ofEnum, List.map_cons, ← hvalues]
  cases hvs : items.filterMap Item.value? with
  | nil => simp [Origin.enum, Declaration.described, hvs]
  | cons v vs => simp [Origin.enum, Declaration.described, hvs]

mutual

/-- The enums of an item are documented like its declarations. -/
theorem Declaration.documented_ofItem : (item : Item Int) → (package : Option String) →
    (parents : List String) → (o.enumsOfItem package parents item).flatMap EnumDescriptor.documented =
      (Declaration.ofItem item).map (Declaration.described o)
  | .statement _ _, _, _ => by
    rw [Origin.enumsOfItem, Declaration.ofItem]
    rfl
  | .block span head items, package, parents => by
    rw [Origin.enumsOfItem, Declaration.ofItem]
    cases head.kind with
    | enum =>
      rw [List.flatMap_singleton]
      exact Declaration.documented_enum package parents span head items
    | message => exact Declaration.documented_ofItems items package (parents ++ [head.name])
    | oneof => rfl

theorem Declaration.documented_ofItems : (items : List (Item Int)) → (package : Option String) →
    (parents : List String) →
    (o.enumsOfItems package parents items).flatMap EnumDescriptor.documented =
      (Declaration.ofItems items).map (Declaration.described o)
  | [], _, _ => by
    rw [Origin.enumsOfItems, Declaration.ofItems]
    rfl
  | item :: items, package, parents => by
    rw [Origin.enumsOfItems, Declaration.ofItems, List.flatMap_append, List.map_append,
      Declaration.documented_ofItem item, Declaration.documented_ofItems items]

end

/-- Package statements change nothing about the documentation. -/
theorem Declaration.documented_enumsAfter (package : Option String) (items : List (Item Int)) :
    (o.enumsAfter package items).flatMap EnumDescriptor.documented =
      (Declaration.ofItems items).map (Declaration.described o) := by
  fun_induction Origin.enumsAfter o package items with
  | case1 =>
    rw [Declaration.ofItems]
    rfl
  | case2 package span name items ih =>
    rw [Declaration.ofItems, Declaration.ofItem]
    exact ih
  | case3 package item items hitem ih =>
    rw [Declaration.ofItems, List.flatMap_append, List.map_append, ih,
      Declaration.documented_ofItem item]

end Schema

namespace Schema

section

variable {m : Landmarks} {lo mid hi : Nat} {d e : Declaration} {ds es : List Declaration}

/-- The declaration stands between two offsets, and its places are as the landmarks say. -/
structure Declaration.Placed (m : Landmarks) (lo hi : Nat) (d : Declaration) : Prop where
  starts_start : m.starts d.start
  stops_tail : m.stops d.tail
  start_lt : d.start.offset < d.tail.offset
  le_start : lo ≤ d.start.offset
  tail_le : d.tail.offset ≤ hi
  bound_le : ∀ b ∈ d.bound, b.offset ≤ hi

/-- The second declaration begins behind the place and the bound of the trailing comment of the
first. -/
structure Declaration.Before (d e : Declaration) : Prop where
  tail_le : d.tail.offset ≤ e.start.offset
  bound_le : ∀ b ∈ d.bound, b.offset ≤ e.start.offset

/-- The declarations stand between two offsets one before the other. -/
structure DeclarationsPlaced (m : Landmarks) (lo hi : Nat) (ds : List Declaration) : Prop where
  placed : ∀ d ∈ ds, d.Placed m lo hi
  pairwise : ds.Pairwise Declaration.Before

theorem Declaration.Placed.mono {lo' hi' : Nat} (h : d.Placed m lo hi) (hlo : lo' ≤ lo)
    (hhi : hi ≤ hi') : d.Placed m lo' hi' :=
  { h with
    le_start := Nat.le_trans hlo h.le_start
    tail_le := Nat.le_trans h.tail_le hhi
    bound_le := fun b hb => Nat.le_trans (h.bound_le b hb) hhi }

/-- A declaration that ends before another one begins stands before it. -/
theorem Declaration.Placed.before (hd : d.Placed m lo mid) (he : e.Placed m mid hi) :
    d.Before e where
  tail_le := Nat.le_trans hd.tail_le he.le_start
  bound_le b hb := Nat.le_trans (hd.bound_le b hb) he.le_start

namespace DeclarationsPlaced

theorem nil : DeclarationsPlaced m lo hi [] :=
  ⟨by simp, .nil⟩

theorem mono {lo' hi' : Nat} (h : DeclarationsPlaced m lo hi ds) (hlo : lo' ≤ lo) (hhi : hi ≤ hi') :
    DeclarationsPlaced m lo' hi' ds :=
  ⟨fun d hd => (h.placed d hd).mono hlo hhi, h.pairwise⟩

theorem append (hds : DeclarationsPlaced m lo mid ds) (hes : DeclarationsPlaced m mid hi es)
    (hlo : lo ≤ mid) (hhi : mid ≤ hi) : DeclarationsPlaced m lo hi (ds ++ es) := by
  refine ⟨fun d hd => ?_, List.pairwise_append.2 ⟨hds.pairwise, hes.pairwise, ?_⟩⟩
  · rcases List.mem_append.1 hd with hd | hd
    · exact (hds.placed d hd).mono (Nat.le_refl _) hhi
    · exact (hes.placed d hd).mono hlo (Nat.le_refl _)
  · intro d hd e he
    exact (hds.placed d hd).before (hes.placed e he)

end DeclarationsPlaced

/-- What is known of a value that is declared inside an enum. -/
structure ValueItem.Placed (m : Landmarks) (v : ValueItem) : Prop where
  starts : m.starts v.span.start
  stops : m.stops v.span.stop
  names : m.names v.name
  offset_lt : v.span.start.offset < v.span.stop.offset

/-- The values among placed items stand in order and are placed. -/
theorem ItemsPlaced.values {items : List (Item Int)} (h : ItemsPlaced m lo hi items) :
    Ordered ValueItem.span lo hi (items.filterMap Item.value?) ∧
      ∀ v ∈ items.filterMap Item.value?, v.Placed m := by
  have hspan {item : Item Int} {v : ValueItem} (hv : item.value? = some v) : v.span = item.span := by
    unfold Item.value? at hv
    split at hv <;> cases hv
    rfl
  refine ⟨⟨fun v hv => ?_, ?_⟩, fun v hv => ?_⟩
  · obtain ⟨item, hitem, hv⟩ := List.mem_filterMap.1 hv
    rw [hspan hv]
    exact h.ordered.le_of_mem item hitem
  · apply h.ordered.pairwise.filterMap Item.value?
    intro a b hab v hv w hw
    rw [hspan hv, hspan hw]
    exact hab
  · obtain ⟨item, hitem, hv⟩ := List.mem_filterMap.1 hv
    unfold Item.value? at hv
    split at hv <;> cases hv
    cases h.placed _ hitem with
    | statement hlt hstop hvalue =>
      obtain ⟨hstart, hname⟩ := hvalue _ rfl
      exact ⟨hstart, hstop, hname, hlt⟩

/-- The declarations of the values of an enum stand in order, each before those behind it. -/
theorem Declaration.placed_ofValues {vs : List ValueItem} (hordered : Ordered ValueItem.span lo hi vs)
    (hplaced : ∀ v ∈ vs, v.Placed m) : DeclarationsPlaced m lo hi (Declaration.ofValues vs) := by
  induction vs generalizing lo with
  | nil => exact .nil
  | cons v vs ih =>
    obtain ⟨hlo, hhi⟩ := hordered.le_of_mem v List.mem_cons_self
    have hv := hplaced v List.mem_cons_self
    have hlt := hv.offset_lt
    have hvs := fun w hw => hplaced w (List.mem_cons_of_mem v hw)
    have hrest := ih hordered.tail hvs
    refine ⟨?_, List.pairwise_cons.2 ⟨fun e he => ⟨(hrest.placed e he).le_start, ?_⟩, hrest.pairwise⟩⟩
    · intro d hd
      rcases List.mem_cons.1 hd with rfl | hd
      · refine ⟨hv.starts, hv.stops, hlt, hlo, hhi, fun b hb => ?_⟩
        obtain ⟨w, hw, rfl⟩ := Option.map_eq_some_iff.1 hb
        have hmem := List.mem_of_head? hw
        have hbound := (hordered.tail.le_of_mem w hmem).2
        have hwlt := (hvs w hmem).offset_lt
        omega
      · exact (hrest.placed d hd).mono (by omega) (Nat.le_refl _)
    · -- The bound is where the next value begins, and all later values stand behind it.
      intro b hb
      cases vs with
      | nil => cases hb
      | cons w ws =>
        cases hb
        have hwlt := (hvs w List.mem_cons_self).offset_lt
        exact ((ih (hordered.tail.raise (by omega)) hvs).placed e he).le_start

/-- The declaration of an enum stands before those of its values. -/
theorem Declaration.placed_ofEnum {span : Span} {head : Head} {items : List (Item Int)}
    (hstart : m.starts span.start) (hnameEnd : m.stops head.nameEnd)
    (hfront : span.start.offset < head.nameEnd.offset)
    (hback : head.nameEnd.offset < span.stop.offset)
    (hitems : ItemsPlaced m head.nameEnd.offset span.stop.offset items) :
    DeclarationsPlaced m span.start.offset span.stop.offset (ofEnum span head items) := by
  obtain ⟨hordered, hplaced⟩ := hitems.values
  unfold ofEnum
  generalize items.filterMap Item.value? = vs at hordered hplaced
  have hvalues := placed_ofValues hordered hplaced
  refine ⟨?_, List.pairwise_cons.2 ⟨fun e he => ⟨(hvalues.placed e he).le_start, ?_⟩,
    hvalues.pairwise⟩⟩
  · intro d hd
    rcases List.mem_cons.1 hd with rfl | hd
    · refine ⟨hstart, hnameEnd, hfront, Nat.le_refl _, Nat.le_of_lt hback, fun b hb => ?_⟩
      cases hb
      cases vs with
      | nil => exact Nat.le_refl _
      | cons v vs =>
        have hbound := (hordered.le_of_mem v List.mem_cons_self).2
        have hlt := (hplaced v List.mem_cons_self).offset_lt
        show v.span.start.offset ≤ span.stop.offset
        omega
    · exact (hvalues.placed d hd).mono (Nat.le_of_lt hfront) (Nat.le_refl _)
  · intro b hb
    cases hb
    cases vs with
    | nil => cases he
    | cons v vs =>
      have hlt := (hplaced v List.mem_cons_self).offset_lt
      have hraised := placed_ofValues (hordered.raise (by omega)) hplaced
      exact (hraised.placed e he).le_start

mutual

/-- The declarations in an item stand where the item stands. -/
theorem Declaration.placed_ofItem : (item : Item Int) → item.Placed m →
    DeclarationsPlaced m item.span.start.offset item.span.stop.offset (Declaration.ofItem item)
  | .statement _ _, _ => by
    rw [Declaration.ofItem]
    exact .nil
  | .block span head items, hp => by
    rw [Declaration.ofItem]
    cases hp with
    | block hstart hname hnameEnd hstop hfront hback hordered hitems =>
      cases head.kind with
      | enum => exact placed_ofEnum hstart hnameEnd hfront hback ⟨hordered, hitems⟩
      | message =>
        exact (Declaration.placed_ofItems items ⟨hordered, hitems⟩).mono (Nat.le_of_lt hfront)
          (Nat.le_refl _)
      | oneof => exact .nil

theorem Declaration.placed_ofItems : (items : List (Item Int)) → {lo hi : Nat} →
    ItemsPlaced m lo hi items → DeclarationsPlaced m lo hi (Declaration.ofItems items)
  | [], _, _, _ => by
    rw [Declaration.ofItems]
    exact .nil
  | item :: items, lo, hi, hp => by
    rw [Declaration.ofItems]
    obtain ⟨hlo, hhi⟩ := hp.ordered.le_of_mem item List.mem_cons_self
    have hitem := hp.placed item List.mem_cons_self
    have hlt := hitem.offset_lt
    have hrest := Declaration.placed_ofItems items
      ⟨hp.ordered.tail, fun i hi => hp.placed i (List.mem_cons_of_mem item hi)⟩
    exact ((Declaration.placed_ofItem item hitem).mono hlo (Nat.le_refl _)).append hrest (by omega) hhi

end

end

/-- The declarations of a schema stand in its text one before the other. -/
theorem declarationsPlaced_of_parsed {source : List Char} {s : Schema Int} (h : Parsed source s) :
    DeclarationsPlaced (textMarks source s.comments) 0 source.length s.declarations :=
  Declaration.placed_ofItems s.items h.items

end Schema

/-- A text that was loaded is a schema, and its descriptors are those of the schema. -/
theorem FileDescriptor.parse_of_load {file : Option String} {text : String} {f : FileDescriptor}
    (h : (load file text).result = .ok f) :
    ∃ s, parse text = .ok s ∧ f = ofSchema file text.toList s := by
  simp only [load, Noted.result_bind, Noted.result_pure] at h
  obtain ⟨s, hs, h⟩ := bind_eq_ok h
  obtain ⟨-, -, h⟩ := bind_eq_ok h
  obtain ⟨-, -, h⟩ := bind_eq_ok h
  cases h
  refine ⟨s, ?_, rfl⟩
  cases hparse : parse text with
  | error e =>
    rw [hparse] at hs
    cases hs
  | ok s' =>
    rw [hparse] at hs
    cases hs
    rfl

/-- The documentation in the descriptors of a text that was loaded is that of the declarations of its
schema. -/
theorem FileDescriptor.documented_of_load {file : Option String} {text : String} {f : FileDescriptor}
    (h : (load file text).result = .ok f) : ∃ s : Schema Int, parse text = .ok s ∧
      f.documented = s.declarations.map (Declaration.described (s.origin file text)) := by
  obtain ⟨s, hs, rfl⟩ := parse_of_load h
  exact ⟨s, hs, Declaration.documented_enumsAfter none s.items⟩

/-- A text with a comment above an enum. -/
def commentedText : String :=
  "// c\nenum E \x7b\n  A = 0;\n\x7d"

theorem FileDescriptor.load_commentedText : (load none commentedText).result = .ok
    { file := none
      enums := [{ name := some "E"
                  values := [{ name := "A", number := 0, line := some 3 }]
                  documentation := { leading := some "c" }
                  line := some 2 }] } := by
  decide +kernel

end SchemaEnums
