import Mathlib.Data.List.Forall2
import SchemaEnums.Proofs.Descriptor.Package
import SchemaEnums.Proofs.Schema.Nesting
import SchemaEnums.Schema.Outline

namespace SchemaEnums.Schema

open Source

namespace Outline

/-- The name that the children of a node begin with. -/
def name? : Outline → Option String
  | .node _ (.token .name text :: _) _ => some text
  | _ => none

def children : Outline → List Outline
  | .node _ children _ => children
  | _ => []

/-- The stretch of text of a node that has one. -/
def stretch : Outline → Span
  | .node _ _ (some span) => span
  | _ => default

def hasRule (rule : String) : Outline → Bool
  | .node r _ _ => r == rule
  | _ => false

mutual

/-- The nodes of enums in an outline, in order. Each comes with the names of the messages around it, the
outermost first. -/
def enumNodes (parents : List String) : Outline → List (List String × Outline)
  | .node rule children span =>
    let node := Outline.node rule children span
    (if rule = "enum_def" then [(parents, node)] else []) ++
      enumNodesOf (if rule = "message_def" then parents ++ node.name?.toList else parents) children
  | .token _ _ => []
  | .integer _ => []

/-- The nodes of enums in outlines that stand side by side. -/
def enumNodesOf (parents : List String) : List Outline → List (List String × Outline)
  | [] => []
  | o :: os => o.enumNodes parents ++ enumNodesOf parents os

end

/-- The values among the children of a node. -/
def valueNodes (o : Outline) : List Outline :=
  o.children.filter (hasRule "enum_value")

/-- No enum lies in the outline. -/
def NoEnums (o : Outline) : Prop :=
  ∀ parents, o.enumNodes parents = []

theorem enumNodesOf_eq_nil {os : List Outline} (h : ∀ o ∈ os, o.NoEnums) (parents : List String) :
    enumNodesOf parents os = [] := by
  induction os with
  | nil => rw [enumNodesOf]
  | cons o os ih =>
    obtain ⟨ho, hos⟩ := List.forall_mem_cons.1 h
    rw [enumNodesOf, ho parents, ih hos]
    rfl

theorem noEnums_token (kind : Kind) (text : String) : (token kind text).NoEnums := by
  intro parents
  rw [enumNodes]

theorem noEnums_integer (n : Int) : (integer n).NoEnums := by
  intro parents
  rw [enumNodes]

theorem noEnums_node {rule : String} {children : List Outline} {span : Option Span}
    (hrule : rule ≠ "enum_def") (h : ∀ o ∈ children, o.NoEnums) :
    (node rule children span).NoEnums := by
  intro parents
  rw [enumNodes, if_neg hrule, enumNodesOf_eq_nil h]
  rfl

theorem noEnums_ofDottedName (n : DottedName) : (ofDottedName n).NoEnums :=
  noEnums_node (by decide) (List.forall_mem_map.2 fun text _ => noEnums_token .name text)

theorem noEnums_ofConstant (c : Constant Int) : (ofConstant c).NoEnums := by
  cases c with
  | name n => exact noEnums_ofDottedName n
  | integer n => exact noEnums_integer n
  | float text => exact noEnums_token _ _
  | string text => exact noEnums_token _ _

theorem noEnums_ofOptionRoot (r : OptionRoot) : (ofOptionRoot r).NoEnums := by
  cases r with
  | plain name => exact noEnums_token _ _
  | extension rooted name => exact noEnums_ofDottedName name

theorem noEnums_of_mem_assignmentParts (a : Assignment Int) :
    ∀ o ∈ ofAssignmentParts a, o.NoEnums := by
  refine List.forall_mem_cons.2 ⟨noEnums_node (by decide) ?_,
    List.forall_mem_singleton.2 (noEnums_ofConstant a.value)⟩
  exact List.forall_mem_cons.2 ⟨noEnums_ofOptionRoot _,
    List.forall_mem_map.2 fun text _ => noEnums_token .name text⟩

theorem noEnums_of_mem_options {rule : String} (hrule : rule ≠ "enum_def")
    (options : List (Assignment Int)) : ∀ o ∈ ofOptions rule options, o.NoEnums := by
  unfold ofOptions
  split
  · simp
  · exact List.forall_mem_singleton.2 (noEnums_node hrule (List.forall_mem_map.2 fun a _ =>
      noEnums_node (by decide) (noEnums_of_mem_assignmentParts a)))

theorem noEnums_ofFieldToken (t : FieldToken) : (ofFieldToken t).NoEnums := by
  cases t with
  | name text => exact noEnums_node (by decide) (List.forall_mem_singleton.2 (noEnums_token _ _))
  | _ => exact noEnums_node (by decide) (by simp)

theorem noEnums_ofReservedItem (item : ReservedItem Int) : (ofReservedItem item).NoEnums := by
  cases item with
  | range first last =>
    refine noEnums_node (by decide) (List.forall_mem_cons.2 ⟨noEnums_integer first, ?_⟩)
    cases last with
    | number n => exact List.forall_mem_singleton.2 (noEnums_integer n)
    | _ => simp [ofRangeEnd]
  | string text => exact noEnums_token _ _
  | name text => exact noEnums_token _ _

theorem noEnums_ofStatement (span : Span) (s : Statement Int) : (ofStatement span s).NoEnums := by
  cases s with
  | edition text => exact noEnums_node (by decide) (List.forall_mem_singleton.2 (noEnums_token _ _))
  | package name =>
    exact noEnums_node (by decide) (List.forall_mem_singleton.2 (noEnums_ofDottedName name))
  | importFile modifier path =>
    refine noEnums_node (by decide) (List.forall_mem_append.2 ⟨?_,
      List.forall_mem_singleton.2 (noEnums_token _ _)⟩)
    cases modifier with
    | none => simp
    | some text => exact List.forall_mem_singleton.2 (noEnums_token _ _)
  | option a => exact noEnums_node (by decide) (noEnums_of_mem_assignmentParts a)
  | field tokens number options =>
    exact noEnums_node (by decide) (List.forall_mem_append.2
      ⟨List.forall_mem_map.2 fun t _ => noEnums_ofFieldToken t,
        List.forall_mem_cons.2 ⟨noEnums_integer number, noEnums_of_mem_options (by decide) options⟩⟩)
  | value name number options =>
    exact noEnums_node (by decide) (List.forall_mem_cons.2 ⟨noEnums_token _ _,
      List.forall_mem_cons.2 ⟨noEnums_integer number, noEnums_of_mem_options (by decide) options⟩⟩)
  | reserved items =>
    exact noEnums_node (by decide) (List.forall_mem_map.2 fun item _ => noEnums_ofReservedItem item)
  | extensions items options =>
    exact noEnums_node (by decide) (List.forall_mem_append.2
      ⟨List.forall_mem_map.2 fun item _ => noEnums_ofReservedItem item,
        noEnums_of_mem_options (by decide) options⟩)
  | empty => exact noEnums_node (by decide) (by simp)

theorem ofItems_eq_map (items : List (Item Int)) : ofItems items = items.map ofItem := by
  induction items with
  | nil => rw [ofItems, List.map_nil]
  | cons item items ih => rw [ofItems, ih, List.map_cons]

/-- Enums stand in messages only. -/
theorem noEnums_of_standsIn {kind : BlockKind} (hkind : kind ≠ .message) {items : List (Item Int)}
    (h : ∀ item ∈ items, item.StandsIn (some kind)) : ∀ o ∈ ofItems items, o.NoEnums := by
  rw [ofItems_eq_map]
  refine List.forall_mem_map.2 fun item hitem => ?_
  obtain ⟨span, s, rfl⟩ := (h item hitem).exists_statement hkind
  rw [ofItem]
  exact noEnums_ofStatement span s

variable {parents : List String} {span : Span} {head : Head} {items : List (Item Int)}

theorem enumNodes_message (hkind : head.kind = .message) :
    (ofItem (.block span head items)).enumNodes parents =
      enumNodesOf (parents ++ [head.name]) (ofItems items) := by
  simp [ofItem, ofBlock, hkind, rule, enumNodes, enumNodesOf, name?]

theorem noEnums_oneof (hkind : head.kind = .oneof)
    (hitems : ∀ item ∈ items, item.StandsIn (some .oneof)) :
    (ofItem (.block span head items)).NoEnums := by
  rw [ofItem, ofBlock, hkind]
  exact noEnums_node (by decide) (List.forall_mem_cons.2 ⟨noEnums_token _ _,
    noEnums_of_standsIn (by decide) hitems⟩)

theorem ofItem_enum (hkind : head.kind = .enum) : ofItem (.block span head items) =
    node "enum_def" (token .name head.name :: ofItems items) (some span) := by
  rw [ofItem, ofBlock, hkind]

theorem enumNodes_enum (hkind : head.kind = .enum)
    (hitems : ∀ item ∈ items, item.StandsIn (some .enum)) :
    (ofItem (.block span head items)).enumNodes parents =
      [(parents, ofItem (.block span head items))] := by
  have hnone := enumNodesOf_eq_nil (noEnums_of_standsIn (by decide) hitems) parents
  rw [ofItem_enum hkind]
  simp [enumNodes, enumNodesOf, hnone]

theorem hasRule_value (item : Item Int) :
    (ofItem item).hasRule "enum_value" = item.value?.isSome := by
  cases item with
  | statement span s =>
    rw [ofItem]
    cases s <;> rfl
  | block span head items =>
    obtain ⟨kind, name, nameEnd⟩ := head
    rw [ofItem]
    cases kind <;> rfl

theorem valueNodes_enum (hkind : head.kind = .enum) :
    (ofItem (.block span head items)).valueNodes =
      (items.filter fun item => item.value?.isSome).map ofItem := by
  rw [ofItem_enum hkind, valueNodes, children, List.filter_cons_of_neg (by simp [hasRule]),
    ofItems_eq_map, List.filter_map]
  exact congrArg (List.map ofItem) (List.filter_congr fun item _ => hasRule_value item)

end Outline

/-- The value is what the node says. -/
def DescribesValue (v : ValueDescriptor) (o : Outline) : Prop :=
  ∃ options span, o = .node "enum_value" (.token .name v.name :: .integer v.number :: options)
    (some span) ∧ v.line = span.start.line

/-- The enum is what a node among the nodes of the given messages says. Its values are those of the node
one by one, and they stand in the text in that order. -/
structure Describes (d : EnumDescriptor) (n : List String × Outline) : Prop where
  parents : d.parents = n.1
  hasRule : n.2.hasRule "enum_def"
  name : d.name = n.2.name?
  line : d.line = n.2.stretch.start.line
  values : List.Forall₂ DescribesValue d.values n.2.valueNodes
  ordered : Ordered Outline.stretch n.2.stretch.start.offset n.2.stretch.stop.offset n.2.valueNodes

/-- The enums are what the nodes say one by one, and the nodes stand in order between two offsets. -/
structure EnumsMatch (lo hi : Nat) (ds : List EnumDescriptor) (ns : List (List String × Outline)) :
    Prop where
  described : List.Forall₂ Describes ds ns
  ordered : Ordered (fun n => n.2.stretch) lo hi ns

namespace EnumsMatch

variable {lo mid hi : Nat} {ds ds' : List EnumDescriptor} {ns ns' : List (List String × Outline)}

theorem nil : EnumsMatch lo hi [] [] :=
  ⟨.nil, .nil⟩

theorem append (h : EnumsMatch lo mid ds ns) (h' : EnumsMatch mid hi ds' ns') (hlo : lo ≤ mid)
    (hhi : mid ≤ hi) : EnumsMatch lo hi (ds ++ ds') (ns ++ ns') :=
  ⟨List.rel_append h.described h'.described, h.ordered.append h'.ordered hlo hhi⟩

theorem mono {lo' hi' : Nat} (h : EnumsMatch lo hi ds ns) (hlo : lo' ≤ lo) (hhi : hi ≤ hi') :
    EnumsMatch lo' hi' ds ns :=
  ⟨h.described, h.ordered.mono hlo hhi⟩

end EnumsMatch

section

variable {m : Landmarks} {o : Origin} {span : Span} {head : Head} {lo hi : Nat}

theorem describesValue_values (items : List (Item Int)) :
    List.Forall₂ DescribesValue (o.values (items.filterMap Item.value?))
      ((items.filter fun item => item.value?.isSome).map Outline.ofItem) := by
  induction items with
  | nil => exact .nil
  | cons item items ih =>
    cases hvalue : item.value? with
    | none =>
      rw [List.filterMap_cons_none hvalue, List.filter_cons_of_neg (by simp [hvalue])]
      exact ih
    | some v =>
      rw [List.filterMap_cons_some hvalue, List.filter_cons_of_pos (by simp [hvalue])]
      refine .cons ?_ ih
      cases item with
      | block => cases hvalue
      | statement span s =>
        cases s with
        | value name number options =>
          cases hvalue
          exact ⟨_, span, by rw [Outline.ofItem]; rfl, rfl⟩
        | _ => cases hvalue

/-- A node of a value has the stretch of its item. -/
theorem stretch_of_value {item : Item Int} (h : item.value?.isSome = true) :
    (Outline.ofItem item).stretch = item.span := by
  cases item with
  | block => cases h
  | statement span s =>
    rw [Outline.ofItem]
    cases s with
    | value name number options => rfl
    | _ => cases h

theorem ordered_valueNodes {items : List (Item Int)} (h : Ordered Item.span lo hi items) :
    Ordered Outline.stretch lo hi
      ((items.filter fun item => item.value?.isSome).map Outline.ofItem) := by
  refine ⟨List.forall_mem_map.2 fun item hitem => ?_, List.pairwise_map.2 ?_⟩
  · obtain ⟨hmem, hvalue⟩ := List.mem_filter.1 hitem
    rw [stretch_of_value hvalue]
    exact h.le_of_mem item hmem
  · refine (h.pairwise.filter _).imp_of_mem fun ha hb hle => ?_
    rw [stretch_of_value (List.mem_filter.1 ha).2, stretch_of_value (List.mem_filter.1 hb).2]
    exact hle

theorem describes_enum (package : Option String) (parents : List String) {items : List (Item Int)}
    (hkind : head.kind = .enum) (hordered : Ordered Item.span span.start.offset span.stop.offset items) :
    Describes (o.enum package parents span head items)
      (parents, Outline.ofItem (.block span head items)) where
  parents := rfl
  hasRule := by
    rw [Outline.ofItem_enum hkind]
    rfl
  name := by
    rw [Outline.ofItem_enum hkind]
    rfl
  line := by
    rw [Outline.ofItem_enum hkind]
    rfl
  values := by
    rw [Outline.valueNodes_enum hkind]
    exact describesValue_values items
  ordered := by
    rw [Outline.valueNodes_enum hkind, Outline.ofItem_enum hkind]
    exact ordered_valueNodes hordered

mutual

/-- What is said of the enums in an item goes by the nodes in its outline. -/
theorem enumsMatch_item (o : Origin) (package : Option String) : {b : Option BlockKind} →
    (item : Item Int) → item.Placed m → item.StandsIn b → (parents : List String) →
    EnumsMatch item.span.start.offset item.span.stop.offset (o.enumsOfItem package parents item)
      ((Outline.ofItem item).enumNodes parents)
  | b, .statement span s, _, _, parents => by
    rw [Outline.ofItem, Outline.noEnums_ofStatement, Origin.enumsOfItem]
    exact .nil
  | b, .block span head items, hplaced, hstands, parents => by
    have hlt := hplaced.offset_lt
    cases hplaced with
    | block _ _ _ _ hfront hback hordered hitems =>
    cases hstands with
    | block _ hinner =>
    cases hkind : head.kind with
    | message =>
      have hmatch := enumsMatch_items o package items hordered hback.le hitems hinner
        (parents ++ [head.name])
      rw [Outline.enumNodes_message hkind, Origin.enumsOfItem, hkind]
      exact hmatch.mono hfront.le (Nat.le_refl _)
    | oneof =>
      rw [hkind] at hinner
      rw [Outline.noEnums_oneof hkind hinner, Origin.enumsOfItem, hkind]
      exact .nil
    | enum =>
      rw [hkind] at hinner
      rw [Outline.enumNodes_enum hkind hinner, Origin.enumsOfItem, hkind]
      have hdescribes := describes_enum (o := o) package parents hkind
        (hordered.mono hfront.le (Nat.le_refl _))
      have hstretch : (Outline.ofItem (.block span head items)).stretch = span := by
        rw [Outline.ofItem_enum hkind]
        rfl
      refine ⟨.cons hdescribes .nil, .singleton ?_ ?_⟩
      · exact (congrArg (·.start.offset) hstretch).ge
      · exact (congrArg (·.stop.offset) hstretch).le

theorem enumsMatch_items (o : Origin) (package : Option String) : {b : Option BlockKind} →
    (items : List (Item Int)) → {lo hi : Nat} → Ordered Item.span lo hi items → lo ≤ hi →
    (∀ item ∈ items, item.Placed m) → (∀ item ∈ items, item.StandsIn b) → (parents : List String) →
    EnumsMatch lo hi (o.enumsOfItems package parents items)
      (Outline.enumNodesOf parents (Outline.ofItems items))
  | b, [], lo, hi, _, _, _, _, parents => by
    rw [Outline.ofItems, Outline.enumNodesOf, Origin.enumsOfItems]
    exact .nil
  | b, item :: items, lo, hi, hordered, hle, hplaced, hstands, parents => by
    obtain ⟨hfirst, hplaced⟩ := List.forall_mem_cons.1 hplaced
    obtain ⟨hstands₁, hstands⟩ := List.forall_mem_cons.1 hstands
    obtain ⟨hlo, hhi⟩ := hordered.le_of_mem item List.mem_cons_self
    have hlt := hfirst.offset_lt
    have hitem := enumsMatch_item o package item hfirst hstands₁ parents
    have hitems := enumsMatch_items o package items hordered.tail hhi hplaced hstands parents
    rw [Outline.ofItems, Outline.enumNodesOf, Origin.enumsOfItems]
    exact (hitem.mono hlo (Nat.le_refl _)).append hitems (by omega) hhi

end

/-- A package statement counts for the items behind it and is no enum. -/
theorem exists_enumsAfter_cons (o : Origin) (package : Option String) (item : Item Int)
    (items : List (Item Int)) :
    ∃ package', o.enumsAfter package (item :: items) =
      o.enumsOfItem package [] item ++ o.enumsAfter package' items := by
  cases hpackage : item.package? with
  | none => exact ⟨package, enumsAfter_cons hpackage⟩
  | some name =>
    refine ⟨some name, ?_⟩
    cases item with
    | block => cases hpackage
    | statement span s =>
      cases s with
      | package n =>
        cases hpackage
        rw [Origin.enumsAfter, Origin.enumsOfItem]
        rfl
      | _ => cases hpackage

theorem enumsMatch_after (o : Origin) (package : Option String) {items : List (Item Int)}
    (hordered : Ordered Item.span lo hi items) (hle : lo ≤ hi)
    (hplaced : ∀ item ∈ items, item.Placed m) (hstands : ∀ item ∈ items, item.StandsIn none) :
    EnumsMatch lo hi (o.enumsAfter package items)
      (Outline.enumNodesOf [] (Outline.ofItems items)) := by
  induction items generalizing package lo with
  | nil =>
    rw [Outline.ofItems, Outline.enumNodesOf, Origin.enumsAfter]
    exact .nil
  | cons item items ih =>
    obtain ⟨hfirst, hplaced⟩ := List.forall_mem_cons.1 hplaced
    obtain ⟨hstands₁, hstands⟩ := List.forall_mem_cons.1 hstands
    obtain ⟨hlo, hhi⟩ := hordered.le_of_mem item List.mem_cons_self
    have hlt := hfirst.offset_lt
    have hitem := (enumsMatch_item o package item hfirst hstands₁ []).mono hlo (Nat.le_refl _)
    obtain ⟨package', henums⟩ := exists_enumsAfter_cons o package item items
    rw [Outline.ofItems, Outline.enumNodesOf, henums]
    exact hitem.append (ih package' hordered.tail hhi hplaced hstands) (by omega) hhi

end

end SchemaEnums.Schema

namespace SchemaEnums

open Source Schema

/-- No enum is lost, added or moved. The enums of a file are what the nodes of enums in the outline of
its text say, one by one: each has the messages around its node as parents, and its values are those of
the node. Nodes and values stand in the text in the order in which they are found. -/
theorem FileDescriptor.enums_of_load {file : Option String} {text : String} {f : FileDescriptor}
    (h : (load file text).result = .ok f) :
    ∃ s, parse text = .ok s ∧
      List.Forall₂ Describes f.enums ((outline s).enumNodes []) ∧
      Ordered (fun n => n.2.stretch) 0 text.toList.length ((outline s).enumNodes []) := by
  obtain ⟨s, hs, rfl⟩ := parse_of_load h
  obtain ⟨⟨hordered, hplaced⟩, -⟩ := parsed_of_parse hs
  have hmatch := enumsMatch_after { file, source := text.toList, comments := s.comments } none hordered
    (Nat.zero_le _) hplaced (standsIn_of_parse hs)
  have hnodes : (outline s).enumNodes [] = Outline.enumNodesOf [] (Outline.ofItems s.items) := by
    simp [outline, Outline.rule, Outline.enumNodes]
  rw [← hnodes] at hmatch
  exact ⟨s, hs, hmatch.described, hmatch.ordered⟩

/-- Enums in messages, beside items of other kinds. -/
def nestedEnums : String :=
  "enum E \x7b A = 0; reserved 5 to max; option allow_alias = true;; B = 0x0; \x7d message M \x7b " ++
    "oneof o \x7b int32 x = 1; \x7d message N \x7b enum F \x7b C = -1; \x7d M y = 2; \x7d \x7d"

theorem FileDescriptor.load_nestedEnums : (load none nestedEnums).result = .ok
    { file := none
      enums := [{ name := some "E"
                  values := [{ name := "A", number := 0, line := some 1 },
                             { name := "B", number := 0, line := some 1 }]
                  allowAlias := true
                  line := some 1 },
                { name := some "F", values := [{ name := "C", number := -1, line := some 1 }]
                  parents := ["M", "N"], line := some 1 }] } := by
  decide +kernel

theorem FileDescriptor.enums_of_load_nestedEnums :
    ∃ f s, (load none nestedEnums).result = .ok f ∧ parse nestedEnums = .ok s ∧
      f.enums.map (·.parents) = [[], ["M", "N"]] ∧
      List.Forall₂ Describes f.enums ((outline s).enumNodes []) := by
  obtain ⟨s, hs, hdescribes, -⟩ := enums_of_load load_nestedEnums
  exact ⟨_, s, load_nestedEnums, hs, rfl, hdescribes⟩

end SchemaEnums
