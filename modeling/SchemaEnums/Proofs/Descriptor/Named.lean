import SchemaEnums.Proofs.Documentation.Declaration

namespace SchemaEnums

open Source Schema

/-- Everything in the descriptor that has a name is named by a word. -/
structure EnumDescriptor.Named (d : EnumDescriptor) : Prop where
  name : ∃ name, d.name = some name ∧ Lexeme.IsName name.toList
  parents : ∀ parent ∈ d.parents, Lexeme.IsName parent.toList
  values : ∀ v ∈ d.values, Lexeme.IsName v.name.toList

namespace Schema

section

variable {o : Origin} {source : List Char} {comments : List Comment} {package : Option String}
  {d : EnumDescriptor}

theorem exists_of_mem_values {vs : List ValueItem} {w : ValueDescriptor} (hw : w ∈ o.values vs) :
    ∃ v ∈ vs, w.name = v.name := by
  induction vs with
  | nil => cases hw
  | cons v vs ih =>
    rw [Origin.values] at hw
    rcases List.mem_cons.1 hw with rfl | hw
    · exact ⟨v, List.mem_cons_self, rfl⟩
    · obtain ⟨u, hu, hname⟩ := ih hw
      exact ⟨u, List.mem_cons_of_mem v hu, hname⟩

mutual

/-- The enums of a placed item are named if the messages around it are. -/
theorem named_of_mem_enumsOfItem : (item : Item Int) → {parents : List String} →
    item.Placed (textMarks source comments) → (∀ parent ∈ parents, Lexeme.IsName parent.toList) →
    d ∈ o.enumsOfItem package parents item → d.Named
  | .statement _ _, parents, hp, hparents, hd => by
    rw [Origin.enumsOfItem] at hd
    cases hd
  | .block span head items, parents, hp, hparents, hd => by
    cases hp with
    | block hstart hname hnameEnd hstop hfront hback hordered hitems =>
      rw [Origin.enumsOfItem] at hd
      cases hkind : head.kind with
      | enum =>
        rw [hkind] at hd
        rw [List.mem_singleton.1 hd]
        refine ⟨⟨head.name, rfl, hname⟩, hparents, fun w hw => ?_⟩
        obtain ⟨v, hv, hwname⟩ := exists_of_mem_values hw
        rw [hwname]
        exact ((ItemsPlaced.values ⟨hordered, hitems⟩).2 v hv).names
      | message =>
        rw [hkind] at hd
        refine named_of_mem_enumsOfItems items hitems (fun parent hparent => ?_) hd
        rcases List.mem_append.1 hparent with hparent | hparent
        · exact hparents parent hparent
        · rw [List.mem_singleton.1 hparent]
          exact hname
      | oneof =>
        rw [hkind] at hd
        cases hd

theorem named_of_mem_enumsOfItems : (items : List (Item Int)) → {parents : List String} →
    (∀ item ∈ items, item.Placed (textMarks source comments)) →
    (∀ parent ∈ parents, Lexeme.IsName parent.toList) →
    d ∈ o.enumsOfItems package parents items → d.Named
  | [], parents, hp, hparents, hd => by
    rw [Origin.enumsOfItems] at hd
    cases hd
  | item :: items, parents, hp, hparents, hd => by
    rw [Origin.enumsOfItems] at hd
    rcases List.mem_append.1 hd with hd | hd
    · exact named_of_mem_enumsOfItem item (hp item List.mem_cons_self) hparents hd
    · exact named_of_mem_enumsOfItems items (fun i hi => hp i (List.mem_cons_of_mem item hi)) hparents
        hd

end

theorem named_of_mem_enumsAfter {items : List (Item Int)}
    (hp : ∀ item ∈ items, item.Placed (textMarks source comments))
    (hd : d ∈ o.enumsAfter package items) : d.Named := by
  fun_induction Origin.enumsAfter o package items with
  | case1 => cases hd
  | case2 package span name items ih =>
    exact ih (fun i hi => hp i (List.mem_cons_of_mem _ hi)) hd
  | case3 package item items hitem ih =>
    rcases List.mem_append.1 hd with hd | hd
    · exact named_of_mem_enumsOfItem item (hp item List.mem_cons_self) (by simp) hd
    · exact ih (fun i hi => hp i (List.mem_cons_of_mem item hi)) hd

end

end Schema

/-- The enums of a text that was loaded are named by words. -/
theorem FileDescriptor.named_of_load {file : Option String} {text : String} {f : FileDescriptor}
    (h : (load file text).result = .ok f) : ∀ d ∈ f.enums, d.Named := by
  intro d hd
  obtain ⟨s, hs, rfl⟩ := parse_of_load h
  exact named_of_mem_enumsAfter (parsed_of_parse hs).items.placed hd

end SchemaEnums
