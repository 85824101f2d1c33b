import SchemaEnums.Proofs.Schema.Parsed

namespace SchemaEnums.Schema

open Source

/-- All statements of the item have the property. -/
inductive Item.All {ν : Type} (P : Statement ν → Prop) : Item ν → Prop where
  | statement {span : Span} {s : Statement ν} (h : P s) : Item.All P (.statement span s)
  | block {span : Span} {head : Head} {items : List (Item ν)} (h : ∀ item ∈ items, item.All P) :
    Item.All P (.block span head items)

section

variable {ν μ ε : Type} {f : ν → Except ε μ} {P : Statement ν → Prop} {P' : Statement μ → Prop}

mutual

/-- The property of the statements changes as the statements do when their integers get values. -/
theorem Item.All.mapM (hP : ∀ {s s'}, P s → s.mapM f = .ok s' → P' s') :
    (item : Item ν) → {item' : Item μ} → item.All P → item.mapM f = .ok item' → item'.All P'
  | .statement span s, item', hall, h => by
    rw [Item.mapM] at h
    obtain ⟨s', hs', h⟩ := bind_eq_ok h
    cases h
    cases hall with
    | statement hs => exact .statement (hP hs hs')
  | .block span head items, item', hall, h => by
    rw [Item.mapM] at h
    obtain ⟨items', hitems', h⟩ := bind_eq_ok h
    cases h
    cases hall with
    | block hitems => exact .block (Item.All.mapList hP items hitems hitems')

theorem Item.All.mapList (hP : ∀ {s s'}, P s → s.mapM f = .ok s' → P' s') :
    (items : List (Item ν)) → {items' : List (Item μ)} → (∀ item ∈ items, item.All P) →
      Item.mapList f items = .ok items' → ∀ item ∈ items', item.All P'
  | [], items', hall, h => by
    rw [Item.mapList] at h
    cases h
    simp
  | item :: items, items', hall, h => by
    rw [Item.mapList] at h
    obtain ⟨item', hitem', h⟩ := bind_eq_ok h
    obtain ⟨rest, hrest, h⟩ := bind_eq_ok h
    cases h
    intro i hi
    obtain rfl | hi := List.mem_cons.1 hi
    · exact Item.All.mapM hP item (hall item List.mem_cons_self) hitem'
    · exact Item.All.mapList hP items (fun k hk => hall k (List.mem_cons_of_mem item hk)) hrest i hi

end

end

section

variable {P : Statement String → Prop} {Q : Place → Prop} {R : Token → Prop} {s s' : State}
  {move : Move} {t : Token} {first : Position}

/-- The place that the move goes to has the property `Q`, the statement that it finishes has `P`. -/
def Move.Fits (P : Statement String → Prop) (Q : Place → Prop) : Move → Prop
  | .go p => Q p
  | .finish s => P s
  | .openBlock _ => True
  | .closeBlock => True

/-- Tokens with the property `R` lead to places with `Q` and from there to statements with `P`. -/
structure Leads (P : Statement String → Prop) (Q : Place → Prop) (R : Token → Prop) : Prop where
  begin : ∀ {body t move}, R t → begin? body t = some move → move.Fits P Q
  next : ∀ {p t move}, Q p → R t → p.next? t = some move → move.Fits P Q

/-- All statements so far have the property `P`, and the place in the current one has `Q`. -/
structure State.All (P : Statement String → Prop) (Q : Place → Prop) (s : State) : Prop where
  items : ∀ item ∈ s.items, item.All P
  frames : ∀ f ∈ s.frames, ∀ item ∈ f.before, item.All P
  place : ∀ first p, s.stage = .inside first p → Q p

/-- Between items there is no place to speak of. -/
theorem place_of_between (x : Context) : ∀ first p, Stage.between x = .inside first p → Q p :=
  fun _ _ h => Stage.noConfusion h

theorem State.All.perform (h : s.All P Q) (hmove : move.Fits P Q)
    (hs' : s.perform? first t.span move = some s') : s'.All P Q := by
  obtain ⟨hitems, hframes, -⟩ := h
  cases move with
  | go p =>
    cases hs'
    exact ⟨hitems, hframes, fun _ _ heq => (Stage.inside.inj heq).2 ▸ hmove⟩
  | finish statement =>
    cases hs'
    refine ⟨fun item hitem => ?_, hframes, place_of_between _⟩
    obtain rfl | hitem := List.mem_cons.1 hitem
    · exact .statement hmove
    · exact hitems item hitem
  | openBlock head =>
    cases hs'
    refine ⟨by simp, fun f hf => ?_, place_of_between _⟩
    obtain rfl | hf := List.mem_cons.1 hf
    · exact hitems
    · exact hframes f hf
  | closeBlock =>
    obtain ⟨frames, items, stage⟩ := s
    cases frames with
    | nil => cases hs'
    | cons f fs =>
      cases hs'
      refine ⟨fun item hitem => ?_, fun g hg => hframes g (List.mem_cons_of_mem f hg),
        place_of_between _⟩
      obtain rfl | hitem := List.mem_cons.1 hitem
      · exact .block fun i hi => hitems i (List.mem_reverse.1 hi)
      · exact hframes f List.mem_cons_self item hitem

theorem State.All.next (h : s.All P Q) (hleads : Leads P Q R) (ht : R t)
    (hs' : s.next? t = some s') : s'.All P Q := by
  simp only [State.next?] at hs'
  split at hs'
  next x hx =>
    obtain ⟨move, hmove, hperform⟩ := Option.bind_eq_some_iff.1 hs'
    exact h.perform (hleads.begin ht hmove) hperform
  next first p hp =>
    obtain ⟨move, hmove, hperform⟩ := Option.bind_eq_some_iff.1 hs'
    exact h.perform (hleads.next (h.place first p hp) ht hmove) hperform

theorem State.All.foldlM {tokens : List Token} (h : s.All P Q) (hleads : Leads P Q R)
    (htokens : ∀ t ∈ tokens, R t) (hs' : tokens.foldlM State.next? s = some s') : s'.All P Q := by
  induction tokens generalizing s with
  | nil =>
    cases hs'
    exact h
  | cons t tokens ih =>
    rw [List.foldlM_cons] at hs'
    obtain ⟨mid, hmid, hrest⟩ := Option.bind_eq_some_iff.1 hs'
    exact ih (h.next hleads (htokens t List.mem_cons_self) hmid)
      (fun u hu => htokens u (List.mem_cons_of_mem t hu)) hrest

theorem State.All.complete {items : List (Item String)} (h : s.All P Q)
    (hcomplete : s.complete? = some items) : ∀ item ∈ items, item.All P := by
  obtain ⟨frames, done, stage⟩ := s
  cases stage with
  | inside first p => cases hcomplete
  | between x =>
    cases frames with
    | cons f fs => cases hcomplete
    | nil =>
      cases hcomplete
      exact fun item hitem => h.items item (List.mem_reverse.1 hitem)

/-- All statements of a text have a property that its tokens lead to and that goes over from literals
to numbers. -/
theorem all_of_parse {T : Statement Int → Prop} {text : String} {r : Schema Int}
    (hleads : Leads P Q R) (hR : ∀ {t : Token}, t.kind.Spells t.text.toList → R t)
    (hP : ∀ {s s'}, P s → s.mapM literalValue = .ok s' → T s') (h : parse text = .ok r) :
    ∀ item ∈ r.items, item.All T := by
  obtain ⟨literals, hliterals, h⟩ := bind_eq_ok h
  obtain ⟨items, hitems, h⟩ := bind_eq_ok h
  cases h
  obtain ⟨tokens, final, htrace, hrun, hcomplete⟩ := exists_trace hliterals
  have hstart : State.All P Q {} := ⟨by simp, by simp, place_of_between _⟩
  have hfinal := hstart.foldlM hleads (fun t ht => hR (htrace.spells t ht)) hrun
  exact Item.All.mapList hP literals.items (hfinal.complete hcomplete) hitems

end

end SchemaEnums.Schema
