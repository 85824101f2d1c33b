import SchemaEnums.Proofs.Schema.Nesting
import SchemaEnums.Proofs.Schema.Unplaced

namespace SchemaEnums.Schema

open Source Spacing

section

variable {b : Option BlockKind} {x y z : Context} {p : Position} {t u : List Char} {kind : Kind}
  {P Q : Place} {m m' : Move} {item item' : Item String} {items items' : List (Item String)}

theorem Place.context_congr (h : Q.unplaced = P.unplaced) : Q.context = P.context := by
  have hcontext (R : Place) : R.unplaced.context = R.context := by
    cases R <;> rfl
  rw [← hcontext Q, h, hcontext]

theorem Place.exists_next?_of_unplaced (hQ : Q.unplaced = P.unplaced)
    (h : P.next? (token kind t p) = some m) (q : Position) :
    ∃ m', Q.next? (token kind t q) = some m' ∧ m'.unplaced = m.unplaced := by
  have hnext := Q.map_unplaced_next? (token kind t q)
  have htoken : Token.unplaced (token kind t q) = Token.unplaced (token kind t p) := rfl
  rw [hQ, htoken, ← P.map_unplaced_next?, h] at hnext
  exact Option.map_eq_some_iff.1 hnext

theorem Move.IsEnd.of_unplaced (h : m'.unplaced = m.unplaced) (hm : m.IsEnd) : m'.IsEnd := by
  cases m <;> cases m' <;> trivial

theorem Move.exists_go_of_unplaced (h : m.unplaced = (Move.go P).unplaced) :
    ∃ Q, m = .go Q ∧ Q.unplaced = P.unplaced := by
  cases m with
  | go Q => exact ⟨Q, rfl, Move.go.inj h⟩
  | _ => cases h

theorem Move.eq_finish_of_unplaced {s : Statement String}
    (h : m.unplaced = (Move.finish s).unplaced) : m = .finish s := by
  cases m with
  | finish s' => exact congrArg Move.finish (Move.finish.inj h)
  | _ => cases h

theorem Move.exists_openBlock_of_unplaced {head : Head}
    (h : m.unplaced = (Move.openBlock head).unplaced) :
    ∃ head', m = .openBlock head' ∧ head'.unplaced = head.unplaced ∧ head'.kind = head.kind := by
  cases m with
  | openBlock head' =>
    have hhead := Move.openBlock.inj h
    have hkind : head'.unplaced.kind = head.unplaced.kind := congrArg Head.kind hhead
    exact ⟨head', rfl, hhead, hkind⟩
  | _ => cases h

theorem Item.follow_unplaced {ν : Type} (item : Item ν) : item.unplaced.follow = item.follow := by
  cases item with
  | statement span s => rw [Item.unplaced_statement, Item.follow, Item.follow]
  | block span head items =>
    rw [Item.unplaced_block, Item.follow, Item.follow]
    rfl

theorem Item.follow_congr {ν : Type} {item item' : Item ν} (h : item'.unplaced = item.unplaced) :
    item'.follow = item.follow := by
  rw [← item'.follow_unplaced, h, item.follow_unplaced]

theorem PlaceText.move (h : PlaceText P p t m) (hQ : Q.unplaced = P.unplaced) (q : Position) :
    ∃ m', PlaceText Q q t m' ∧ m'.unplaced = m.unplaced := by
  induction h generalizing Q q with
  | @last P p m fs c kind hc hnext hm =>
    obtain ⟨m', hnext', hm'⟩ :=
      Place.exists_next?_of_unplaced hQ hnext (q.advance (Filler.text fs))
    exact ⟨m', .last fs hc hnext' (hm.of_unplaced hm'), hm'⟩
  | @go P R p m fs kind t cs hfinds hnext hrest ih =>
    obtain ⟨n, hnext', hn⟩ := Place.exists_next?_of_unplaced hQ hnext (q.advance (Filler.text fs))
    obtain ⟨R', rfl, hR⟩ := Move.exists_go_of_unplaced hn
    obtain ⟨m', htext, hm'⟩ := ih hR ((q.advance (Filler.text fs)).advance t)
    rw [← Place.context_congr hQ] at hfinds
    exact ⟨m', .go fs hfinds hnext' htext, hm'⟩

theorem Opening.move (h : Opening b x p t m) (q : Position) :
    ∃ m', Opening b x q t m' ∧ m'.unplaced = m.unplaced := by
  cases h with
  | single hc hbegin hm => exact ⟨m, .single hc hbegin hm, rfl⟩
  | go hfinds hbegin hrest =>
    obtain ⟨m', htext, hm'⟩ := hrest.move rfl (q.advance _)
    exact ⟨m', .go hfinds hbegin htext, hm'⟩

theorem Body.move (h : Body b x p t items y) (q : Position) :
    ∃ items', Body b x q t items' y ∧ items'.map Item.unplaced = items.map Item.unplaced := by
  -- Where the rest of the list begins depends on lengths only, so `q` runs along with `p`.
  induction h generalizing q with
  | nil => exact ⟨[], .nil, rfl⟩
  | @statement b x y p t us s items fs hopen hrest ih =>
    obtain ⟨m', hopen', hm'⟩ := hopen.move (q.advance (Filler.text fs))
    obtain rfl := Move.eq_finish_of_unplaced hm'
    obtain ⟨items', hrest', hitems⟩ := ih ((q.advance (Filler.text fs)).advance t)
    exact ⟨_, .statement fs hopen' hrest', by simp [hitems]⟩
  | @block b x y z p t ts us head inner items fs gs hopen hbody hrest ihbody ihrest =>
    obtain ⟨m', hopen', hm'⟩ := hopen.move (q.advance (Filler.text fs))
    obtain ⟨head', rfl, hhead, hkind⟩ := Move.exists_openBlock_of_unplaced hm'
    obtain ⟨inner', hbody', hinner⟩ := ihbody ((q.advance (Filler.text fs)).advance t)
    obtain ⟨items', hrest', hitems⟩ := ihrest
      ((q.advance (Filler.text fs)).advance (t ++ (ts ++ (Filler.text gs ++ ['\x7d']))))
    rw [← hkind] at hbody' hrest'
    exact ⟨_, .block fs gs hopen' hbody' hrest', by simp [hhead, hinner, hitems]⟩

/-- An item may be moved where its first statement or its head may begin. -/
theorem ItemText.move (h : ItemText b x p t item)
    (hopens : ∀ {v w m}, t = v ++ w → Opening b x p v m → Opening b y p v m) (q : Position) :
    ∃ item', ItemText b y q t item' ∧ item'.unplaced = item.unplaced := by
  cases item with
  | statement span s =>
    obtain ⟨rfl, hopen⟩ := h
    obtain ⟨m', hopen', hm'⟩ := (hopens (List.append_nil t).symm hopen).move q
    obtain rfl := Move.eq_finish_of_unplaced hm'
    exact ⟨.statement _ s, ⟨rfl, hopen'⟩, by simp⟩
  | block span head inner =>
    obtain ⟨rfl, v, ts, gs, z, rfl, hopen, hbody⟩ := h
    obtain ⟨m', hopen', hm'⟩ := (hopens rfl hopen).move q
    obtain ⟨head', rfl, hhead, hkind⟩ := Move.exists_openBlock_of_unplaced hm'
    obtain ⟨inner', hbody', hinner⟩ := hbody.move (q.advance v)
    rw [← hkind] at hbody'
    exact ⟨.block _ head' inner', ⟨rfl, v, ts, gs, z, rfl, hopen', hbody'⟩, by simp [hhead, hinner]⟩

theorem Body.append (h : Body b x p t items y) (h' : Body b y (p.advance t) u items' z) :
    Body b x p (t ++ u) (items ++ items') z := by
  induction h with
  | nil => exact h'
  | @statement b x y p t us s items fs hopen hrest ih =>
    simp only [Position.advance_append] at h'
    simpa only [List.append_assoc, List.cons_append] using Body.statement fs hopen (ih h')
  | @block b x y z p t ts us head inner items fs gs hopen hbody hrest ihbody ihrest =>
    rw [Position.advance_append, Position.advance_append] at h'
    simpa only [List.append_assoc, List.cons_append] using Body.block fs gs hopen hbody (ihrest h')

theorem Body.exists_append (h : Body b x p t (items ++ items') z) :
    ∃ u v y, t = u ++ v ∧ Body b x p u items y ∧ Body b y (p.advance u) v items' z := by
  induction items generalizing x p t with
  | nil => exact ⟨[], t, x, rfl, .nil, h⟩
  | cons item items ih =>
    obtain ⟨fs, w, us, rfl, hitem, hrest⟩ := Body.cases_cons h
    obtain ⟨u, v, y, rfl, hfront, hback⟩ := ih hrest
    refine ⟨Filler.text fs ++ (w ++ u), v, y, by simp, .cons fs hitem hfront, ?_⟩
    rwa [Position.advance_append, Position.advance_append]

end

end SchemaEnums.Schema
