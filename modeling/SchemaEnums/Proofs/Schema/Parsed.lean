import Mathlib.Data.List.Forall2
import SchemaEnums.Proofs.Schema.Placed

namespace SchemaEnums.Schema

open Source

section

variable {ν μ ε : Type} {f : ν → Except ε μ} {m : Landmarks}

/-- What a computation made of two steps returns. -/
theorem bind_eq_ok {α β : Type} {x : Except ε α} {g : α → Except ε β} {b : β}
    (h : (x >>= g) = .ok b) : ∃ a, x = .ok a ∧ g a = .ok b := by
  cases x with
  | error e => cases h
  | ok a => exact ⟨a, rfl, h⟩

/-- What was made of the elements of a list one after the other. -/
theorem forall₂_of_mapM {α β : Type} {f : α → Except ε β} {xs : List α} {ys : List β}
    (h : xs.mapM f = .ok ys) : List.Forall₂ (fun x y => f x = .ok y) xs ys := by
  induction xs generalizing ys with
  | nil =>
    rw [List.mapM_nil] at h
    cases h
    exact .nil
  | cons x xs ih =>
    rw [List.mapM_cons] at h
    obtain ⟨y, hy, h⟩ := bind_eq_ok h
    obtain ⟨rest, hrest, h⟩ := bind_eq_ok h
    cases h
    exact .cons hy (ih hrest)

theorem Statement.valueName?_of_mapM {s : Statement ν} {s' : Statement μ}
    (h : s.mapM f = .ok s') : s'.valueName? = s.valueName? := by
  cases s with
  | option a =>
    obtain ⟨a', -, h⟩ := bind_eq_ok h
    cases h
    rfl
  | field tokens number options =>
    obtain ⟨n, -, h⟩ := bind_eq_ok h
    obtain ⟨as, -, h⟩ := bind_eq_ok h
    cases h
    rfl
  | value name number options =>
    obtain ⟨n, -, h⟩ := bind_eq_ok h
    obtain ⟨as, -, h⟩ := bind_eq_ok h
    cases h
    rfl
  | reserved items =>
    obtain ⟨is, -, h⟩ := bind_eq_ok h
    cases h
    rfl
  | extensions items options =>
    obtain ⟨is, -, h⟩ := bind_eq_ok h
    obtain ⟨as, -, h⟩ := bind_eq_ok h
    cases h
    rfl
  | _ =>
    cases h
    rfl

theorem Item.span_of_mapM {item : Item ν} {item' : Item μ} (h : item.mapM f = .ok item') :
    item'.span = item.span := by
  cases item with
  | statement span s =>
    rw [Item.mapM] at h
    obtain ⟨s', -, h⟩ := bind_eq_ok h
    cases h
    rfl
  | block span head items =>
    rw [Item.mapM] at h
    obtain ⟨items', -, h⟩ := bind_eq_ok h
    cases h
    rfl

mutual

/-- An item stays placed when its integers are given values. -/
theorem Item.Placed.mapM : (item : Item ν) → {item' : Item μ} → item.Placed m →
    item.mapM f = .ok item' → item'.Placed m
  | .statement span s, item', hp, h => by
    rw [Item.mapM] at h
    obtain ⟨s', hs', h⟩ := bind_eq_ok h
    cases h
    cases hp with
    | statement hlt hstop hvalue =>
      refine .statement hlt hstop ?_
      rw [Statement.valueName?_of_mapM hs']
      exact hvalue
  | .block span head items, item', hp, h => by
    rw [Item.mapM] at h
    obtain ⟨items', hitems', h⟩ := bind_eq_ok h
    cases h
    cases hp with
    | block hstart hname hnameEnd hstop hfront hback hordered hitems =>
      have hplaced := ItemsPlaced.mapList items ⟨hordered, hitems⟩ hitems'
      exact .block hstart hname hnameEnd hstop hfront hback hplaced.ordered hplaced.placed

/-- A list of items stays placed when the integers are given values. -/
theorem ItemsPlaced.mapList : (items : List (Item ν)) → {items' : List (Item μ)} → {lo hi : Nat} →
    ItemsPlaced m lo hi items → Item.mapList f items = .ok items' → ItemsPlaced m lo hi items'
  | [], items', lo, hi, hp, h => by
    rw [Item.mapList] at h
    cases h
    exact .nil
  | item :: items, items', lo, hi, hp, h => by
    rw [Item.mapList] at h
    obtain ⟨item', hitem', h⟩ := bind_eq_ok h
    obtain ⟨rest, hrest, h⟩ := bind_eq_ok h
    cases h
    have hplaced := Item.Placed.mapM item (hp.placed item List.mem_cons_self) hitem'
    have htail := ItemsPlaced.mapList items
      ⟨hp.ordered.tail, fun i hi => hp.placed i (List.mem_cons_of_mem item hi)⟩ hrest
    obtain ⟨hlo, hhi⟩ := hp.ordered.le_of_mem item List.mem_cons_self
    have hspan := Item.span_of_mapM hitem'
    have hlt := hplaced.offset_lt
    rw [← hspan] at hlo hhi htail
    refine ⟨(Ordered.singleton hlo (Nat.le_refl _)).append htail.ordered (by omega) hhi, ?_⟩
    intro i hi
    rcases List.mem_cons.1 hi with rfl | hi
    · exact hplaced
    · exact htail.placed i hi

end

end

/-- A position keeps out of a stretch if it is not inside of it. -/
def KeepsOut (p : Position) (span : Span) : Prop :=
  span.stop.offset ≤ p.offset ∨ p.offset < span.start.offset

/-- The landmarks of a text with the given comments. -/
def textMarks (source : List Char) (comments : List Comment) : Landmarks where
  starts p := p.Solid source ∧ ∀ c ∈ comments, KeepsOut p c.span
  stops p := p.InText source ∧
    (∃ q : Position, q.Solid source ∧ q.offset < p.offset ∧ q.line = p.line) ∧
    ∀ c ∈ comments, c.span.stop.offset ≤ p.offset ∨ p.offset ≤ c.span.start.offset
  names name := Lexeme.IsName name.toList

/-- The tokens of a text bear out its landmarks. -/
theorem Trace.marks {source : List Char} {lo : Nat} {tokens : List Token} {comments : List Comment}
    (h : Trace source lo tokens comments) {t : Token} (ht : t ∈ tokens) :
    Marks (textMarks source comments) t where
  starts hsolid := by
    have hlt := h.lt_of_mem t ht
    refine ⟨(h.tokens_firm t ht hsolid).solid_start, fun c hc => ?_⟩
    rcases h.apart t ht c hc with hapart | hapart
    · exact .inr (by omega)
    · exact .inl hapart
  stops hsolid := by
    have hlt := h.lt_of_mem t ht
    have hfirm := h.tokens_firm t ht hsolid
    obtain ⟨q, hq, -, hqlt, hline⟩ := hfirm.exists_last
    refine ⟨hfirm.inText_stop, ⟨q, hq, hqlt, hline⟩, fun c hc => ?_⟩
    rcases h.apart t ht c hc with hapart | hapart
    · exact .inr hapart
    · exact .inl (by omega)
  names hname := by
    have hspells := h.spells t ht
    rw [hname] at hspells
    exact hspells
  offset_lt := h.lt_of_mem t ht

/-- The comments stand in the text one after the other. -/
structure CommentsPlaced (source : List Char) (comments : List Comment) : Prop where
  ordered : Ordered Comment.span 0 source.length comments
  firm : ∀ c ∈ comments, c.span.Firm source

/-- What is known of a schema that was read from a text. -/
structure Parsed (source : List Char) (s : Schema Int) : Prop where
  items : ItemsPlaced (textMarks source s.comments) 0 source.length s.items
  comments : CommentsPlaced source s.comments

/-- A text that is a schema has a trace, and its items stand where the tokens of the trace say. -/
theorem exists_trace_of_parse {text : String} {s : Schema Int} (h : parse text = .ok s) :
    ∃ tokens, Trace text.toList 0 tokens s.comments ∧ ∀ m : Landmarks, (∀ t ∈ tokens, Marks m t) →
      ItemsPlaced m 0 text.toList.length s.items := by
  obtain ⟨literals, hliterals, h⟩ := bind_eq_ok h
  obtain ⟨items, hitems, h⟩ := bind_eq_ok h
  cases h
  obtain ⟨tokens, final, htrace, hrun, hcomplete⟩ := exists_trace hliterals
  refine ⟨tokens, htrace, fun m hmarks => ?_⟩
  exact (itemsPlaced_of_foldlM htrace.tokens_ordered hmarks hrun hcomplete).mapList literals.items hitems

theorem parsed_of_parse {text : String} {s : Schema Int} (h : parse text = .ok s) :
    Parsed text.toList s := by
  obtain ⟨tokens, htrace, hplaced⟩ := exists_trace_of_parse h
  exact ⟨hplaced _ fun _ ht => htrace.marks ht, htrace.comments_ordered, htrace.comments_firm⟩

end SchemaEnums.Schema
