import Mathlib.Data.List.Forall2
import SchemaEnums.Proofs.Schema.Between

namespace SchemaEnums.Schema

open Source Spacing

/-- A block without its items, and the items that stand before and behind it. -/
structure Layer (ν : Type) where
  before : List (Item ν)
  span : Span
  head : Head
  after : List (Item ν)

section

variable {ν : Type}

/-- The items with the given list inside the innermost layer. -/
def fill (layers : List (Layer ν)) (items : List (Item ν)) : List (Item ν) :=
  layers.foldr (fun l inner => l.before ++ .block l.span l.head inner :: l.after) items

/-- The kind of the body in the innermost layer. Around the layers stands a body of the kind `b`. -/
def bodyIn (b : Option BlockKind) (layers : List (Layer ν)) : Option BlockKind :=
  layers.foldl (fun _ l => some l.head.kind) b

@[simp] theorem fill_cons (l : Layer ν) (layers : List (Layer ν)) (items : List (Item ν)) :
    fill (l :: layers) items = l.before ++ .block l.span l.head (fill layers items) :: l.after := rfl

theorem map_unplaced_fill_congr (layers : List (Layer ν)) {items items' : List (Item ν)}
    (h : items.map Item.unplaced = items'.map Item.unplaced) :
    (fill layers items).map Item.unplaced = (fill layers items').map Item.unplaced := by
  induction layers with
  | nil => exact h
  | cons l layers ih => simp [ih]

@[simp] theorem bodyIn_cons (b : Option BlockKind) (l : Layer ν) (layers : List (Layer ν)) :
    bodyIn b (l :: layers) = bodyIn (some l.head.kind) layers := rfl

theorem standsIn_of_fill {b : Option BlockKind} {layers : List (Layer ν)} {items : List (Item ν)}
    (h : ∀ item ∈ fill layers items, item.StandsIn b) :
    ∀ item ∈ items, item.StandsIn (bodyIn b layers) := by
  induction layers generalizing b with
  | nil => exact h
  | cons l layers ih =>
    have hblock : (Item.block l.span l.head (fill layers items)).StandsIn b := h _ (by simp)
    cases hblock with
    | block hhead hinner => exact ih hinner

end

/-- What stands around a list of items in a body of the kind `b` that begins at `p`: the text `pre` in
front of the list and the text `post` behind it. -/
structure Hole (b : Option BlockKind) (p : Position) (layers : List (Layer String))
    (pre post : List Char) : Prop where
  /-- The parser comes to the front of the list. -/
  reaches : ∀ (frames : List Frame) (before : List (Item String)) (source ds : List Char),
    kindOf frames = b → ∃ frames' before', kindOf frames' = bodyIn b layers ∧
      Reaches source { frames, items := before, stage := .between (front b) } p (pre ++ ds)
        { frames := frames', items := before', stage := .between (front (bodyIn b layers)) }
        (p.advance pre) ds
  /-- Any list of items may be put in. Fillers behind it may come to stand behind all items. -/
  refill : ∀ {t : List Char} {items : List (Item String)} {y : Context} (gs : List Filler),
    Body (bodyIn b layers) (front (bodyIn b layers)) (p.advance pre) t items y →
      ∃ u gs' items' z, pre ++ (t ++ (Filler.text gs ++ post)) = u ++ Filler.text gs' ∧
        Body b (front b) p u items' z ∧
        items'.map Item.unplaced = (fill layers items).map Item.unplaced

section

variable {b : Option BlockKind} {x y : Context} {p q : Position} {t u us pre post : List Char}
  {items before after : List (Item String)} {layers : List (Layer String)} {head : Head} {span : Span}

theorem Hole.nil (b : Option BlockKind) (p : Position) : Hole b p [] [] [] where
  reaches frames before source ds hb := ⟨frames, before, hb, .refl⟩
  refill {t items y} gs hbody := ⟨t, gs, items, y, by simp, hbody, rfl⟩

/-- A hole in the body of a block is one in the body that the block stands in. -/
theorem Hole.cons (fs gs : List Filler) (hbefore : Body b (front b) p u before x)
    (hopen : Opening b x ((p.advance u).advance (Filler.text fs)) t (.openBlock head))
    (hafter : Body b head.kind.closed q us after y)
    (hinner : Hole (some head.kind) (((p.advance u).advance (Filler.text fs)).advance t) layers pre
      post) :
    Hole b p ({ before, span, head, after } :: layers) (u ++ (Filler.text fs ++ (t ++ pre)))
      (post ++ (Filler.text gs ++ '\x7d' :: us)) where
  reaches frames before₀ source ds hb := by
    obtain ⟨frames', before', hkind, hreaches⟩ := hinner.reaches
      ({ head, first := (p.advance u).advance (Filler.text fs)
         before := before.reverse ++ before₀ } :: frames) [] source ds rfl
    refine ⟨frames', before', hkind, ?_⟩
    simp only [Position.advance_append, List.append_assoc]
    exact (hbefore.reaches hb).trans
      ((reaches_fillers fs).trans ((hopen.reaches hb rfl).trans hreaches))
  refill {t' items y'} gs₀ hbody := by
    simp only [Position.advance_append] at hbody
    obtain ⟨v, gs', items', z, htext, hbody', hitems⟩ := hinner.refill gs₀ hbody
    have hblock : ItemText b x ((p.advance u).advance (Filler.text fs))
        (t ++ (v ++ (Filler.text (gs' ++ gs) ++ ['\x7d']))) (.block _ head items') :=
      ⟨rfl, t, v, gs' ++ gs, z, rfl, hopen, hbody'⟩
    obtain ⟨after', hafter', hmap⟩ := hafter.move
      (((p.advance u).advance (Filler.text fs)).advance
        (t ++ (v ++ (Filler.text (gs' ++ gs) ++ ['\x7d']))))
    -- The fillers behind the list now stand in front of the closing brace, so none is left over.
    refine ⟨_, [], _, y, ?_, hbefore.append (.cons fs hblock hafter'), by simp [hitems, hmap]⟩
    have hbehind := congrArg (· ++ (Filler.text gs ++ '\x7d' :: us)) htext
    simp only [List.append_assoc] at hbehind
    simp only [List.append_assoc, Filler.text_append, hbehind]
    simp [Filler.text]

/-- A list of items may be taken out of the text. -/
theorem Body.exists_hole (h : Body b (front b) p t (fill layers items) y) :
    ∃ pre u post z, t = pre ++ (u ++ post) ∧
      Body (bodyIn b layers) (front (bodyIn b layers)) (p.advance pre) u items z ∧
      Hole b p layers pre post := by
  induction layers generalizing b p t y with
  | nil => exact ⟨[], t, [], y, by simp, h, .nil b p⟩
  | cons l layers ih =>
    obtain ⟨v, w, x, rfl, hbefore, hback⟩ := h.exists_append
    obtain ⟨fs, s, us, rfl, hitem, hafter⟩ := hback.cases_cons
    obtain ⟨-, r, ts, gs, z, rfl, hopen, hbody⟩ := hitem
    obtain ⟨pre, u, post, z', rfl, hinner, hhole⟩ := ih hbody
    refine ⟨_, u, _, z', ?_, ?_, .cons fs gs hbefore hopen hafter hhole⟩
    · simp
    · simpa only [Position.advance_append, bodyIn_cons] using hinner

end

section

variable {ν μ ε : Type} {f : ν → Except ε μ} {item : Item ν} {item' : Item μ} {items : List (Item ν)}
  {items' : List (Item μ)} {layers' : List (Layer μ)}

/-- The second item is the first one with its integers given values. -/
def Item.Becomes (f : ν → Except ε μ) (item : Item ν) (item' : Item μ) : Prop :=
  item.mapM f = .ok item'

theorem Item.mapList_eq_ok_iff :
    Item.mapList f items = .ok items' ↔ List.Forall₂ (Item.Becomes f) items items' := by
  constructor
  · intro h
    induction items generalizing items' with
    | nil =>
      rw [Item.mapList] at h
      cases h
      exact .nil
    | cons item items ih =>
      rw [Item.mapList] at h
      obtain ⟨item', hitem, h⟩ := bind_eq_ok h
      obtain ⟨rest, hrest, h⟩ := bind_eq_ok h
      cases h
      exact .cons hitem (ih hrest)
  · intro h
    induction h with
    | nil => rw [Item.mapList]; rfl
    | cons hitem _ ih =>
      rw [Item.mapList, show Item.mapM f _ = _ from hitem, ih]
      rfl

theorem Item.Becomes.follow_eq (h : item.Becomes f item') : item'.follow = item.follow := by
  cases item with
  | statement span s =>
    rw [Item.Becomes, Item.mapM] at h
    obtain ⟨s', hs', h⟩ := bind_eq_ok h
    cases h
    exact (Statement.of_mapM (b := none) hs').1
  | block span head items =>
    rw [Item.Becomes, Item.mapM] at h
    obtain ⟨items', -, h⟩ := bind_eq_ok h
    cases h
    rfl

theorem Item.Becomes.exists_block {span : Span} {head : Head}
    (h : item.Becomes f (.block span head items')) :
    ∃ items, item = .block span head items ∧ List.Forall₂ (Item.Becomes f) items items' := by
  cases item with
  | statement span' s =>
    rw [Item.Becomes, Item.mapM] at h
    obtain ⟨s', -, h⟩ := bind_eq_ok h
    cases h
  | block span' head' items =>
    rw [Item.Becomes, Item.mapM] at h
    obtain ⟨items'', hitems, h⟩ := bind_eq_ok h
    cases h
    exact ⟨items, rfl, Item.mapList_eq_ok_iff.1 hitems⟩

theorem Item.Becomes.block (span : Span) (head : Head)
    (h : List.Forall₂ (Item.Becomes f) items items') :
    Item.Becomes f (.block span head items) (.block span head items') := by
  rw [Item.Becomes, Item.mapM, Item.mapList_eq_ok_iff.2 h]
  rfl

/-- The layers around a list keep what they are when the integers are given values. -/
theorem exists_fill_of_forall₂ {all : List (Item ν)} (b : Option BlockKind)
    (h : List.Forall₂ (Item.Becomes f) all (fill layers' items')) :
    ∃ layers items, all = fill layers items ∧ List.Forall₂ (Item.Becomes f) items items' ∧
      bodyIn b layers = bodyIn b layers' ∧
      ∀ {order order'}, List.Forall₂ (Item.Becomes f) order order' →
        List.Forall₂ (Item.Becomes f) (fill layers order) (fill layers' order') := by
  induction layers' generalizing all b with
  | nil => exact ⟨[], all, rfl, h, rfl, id⟩
  | cons l layers' ih =>
    have hbefore := List.forall₂_take_append all _ _ h
    obtain ⟨item, after, hblock, hafter, hdrop⟩ :=
      List.forall₂_cons_right_iff.1 (List.forall₂_drop_append all _ _ h)
    obtain ⟨inner, rfl, hinner⟩ := hblock.exists_block
    obtain ⟨layers, items, rfl, hitems, hbody, hfill⟩ := ih (some l.head.kind) hinner
    refine ⟨{ before := all.take l.before.length, span := l.span, head := l.head, after } :: layers,
      items, ?_, hitems, hbody, fun horder => ?_⟩
    · rw [fill_cons, ← hdrop, List.take_append_drop]
    · exact List.rel_append hbefore (.cons (.block l.span l.head (hfill horder)) hafter)

end

end SchemaEnums.Schema
