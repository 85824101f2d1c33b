import Mathlib.Data.List.Perm.Basic
import SchemaEnums.Proofs.Schema.Hole

namespace SchemaEnums.Schema

open Source Spacing

section

variable {ν : Type}

/-- The text of an item. -/
def Item.slice (source : List Char) (item : Item ν) : List Char :=
  (source.take item.span.stop.offset).drop item.span.start.offset

/-- The texts of items, each on a line of its own. -/
def lines (source : List Char) (items : List (Item ν)) : List Char :=
  items.flatMap fun item => '\n' :: item.slice source

/-- The text with the items `order` in place of the list `items`, each on a line of its own. -/
def rearrange (source : List Char) (items order : List (Item ν)) : List Char :=
  match (items.map Item.span).head?, (items.map Item.span).getLast? with
  | some first, some last =>
    source.take first.start.offset ++ (lines source order ++ '\n' :: source.drop last.stop.offset)
  | _, _ => source

/-- Holds if each of the items may begin in the context behind the one before it, and the first one in
the context `x`. -/
def opensInTurn (source : List Char) (b : Option BlockKind) : Context → List (Item ν) → Bool
  | _, [] => true
  | x, item :: items => opens b x (item.slice source) && opensInTurn source b item.follow items

end

section

variable {b : Option BlockKind} {x y : Context} {p : Position} {t pre post source : List Char}
  {item : Item String} {items order : List (Item String)}

theorem ItemText.span_eq (h : ItemText b x p t item) :
    item.span = { start := p, stop := p.advance t } := by
  cases item with
  | statement span s => exact h.1
  | block span head inner => exact h.1

theorem ItemText.standsIn (h : ItemText b x p t item) : item.StandsIn b := by
  have hbody : Body b x p (Filler.text [] ++ (t ++ [])) [item] item.follow := .cons [] h .nil
  exact hbody.standsIn item (List.mem_singleton_self item)

theorem ItemText.slice_eq (h : ItemText b x p t item) (hsource : source = pre ++ (t ++ post))
    (hp : p.offset = pre.length) : item.slice source = t := by
  have hlength : (p.advance t).offset = (pre ++ t).length := by simp [hp]
  rw [Item.slice, h.span_eq, hsource]
  simp only [hlength, hp]
  rw [← List.append_assoc, List.take_left, List.drop_left]

/-- Holds if the text is the item, wherever it stands in a list of the kind `b`. -/
def Item.IsText (b : Option BlockKind) (t : List Char) (item : Item String) : Prop :=
  ∃ x p, Between b x ∧ ItemText b x p t item

theorem Item.IsText.between_follow (h : item.IsText b t) : Between b item.follow := by
  obtain ⟨x, p, -, htext⟩ := h
  exact .behind htext.standsIn

theorem Item.IsText.exists_itemText (h : item.IsText b t) (hx : Between b x)
    (hopens : opens b x t = true) (q : Position) :
    ∃ item', ItemText b x q t item' ∧ item'.unplaced = item.unplaced := by
  obtain ⟨y, p, hy, htext⟩ := h
  refine htext.move (fun ht hopen => ?_) q
  rw [ht] at hopens
  exact hopen.of_opens hy hx hopens

/-- A text of an item ends with a mark. -/
theorem ItemText.exists_concat (h : ItemText b x p t item) :
    ∃ u c kind, t = u ++ [c] ∧ Lexeme.mark? c = some kind := by
  cases item with
  | statement span s =>
    obtain ⟨-, hopen⟩ := h
    cases hopen with
    | single hc hbegin hm => exact ⟨[], _, _, rfl, hc⟩
    | @go kind t cs P m hfinds hbegin hrest =>
      obtain ⟨u, c, mark, rfl, hc⟩ := hrest.exists_concat
      exact ⟨t ++ u, c, mark, by simp, hc⟩
  | block span head inner =>
    obtain ⟨-, h, ts, gs, z, rfl, -⟩ := h
    exact ⟨h ++ (ts ++ Filler.text gs), '\x7d', .closeBrace, by simp, rfl⟩

theorem ItemText.ne_nil (h : ItemText b x p t item) : t ≠ [] := by
  obtain ⟨u, c, kind, rfl, -⟩ := h.exists_concat
  simp

/-- The items of a list are the texts that they are said to be. -/
theorem Body.isText_slice (h : Body b x p t items y) (hx : Between b x)
    (hsource : source = pre ++ (t ++ post)) (hp : p.offset = pre.length) :
    ∀ item ∈ items, item.IsText b (item.slice source) := by
  induction items generalizing x p t pre with
  | nil => simp
  | cons item items ih =>
    obtain ⟨fs, u, us, rfl, hitem, hrest⟩ := h.cases_cons
    have hitemText : source = (pre ++ Filler.text fs) ++ (u ++ (us ++ post)) := by simp [hsource]
    have hrestText : source = (pre ++ (Filler.text fs ++ u)) ++ (us ++ post) := by simp [hsource]
    have hslice : item.slice source = u := hitem.slice_eq hitemText (by simp [hp])
    refine List.forall_mem_cons.2 ⟨⟨x, _, hx, hslice ▸ hitem⟩, ?_⟩
    exact ih hrest (.behind hitem.standsIn) hrestText (by simp [hp, Nat.add_assoc])

/-- Where the items of a list begin and end. -/
theorem Body.exists_fillers (h : Body b x p t items y) {first last : Item String}
    (hfirst : items.head? = some first) (hlast : items.getLast? = some last) :
    ∃ fs u, t = Filler.text fs ++ u ∧ first.span.start = p.advance (Filler.text fs) ∧
      last.span.stop = p.advance t := by
  induction items generalizing x p t first with
  | nil => cases hfirst
  | cons item items ih =>
    obtain ⟨fs, u, us, rfl, hitem, hrest⟩ := h.cases_cons
    cases hfirst
    refine ⟨fs, u ++ us, rfl, congrArg Span.start hitem.span_eq, ?_⟩
    cases items with
    | nil =>
      obtain rfl : item = last := Option.some.inj hlast
      cases hrest
      rw [hitem.span_eq, List.append_nil, Position.advance_append]
    | cons next items =>
      obtain ⟨gs, v, -, -, hstop⟩ := ih hrest rfl (by simpa using hlast)
      rw [hstop, Position.advance_append, Position.advance_append]

theorem Body.fillers (fs : List Filler)
    (h : Body b x (p.advance (Filler.text fs)) t (item :: items) y) :
    Body b x p (Filler.text fs ++ t) (item :: items) y := by
  obtain ⟨gs, u, us, rfl, hitem, hrest⟩ := h.cases_cons
  have hfillers : (p.advance (Filler.text fs)).advance (Filler.text gs) =
      p.advance (Filler.text (fs ++ gs)) := by
    rw [Filler.text_append, Position.advance_append]
  rw [hfillers] at hitem
  rw [hfillers] at hrest
  have hbody := Body.cons (fs ++ gs) hitem hrest
  rwa [Filler.text_append, List.append_assoc] at hbody

/-- The line feed in front of an item. -/
def lineFeed : Filler := .blank '\n' rfl

/-- Items that may begin one behind the other are a list of items. -/
theorem exists_body_lines (horder : ∀ item ∈ order, item.IsText b (item.slice source))
    (hx : Between b x) (hopens : opensInTurn source b x order = true) (q : Position) :
    ∃ items y, Body b x q (lines source order) items y ∧
      items.map Item.unplaced = order.map Item.unplaced := by
  induction order generalizing x q with
  | nil => exact ⟨[], x, .nil, rfl⟩
  | cons item order ih =>
    obtain ⟨hitem, horder⟩ := List.forall_mem_cons.1 horder
    obtain ⟨hfirst, hrest⟩ := Bool.and_eq_true_iff.1 hopens
    obtain ⟨item', htext, hunplaced⟩ :=
      hitem.exists_itemText hx hfirst (q.advance (Filler.text [lineFeed]))
    obtain ⟨items, y, hbody, hitems⟩ := ih horder hitem.between_follow hrest
      ((q.advance (Filler.text [lineFeed])).advance (item.slice source))
    rw [← Item.follow_congr hunplaced] at hbody
    exact ⟨item' :: items, y, .cons [lineFeed] htext hbody, by simp [hunplaced, hitems]⟩

theorem Opening.opens {m : Move} (h : Opening b x p t m) (ds : List Char) :
    opens b x (t ++ ds) = true := by
  cases h with
  | single hc hbegin hm => exact opens_iff.2 ⟨_, _, Context.finds_mark x hc [] ds, hbegin⟩
  | go hfinds hbegin hrest =>
    rw [List.append_assoc]
    exact opens_iff.2 ⟨_, _, hfinds ds, hbegin⟩

theorem ItemText.opens (h : ItemText b x p t item) (ds : List Char) :
    opens b x (t ++ ds) = true := by
  cases item with
  | statement span s => exact h.2.opens ds
  | block span head inner =>
    obtain ⟨-, u, ts, gs, z, rfl, hopen, -⟩ := h
    rw [List.append_assoc]
    exact hopen.opens _

theorem Item.IsText.opens_front (h : item.IsText b t) : opens b (front b) t = true := by
  obtain ⟨x, p, hx, htext⟩ := h
  have hopens := htext.opens []
  rw [List.append_nil] at hopens
  exact hx.opens_front hopens

/-- The parser accepts an item only where it may begin. -/
theorem opens_of_run {frames : List Frame} {before : List (Item String)} {comments : List Comment}
    {last : Position} {ds : List Char} {r : Schema String} (hitem : item.IsText b t)
    (hb : kindOf frames = b)
    (h : run source { frames, items := before, stage := .between x } comments last p (t ++ ds) =
      .ok r) :
    opens b x t = true := by
  obtain ⟨y, q, -, htext⟩ := hitem
  obtain ⟨u, c, kind, rfl, hmark⟩ := htext.exists_concat
  obtain ⟨l, -, hl, -⟩ := opens_iff.1 (htext.opens ds)
  -- The parser reads on to the end of the text; the mark cuts off what stands behind the item.
  have hopens : opens b x (u ++ c :: ds) = true := by
    rw [List.append_assoc, List.singleton_append] at hl h
    obtain ⟨d, es, hd⟩ := List.exists_cons_of_ne_nil (List.append_ne_nil_of_right_ne_nil u
      (List.cons_ne_nil c ds))
    rw [hd] at hl h ⊢
    obtain ⟨hspace, hslash⟩ := begins_of_read? hl
    rw [run_eq, read_of_ne hspace hslash] at h
    simp only at h
    split at h
    next => cases h
    next l' hread =>
      split at h
      next => cases h
      next s' hnext =>
        obtain ⟨m, hbegin, -⟩ := Option.bind_eq_some_iff.1 hnext
        have hbegin : begin? (kindOf frames) (tokenOf l' p) = some m := hbegin
        exact opens_iff.2 ⟨l', m, hread, hb ▸ hbegin⟩
  exact opens_of_append hmark hopens

/-- The parser accepts items only if they may begin one behind the other. -/
theorem opensInTurn_of_run {frames : List Frame} {before : List (Item String)}
    {comments : List Comment} {last : Position} {ds source' : List Char} {r : Schema String}
    (horder : ∀ item ∈ order, item.IsText b (item.slice source)) (hx : Between b x)
    (hb : kindOf frames = b)
    (h : run source' { frames, items := before, stage := .between x } comments last p
      (lines source order ++ ds) = .ok r) :
    opensInTurn source b x order = true := by
  induction order generalizing x p before comments last with
  | nil => rfl
  | cons item order ih =>
    obtain ⟨hitem, horder⟩ := List.forall_mem_cons.1 horder
    have htext : lines source (item :: order) ++ ds =
        '\n' :: (item.slice source ++ (lines source order ++ ds)) := by
      simp [lines]
    rw [htext, run_space rfl] at h
    have hopens := opens_of_run hitem hb h
    obtain ⟨item', hitem', hunplaced⟩ := hitem.exists_itemText hx hopens (p.next '\n')
    have hbody : Body b x (p.next '\n') (Filler.text [] ++ (item.slice source ++ [])) [item']
        item'.follow := .cons [] hitem' .nil
    rw [List.append_nil] at hbody
    have hreaches : Reaches source' { frames, items := before, stage := .between x } (p.next '\n')
        (item.slice source ++ (lines source order ++ ds))
        { frames, items := item' :: before, stage := .between item'.follow }
        ((p.next '\n').advance (item.slice source)) (lines source order ++ ds) :=
      hbody.reaches hb
    obtain ⟨comments', last', hrun⟩ := hreaches comments last
    rw [Item.follow_congr hunplaced] at hrun
    exact Bool.and_eq_true_iff.2 ⟨hopens, ih horder hitem.between_follow (hrun.symm.trans h)⟩

/-- What stands around a list of items stays as it is when they are put in another order. -/
theorem Body.exists_rearrange (h : Body b x p t items y) (hsource : source = pre ++ (t ++ post))
    (hp : p.offset = pre.length) (hne : items ≠ []) :
    ∃ fs, ∀ order, rearrange source items order =
      pre ++ (Filler.text fs ++ (lines source order ++ '\n' :: post)) := by
  obtain ⟨first, hfirst⟩ := Option.isSome_iff_exists.1 (List.isSome_head?.2 hne)
  obtain ⟨last, hlast⟩ := Option.isSome_iff_exists.1 (List.getLast?_isSome.2 hne)
  obtain ⟨fs, u, rfl, hstart, hstop⟩ := h.exists_fillers hfirst hlast
  have htake : source.take first.span.start.offset = pre ++ Filler.text fs := by
    have hoffset : first.span.start.offset = (pre ++ Filler.text fs).length := by simp [hstart, hp]
    have hsource : source = (pre ++ Filler.text fs) ++ (u ++ post) := by simp [hsource]
    rw [hoffset, hsource, List.take_left]
  have hdrop : source.drop last.span.stop.offset = post := by
    have hoffset : last.span.stop.offset = (pre ++ (Filler.text fs ++ u)).length := by
      simp [hstop, hp]
    have hsource : source = (pre ++ (Filler.text fs ++ u)) ++ post := by simp [hsource]
    rw [hoffset, hsource, List.drop_left]
  refine ⟨fs, fun order => ?_⟩
  simp only [rearrange, List.head?_map, List.getLast?_map, hfirst, hlast, Option.map_some, htake,
    hdrop, List.append_assoc]

variable {layers : List (Layer String)} {comments : List Comment}

/-- A list of items of a text, what stands around it, and the gap at the end. -/
theorem exists_hole_of_parseLiterals
    (h : parseLiterals source = .ok { items := fill layers items, comments }) :
    ∃ pre u post ds z, source = pre ++ (u ++ (post ++ ds)) ∧
      Body (bodyIn none layers) (front (bodyIn none layers)) (Position.advance {} pre) u items z ∧
      Hole none {} layers pre post ∧ ∀ p, (Gap.read p ds).rest = [] := by
  obtain ⟨t, ds, y, rfl, hbody, hgap⟩ := exists_parseLiterals_iff.1 ⟨comments, h⟩
  obtain ⟨pre, u, post, z, rfl, hinner, hhole⟩ := hbody.exists_hole
  exact ⟨pre, u, post, ds, z, by simp, hinner, hhole, fun p => (rest_read_congr p _ ds).trans hgap⟩

theorem isText_of_parseLiterals
    (h : parseLiterals source = .ok { items := fill layers items, comments }) :
    ∀ item ∈ items, item.IsText (bodyIn none layers) (item.slice source) := by
  obtain ⟨pre, u, post, ds, z, hsource, hbody, -⟩ := exists_hole_of_parseLiterals h
  exact hbody.isText_slice .atFront hsource (by simp)

/-- In the new order the items are accepted if they may begin one behind the other. -/
theorem exists_parseLiterals_rearrange
    (h : parseLiterals source = .ok { items := fill layers items, comments })
    (hperm : items.Perm order)
    (hopens : opensInTurn source (bodyIn none layers) (front (bodyIn none layers)) order = true) :
    ∃ r, parseLiterals (rearrange source items order) = .ok r ∧
      r.items.map Item.unplaced = (fill layers order).map Item.unplaced := by
  cases items with
  | nil =>
    obtain rfl := hperm.nil_eq
    exact ⟨_, h, rfl⟩
  | cons first items =>
    obtain ⟨pre, u, post, ds, z, hsource, hinner, hhole, hgap⟩ := exists_hole_of_parseLiterals h
    obtain ⟨fs, htext⟩ := hinner.exists_rearrange hsource (by simp) (List.cons_ne_nil first items)
    -- The fillers in front of the list need an item behind them, and there is one in any order.
    cases order with
    | nil => cases hperm.eq_nil
    | cons item order =>
      have horder : ∀ i ∈ item :: order, i.IsText (bodyIn none layers) (i.slice source) :=
        fun i hi => isText_of_parseLiterals h i (hperm.mem_iff.2 hi)
      obtain ⟨items', y, hbody, hunplaced⟩ := exists_body_lines horder .atFront hopens
        ((Position.advance {} pre).advance (Filler.text fs))
      obtain ⟨item', items', rfl⟩ : ∃ i is, items' = i :: is :=
        List.exists_cons_of_ne_nil (by rintro rfl; cases hunplaced)
      obtain ⟨v, gs, filled, z', hv, hfilled, hmap⟩ := hhole.refill [lineFeed] (hbody.fillers fs)
      obtain ⟨comments', hparse⟩ := exists_parseLiterals_iff.2 ⟨v, Filler.text gs ++ ds, z', rfl,
        hfilled, (rest_read_fillers gs _ ds).trans (hgap _)⟩
      refine ⟨{ items := filled, comments := comments' }, ?_,
        hmap.trans (map_unplaced_fill_congr layers hunplaced)⟩
      have hnew : rearrange source (first :: items) (item :: order) = v ++ (Filler.text gs ++ ds) := by
        have hbehind := congrArg (· ++ ds) hv
        simp only [List.append_assoc] at hbehind
        rw [htext, ← hbehind]
        rfl
      rw [hnew, hparse]

theorem opensInTurn_of_parseLiterals {r : Schema String}
    (h : parseLiterals source = .ok { items := fill layers items, comments })
    (hperm : items.Perm order) (hr : parseLiterals (rearrange source items order) = .ok r) :
    opensInTurn source (bodyIn none layers) (front (bodyIn none layers)) order = true := by
  cases items with
  | nil =>
    obtain rfl := hperm.nil_eq
    rfl
  | cons first items =>
    obtain ⟨pre, u, post, ds, z, hsource, hinner, hhole, -⟩ := exists_hole_of_parseLiterals h
    obtain ⟨fs, htext⟩ := hinner.exists_rearrange hsource (by simp) (List.cons_ne_nil first items)
    obtain ⟨frames, before, hkind, hreaches⟩ := hhole.reaches [] []
      (rearrange source (first :: items) order)
      (Filler.text fs ++ (lines source order ++ ('\n' :: (post ++ ds)))) rfl
    obtain ⟨comments', last, hrun⟩ := hreaches [] {}
    -- What stands in front of the list is as before, so the parser comes to the items in any case.
    rw [← htext, run_fillers] at hrun
    exact opensInTurn_of_run (fun i hi => isText_of_parseLiterals h i (hperm.mem_iff.2 hi)) .atFront
      hkind (hrun.symm.trans hr)

end

section

variable {ν μ ε : Type} {f : ν → Except ε μ} {source : List Char} {item : Item ν} {item' : Item μ}
  {items order : List (Item ν)} {items' order' : List (Item μ)}

theorem Item.Becomes.slice_eq (h : item.Becomes f item') :
    item'.slice source = item.slice source := by
  rw [Item.slice, Item.slice, Item.span_of_mapM h]

theorem forall_slice_of_forall₂ (P : List Char → Prop)
    (h : List.Forall₂ (Item.Becomes f) items items') (hP : ∀ item ∈ items, P (item.slice source)) :
    ∀ item' ∈ items', P (item'.slice source) := by
  induction h with
  | nil => simp
  | cons hitem _ ih =>
    obtain ⟨hfirst, hP⟩ := List.forall_mem_cons.1 hP
    exact List.forall_mem_cons.2 ⟨hitem.slice_eq ▸ hfirst, ih hP⟩

theorem lines_congr (h : List.Forall₂ (Item.Becomes f) order order') :
    lines source order' = lines source order := by
  induction h with
  | nil => rfl
  | cons hitem _ ih =>
    simp only [lines, List.flatMap_cons, hitem.slice_eq] at ih ⊢
    rw [ih]

theorem rearrange_congr (hitems : List.Forall₂ (Item.Becomes f) items items')
    (horder : List.Forall₂ (Item.Becomes f) order order') :
    rearrange source items' order' = rearrange source items order := by
  have hspans : items'.map Item.span = items.map Item.span := by
    induction hitems with
    | nil => rfl
    | cons hitem _ ih => rw [List.map_cons, List.map_cons, Item.span_of_mapM hitem, ih]
  rw [rearrange, rearrange, hspans, lines_congr horder]

theorem opensInTurn_congr {b : Option BlockKind} {x : Context}
    (h : List.Forall₂ (Item.Becomes f) order order') :
    opensInTurn source b x order' = opensInTurn source b x order := by
  induction h generalizing x with
  | nil => rfl
  | cons hitem _ ih => rw [opensInTurn, opensInTurn, hitem.slice_eq, hitem.follow_eq, ih]

end

mutual

def Item.decEq {ν : Type} [DecidableEq ν] : (item item' : Item ν) → Decidable (item = item')
  | .statement span s, .statement span' s' =>
    decidable_of_iff (span = span' ∧ s = s') (by simp)
  | .block span head items, .block span' head' items' =>
    have := Item.decEqList items items'
    decidable_of_iff (span = span' ∧ head = head' ∧ items = items') (by simp)
  | .statement _ _, .block _ _ _ => isFalse nofun
  | .block _ _ _, .statement _ _ => isFalse nofun

def Item.decEqList {ν : Type} [DecidableEq ν] : (items items' : List (Item ν)) →
    Decidable (items = items')
  | [], [] => isTrue rfl
  | item :: items, item' :: items' =>
    have := Item.decEq item item'
    have := Item.decEqList items items'
    decidable_of_iff (item = item' ∧ items = items') (by simp)
  | [], _ :: _ => isFalse nofun
  | _ :: _, [] => isFalse nofun

end

instance {ν : Type} [DecidableEq ν] : DecidableEq (Item ν) := Item.decEq

deriving instance DecidableEq for SchemaEnums.Schema

section

variable {text : String} {s : Schema Int} {layers : List (Layer Int)} {items order : List (Item Int)}

/-- The items of a schema before their integers are given values. -/
theorem exists_parseLiterals_of_parse (hparse : parse text = .ok s)
    (hitems : s.items = fill layers items) :
    ∃ layers' items' comments,
      parseLiterals text.toList = .ok { items := fill layers' items', comments } ∧
      List.Forall₂ (Item.Becomes literalValue) items' items ∧
      bodyIn none layers' = bodyIn none layers ∧
      ∀ {order' order}, List.Forall₂ (Item.Becomes literalValue) order' order →
        List.Forall₂ (Item.Becomes literalValue) (fill layers' order') (fill layers order) := by
  obtain ⟨literals, hliterals, hevaluate⟩ := bind_eq_ok hparse
  obtain ⟨valued, hvalued, hs⟩ := bind_eq_ok hevaluate
  cases hs
  obtain rfl : valued = fill layers items := hitems
  obtain ⟨layers', items', hall, hitems', hbody, hfill⟩ :=
    exists_fill_of_forall₂ none (Item.mapList_eq_ok_iff.1 hvalued)
  refine ⟨layers', items', literals.comments, ?_, hitems', hbody, hfill⟩
  rw [hliterals, ← hall]

/-- The literals of a schema may be put in the order of its numbers before they are given values. -/
theorem exists_order_of_parse (hparse : parse text = .ok s) (hitems : s.items = fill layers items)
    (hperm : items.Perm order) :
    ∃ layers' items' order' comments,
      parseLiterals text.toList = .ok { items := fill layers' items', comments } ∧
      items'.Perm order' ∧
      List.Forall₂ (Item.Becomes literalValue) (fill layers' order') (fill layers order) ∧
      rearrange text.toList items order = rearrange text.toList items' order' ∧
      opensInTurn text.toList (bodyIn none layers) (front (bodyIn none layers)) order =
        opensInTurn text.toList (bodyIn none layers') (front (bodyIn none layers')) order' := by
  obtain ⟨layers', items', comments, hliterals, hitems', hbody, hfill⟩ :=
    exists_parseLiterals_of_parse hparse hitems
  obtain ⟨order', hperm', horder'⟩ :
      Relation.Comp List.Perm (List.Forall₂ (Item.Becomes literalValue)) items' order := by
    rw [← List.forall₂_comp_perm_eq_perm_comp_forall₂]
    exact ⟨items, hitems', hperm⟩
  refine ⟨layers', items', order', comments, hliterals, hperm', hfill horder',
    rearrange_congr hitems' horder', ?_⟩
  rw [hbody]
  exact opensInTurn_congr horder'

/-- Every item of a list may stand at its front. -/
theorem opens_front_of_parse (hparse : parse text = .ok s) (hitems : s.items = fill layers items) :
    ∀ item ∈ items,
      opens (bodyIn none layers) (front (bodyIn none layers)) (item.slice text.toList) = true := by
  obtain ⟨layers', items', comments, hliterals, hitems', hbody, -⟩ :=
    exists_parseLiterals_of_parse hparse hitems
  rw [← hbody]
  exact forall_slice_of_forall₂ (opens _ _ · = true) hitems' fun i hi =>
    (isText_of_parseLiterals hliterals i hi).opens_front

/-- In the new order the items are accepted, with their numbers, if they may begin one behind the
other. -/
theorem exists_parse_rearrange (hparse : parse text = .ok s) (hitems : s.items = fill layers items)
    (hperm : items.Perm order)
    (hopens : opensInTurn text.toList (bodyIn none layers) (front (bodyIn none layers)) order = true) :
    ∃ r, parse (String.ofList (rearrange text.toList items order)) = .ok r ∧
      r.items.map Item.unplaced = (fill layers order).map Item.unplaced := by
  obtain ⟨layers', items', order', comments, hliterals, hperm', hvalued, htext, hturn⟩ :=
    exists_order_of_parse hparse hitems hperm
  obtain ⟨literals, hread, hunplaced⟩ :=
    exists_parseLiterals_rearrange hliterals hperm' (hturn.symm.trans hopens)
  have hevaluate : evaluate { items := fill layers' order', comments := literals.comments } =
      .ok { items := fill layers order, comments := literals.comments } := by
    rw [evaluate, Item.mapList_eq_ok_iff.2 hvalued]
    rfl
  obtain ⟨r, hr, hmap, -⟩ := exists_evaluate_of_unplaced hunplaced.symm hevaluate
  refine ⟨r, ?_, hmap.symm⟩
  rw [parse, String.toList_ofList, htext, hread]
  exact hr

theorem opensInTurn_of_betweenItems {source : List Char} {b : Option BlockKind} {x : Context}
    (hx : Between b x) (horder : ∀ item ∈ order, item.StandsIn b)
    (hopens : ∀ item ∈ order, opens b betweenItems (item.slice source) = true) :
    opensInTurn source b x order = true := by
  induction order generalizing x with
  | nil => rfl
  | cons item order ih =>
    obtain ⟨hstands, horder⟩ := List.forall_mem_cons.1 horder
    obtain ⟨hfirst, hopens⟩ := List.forall_mem_cons.1 hopens
    exact Bool.and_eq_true_iff.2
      ⟨hx.opens_of_betweenItems hfirst, ih (.behind hstands) horder hopens⟩

/-- Items that read alike in all contexts of their list may begin behind each other. -/
theorem opensInTurn_of_readsAlike (hparse : parse text = .ok s) (hitems : s.items = fill layers items)
    (hperm : items.Perm order)
    (halike : ∀ item ∈ items, ReadsAlike (bodyIn none layers) (item.slice text.toList)) :
    opensInTurn text.toList (bodyIn none layers) (front (bodyIn none layers)) order = true := by
  have hstands := standsIn_of_fill (hitems ▸ standsIn_of_parse hparse)
  refine opensInTurn_of_betweenItems .atFront (fun i hi => hstands i (hperm.mem_iff.2 hi)) ?_
  intro i hi
  have hmem := hperm.mem_iff.2 hi
  exact (opens_betweenItems_iff (opens_front_of_parse hparse hitems i hmem)).2 (halike i hmem)

/-- The items of a list may be put in any other order in which each of them may begin behind the one
before it, and in no other order: in any order at all if they read alike in all contexts of the list.
Then they are the old items in the new order, and nothing else of the schema changes. -/
theorem parse_rearrange_iff (hparse : parse text = .ok s) (hitems : s.items = fill layers items)
    (hperm : items.Perm order) :
    ((∃ r, parse (String.ofList (rearrange text.toList items order)) = .ok r) ↔
      opensInTurn text.toList (bodyIn none layers) (front (bodyIn none layers)) order = true) ∧
    ((∀ item ∈ items, ReadsAlike (bodyIn none layers) (item.slice text.toList)) →
      ∃ r, parse (String.ofList (rearrange text.toList items order)) = .ok r) ∧
    ∀ r, parse (String.ofList (rearrange text.toList items order)) = .ok r →
      r.items.map Item.unplaced = (fill layers order).map Item.unplaced ∧
      (outline r).unplaced = (outline { s with items := fill layers order }).unplaced := by
  have haccepts (h : opensInTurn text.toList (bodyIn none layers) (front (bodyIn none layers)) order =
      true) : ∃ r, parse (String.ofList (rearrange text.toList items order)) = .ok r := by
    obtain ⟨r, hr, -⟩ := exists_parse_rearrange hparse hitems hperm h
    exact ⟨r, hr⟩
  have hopens {r : Schema Int}
      (hr : parse (String.ofList (rearrange text.toList items order)) = .ok r) :
      opensInTurn text.toList (bodyIn none layers) (front (bodyIn none layers)) order = true := by
    obtain ⟨layers', items', order', comments, hliterals, hperm', -, htext, hturn⟩ :=
      exists_order_of_parse hparse hitems hperm
    obtain ⟨literals, hread, -⟩ := bind_eq_ok hr
    rw [String.toList_ofList, htext] at hread
    exact hturn.trans (opensInTurn_of_parseLiterals hliterals hperm' hread)
  refine ⟨⟨fun ⟨r, hr⟩ => hopens hr, haccepts⟩, fun halike => ?_, fun r hr => ?_⟩
  · exact haccepts (opensInTurn_of_readsAlike hparse hitems hperm halike)
  · obtain ⟨r', hr', hmap⟩ := exists_parse_rearrange hparse hitems hperm (hopens hr)
    obtain rfl : r = r' := Except.ok.inj (hr.symm.trans hr')
    exact ⟨hmap, unplaced_outline_congr hmap⟩

end

def keywordValue : String :=
  "enum E \x7b\nmessage = 0;\nA = 1;\noption a = 2;\n\x7d\nenum F \x7b\x7d"

namespace KeywordValue

def other : Item Int :=
  .block { start := { offset := 45, line := 6, column := 1 }
           stop := { offset := 54, line := 6, column := 10 } }
    { kind := .enum, name := "F", nameEnd := { offset := 51, line := 6, column := 7 } } []

def layer : Layer Int :=
  { before := []
    span := { start := {}, stop := { offset := 44, line := 5, column := 2 } }
    head := { kind := .enum, name := "E", nameEnd := { offset := 6, line := 1, column := 7 } }
    after := [other] }

def message : Item Int :=
  .statement { start := { offset := 9, line := 2, column := 1 }
               stop := { offset := 21, line := 2, column := 13 } } (.value "message" 0 [])

def plain : Item Int :=
  .statement { start := { offset := 22, line := 3, column := 1 }
               stop := { offset := 28, line := 3, column := 7 } } (.value "A" 1 [])

def option : Item Int :=
  .statement { start := { offset := 29, line := 4, column := 1 }
               stop := { offset := 42, line := 4, column := 14 } }
    (.option { name := { root := .plain "a" }, value := .integer 2 })

def schema : SchemaEnums.Schema Int :=
  { items := fill [layer] [message, plain, option], comments := [] }

end KeywordValue

open KeywordValue in
theorem parse_keywordValue : parse keywordValue = .ok schema := by
  decide +kernel

open KeywordValue in
/-- The value may stand behind another value, and the enums in any order. -/
theorem parse_rearrange_iff_keywordValue :
    (∃ r, parse (String.ofList
        (rearrange keywordValue.toList [message, plain, option] [plain, message, option])) = .ok r ∧
      r.items.map Item.unplaced = (fill [layer] [plain, message, option]).map Item.unplaced) ∧
    ∃ r, parse (String.ofList
      (rearrange keywordValue.toList schema.items schema.items.reverse)) = .ok r := by
  have hinside : schema.items = fill [layer] [message, plain, option] := rfl
  have houtside : schema.items = fill [] schema.items := rfl
  have hwords : ∀ item ∈ schema.items,
      (Lexeme.name? (item.slice keywordValue.toList)).map Prod.fst = some Keyword.enum.word.toList := by
    decide +kernel
  obtain ⟨haccepted, -, htree⟩ :=
    parse_rearrange_iff parse_keywordValue hinside (List.Perm.swap plain message [option])
  obtain ⟨-, halike, -⟩ :=
    parse_rearrange_iff parse_keywordValue houtside (List.reverse_perm schema.items).symm
  obtain ⟨r, hr⟩ := haccepted.2 (by decide +kernel)
  refine ⟨⟨r, hr, (htree r hr).1⟩, halike fun item hitem w hw _ => ⟨.enum, by decide, ?_⟩⟩
  exact Option.some.inj ((hwords item hitem).symm.trans hw)

open KeywordValue in
/-- The value may not stand behind an option. -/
theorem not_parse_rearrange_keywordValue :
    parse keywordValue = .ok schema ∧ schema.items = fill [layer] [message, plain, option] ∧
      [message, plain, option].Perm [plain, option, message] ∧
      ¬ ∃ r, parse (String.ofList
        (rearrange keywordValue.toList [message, plain, option] [plain, option, message])) = .ok r := by
  have htext : String.ofList
      (rearrange keywordValue.toList [message, plain, option] [plain, option, message]) =
        "enum E \x7b\n\nA = 1;\noption a = 2;\nmessage = 0;\n\n\x7d\nenum F \x7b\x7d" := by
    decide +kernel
  have hrefused : (parse
      "enum E \x7b\n\nA = 1;\noption a = 2;\nmessage = 0;\n\n\x7d\nenum F \x7b\x7d").isOk =
        false := by
    decide +kernel
  refine ⟨parse_keywordValue, rfl, by decide, ?_⟩
  rintro ⟨r, hr⟩
  rw [htext] at hr
  rw [hr] at hrefused
  cases hrefused

end SchemaEnums.Schema
