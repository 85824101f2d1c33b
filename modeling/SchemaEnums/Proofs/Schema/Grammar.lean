import SchemaEnums.Proofs.Source.Cut
import SchemaEnums.Proofs.Spacing.Filler

namespace SchemaEnums.Schema

open Source Spacing

/-- The token of a class that is spelled `t` and begins at `p`. -/
def token (kind : Kind) (t : List Char) (p : Position) : Token :=
  tokenOf { kind, text := t, rest := [] } p

/-- Holds of the moves that end a statement or the head of a block. -/
def Move.IsEnd : Move → Prop
  | .finish _ => True
  | .openBlock _ => True
  | _ => False

/-- The context behind an item. -/
def Item.follow {ν : Type} : Item ν → Context
  | .statement _ s => s.follow
  | .block _ head _ => head.kind.closed

/-- From the place `P` on, at the position `p`, the text goes to the end of a statement or of the head
of a block, and makes the move `m` there. -/
inductive PlaceText : Place → Position → List Char → Move → Prop
  | last {P : Place} {p : Position} {m : Move} (fs : List Filler) {c : Char} {kind : Kind}
      (hc : Lexeme.mark? c = some kind)
      (hnext : P.next? (token kind [c] (p.advance (Filler.text fs))) = some m) (hm : m.IsEnd) :
      PlaceText P p (Filler.text fs ++ [c]) m
  | go {P Q : Place} {p : Position} {m : Move} (fs : List Filler) {kind : Kind} {t cs : List Char}
      (hfinds : P.context.Finds kind t cs)
      (hnext : P.next? (token kind t (p.advance (Filler.text fs))) = some (.go Q))
      (hrest : PlaceText Q ((p.advance (Filler.text fs)).advance t) cs m) :
      PlaceText P p (Filler.text fs ++ (t ++ cs)) m

/-- A statement, or the head of a block, that begins at `p` in a body of the kind `b` and in the
context `x`. -/
inductive Opening (b : Option BlockKind) (x : Context) (p : Position) : List Char → Move → Prop
  | single {c : Char} {kind : Kind} {m : Move} (hc : Lexeme.mark? c = some kind)
      (hbegin : begin? b (token kind [c] p) = some m) (hm : m.IsEnd) : Opening b x p [c] m
  | go {kind : Kind} {t cs : List Char} {P : Place} {m : Move} (hfinds : x.Finds kind t cs)
      (hbegin : begin? b (token kind t p) = some (.go P))
      (hrest : PlaceText P (p.advance t) cs m) : Opening b x p (t ++ cs) m

/-- A list of items in a body of the kind `b`, from the position `p` and the context `x` on to the
context behind its last item. Gaps stand before the items. -/
inductive Body : Option BlockKind → Context → Position → List Char → List (Item String) → Context → Prop
  | nil {b : Option BlockKind} {x : Context} {p : Position} : Body b x p [] [] x
  | statement {b : Option BlockKind} {x y : Context} {p : Position} {t us : List Char}
      {s : Statement String} {items : List (Item String)} (fs : List Filler)
      (hopen : Opening b x (p.advance (Filler.text fs)) t (.finish s))
      (hrest : Body b s.follow ((p.advance (Filler.text fs)).advance t) us items y) :
      Body b x p (Filler.text fs ++ (t ++ us))
        (.statement { start := p.advance (Filler.text fs)
                      stop := (p.advance (Filler.text fs)).advance t } s :: items) y
  | block {b : Option BlockKind} {x y z : Context} {p : Position} {t ts us : List Char}
      {head : Head} {inner items : List (Item String)} (fs gs : List Filler)
      (hopen : Opening b x (p.advance (Filler.text fs)) t (.openBlock head))
      (hbody : Body (some head.kind) head.kind.opened ((p.advance (Filler.text fs)).advance t) ts
        inner z)
      (hrest : Body b head.kind.closed
        ((p.advance (Filler.text fs)).advance (t ++ (ts ++ (Filler.text gs ++ ['\x7d'])))) us items y) :
      Body b x p (Filler.text fs ++ ((t ++ (ts ++ (Filler.text gs ++ ['\x7d']))) ++ us))
        (.block { start := p.advance (Filler.text fs)
                  stop := (p.advance (Filler.text fs)).advance
                    (t ++ (ts ++ (Filler.text gs ++ ['\x7d']))) } head inner :: items) y

/-- An item that begins at `p`, in a body of the kind `b` and in the context `x`. -/
def ItemText (b : Option BlockKind) (x : Context) (p : Position) (t : List Char) :
    Item String → Prop
  | .statement span s => span = { start := p, stop := p.advance t } ∧ Opening b x p t (.finish s)
  | .block span head inner => span = { start := p, stop := p.advance t } ∧
      ∃ h ts gs z, t = h ++ (ts ++ (Filler.text gs ++ ['\x7d'])) ∧ Opening b x p h (.openBlock head) ∧
        Body (some head.kind) head.kind.opened (p.advance h) ts inner z

section

variable {b : Option BlockKind} {x y : Context} {p : Position} {t us : List Char} {item : Item String}
  {items : List (Item String)}

theorem Body.cons (fs : List Filler) (hitem : ItemText b x (p.advance (Filler.text fs)) t item)
    (hrest : Body b item.follow ((p.advance (Filler.text fs)).advance t) us items y) :
    Body b x p (Filler.text fs ++ (t ++ us)) (item :: items) y := by
  cases item with
  | statement span s =>
    obtain ⟨rfl, hopen⟩ := hitem
    exact .statement fs hopen hrest
  | block span head inner =>
    obtain ⟨rfl, h, ts, gs, z, rfl, hopen, hbody⟩ := hitem
    exact .block fs gs hopen hbody hrest

theorem Body.cases_cons (h : Body b x p t (item :: items) y) :
    ∃ fs u us, t = Filler.text fs ++ (u ++ us) ∧
      ItemText b x (p.advance (Filler.text fs)) u item ∧
      Body b item.follow ((p.advance (Filler.text fs)).advance u) us items y := by
  cases h with
  | statement fs hopen hrest => exact ⟨fs, _, _, rfl, ⟨rfl, hopen⟩, hrest⟩
  | block fs gs hopen hbody hrest =>
    exact ⟨fs, _, _, rfl, ⟨rfl, _, _, gs, _, rfl, hopen, hbody⟩, hrest⟩

end

/-- The kind of the innermost open block. -/
def kindOf (frames : List Frame) : Option BlockKind :=
  frames.head?.map fun f => f.head.kind

/-- From the state `s` at `p` in front of `cs` the parser comes to the state `s'` at `p'` in front of
`cs'`, whatever comments it has, and whichever token was the last one. -/
def Reaches (source : List Char) (s : State) (p : Position) (cs : List Char) (s' : State)
    (p' : Position) (cs' : List Char) : Prop :=
  ∀ comments last, ∃ comments' last',
    run source s comments last p cs = run source s' comments' last' p' cs'

section

variable {source cs cs' cs'' ds t : List Char} {s s' s'' : State} {p p' p'' first : Position}
  {x y : Context} {b : Option BlockKind} {frames : List Frame} {items before : List (Item String)}
  {P : Place} {m : Move} {kind : Kind}

theorem Reaches.refl : Reaches source s p cs s p cs :=
  fun comments last => ⟨comments, last, rfl⟩

theorem Reaches.trans (h : Reaches source s p cs s' p' cs')
    (h' : Reaches source s' p' cs' s'' p'' cs'') : Reaches source s p cs s'' p'' cs'' := by
  intro comments last
  obtain ⟨comments', last', hrun⟩ := h comments last
  obtain ⟨comments'', last'', hrun'⟩ := h' comments' last'
  exact ⟨comments'', last'', hrun.trans hrun'⟩

theorem reaches_fillers (fs : List Filler) :
    Reaches source s p (Filler.text fs ++ cs) s (p.advance (Filler.text fs)) cs :=
  fun _ last => ⟨_, last, run_fillers fs⟩

/-- No gap begins with a lexeme. -/
theorem begins_of_read? {c : Char} {l : Lexeme} (h : x.read? (c :: cs) = some l) :
    Gap.isSpace c = false ∧ c ≠ '/' := by
  have hfirst : ¬ (Gap.isSpace c = true ∨ c = '/') := by
    intro hc
    rw [Context.read?_eq_none hc] at h
    cases h
  rw [not_or] at hfirst
  exact ⟨by simpa using hfirst.1, hfirst.2⟩

theorem reaches_token (hfinds : s.context.Finds kind t cs)
    (hnext : s.next? (token kind t p) = some s') :
    Reaches source s p (t ++ (cs ++ ds)) s' (p.advance t) (cs ++ ds) := by
  intro comments last
  have hread := hfinds ds
  obtain ⟨-, hne⟩ := Context.append_of_read? hread
  obtain ⟨c, t, rfl⟩ := List.exists_cons_of_ne_nil hne
  obtain ⟨hspace, hslash⟩ := begins_of_read? hread
  exact ⟨comments, p, run_token hspace hslash hread hnext⟩

/-- What a move does depends on the open blocks, on the items so far and on the end of its token. -/
theorem State.perform?_congr {stage stage' : Stage} {span span' : Span}
    (hstop : span.stop = span'.stop) :
    State.perform? { frames, items, stage } first span m =
      State.perform? { frames, items, stage := stage' } first span' m := by
  cases m with
  | go Q => rfl
  | finish s => simp only [State.perform?, hstop]
  | openBlock head => rfl
  | closeBlock => cases frames <;> simp only [State.perform?, hstop]

theorem reaches_inside {q : Position} (hfinds : P.context.Finds kind t cs)
    (hnext : P.next? (token kind t p) = some m)
    (hs' : State.perform? { frames, items } first { start := q, stop := p.advance t } m = some s') :
    Reaches source { frames, items, stage := .inside first P } p (t ++ (cs ++ ds)) s'
      (p.advance t) (cs ++ ds) := by
  refine reaches_token (s := { frames, items, stage := .inside first P }) hfinds ?_
  simp only [State.next?, hnext, Option.bind_some]
  exact (State.perform?_congr rfl).trans hs'

theorem reaches_between {q : Position} (hb : kindOf frames = b) (hfinds : x.Finds kind t cs)
    (hbegin : begin? b (token kind t p) = some m)
    (hs' : State.perform? { frames, items } p { start := q, stop := p.advance t } m = some s') :
    Reaches source { frames, items, stage := .between x } p (t ++ (cs ++ ds)) s' (p.advance t)
      (cs ++ ds) := by
  refine reaches_token (s := { frames, items, stage := .between x }) hfinds ?_
  have hbegin : begin? (State.body { frames, items, stage := .between x }) (token kind t p) =
      some m := (congrArg (begin? · _) hb).trans hbegin
  simp only [State.next?, hbegin, Option.bind_some]
  exact (State.perform?_congr rfl).trans hs'

theorem PlaceText.reaches {q : Position} (h : PlaceText P p t m)
    (hs' : State.perform? { frames, items } first { start := q, stop := p.advance t } m = some s') :
    Reaches source { frames, items, stage := .inside first P } p (t ++ ds) s' (p.advance t) ds := by
  induction h with
  | last fs hc hnext hm =>
    rw [Position.advance_append] at hs' ⊢
    rw [List.append_assoc]
    exact (reaches_fillers fs).trans (reaches_inside (Context.finds_mark _ hc []) hnext hs')
  | @go P Q p m fs kind t cs hfinds hnext hrest ih =>
    rw [Position.advance_append, Position.advance_append] at hs' ⊢
    rw [List.append_assoc, List.append_assoc]
    exact (reaches_fillers fs).trans ((reaches_inside (q := p) hfinds hnext rfl).trans (ih hs'))

theorem Opening.reaches (h : Opening b x p t m) (hb : kindOf frames = b)
    (hs' : State.perform? { frames, items } p { start := p, stop := p.advance t } m = some s') :
    Reaches source { frames, items, stage := .between x } p (t ++ ds) s' (p.advance t) ds := by
  cases h with
  | single hc hbegin hm => exact reaches_between hb (Context.finds_mark _ hc []) hbegin hs'
  | go hfinds hbegin hrest =>
    rw [Position.advance_append] at hs' ⊢
    rw [List.append_assoc]
    exact (reaches_between (q := p) hb hfinds hbegin rfl).trans (hrest.reaches hs')

/-- Behind a gap a block is closed. -/
theorem reaches_close (source ds : List Char) (frames : List Frame) (f : Frame)
    {inner : List (Item String)} (gs : List Filler) (hinner : items.reverse = inner) :
    Reaches source { frames := f :: frames, items, stage := .between x } p
      (Filler.text gs ++ ('\x7d' :: ds))
      { frames
        items := .block { start := f.first, stop := p.advance (Filler.text gs ++ ['\x7d']) } f.head
          inner :: f.before
        stage := .between f.head.kind.closed }
      (p.advance (Filler.text gs ++ ['\x7d'])) ds := by
  have hclose (q : Position) : begin? (some f.head.kind) (token .closeBrace ['\x7d'] q) =
      some .closeBlock := by
    cases f.head.kind <;> rfl
  subst hinner
  rw [Position.advance_append]
  exact (reaches_fillers gs).trans
    (reaches_between (q := p) rfl (Context.finds_mark _ rfl []) (hclose _) rfl)

/-- The parser passes over a list of items, whatever blocks are open around it and whatever items stand
before it. -/
theorem Body.reaches (h : Body b x p t items y) (hb : kindOf frames = b) :
    Reaches source { frames, items := before, stage := .between x } p (t ++ ds)
      { frames, items := items.reverse ++ before, stage := .between y } (p.advance t) ds := by
  induction h generalizing frames before ds with
  | nil => exact .refl
  | @statement b x y p t us s items fs hopen hrest ih =>
    rw [Position.advance_append, Position.advance_append, List.append_assoc, List.append_assoc,
      List.reverse_cons, List.append_assoc]
    exact (reaches_fillers fs).trans ((hopen.reaches hb rfl).trans (ih hb))
  | @block b x y z p t ts us head inner items fs gs hopen hbody hrest ihbody ihrest =>
    have hinner : (inner.reverse ++ []).reverse = inner := by simp
    simp only [Position.advance_append, List.append_assoc, List.reverse_cons] at ihrest ⊢
    refine (reaches_fillers fs).trans ((hopen.reaches hb rfl).trans ((ihbody rfl).trans ?_))
    have hclose := reaches_close (p := ((p.advance (Filler.text fs)).advance t).advance ts) (x := z)
      source (us ++ ds) frames { head, first := p.advance (Filler.text fs), before } gs hinner
    simp only [Position.advance_append] at hclose
    exact hclose.trans (ihrest hb)

/-- A token in a statement takes it further, unless it is a mark that ends it. -/
theorem Place.next?_cases {u : Token} (h : P.next? u = some m) :
    (∃ Q, m = .go Q) ∨ m.IsEnd ∧ (u.kind = .semicolon ∨ u.kind = .openBrace) := by
  cases P with
  | option site q =>
    simp only [Place.next?] at h
    split at h
    · cases h
      exact .inl ⟨_, rfl⟩
    · obtain ⟨a, -, h⟩ := Option.bind_eq_some_iff.1 h
      unfold Site.close? at h
      split at h <;> split at h
      all_goals
        first
        | cases h; done
        | cases h; exact .inl ⟨_, rfl⟩
        | cases h; exact .inr ⟨trivial, .inl ‹_›⟩
  | ranges extensions done q =>
    simp only [Place.next?] at h
    split at h
    · cases h
      exact .inl ⟨_, rfl⟩
    · obtain ⟨a, -, h⟩ := Option.bind_eq_some_iff.1 h
      unfold closeRange? at h
      split at h
      · cases h
        exact .inl ⟨_, rfl⟩
      · cases h
        exact .inr ⟨trivial, .inl ‹_›⟩
      · split at h
        · cases h
          exact .inl ⟨_, rfl⟩
        · cases h
      · cases h
  | field tokens =>
    simp only [Place.next?] at h
    split at h
    · cases h
      exact .inl ⟨_, rfl⟩
    · obtain ⟨f, -, rfl⟩ := Option.map_eq_some_iff.1 h
      exact .inl ⟨_, rfl⟩
  | _ =>
    simp only [Place.next?] at h
    split at h
    all_goals
      first
      | cases h; done
      | cases h; exact .inl ⟨_, rfl⟩
      | cases h; exact .inr ⟨trivial, .inl ‹_›⟩
      | cases h; exact .inr ⟨trivial, .inr ‹_›⟩

/-- A token between two items begins a statement or is one by itself, unless it closes a block. -/
theorem begin?_cases {u : Token} (h : begin? b u = some m) :
    (∃ Q, m = .go Q) ∨ m.IsEnd ∧ u.kind = .semicolon ∨
      m = .closeBlock ∧ u.kind = .closeBrace := by
  unfold begin? at h
  split at h <;> split at h
  all_goals
    first
    | cases h; done
    | cases h; exact .inl ⟨_, rfl⟩
    | cases h; exact .inr (.inl ⟨trivial, ‹_›⟩)
    | cases h; exact .inr (.inr ⟨rfl, ‹_›⟩)
    | obtain ⟨f, -, rfl⟩ := Option.map_eq_some_iff.1 h
      exact .inl ⟨_, rfl⟩

variable {comments : List Comment} {last : Position} {r : Schema String}

/-- A text that is accepted is a last gap, or it goes on with a token behind fillers. -/
theorem run_cases (h : run source s comments last p cs = .ok r) :
    ((Gap.read p cs).rest = [] ∧ s.complete? = some r.items) ∨
      ∃ fs kind t ds s' comments' last', cs = Filler.text fs ++ (t ++ ds) ∧
        s.context.read? (t ++ ds) = some { kind, text := t, rest := ds } ∧
        s.next? (token kind t (p.advance (Filler.text fs))) = some s' ∧
        run source s' comments' last' ((p.advance (Filler.text fs)).advance t) ds = .ok r := by
  rw [run_eq] at h
  split at h
  next hrest =>
    split at h
    next items hitems =>
      cases h
      exact .inl ⟨hrest, hitems⟩
    next => cases h
  next d ds hrest =>
    obtain ⟨fs, hcs, hstop⟩ := exists_fillers p cs hrest
    split at h
    next => cases h
    next l hread =>
      split at h
      next => cases h
      next s' hnext =>
        obtain ⟨happend, -⟩ := Context.append_of_read? hread
        obtain ⟨kind, t, rest⟩ := l
        simp only at happend
        rw [hstop] at hnext h
        refine .inr ⟨fs, kind, t, rest, s', _, _, ?_, ?_, hnext, h⟩
        · rw [hcs, happend]
        · rw [happend, hread]

theorem exists_run_of_gap (hgap : (Gap.read p cs).rest = []) (hcomplete : s.complete? = some items) :
    ∃ comments', run source s comments last p cs = .ok { items, comments := comments' } := by
  rw [run_eq, hgap]
  simp only [hcomplete]
  exact ⟨_, rfl⟩

theorem PlaceText.isEnd (h : PlaceText P p t m) : m.IsEnd := by
  induction h with
  | last fs hc hnext hm => exact hm
  | go fs hfinds hnext hrest ih => exact ih

/-- A statement and the head of a block end with a mark. -/
theorem PlaceText.exists_concat (h : PlaceText P p t m) :
    ∃ front c kind, t = front ++ [c] ∧ Lexeme.mark? c = some kind := by
  induction h with
  | last fs hc hnext hm => exact ⟨_, _, _, rfl, hc⟩
  | @go P Q p m fs kind t cs hfinds hnext hrest ih =>
    obtain ⟨front, c, mark, rfl, hc⟩ := ih
    exact ⟨Filler.text fs ++ (t ++ front), c, mark, by simp, hc⟩

/-- A lexeme in front of a text that ends with a mark is read in front of it whatever follows. -/
theorem PlaceText.finds (h : PlaceText P p t m) {u : List Char}
    (hread : x.read? (u ++ (t ++ ds)) = some { kind, text := u, rest := t ++ ds }) :
    x.Finds kind u t := by
  obtain ⟨front, c, mark, rfl, hc⟩ := h.exists_concat
  rw [List.append_assoc] at hread
  exact Context.finds_of_read? hc hread

theorem exists_placeText_of_run
    (h : run source { frames, items, stage := .inside first P } comments last p cs = .ok r) :
    ∃ t ds m s' comments' last', cs = t ++ ds ∧ PlaceText P p t m ∧
      State.perform? { frames, items } first { start := p, stop := p.advance t } m = some s' ∧
      run source s' comments' last' (p.advance t) ds = .ok r := by
  induction hlength : cs.length using Nat.strongRecOn generalizing P comments last p cs with
  | _ n ih =>
    obtain ⟨-, hcomplete⟩ | ⟨fs, kind, t, ds, s', comments', last', rfl, hread, hnext, hrun⟩ :=
      run_cases h
    · cases hcomplete
    have hshorter := Context.length_rest_lt_of_read? hread
    obtain ⟨m, hm, hperform⟩ := Option.bind_eq_some_iff.1 hnext
    obtain ⟨Q, rfl⟩ | ⟨hend, hkind⟩ := Place.next?_cases hm
    · cases hperform
      have hlt : ds.length < n := by
        rw [← hlength, List.length_append]
        exact Nat.lt_of_lt_of_le hshorter (Nat.le_add_left _ _)
      obtain ⟨t', ds', m, s', comments'', last'', rfl, htext, hperform, hrun'⟩ :=
        ih _ hlt hrun rfl
      refine ⟨Filler.text fs ++ (t ++ t'), ds', m, s', comments'', last'', by simp,
        .go fs (htext.finds hread) hm htext, ?_, ?_⟩
      · rw [Position.advance_append, Position.advance_append]
        exact (State.perform?_congr rfl).trans hperform
      · rw [Position.advance_append, Position.advance_append]
        exact hrun'
    · obtain ⟨c, hc, hmark⟩ := Context.mark?_of_read? hread (hkind.imp_right .inl)
      obtain rfl : t = [c] := hc
      refine ⟨Filler.text fs ++ [c], ds, m, s', comments', last', by simp, .last fs hmark hm hend,
        ?_, ?_⟩
      · rw [Position.advance_append]
        exact (State.perform?_congr rfl).trans hperform
      · rw [Position.advance_append]
        exact hrun

/-- What follows the items of the innermost open block, or of the text, where the text is accepted. -/
inductive Ending (source : List Char) (r : Schema String) :
    List Frame → List (Item String) → Position → List Char → Prop
  | text {items : List (Item String)} {p : Position} {ds : List Char}
      (hgap : (Gap.read p ds).rest = []) (hitems : r.items = items) : Ending source r [] items p ds
  | block {f : Frame} {frames : List Frame} {items : List (Item String)} {p last : Position}
      {ds : List Char} {comments : List Comment} (gs : List Filler)
      (hrun : run source
        { frames
          items := .block { start := f.first, stop := p.advance (Filler.text gs ++ ['\x7d']) } f.head
            items :: f.before
          stage := .between f.head.kind.closed }
        comments last (p.advance (Filler.text gs ++ ['\x7d'])) ds = .ok r) :
      Ending source r (f :: frames) items p (Filler.text gs ++ '\x7d' :: ds)

theorem Opening.ne_nil (h : Opening b x p t m) : t ≠ [] := by
  cases h with
  | single => exact List.cons_ne_nil _ _
  | go hfinds hbegin hrest =>
    obtain ⟨-, hne⟩ := Context.append_of_read? (hfinds [])
    exact List.append_ne_nil_of_left_ne_nil hne _

/-- Between items a text that is accepted goes on with an item, or with what ends the list. -/
theorem exists_opening_of_run
    (h : run source { frames, items, stage := .between x } comments last p cs = .ok r) :
    Ending source r frames items.reverse p cs ∨
      ∃ fs t ds m s' comments' last', cs = Filler.text fs ++ (t ++ ds) ∧
        Opening (kindOf frames) x (p.advance (Filler.text fs)) t m ∧ m.IsEnd ∧
        State.perform? { frames, items } (p.advance (Filler.text fs))
          { start := p.advance (Filler.text fs)
            stop := (p.advance (Filler.text fs)).advance t } m = some s' ∧
        run source s' comments' last' ((p.advance (Filler.text fs)).advance t) ds = .ok r := by
  obtain ⟨hgap, hcomplete⟩ | ⟨fs, kind, t, ds, s', comments', last', rfl, hread, hnext, hrun⟩ :=
    run_cases h
  · cases frames with
    | cons f frames => cases hcomplete
    | nil => exact .inl (.text hgap (Option.some.inj hcomplete).symm)
  obtain ⟨m, hm, hperform⟩ := Option.bind_eq_some_iff.1 hnext
  have hm : begin? (kindOf frames) (token kind t (p.advance (Filler.text fs))) = some m := hm
  obtain ⟨Q, rfl⟩ | ⟨hend, hkind⟩ | ⟨rfl, hkind⟩ := begin?_cases hm
  · cases hperform
    obtain ⟨t', ds', m, s', comments'', last'', rfl, htext, hperform, hrun'⟩ :=
      exists_placeText_of_run hrun
    refine .inr ⟨fs, t ++ t', ds', m, s', comments'', last'', by simp,
      .go (htext.finds hread) hm htext, htext.isEnd, ?_, ?_⟩
    · rw [Position.advance_append]
      exact (State.perform?_congr rfl).trans hperform
    · rw [Position.advance_append]
      exact hrun'
  · obtain ⟨c, hc, hmark⟩ := Context.mark?_of_read? hread (.inl hkind)
    obtain rfl : t = [c] := hc
    exact .inr ⟨fs, [c], ds, m, s', comments', last', rfl, .single hmark hm hend, hend,
      (State.perform?_congr rfl).trans hperform, hrun⟩
  · obtain ⟨c, hc, hmark⟩ := Context.mark?_of_read? hread (.inr (.inr hkind))
    obtain rfl : t = [c] := hc
    obtain rfl : kind = .closeBrace := hkind
    obtain rfl : c = '\x7d' := by
      unfold Lexeme.mark? at hmark
      split at hmark <;> first | rfl | cases hmark
    cases frames with
    | nil => cases hperform
    | cons f frames =>
      cases hperform
      simp only [token, tokenOf, ← Position.advance_append] at hrun
      exact .inl (.block fs hrun)

/-- The parser accepts a text in which it stands between two items only if a list of items follows, with
what ends the list behind it. -/
theorem exists_body_of_run
    (h : run source { frames, items := before, stage := .between x } comments last p cs = .ok r) :
    ∃ t ds items y, cs = t ++ ds ∧ Body (kindOf frames) x p t items y ∧
      Ending source r frames (before.reverse ++ items) (p.advance t) ds := by
  induction hlength : cs.length using Nat.strongRecOn
    generalizing frames before x comments last p cs with
  | _ n ih =>
    obtain hending | ⟨fs, t, ds, m, s', comments', last', rfl, hopen, hend, hperform, hrun⟩ :=
      exists_opening_of_run h
    · exact ⟨[], cs, [], x, rfl, .nil, by simpa using hending⟩
    have hlt : ds.length < n := by
      have hpos := List.length_pos_iff.2 hopen.ne_nil
      simp only [List.length_append] at hlength
      omega
    cases m with
    | go Q => exact hend.elim
    | closeBlock => exact hend.elim
    | finish s =>
      cases hperform
      obtain ⟨us, rest, items, y, rfl, hbody, hending⟩ := ih _ hlt hrun rfl
      refine ⟨_, rest, _, y, ?_, .statement fs hopen hbody, ?_⟩
      · simp
      · simpa [Position.advance_append] using hending
    | openBlock head =>
      cases hperform
      obtain ⟨ts, inside, inner, z, rfl, hinner, hclosing⟩ := ih _ hlt hrun rfl
      cases hclosing with
      | @block _ _ _ _ _ behind _ gs hclosed =>
        have hlt' : behind.length < n := by
          simp only [List.length_append, List.length_cons] at hlt
          omega
        obtain ⟨us, rest, items, y, rfl, hbody, hending⟩ := ih _ hlt' hclosed rfl
        have hrest : Body (kindOf frames) head.kind.closed
            ((p.advance (Filler.text fs)).advance (t ++ (ts ++ (Filler.text gs ++ ['\x7d'])))) us
            items y := by
          simpa only [Position.advance_append] using hbody
        refine ⟨_, rest, _, y, ?_, .block fs gs hopen hinner hrest, ?_⟩
        · simp
        · simpa [Position.advance_append] using hending

/-- A text has given items exactly if it is a list of them, with a gap behind the last one. -/
theorem exists_parseLiterals_iff {items : List (Item String)} :
    (∃ comments, parseLiterals source = .ok { items, comments }) ↔
      ∃ t ds y, source = t ++ ds ∧ Body none betweenStatements {} t items y ∧
        (Gap.read (Position.advance {} t) ds).rest = [] := by
  constructor
  · rintro ⟨comments, h⟩
    obtain ⟨t, ds, items', y, hsource, hbody, hending⟩ := exists_body_of_run h
    cases hending with
    | text hgap hitems =>
      obtain rfl : items = items' := by simpa using hitems
      exact ⟨t, ds, y, hsource, hbody, hgap⟩
  · rintro ⟨t, ds, y, rfl, hbody, hgap⟩
    have hreaches : Reaches (t ++ ds) {} {} (t ++ ds)
        { items := items.reverse ++ [], stage := .between y } (Position.advance {} t) ds :=
      hbody.reaches rfl
    obtain ⟨comments, last, hrun⟩ := hreaches [] {}
    have hcomplete : State.complete? { items := items.reverse ++ [], stage := .between y } =
        some items := by
      simp [State.complete?]
    obtain ⟨comments', hend⟩ := exists_run_of_gap hgap hcomplete
    exact ⟨comments', hrun.trans hend⟩

end

end SchemaEnums.Schema
