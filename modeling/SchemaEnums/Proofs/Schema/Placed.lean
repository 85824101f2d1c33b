import SchemaEnums.Proofs.Schema.Trace

namespace SchemaEnums.Schema

open Source

/-- The value that a statement declares. -/
def Statement.valueName? {ν : Type} : Statement ν → Option String
  | value name _ _ => some name
  | _ => none

/-- What is known of the positions at which words begin, of those at which words, statements and
blocks end, and of names. -/
structure Landmarks where
  starts : Position → Prop
  stops : Position → Prop
  names : String → Prop

section

variable {ν : Type} {m : Landmarks}

/-- The item is placed: its positions and names are as the landmarks say, and the items of a block
stand in order behind its name. -/
inductive Item.Placed (m : Landmarks) : Item ν → Prop
  | statement {span : Span} {s : Statement ν} (hlt : span.start.offset < span.stop.offset)
      (hstop : m.stops span.stop)
      (hvalue : ∀ name, s.valueName? = some name → m.starts span.start ∧ m.names name) :
      Placed m (.statement span s)
  | block {span : Span} {head : Head} {items : List (Item ν)} (hstart : m.starts span.start)
      (hname : m.names head.name) (hnameEnd : m.stops head.nameEnd) (hstop : m.stops span.stop)
      (hfront : span.start.offset < head.nameEnd.offset)
      (hback : head.nameEnd.offset < span.stop.offset)
      (hordered : Ordered Item.span head.nameEnd.offset span.stop.offset items)
      (hitems : ∀ item ∈ items, Placed m item) :
      Placed m (.block span head items)

theorem Item.Placed.offset_lt {item : Item ν} (h : item.Placed m) :
    item.span.start.offset < item.span.stop.offset := by
  cases h with
  | statement hlt => exact hlt
  | block _ _ _ _ hfront hback =>
    show _ < _
    simp only [Item.span]
    omega

/-- The items stand in order between two offsets, and each of them is placed. -/
structure ItemsPlaced (m : Landmarks) (lo hi : Nat) (items : List (Item ν)) : Prop where
  ordered : Ordered Item.span lo hi items
  placed : ∀ item ∈ items, item.Placed m

theorem ItemsPlaced.nil {lo hi : Nat} : ItemsPlaced m lo hi ([] : List (Item ν)) :=
  ⟨.nil, by simp⟩

theorem ItemsPlaced.concat {lo mid hi : Nat} {items : List (Item ν)} {item : Item ν}
    (h : ItemsPlaced m lo mid items) (hitem : item.Placed m) (hlo : lo ≤ mid)
    (hmid : mid ≤ item.span.start.offset) (hhi : item.span.stop.offset ≤ hi) :
    ItemsPlaced m lo hi (items ++ [item]) := by
  have hlt := hitem.offset_lt
  refine ⟨h.ordered.append (.singleton hmid hhi) hlo (by omega), fun i hi => ?_⟩
  rcases List.mem_append.1 hi with hi | hi
  · exact h.placed i hi
  · rw [List.mem_singleton.1 hi]
    exact hitem

theorem ItemsPlaced.mono {lo hi hi' : Nat} {items : List (Item ν)} (h : ItemsPlaced m lo hi items)
    (hle : hi ≤ hi') : ItemsPlaced m lo hi' items :=
  ⟨h.ordered.mono (Nat.le_refl _) hle, h.placed⟩

end

/-- The value whose options stand in brackets. -/
def Owner.valueName? : Owner → Option String
  | value name _ => some name
  | _ => none

/-- The value to which an option belongs. -/
def Site.valueName? : Site → Option String
  | statement => none
  | brackets owner _ => owner.valueName?

/-- The value in whose declaration a place stands. -/
def Place.valueName? : Place → Option String
  | value name => some name
  | valueNumber name => some name
  | valueEnd name _ => some name
  | option site _ => site.valueName?
  | optionsEnd owner _ => owner.valueName?
  | _ => none

/-- Holds of the places in the head of a block. -/
def Place.isHead : Place → Bool
  | blockName _ => true
  | blockOpen _ => true
  | _ => false

theorem Owner.valueName?_statement (o : Owner) (options : List (Assignment String)) :
    (o.statement options).valueName? = o.valueName? := by
  cases o <;> rfl

section

variable (m : Landmarks)

/-- What is known of the head of a block that begins at `first`, once the text has got to `n`. -/
structure Head.Placed (first : Position) (n : Nat) (head : Head) : Prop where
  starts_first : m.starts first
  names_name : m.names head.name
  stops_nameEnd : m.stops head.nameEnd
  first_lt : first.offset < head.nameEnd.offset
  nameEnd_le : head.nameEnd.offset ≤ n

/-- What is known of a place in an item that begins at `first`, once the text has got to `n`. -/
structure Place.Placed (first : Position) (n : Nat) (p : Place) : Prop where
  value : ∀ name, p.valueName? = some name → m.starts first ∧ m.names name
  blockName : ∀ kind, p = .blockName kind → m.starts first
  blockOpen : ∀ head, p = .blockOpen head → head.Placed m first n

/-- What is known of a move that the token `t` makes in an item that begins at `first`. -/
def Move.Placed (first : Position) (t : Token) : Move → Prop
  | .go p => p.Placed m first t.span.stop.offset
  | .finish s => m.stops t.span.stop ∧
      ∀ name, s.valueName? = some name → m.starts first ∧ m.names name
  | .openBlock head => head.Placed m first t.span.stop.offset
  | .closeBlock => m.stops t.span.stop

/-- The token bears out the landmarks. -/
structure Marks (t : Token) : Prop where
  starts : t.kind.IsSolid → m.starts t.span.start
  stops : t.kind.IsSolid → m.stops t.span.stop
  names : t.kind = .name → m.names t.text
  offset_lt : t.span.start.offset < t.span.stop.offset

end

section

variable {m : Landmarks} {first : Position} {n : Nat} {t : Token} {move : Move}

/-- Inside a statement only the value that it declares matters. -/
theorem Place.Placed.of_statement {p : Place} (hhead : p.isHead = false)
    (hvalue : ∀ name, p.valueName? = some name → m.starts first ∧ m.names name) :
    p.Placed m first n where
  value := hvalue
  blockName kind h := by
    subst h
    cases hhead
  blockOpen head h := by
    subst h
    cases hhead

/-- Nothing is to be known inside a statement that declares no value. -/
theorem Place.Placed.of_plain {p : Place} (hhead : p.isHead = false) (hvalue : p.valueName? = none) :
    p.Placed m first n :=
  .of_statement hhead (by simp [hvalue])

/-- A semicolon may end the statement that it is allowed to end. -/
theorem Marks.finish {s : Statement String} (ht : Marks m t) (hkind : t.kind = .semicolon)
    (hvalue : ∀ name, s.valueName? = some name → m.starts first ∧ m.names name) :
    (Move.finish s).Placed m first t :=
  ⟨ht.stops (by rw [hkind]; trivial), hvalue⟩

theorem Marks.finish_plain {s : Statement String} (ht : Marks m t) (hkind : t.kind = .semicolon)
    (hvalue : s.valueName? = none) : (Move.finish s).Placed m first t :=
  ht.finish hkind (by simp [hvalue])

/-- What a token that ends an option makes of the statement. -/
theorem Site.placed_of_close? {site : Site} {a : Assignment String} {p : OptionPlace}
    (hp : (Place.option site p).Placed m first n) (ht : Marks m t)
    (h : site.close? a t.kind = some move) : move.Placed m first t := by
  unfold Site.close? at h
  split at h
  · split at h <;> cases h
    exact ht.finish_plain ‹_› rfl
  · split at h <;> cases h
    · exact .of_statement rfl hp.value
    · exact .of_statement rfl hp.value

/-- What a token that ends a thing set aside makes of the statement. -/
theorem placed_of_closeRange? {extensions : Bool} {done : List (ReservedItem String)}
    (ht : Marks m t) (h : closeRange? extensions done t.kind = some move) :
    move.Placed m first t := by
  unfold closeRange? at h
  split at h
  · cases h
    exact .of_plain rfl rfl
  · cases h
    cases extensions
    · exact ht.finish_plain ‹_› rfl
    · exact ht.finish_plain ‹_› rfl
  · split at h <;> cases h
    exact .of_plain rfl rfl
  · cases h

/-- A token inside a statement or a head keeps what is known. -/
theorem Place.Placed.next {p : Place} (hp : p.Placed m first n) (hn : n ≤ t.span.start.offset)
    (ht : Marks m t) (hfirst : first.offset < n) (h : p.next? t = some move) :
    move.Placed m first t := by
  have hlt := ht.offset_lt
  cases p with
  | option site p =>
    simp only [next?] at h
    split at h
    · cases h
      exact .of_statement rfl hp.value
    · obtain ⟨a, -, ha⟩ := Option.bind_eq_some_iff.1 h
      exact Site.placed_of_close? hp ht ha
  | ranges extensions done p =>
    simp only [next?] at h
    split at h
    · cases h
      exact .of_plain rfl rfl
    · obtain ⟨item, -, hitem⟩ := Option.bind_eq_some_iff.1 h
      exact placed_of_closeRange? ht hitem
  | optionsEnd owner options =>
    simp only [next?] at h
    split at h <;> cases h
    refine ht.finish ‹_› ?_
    rw [Owner.valueName?_statement]
    exact hp.value
  | blockName kind =>
    simp only [next?] at h
    split at h <;> cases h
    have hsolid : t.kind.IsSolid := by rw [‹t.kind = _›]; trivial
    refine ⟨nofun, nofun, fun head hhead => ?_⟩
    cases hhead
    exact ⟨hp.blockName _ rfl, ht.names ‹_›, ht.stops hsolid, by simp only; omega, Nat.le_refl _⟩
  | blockOpen head =>
    simp only [next?] at h
    split at h <;> cases h
    have hhead := hp.blockOpen _ rfl
    have hle := hhead.nameEnd_le
    exact { hhead with nameEnd_le := by omega }
  | field tokens =>
    simp only [next?] at h
    split at h
    · cases h
      exact .of_plain rfl rfl
    · obtain ⟨f, -, rfl⟩ := Option.map_eq_some_iff.1 h
      exact .of_plain rfl rfl
  | value name =>
    simp only [next?] at h
    split at h <;> cases h
    exact .of_statement rfl hp.value
  | valueNumber name =>
    simp only [next?] at h
    split at h <;> cases h
    exact .of_statement rfl hp.value
  | valueEnd name number =>
    simp only [next?] at h
    split at h <;> cases h
    · exact ht.finish ‹_› hp.value
    · exact .of_statement rfl hp.value
  | _ =>
    -- Statements that declare no value.
    simp only [next?] at h
    split at h <;> cases h
    all_goals
      first
      | exact .of_plain rfl rfl
      | exact ht.finish_plain ‹_› rfl

/-- The first token of an item begins it well. -/
theorem placed_of_begin? {body : Option BlockKind} (ht : Marks m t)
    (h : begin? body t = some move) : move.Placed m t.span.start t := by
  have hstarts {kind : Kind} (hkind : t.kind = kind) (hsolid : kind.IsSolid) :
      m.starts t.span.start := ht.starts (by rwa [hkind])
  have hblock {kind : BlockKind} {word : Keyword} (hkind : t.kind = .keyword word) :
      (Move.go (.blockName kind)).Placed m t.span.start t :=
    ⟨nofun, fun _ _ => hstarts hkind trivial, nofun⟩
  unfold begin? at h
  split at h <;> split at h
  all_goals
    first
    | obtain ⟨f, -, rfl⟩ := Option.map_eq_some_iff.1 h
      exact .of_plain rfl rfl
    | cases h
  all_goals
    first
    | exact .of_plain rfl rfl
    | exact hblock ‹_›
    | exact ht.finish_plain ‹_› rfl
    | exact ht.stops (by rw [‹t.kind = _›]; trivial)
    | refine .of_statement rfl fun name hname => ?_
      cases hname
      have hkind : t.kind = .name := ‹_›
      exact ⟨hstarts hkind trivial, ht.names hkind⟩

end

/-- The offset from which on the items of the innermost open block stand. -/
def innerStart : List Frame → Nat
  | [] => 0
  | f :: _ => f.head.nameEnd.offset

/-- Where the items before the stage end, once the text has got to `n`. -/
def Stage.limit (n : Nat) : Stage → Nat
  | between _ => n
  | inside first _ => first.offset

section

variable (m : Landmarks)

/-- What is known of the open blocks: each one has a good head, and the items before it lie between
the name of the block around it and its own beginning. -/
def FramesPlaced (n : Nat) : List Frame → Prop
  | [] => True
  | f :: fs =>
    f.head.Placed m f.first n ∧ ItemsPlaced m (innerStart fs) f.first.offset f.before.reverse ∧
      innerStart fs ≤ f.first.offset ∧ FramesPlaced f.first.offset fs

/-- What is known of the place in an item, if the stage is inside one. -/
def StagePlaced (n : Nat) : Stage → Prop
  | .between _ => True
  | .inside first p => first.offset < n ∧ p.Placed m first n

/-- What is known of the state of the parser once the text has got to `n`: up to the item that it is
inside of, or up to `n`, blocks and items stand as they should. -/
structure State.Placed (n : Nat) (s : State) : Prop where
  frames : FramesPlaced m (s.stage.limit n) s.frames
  items : ItemsPlaced m (innerStart s.frames) (s.stage.limit n) s.items.reverse
  inner_le : innerStart s.frames ≤ s.stage.limit n
  stage : StagePlaced m n s.stage

end

section

variable {m : Landmarks} {n k : Nat} {t : Token}

theorem FramesPlaced.mono {fs : List Frame} (h : FramesPlaced m n fs) (hle : n ≤ k) :
    FramesPlaced m k fs := by
  cases fs with
  | nil => trivial
  | cons f fs =>
    obtain ⟨hhead, hrest⟩ := h
    have hend := hhead.nameEnd_le
    exact ⟨{ hhead with nameEnd_le := by omega }, hrest⟩

theorem State.placed_nil : State.Placed m 0 {} where
  frames := trivial
  items := .nil
  inner_le := Nat.le_refl 0
  stage := trivial

/-- A move keeps the state placed. The item that it belongs to begins at `first`, behind the items
before it. -/
theorem State.Placed.perform {s s' : State} {first : Position} {move : Move}
    (hframes : FramesPlaced m first.offset s.frames)
    (hitems : ItemsPlaced m (innerStart s.frames) first.offset s.items.reverse)
    (hinner : innerStart s.frames ≤ first.offset) (hfirst : first.offset < t.span.stop.offset)
    (hmove : move.Placed m first t) (h : s.perform? first t.span move = some s') :
    s'.Placed m t.span.stop.offset := by
  have hle : first.offset ≤ t.span.stop.offset := Nat.le_of_lt hfirst
  cases move with
  | go p =>
    cases h
    exact ⟨hframes, hitems, hinner, hfirst, hmove⟩
  | finish statement =>
    cases h
    obtain ⟨hstop, hvalue⟩ := hmove
    have hitem : (Item.statement { start := first, stop := t.span.stop } statement).Placed m :=
      .statement hfirst hstop hvalue
    refine ⟨hframes.mono hle, ?_, Nat.le_trans hinner hle, trivial⟩
    rw [List.reverse_cons]
    exact hitems.concat hitem hinner (Nat.le_refl _) (Nat.le_refl _)
  | openBlock head =>
    cases h
    have hend := hmove.nameEnd_le
    exact ⟨⟨hmove, hitems, hinner, hframes⟩, .nil, hend, trivial⟩
  | closeBlock =>
    obtain ⟨frames, items, stage⟩ := s
    cases frames with
    | nil => cases h
    | cons f fs =>
      cases h
      obtain ⟨hhead, hbefore, houter, hfs⟩ := hframes
      have hend := hhead.nameEnd_le
      have hlt := hhead.first_lt
      have hback : f.head.nameEnd.offset < t.span.stop.offset := by omega
      have hblock : (Item.block { start := f.first, stop := t.span.stop } f.head
          items.reverse).Placed m :=
        .block hhead.starts_first hhead.names_name hhead.stops_nameEnd hmove hlt hback
          (hitems.mono hle).ordered hitems.placed
      have hfirst : f.first.offset ≤ t.span.stop.offset := by omega
      refine ⟨hfs.mono hfirst, ?_, Nat.le_trans houter hfirst, trivial⟩
      rw [List.reverse_cons]
      exact hbefore.concat hblock houter (Nat.le_refl _) (Nat.le_refl _)

/-- One token keeps the state of the parser placed. -/
theorem State.Placed.next {s s' : State} (hs : s.Placed m n) (hn : n ≤ t.span.start.offset)
    (ht : Marks m t) (h : s.next? t = some s') : s'.Placed m t.span.stop.offset := by
  have hlt := ht.offset_lt
  obtain ⟨frames, items, stage⟩ := s
  obtain ⟨hframes, hitems, hinner, hstage⟩ := hs
  simp only [State.next?] at h
  cases stage with
  | between x =>
    obtain ⟨move, hmove, hperform⟩ := Option.bind_eq_some_iff.1 h
    exact State.Placed.perform (hframes.mono hn) (hitems.mono hn) (Nat.le_trans hinner hn) hlt
      (placed_of_begin? ht hmove) hperform
  | inside first p =>
    obtain ⟨move, hmove, hperform⟩ := Option.bind_eq_some_iff.1 h
    obtain ⟨hfirst, hp⟩ := hstage
    have hlt' : first.offset < t.span.stop.offset := by omega
    exact State.Placed.perform hframes hitems hinner hlt' (hp.next hn ht hfirst hmove) hperform

/-- All tokens of a text keep the state of the parser placed. -/
theorem State.Placed.foldlM {s s' : State} {hi : Nat} {tokens : List Token} (hs : s.Placed m n)
    (hordered : Ordered Token.span n hi tokens) (htokens : ∀ t ∈ tokens, Marks m t)
    (h : tokens.foldlM State.next? s = some s') :
    ∃ k, s'.Placed m k ∧ (k = n ∨ k ≤ hi) := by
  induction tokens generalizing s n with
  | nil =>
    cases h
    exact ⟨n, hs, .inl rfl⟩
  | cons t tokens ih =>
    rw [List.foldlM_cons] at h
    obtain ⟨mid, hmid, hrest⟩ := Option.bind_eq_some_iff.1 h
    have hbounds := hordered.le_of_mem t (by simp)
    have hplaced := hs.next hbounds.1 (htokens t (by simp)) hmid
    obtain ⟨k, hk, hle⟩ :=
      ih hplaced hordered.tail (fun u hu => htokens u (List.mem_cons_of_mem t hu)) hrest
    refine ⟨k, hk, .inr ?_⟩
    rcases hle with rfl | hle
    · exact hbounds.2
    · exact hle

/-- The items of a whole text are placed. -/
theorem itemsPlaced_of_foldlM {s : State} {hi : Nat} {tokens : List Token}
    {items : List (Item String)} (hordered : Ordered Token.span 0 hi tokens)
    (htokens : ∀ t ∈ tokens, Marks m t) (h : tokens.foldlM State.next? {} = some s)
    (hcomplete : s.complete? = some items) : ItemsPlaced m 0 hi items := by
  obtain ⟨k, hs, hle⟩ := State.placed_nil.foldlM hordered htokens h
  obtain ⟨frames, before, stage⟩ := s
  cases stage with
  | inside first p => cases hcomplete
  | between x =>
    cases frames with
    | cons f fs => cases hcomplete
    | nil =>
      cases hcomplete
      have hk : k ≤ hi := by omega
      exact hs.items.mono hk

end

end SchemaEnums.Schema
