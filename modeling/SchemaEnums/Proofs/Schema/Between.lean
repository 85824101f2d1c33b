import SchemaEnums.Proofs.Schema.Moved

namespace SchemaEnums.Source

/-- Holds of the contexts in which words are read whole and no number is looked for. -/
structure Context.IsWordy (x : Context) : Prop where
  name : x.name = true
  integer : x.integer = false
  float : x.float = false
  modifier : x.modifier = false

namespace Context

section

variable {x y : Context} {t : List Char} {l : Lexeme}

theorem IsWordy.read?_eq (hx : x.IsWordy) (t : List Char) :
    x.read? t = ((readWord? x.keywords t).or ((Lexeme.string? t).map (classify .string))).or
      (readMark? x.dot t) := by
  simp [read?, hx.name, hx.integer, hx.float, hx.modifier]

theorem mem_of_wordKind {keywords : List Keyword} {word : List Char} {k : Keyword}
    (h : wordKind keywords word = .keyword k) : k ∈ keywords ∧ k.word.toList = word := by
  unfold wordKind at h
  split at h
  next k' hfind =>
    cases h
    exact ⟨List.mem_of_find?_eq_some hfind, by simpa using List.find?_some hfind⟩
  next => cases h

/-- A word is of the same class where fewer keywords are looked for, unless it is one of the others. -/
theorem wordKind_of_subset {keywords keywords' : List Keyword} {word : List Char}
    (hsub : keywords' ⊆ keywords)
    (hk : ∀ k, wordKind keywords word = .keyword k → k ∈ keywords') :
    wordKind keywords' word = wordKind keywords word := by
  cases hfind : keywords.find? fun k => k.word.toList = word with
  | none =>
    have hnone : keywords'.find? (fun k => k.word.toList = word) = none :=
      List.find?_eq_none.2 fun k hk' => List.find?_eq_none.1 hfind k (hsub hk')
    rw [wordKind, wordKind, hfind, hnone]
  | some k =>
    have hkind : wordKind keywords word = .keyword k := by rw [wordKind, hfind]
    rw [hkind, ← (mem_of_wordKind hkind).2, wordKind_word (hk k hkind)]

theorem IsWordy.read?_of_name? (hx : x.IsWordy) {r : List Char × List Char}
    (h : Lexeme.name? t = some r) :
    x.read? t = some { kind := wordKind x.keywords r.1, text := r.1, rest := r.2 } := by
  rw [hx.read?_eq, readWord?, h]
  rfl

/-- Contexts of words differ in the classes of words and in the dot only. -/
theorem IsWordy.read?_of_wordKind (hx : x.IsWordy) (hy : y.IsWordy) (h : x.read? t = some l)
    (hword : ∀ r, Lexeme.name? t = some r → wordKind y.keywords r.1 = wordKind x.keywords r.1)
    (hdot : l.kind = .dot → y.dot = true) : y.read? t = some l := by
  cases hname : Lexeme.name? t with
  | some r => rw [← h, hx.read?_of_name? hname, hy.read?_of_name? hname, hword r hname]
  | none =>
    have hnone (keywords : List Keyword) : readWord? keywords t = none := by
      rw [readWord?, hname]
      rfl
    rw [hx.read?_eq, hnone] at h
    rw [hy.read?_eq, hnone]
    cases hstring : Lexeme.string? t with
    | some r => rwa [hstring] at h
    | none =>
      rw [hstring] at h
      simp only [Option.map_none, Option.none_or] at h ⊢
      cases t with
      | nil => cases h
      | cons c cs =>
        rw [readMark?] at h ⊢
        split at h
        next hc =>
          split at h
          next =>
            cases h
            rw [if_pos hc, if_pos (hdot rfl)]
          next => cases h
        next hc => rwa [if_neg hc]

theorem IsWordy.read?_of_subset (hx : x.IsWordy) (hy : y.IsWordy) (hsub : y.keywords ⊆ x.keywords)
    (h : x.read? t = some l) (hkeyword : ∀ k, l.kind = .keyword k → k ∈ y.keywords)
    (hdot : l.kind = .dot → y.dot = true) : y.read? t = some l := by
  refine hx.read?_of_wordKind hy h (fun r hr => wordKind_of_subset hsub fun k hk => ?_) hdot
  rw [hx.read?_of_name? hr] at h
  cases h
  exact hkeyword k hk

end

end Context

end SchemaEnums.Source

namespace SchemaEnums.Schema

open Source Spacing

/-- The context at the front of a body. -/
def front (b : Option BlockKind) : Context :=
  b.elim betweenStatements BlockKind.opened

/-- The contexts at the front of a body of the kind `b` and behind what may stand there. -/
inductive Between (b : Option BlockKind) : Context → Prop
  | atFront : Between b (front b)
  | behind {ν : Type} {item : Item ν} (h : item.StandsIn b) : Between b item.follow

/-- Holds if a text goes on with the beginning of an item of a body of the kind `b`, read in the
context `x`. -/
def opens (b : Option BlockKind) (x : Context) (t : List Char) : Bool :=
  match x.read? t with
  | some l => (begin? b (tokenOf l {})).isSome
  | none => false

/-- Holds if a text begins with no word that is a keyword in other lists only. Outside of all blocks, a
word that it begins with is a keyword as a whole. -/
def ReadsAlike (b : Option BlockKind) (t : List Char) : Prop :=
  ∀ w, (Lexeme.name? t).map Prod.fst = some w →
    (b = none ∨ ∃ k ∈ betweenItems.keywords, k.word.toList = w) →
      ∃ k ∈ (front b).keywords, k.word.toList = w

section

variable {b : Option BlockKind} {x y : Context} {p : Position} {t u v : List Char} {kind : Kind}
  {m : Move} {l : Lexeme}

theorem opens_iff :
    opens b x t = true ↔ ∃ l m, x.read? t = some l ∧ begin? b (tokenOf l {}) = some m := by
  unfold opens
  cases x.read? t with
  | none => simp
  | some l => simp [Option.isSome_iff_exists]

/-- Outside of all blocks, behind some items, and in the blocks: these contexts are all there are. -/
theorem Between.cases_eq (h : Between b x) :
    x = front b ∨ x = betweenItems ∨
      x = insideMessage ∧ (b = some .message ∨ b = some .oneof ∨ b = some .enum) := by
  cases h with
  | atFront => exact .inl rfl
  | behind h =>
    cases h with
    | @statement _ span s h =>
      cases s with
      | option a => exact .inr (.inl rfl)
      | empty => exact .inr (.inl rfl)
      | field tokens n options => exact .inr (.inr ⟨rfl, h.imp_right .inl⟩)
      | value name n options =>
        obtain rfl : b = some .enum := h
        exact .inl rfl
      | reserved items => exact .inr (.inr ⟨rfl, h.imp_right .inr⟩)
      | extensions items options => exact .inr (.inr ⟨rfl, .inl h⟩)
      | _ =>
        obtain rfl : b = none := h
        exact .inl rfl
    | @block _ span head items h _ =>
      obtain ⟨kind, name, nameEnd⟩ := head
      cases kind with
      | message => exact .inr (.inl rfl)
      | enum => exact .inr (.inl rfl)
      | oneof => exact .inr (.inr ⟨rfl, .inl h⟩)

theorem isWordy_betweenItems : betweenItems.IsWordy := ⟨rfl, rfl, rfl, rfl⟩

theorem isWordy_insideMessage : insideMessage.IsWordy := ⟨rfl, rfl, rfl, rfl⟩

theorem isWordy_opened (k : BlockKind) : k.opened.IsWordy := by
  cases k <;> exact ⟨rfl, rfl, rfl, rfl⟩

/-- The keywords that begin an item are looked for at the front of the body. -/
theorem mem_keywords_of_begin? {u : Token} {k : Keyword} (hbegin : begin? b u = some m)
    (hk : u.kind = .keyword k) : k ∈ (front b).keywords := by
  obtain ⟨kind, text, span⟩ := u
  obtain rfl : kind = .keyword k := hk
  cases b with
  | none => cases k <;> first | cases hbegin; done | decide
  | some body => cases body <;> cases k <;> first | cases hbegin; done | decide

theorem dot_of_begin? {u : Token} (hbegin : begin? b u = some m) (hu : u.kind = .dot) :
    (front b).dot = true := by
  obtain ⟨kind, text, span⟩ := u
  obtain rfl : kind = .dot := hu
  cases b with
  | none => cases hbegin
  | some body => cases body <;> first | rfl | cases hbegin

/-- A keyword that begins a statement outside of all blocks is read off the front of any text. -/
theorem read?_betweenStatements {k : Keyword} (hk : k ∈ betweenStatements.keywords)
    (cs : List Char) :
    betweenStatements.read? (k.word.toList ++ cs) =
      some { kind := .keyword k, text := k.word.toList, rest := cs } := by
  simp only [betweenStatements, List.mem_cons, List.not_mem_nil, or_false] at hk
  rcases hk with rfl | rfl | rfl | rfl | rfl | rfl | rfl <;> rfl

/-- Outside of all blocks an item begins with a keyword, or it is empty. -/
theorem begin?_none_cases {u : Token} (h : begin? none u = some m) :
    u.kind = .semicolon ∨ ∃ k, u.kind = .keyword k := by
  simp only [begin?] at h
  split at h
  all_goals first | exact .inr ⟨_, ‹_›⟩ | exact .inl ‹_› | cases h

theorem exists_begin?_none {k : Keyword} (hk : k ∈ betweenStatements.keywords) (t : List Char)
    (p : Position) : ∃ m, begin? none (token (.keyword k) t p) = some m := by
  simp only [betweenStatements, List.mem_cons, List.not_mem_nil, or_false] at hk
  rcases hk with rfl | rfl | rfl | rfl | rfl | rfl | rfl <;> exact ⟨_, rfl⟩

theorem read?_betweenStatements_of_begin? (h : x.read? t = some l)
    (hbegin : begin? none (tokenOf l p) = some m) : betweenStatements.read? t = some l := by
  obtain ⟨happend, -⟩ := Context.append_of_read? h
  obtain ⟨kind, text, rest⟩ := l
  obtain hkind | ⟨k, hkind⟩ := begin?_none_cases hbegin
  · obtain ⟨c, hc, hmark⟩ := Context.mark?_of_read? h (.inl hkind)
    obtain rfl : text = [c] := hc
    rw [← happend]
    exact Context.read?_mark hmark rest
  · have hk := mem_keywords_of_begin? hbegin hkind
    have hspells := Context.spells_of_read? h
    obtain rfl : kind = .keyword k := hkind
    obtain rfl : text = k.word.toList := hspells
    rw [← happend]
    exact read?_betweenStatements hk rest

/-- What begins an item in a context of a list is read as at the front of the list. -/
theorem Between.read?_front (hx : Between b x) (h : x.read? t = some l)
    (hbegin : begin? b (tokenOf l p) = some m) : (front b).read? t = some l := by
  cases b with
  -- Outside of all blocks words are not read whole at the front, so the other lemma does not apply.
  | none => exact read?_betweenStatements_of_begin? h hbegin
  | some k =>
    have hnarrow (hx : x.IsWordy) (hsub : (front (some k)).keywords ⊆ x.keywords) :
        (front (some k)).read? t = some l :=
      hx.read?_of_subset (isWordy_opened k) hsub h (fun _ => mem_keywords_of_begin? hbegin)
        (dot_of_begin? hbegin)
    obtain rfl | rfl | ⟨rfl, -⟩ := hx.cases_eq
    · exact h
    · exact hnarrow isWordy_betweenItems (by cases k <;> decide)
    · exact hnarrow isWordy_insideMessage (by cases k <;> decide)

/-- What may stand anywhere in a list may stand at its front. -/
theorem Between.opens_front (hx : Between b x) (h : opens b x t = true) :
    opens b (front b) t = true := by
  obtain ⟨l, m, hread, hbegin⟩ := opens_iff.1 h
  exact opens_iff.2 ⟨l, m, hx.read?_front hread hbegin, hbegin⟩

/-- What may stand behind an option may stand anywhere in a list. -/
theorem Between.opens_of_betweenItems (hx : Between b x) (h : opens b betweenItems t = true) :
    opens b x t = true := by
  obtain ⟨l, m, hread, hbegin⟩ := opens_iff.1 h
  have hfront : (front b).read? t = some l := by
    have hempty : (Item.statement nowhere (.empty : Statement String)).StandsIn b :=
      .statement trivial
    exact (Between.behind hempty).read?_front hread hbegin
  obtain rfl | rfl | ⟨rfl, hb⟩ := hx.cases_eq
  · exact opens_iff.2 ⟨l, m, hfront, hbegin⟩
  · exact h
  · have hsub : (front b).keywords ⊆ insideMessage.keywords := by
      rcases hb with rfl | rfl | rfl <;> decide
    have hinside : insideMessage.read? t = some l :=
      isWordy_betweenItems.read?_of_subset isWordy_insideMessage (by decide) hread
        (fun _ hk => hsub (mem_keywords_of_begin? hbegin hk)) (fun _ => rfl)
    exact opens_iff.2 ⟨l, m, hinside, hbegin⟩

theorem opens_betweenItems_some_iff {k : BlockKind} (h : opens (some k) k.opened t = true) :
    opens (some k) betweenItems t = true ↔ ReadsAlike (some k) t := by
  obtain ⟨l, m, hread, hbegin⟩ := opens_iff.1 h
  constructor
  · rintro hopens w hname (hnone | ⟨kw, hkw, rfl⟩)
    · cases hnone
    obtain ⟨l', m', hread', hbegin'⟩ := opens_iff.1 hopens
    obtain ⟨r, hr, hword⟩ := Option.map_eq_some_iff.1 hname
    rw [isWordy_betweenItems.read?_of_name? hr, hword, Context.wordKind_word hkw] at hread'
    cases hread'
    exact ⟨kw, mem_keywords_of_begin? hbegin' rfl, rfl⟩
  · intro halike
    refine opens_iff.2 ⟨l, m, ?_, hbegin⟩
    refine (isWordy_opened k).read?_of_wordKind isWordy_betweenItems hread (fun r hr => ?_)
      fun _ => rfl
    -- The block knows every keyword of the wider context that the text begins with.
    refine (Context.wordKind_of_subset (by cases k <;> decide) fun kw hkw => ?_).symm
    obtain ⟨hmem, hword⟩ := Context.mem_of_wordKind hkw
    obtain ⟨kw', hmem', hword'⟩ := halike r.1 (by rw [hr]; rfl) (.inr ⟨kw, hmem, hword⟩)
    rwa [← Keyword.word_injective (String.toList_inj.1 (hword'.trans hword.symm))]

theorem opens_betweenItems_none_iff (h : opens none betweenStatements t = true) :
    opens none betweenItems t = true ↔ ReadsAlike none t := by
  constructor
  · rintro hopens w hname -
    obtain ⟨l, m, hread, hbegin⟩ := opens_iff.1 hopens
    obtain ⟨r, hr, rfl⟩ := Option.map_eq_some_iff.1 hname
    rw [isWordy_betweenItems.read?_of_name? hr] at hread
    cases hread
    obtain hkind | ⟨kw, hkind⟩ := begin?_none_cases hbegin
    · have hkind : Context.wordKind betweenItems.keywords r.1 = .semicolon := hkind
      unfold Context.wordKind at hkind
      split at hkind <;> cases hkind
    · exact ⟨kw, mem_keywords_of_begin? hbegin hkind, (Context.mem_of_wordKind hkind).2⟩
  · intro halike
    obtain ⟨l, m, hread, hbegin⟩ := opens_iff.1 h
    obtain ⟨happend, -⟩ := Context.append_of_read? hread
    have hspells := Context.spells_of_read? hread
    obtain ⟨kind, text, rest⟩ := l
    obtain hkind | ⟨k, hkind⟩ := begin?_none_cases hbegin
    · obtain ⟨c, hc, hmark⟩ := Context.mark?_of_read? hread (.inl hkind)
      obtain rfl : text = [c] := hc
      exact opens_iff.2 ⟨_, m, happend ▸ Context.read?_mark hmark rest, hbegin⟩
    · obtain rfl : kind = .keyword k := hkind
      obtain rfl : text = k.word.toList := hspells
      obtain ⟨c, cs, hword, hstart, -⟩ := k.isName_word
      obtain ⟨r, hr⟩ : ∃ r, Lexeme.name? t = some r := by
        rw [← happend, hword]
        exact ⟨_, by simp [Lexeme.name?, hstart]; rfl⟩
      obtain ⟨kw, hkw, hr₁⟩ := halike r.1 (by rw [hr]; rfl) (.inl rfl)
      have hread' := isWordy_betweenItems.read?_of_name? hr
      have hsub : betweenStatements.keywords ⊆ betweenItems.keywords := by decide
      rw [← hr₁, Context.wordKind_word (hsub hkw)] at hread'
      obtain ⟨m', hm'⟩ := exists_begin?_none hkw kw.word.toList {}
      exact opens_iff.2 ⟨_, m', hread', hm'⟩

/-- What may stand at the front of a list may stand behind an option exactly if it reads alike in all
contexts. -/
theorem opens_betweenItems_iff (h : opens b (front b) t = true) :
    opens b betweenItems t = true ↔ ReadsAlike b t := by
  cases b with
  | none => exact opens_betweenItems_none_iff h
  | some k => exact opens_betweenItems_some_iff h

/-- An item that may stand in two contexts of a list begins with the same lexeme in both. -/
theorem Between.read?_eq (hx : Between b x) (hy : Between b y) (h : x.read? t = some l)
    (hbegin : begin? b (tokenOf l p) = some m) (hopens : opens b y t = true) : y.read? t = some l := by
  obtain ⟨l', m', hread, hbegin'⟩ := opens_iff.1 hopens
  have hfront := hx.read?_front h hbegin
  rw [hy.read?_front hread hbegin'] at hfront
  exact hread.trans hfront

/-- A statement or a head that a text goes on with is the same in all contexts in which it may begin. -/
theorem Opening.of_opens (h : Opening b x p t m) (hx : Between b x) (hy : Between b y)
    (hopens : opens b y (t ++ u) = true) : Opening b y p t m := by
  cases h with
  | single hc hbegin hm => exact .single hc hbegin hm
  | @go kind t cs P m hfinds hbegin hrest =>
    rw [List.append_assoc] at hopens
    have hread := hx.read?_eq hy (hfinds u) hbegin hopens
    exact .go (hrest.finds hread) hbegin hrest

/-- No string begins an item. -/
theorem kind_ne_string_of_begin? {u : Token} (h : begin? b u = some m) : u.kind ≠ .string := by
  intro hu
  obtain ⟨kind, text, span⟩ := u
  obtain rfl : kind = .string := hu
  cases b with
  | none => cases h
  | some body => cases body <;> cases h

/-- Whether an item may begin with a text is seen from the text up to any mark. -/
theorem opens_of_append {c : Char} (hc : Lexeme.mark? c = some kind)
    (h : opens b x (t ++ c :: u) = true) : opens b x (t ++ [c]) = true := by
  obtain ⟨l, m, hread, hbegin⟩ := opens_iff.1 h
  rw [opens_iff]
  cases t with
  | nil =>
    rw [List.nil_append, Context.read?_mark hc] at hread
    cases hread
    exact ⟨_, m, Context.read?_mark hc [], hbegin⟩
  | cons d ds =>
    obtain ⟨l', hread', rfl⟩ :=
      Context.read?_cut hc hread (List.cons_ne_nil d ds) (kind_ne_string_of_begin? hbegin)
    exact ⟨_, m, Context.read?_extend hc hread' [], hbegin⟩

end

end SchemaEnums.Schema
