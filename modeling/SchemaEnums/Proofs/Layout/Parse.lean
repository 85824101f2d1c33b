import SchemaEnums.Proofs.Layout.Statement
import SchemaEnums.Proofs.Schema.Parsed
import SchemaEnums.Schema.Parse

namespace SchemaEnums.Layout

open Source Schema

/-- Inside an enum names and options are looked for, and no keywords but those of statements. -/
structure IsEnumContext (x : Context) : Prop where
  name : x.name = true
  option : Keyword.option ∈ x.keywords
  keywords : ∀ k ∈ x.keywords, k ∈ statementKeywords

theorem isEnumContext_insideEnum : IsEnumContext insideEnum :=
  ⟨rfl, by decide, by decide⟩

theorem isEnumContext_betweenItems : IsEnumContext betweenItems :=
  ⟨rfl, by decide, by decide⟩

/-- Outside enums both kinds of blocks are looked for. -/
structure IsTreeContext (x : Context) : Prop where
  enum : Takes x .enum
  message : Takes x .message

theorem isTreeContext_betweenStatements : IsTreeContext betweenStatements :=
  ⟨takes_betweenStatements (by simp), takes_betweenStatements (by simp)⟩

theorem isTreeContext_of_name {x : Context} (hx : x.name = true) (henum : .enum ∈ x.keywords)
    (hmessage : .message ∈ x.keywords) : IsTreeContext x :=
  ⟨takes_of_name hx henum, takes_of_name hx hmessage⟩

theorem isTreeContext_betweenItems : IsTreeContext betweenItems :=
  isTreeContext_of_name rfl (by decide) (by decide)

theorem isTreeContext_insideMessage : IsTreeContext insideMessage :=
  isTreeContext_of_name rfl (by decide) (by decide)

/-- The state after some more items, between them and the next one. -/
def pushed (s : State) (items : List (Item String)) (x : Context) : State :=
  { s with items := items.reverse ++ s.items, stage := .between x }

/-- The state behind the header of a block that begins at `first`. -/
def opened (s : State) (head : Head) (first : Position) : State :=
  { frames := { head, first, before := s.items } :: s.frames
    items := []
    stage := .between head.kind.opened }

theorem pushed_pushed (s : State) (items items' : List (Item String)) (x x' : Context) :
    pushed (pushed s items x) items' x' = pushed s (items ++ items') x' := by
  simp [pushed]

theorem pushed_nil {s : State} {x : Context} (h : s.stage = .between x) : pushed s [] x = s := by
  rw [pushed, ← h]
  rfl

section

variable {x : Context} {s : State}

theorem reads_leadLines (rs : List Remark) (p : Position) (s : State) :
    Reads p (leadLines rs) s s := by
  refine reads_commentLines (fun t ht => ?_) p s
  obtain ⟨r, -, rfl⟩ := List.mem_map.1 ht
  exact r.single

theorem reads_value (v : Value) (p : Position) (hstage : s.stage = .between x)
    (hx : IsEnumContext x) (hbody : s.body = some .enum) :
    Reads p v.lines s (pushed s [v.item toString p] insideEnum) :=
  (reads_leadLines v.leading p s).append
    (readsCode_value v hstage hx.name hx.keywords hbody).codeLine

theorem reads_values (vs : List Value) (p : Position) (hstage : s.stage = .between x)
    (hx : IsEnumContext x) (hbody : s.body = some .enum) :
    ∃ x', Reads p (vs.flatMap Value.lines) s (pushed s (valueItems toString p vs) x') := by
  induction vs generalizing p s x with
  | nil =>
    refine ⟨x, ?_⟩
    rw [valueItems, pushed_nil hstage]
    exact .nil p s
  | cons v vs ih =>
    have hv := reads_value v p hstage hx hbody
    obtain ⟨x', hvs⟩ := ih (s := pushed s [v.item toString p] insideEnum) (after p v.lines) rfl
      isEnumContext_insideEnum hbody
    rw [pushed_pushed] at hvs
    exact ⟨x', hv.append hvs⟩

theorem reads_flags (options : List String) (p : Position)
    (hoptions : ∀ option ∈ options, Lexeme.IsName option.toList) (hstage : s.stage = .between x)
    (hx : IsEnumContext x) (hbody : s.body = some .enum) :
    ∃ x', IsEnumContext x' ∧
      Reads p (options.map flagLine) s (pushed s (flagItems p options) x') := by
  induction options generalizing p s x with
  | nil =>
    refine ⟨x, hx, ?_⟩
    rw [flagItems, pushed_nil hstage]
    exact .nil p s
  | cons option options ih =>
    have hoption := hoptions option List.mem_cons_self
    have hflag : Reads p [flagLine option] s _ :=
      (readsCode_flag hoption hstage (takes_of_name hx.name hx.option) hbody).line (by simp)
    obtain ⟨x', hx', hflags⟩ := ih
      (s := pushed s [.statement { start := p, stop := p.advance (flagCode option) }
        (.option (flag option))] betweenItems)
      (after p [flagLine option]) (fun o ho => hoptions o (List.mem_cons_of_mem option ho)) rfl
      isEnumContext_betweenItems hbody
    rw [pushed_pushed] at hflags
    exact ⟨x', hx', hflag.append hflags⟩

theorem isName_of_mem_flags {e : Enumeration} {option : String} (h : option ∈ e.flags) :
    Lexeme.IsName option.toList := by
  have hmem := Enumeration.mem_flags h
  simp only [List.mem_cons, List.not_mem_nil, or_false] at hmem
  rcases hmem with rfl | rfl
  · exact Lexeme.isName_cons rfl rfl
  · exact Lexeme.isName_cons rfl rfl

/-- What a keyword begins outside enums. -/
theorem begin?_block {body : Option BlockKind} (hbody : body = none ∨ body = some .message)
    {t : Token} : (t.kind = .keyword .enum → begin? body t = some (.go (.blockName .enum))) ∧
      (t.kind = .keyword .message → begin? body t = some (.go (.blockName .message))) := by
  rcases hbody with rfl | rfl
  · exact ⟨fun h => by simp only [begin?, h], fun h => by simp only [begin?, h]⟩
  · exact ⟨fun h => by simp only [begin?, h], fun h => by simp only [begin?, h]⟩

/-- A block is read if its header and its body are. -/
theorem Reads.block {p : Position} {head : Head} {header : Line} {body : List Line}
    {items : List (Item String)} (hheader : Reads p [header] s (opened s head p))
    (hbody : Reads (after p [header]) body (opened s head p) (pushed (opened s head p) items x))
    (hkind : head.kind = .message ∨ head.kind = .enum) :
    Reads p (header :: body ++ [closing]) s
      (pushed s [.block { start := p
                          stop := (after (after p [header]) body).advance closing.code } head items]
        head.kind.closed) := by
  have hclosing : Reads (after p ([header] ++ body)) [closing] (pushed (opened s head p) items x) _ :=
    (readsCode_closing hkind).line (by simp)
  have hblock := (hheader.append hbody).append hclosing
  simp only [pushed, opened, List.append_nil, List.reverse_reverse] at hblock ⊢
  rw [after_append] at hblock
  exact hblock

theorem reads_enum (e : Enumeration) (p : Position) (hstage : s.stage = .between x)
    (hx : IsTreeContext x) (hbody : s.body = none ∨ s.body = some .message) :
    Reads p e.lines s (pushed s [e.item toString p] betweenItems) := by
  let q := after p (leadLines e.leading)
  let head : Head :=
    { kind := .enum
      name := e.name.text
      nameEnd := (q.advance (Keyword.enum.word.toList ++ [' '])).advance e.name.text.toList }
  have hheader : Reads q [e.header] s (opened s head q) :=
    (readsCode_header e.name hstage hx.enum fun _ => (begin?_block hbody).1).codeLine
  obtain ⟨x₁, hx₁, hflags⟩ := reads_flags (s := opened s head q) e.flags (after q [e.header])
    (fun _ h => isName_of_mem_flags h) rfl isEnumContext_insideEnum rfl
  obtain ⟨x₂, hvalues⟩ := reads_values
    (s := pushed (opened s head q) (flagItems (after q [e.header]) e.flags) x₁) e.values
    (after (after q [e.header]) (e.flags.map flagLine)) rfl hx₁ rfl
  have hitems := hflags.append hvalues
  rw [pushed_pushed] at hitems
  have hblock := hheader.block hitems (.inr rfl)
  have hall := (reads_leadLines e.leading p s).append hblock
  rw [Enumeration.lines, List.append_assoc]
  exact hall

mutual

theorem reads_tree : (t : Tree) → (p : Position) → {s : State} → {x : Context} →
    s.stage = .between x → IsTreeContext x → (s.body = none ∨ s.body = some .message) →
    Reads p t.lines s (pushed s [t.item toString p] betweenItems)
  | .enum e, p, s, x, hstage, hx, hbody => by
    rw [Tree.lines, Tree.item]
    exact reads_enum e p hstage hx hbody
  | .message name trees, p, s, x, hstage, hx, hbody => by
    let head : Head :=
      { kind := .message
        name := name.text
        nameEnd := (p.advance (Keyword.message.word.toList ++ [' '])).advance name.text.toList }
    have hheader : Reads p [{ code := headerCode .message name }] s (opened s head p) :=
      (readsCode_header name hstage hx.message fun _ => (begin?_block hbody).2).line (by simp)
    obtain ⟨x', -, htrees⟩ := reads_trees trees (after p [{ code := headerCode .message name }])
      (s := opened s head p) rfl isTreeContext_insideMessage (.inr rfl)
    rw [Tree.lines, Tree.item]
    exact hheader.block htrees (.inl rfl)

theorem reads_trees : (trees : List Tree) → (p : Position) → {s : State} → {x : Context} →
    s.stage = .between x → IsTreeContext x → (s.body = none ∨ s.body = some .message) →
    ∃ x', IsTreeContext x' ∧ Reads p (linesOf trees) s (pushed s (itemsOf toString p trees) x')
  | [], p, s, x, hstage, hx, hbody => by
    refine ⟨x, hx, ?_⟩
    rw [linesOf, itemsOf, pushed_nil hstage]
    exact .nil p s
  | t :: ts, p, s, x, hstage, hx, hbody => by
    have ht := reads_tree t p hstage hx hbody
    obtain ⟨x', hx', hts⟩ := reads_trees ts (after p t.lines)
      (s := pushed s [t.item toString p] betweenItems) rfl isTreeContext_betweenItems hbody
    rw [pushed_pushed] at hts
    rw [linesOf, itemsOf]
    exact ⟨x', hx', ht.append hts⟩

end

end

/-- What is read from a printed forest before the numbers are given their values. -/
theorem parseLiterals_render (f : Forest) :
    parseLiterals (render f.lines) =
      .ok { items := f.items toString, comments := commentsOf {} f.lines } := by
  obtain ⟨x₁, hx₁, hpackage⟩ : ∃ x, IsTreeContext x ∧
      Reads {} f.packageLines {} (pushed {} f.packageItems x) := by
    unfold Forest.packageLines Forest.packageItems
    cases f.package with
    | none => exact ⟨betweenStatements, isTreeContext_betweenStatements, .nil _ _⟩
    | some name =>
      exact ⟨betweenStatements, isTreeContext_betweenStatements,
        (readsCode_package name).line (by simp)⟩
  obtain ⟨x₂, -, htrees⟩ := reads_trees (s := pushed {} f.packageItems x₁) f.trees
    (after {} f.packageLines) rfl hx₁ (.inl rfl)
  have hall : Reads {} f.lines {} _ := hpackage.append htrees
  rw [pushed_pushed] at hall
  obtain ⟨last, hrun⟩ := hall (render f.lines) [] {} []
  have hgap (p : Position) : Gap.read p [] = { comments := [], stop := p, rest := [] } := by
    rw [Gap.read]
  rw [List.append_nil, List.append_nil] at hrun
  rw [parseLiterals, hrun, run_eq, hgap]
  simp [pushed, State.complete?, Forest.items]

section

variable {ν μ ε : Type} {f : ν → Except ε μ} {number : Int → ν} {number' : Int → μ}

theorem mapList_append {xs ys : List (Item ν)} {xs' ys' : List (Item μ)}
    (hxs : Item.mapList f xs = .ok xs') (hys : Item.mapList f ys = .ok ys') :
    Item.mapList f (xs ++ ys) = .ok (xs' ++ ys') := by
  induction xs generalizing xs' with
  | nil =>
    rw [Item.mapList] at hxs
    cases hxs
    exact hys
  | cons x xs ih =>
    rw [Item.mapList] at hxs
    obtain ⟨x', hx', hxs⟩ := bind_eq_ok hxs
    obtain ⟨rest, hrest, hxs⟩ := bind_eq_ok hxs
    cases hxs
    rw [List.cons_append, Item.mapList, hx', ih hrest]
    rfl

theorem mapList_flagItems (options : List String) (p : Position) :
    Item.mapList f (flagItems p options) = .ok (flagItems p options) := by
  induction options generalizing p with
  | nil => rw [flagItems, Item.mapList, flagItems]; rfl
  | cons option options ih =>
    rw [flagItems, Item.mapList, ih, Item.mapM]
    rfl

theorem mapM_options (v : Value) : v.options.mapM (Assignment.mapM f) = .ok v.options := by
  unfold Value.options
  split <;> rfl

theorem mapList_valueItems (hf : ∀ k, f (number k) = .ok (number' k)) (vs : List Value)
    (p : Position) : Item.mapList f (valueItems number p vs) = .ok (valueItems number' p vs) := by
  induction vs generalizing p with
  | nil => rw [valueItems, Item.mapList, valueItems]; rfl
  | cons v vs ih =>
    have hvalue : (v.item number p).mapM f = .ok (v.item number' p) := by
      rw [Value.item, Item.mapM, Statement.mapM, hf, mapM_options]
      rfl
    rw [valueItems, Item.mapList, ih, hvalue]
    rfl

mutual

theorem mapM_tree (hf : ∀ k, f (number k) = .ok (number' k)) : (t : Tree) → (p : Position) →
    (t.item number p).mapM f = .ok (t.item number' p)
  | .enum e, p => by
    let body := after (after p (leadLines e.leading)) [e.header]
    have hbody := mapList_append (f := f) (mapList_flagItems e.flags body)
      (mapList_valueItems hf e.values (after body (e.flags.map flagLine)))
    rw [Tree.item, Enumeration.item, Item.mapM, Enumeration.bodyItems, hbody]
    rfl
  | .message name trees, p => by
    rw [Tree.item, Item.mapM, mapList_trees hf trees]
    rfl

theorem mapList_trees (hf : ∀ k, f (number k) = .ok (number' k)) : (trees : List Tree) →
    (p : Position) → Item.mapList f (itemsOf number p trees) = .ok (itemsOf number' p trees)
  | [], p => by
    rw [itemsOf, Item.mapList, itemsOf]
    rfl
  | t :: ts, p => by
    rw [itemsOf, Item.mapList, mapM_tree hf t p, mapList_trees hf ts]
    rfl

end

end

/-- The numbers in the items get their values. -/
theorem evaluate_items (f : Forest) (comments : List Comment) :
    evaluate { items := f.items toString, comments } = .ok { items := f.items id, comments } := by
  have hliteral (k : Int) : literalValue (toString k) = .ok (id k) := by
    rw [literalValue, Numeral.parse_toString]
    rfl
  have hpackage : Item.mapList literalValue f.packageItems = .ok f.packageItems := by
    unfold Forest.packageItems
    cases f.package <;> rfl
  have hitems := mapList_append hpackage (mapList_trees hliteral f.trees (after {} f.packageLines))
  rw [evaluate, Forest.items, hitems]
  rfl

theorem parse_text (f : Forest) :
    parse f.text = .ok { items := f.items id, comments := commentsOf {} f.lines } := by
  rw [parse, Forest.text, String.toList_ofList, parseLiterals_render]
  exact evaluate_items f _

end SchemaEnums.Layout
