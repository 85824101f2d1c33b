import SchemaEnums.Proofs.Schema.Grammar
import SchemaEnums.Proofs.Schema.Parsed

namespace SchemaEnums.Schema

open Source

/-- Holds if the block may stand in a body of the kind `b`. -/
def BlockKind.StandsIn (b : Option BlockKind) : BlockKind → Prop
  | .message => b = none ∨ b = some .message
  | .enum => b = none ∨ b = some .message
  | .oneof => b = some .message

/-- Holds if the statement may stand in a body of the kind `b`. -/
def Statement.StandsIn {ν : Type} (b : Option BlockKind) : Statement ν → Prop
  | .edition _ => b = none
  | .package _ => b = none
  | .importFile _ _ => b = none
  | .option _ => True
  | .empty => True
  | .field _ _ _ => b = some .message ∨ b = some .oneof
  | .value _ _ _ => b = some .enum
  | .reserved _ => b = some .message ∨ b = some .enum
  | .extensions _ _ => b = some .message

/-- The item may stand in a body of the kind `b`, and so may the items in it in theirs. -/
inductive Item.StandsIn {ν : Type} : Option BlockKind → Item ν → Prop
  | statement {b : Option BlockKind} {span : Span} {s : Statement ν} (h : s.StandsIn b) :
      Item.StandsIn b (.statement span s)
  | block {b : Option BlockKind} {span : Span} {head : Head} {items : List (Item ν)}
      (h : head.kind.StandsIn b) (hitems : ∀ item ∈ items, item.StandsIn (some head.kind)) :
      Item.StandsIn b (.block span head items)

/-- Only messages have blocks in them. -/
theorem Item.StandsIn.exists_statement {ν : Type} {kind : BlockKind} {item : Item ν}
    (h : item.StandsIn (some kind)) (hkind : kind ≠ .message) :
    ∃ span s, item = .statement span s := by
  cases h with
  | statement => exact ⟨_, _, rfl⟩
  | @block _ span head items hhead =>
    obtain ⟨inner, name, nameEnd⟩ := head
    cases inner <;> simp_all [BlockKind.StandsIn]

def Owner.StandsIn (b : Option BlockKind) (o : Owner) : Prop :=
  (o.statement []).StandsIn b

def Site.StandsIn (b : Option BlockKind) : Site → Prop
  | .statement => True
  | .brackets owner _ => owner.StandsIn b

/-- Holds of the places inside what may stand in a body of the kind `b`. -/
def Place.StandsIn (b : Option BlockKind) : Place → Prop
  | .edition => b = none
  | .editionText => b = none
  | .editionEnd _ => b = none
  | .package => b = none
  | .packageName _ => b = none
  | .packageDot _ => b = none
  | .importFile => b = none
  | .importPath _ => b = none
  | .importEnd _ _ => b = none
  | .option site _ => site.StandsIn b
  | .optionsEnd owner _ => owner.StandsIn b
  | .blockName kind => kind.StandsIn b
  | .blockOpen head => head.kind.StandsIn b
  | .field _ => b = some .message ∨ b = some .oneof
  | .fieldNumber _ => b = some .message ∨ b = some .oneof
  | .fieldEnd _ _ => b = some .message ∨ b = some .oneof
  | .value _ => b = some .enum
  | .valueNumber _ => b = some .enum
  | .valueEnd _ _ => b = some .enum
  | .ranges extensions _ _ => b = some .message ∨ b = some .enum ∧ extensions = false

def Move.StandsIn (b : Option BlockKind) : Move → Prop
  | .go P => P.StandsIn b
  | .finish s => s.StandsIn b
  | .openBlock head => head.kind.StandsIn b
  | .closeBlock => True

section

variable {b : Option BlockKind} {t : Token} {m : Move} {P : Place}

theorem Owner.standsIn_statement {o : Owner} (h : o.StandsIn b)
    (options : List (Assignment String)) : (o.statement options).StandsIn b := by
  cases o <;> exact h

theorem Site.standsIn_of_close? {site : Site} {a : Assignment String} {kind : Kind}
    (h : site.StandsIn b) (hm : site.close? a kind = some m) : m.StandsIn b := by
  unfold Site.close? at hm
  split at hm <;> split at hm
  all_goals
    first
    | cases hm; done
    | cases hm; exact h

theorem standsIn_of_closeRange? {extensions : Bool} {done : List (ReservedItem String)}
    {kind : Kind} (h : b = some .message ∨ b = some .enum ∧ extensions = false)
    (hm : closeRange? extensions done kind = some m) : m.StandsIn b := by
  unfold closeRange? at hm
  split at hm
  · cases hm
    exact h
  · cases hm
    obtain rfl | ⟨rfl, rfl⟩ := h
    · cases extensions
      · exact .inl rfl
      · exact rfl
    · exact .inr rfl
  · split at hm
    next hextensions =>
      cases hm
      obtain rfl | ⟨-, rfl⟩ := h
      · exact rfl
      · cases hextensions
    next => cases hm
  · cases hm

/-- What begins in a body may stand there. -/
theorem standsIn_of_begin? (hm : begin? b t = some m) : m.StandsIn b := by
  unfold begin? at hm
  split at hm <;> split at hm
  all_goals
    first
    | cases hm; done
    | cases hm; simp [Move.StandsIn, Place.StandsIn, Statement.StandsIn, BlockKind.StandsIn,
        Site.StandsIn]
    | obtain ⟨f, -, rfl⟩ := Option.map_eq_some_iff.1 hm
      simp [Move.StandsIn, Place.StandsIn]

/-- A token does not lead out of what may stand in a body. -/
theorem Place.standsIn_of_next? (h : P.StandsIn b) (hm : P.next? t = some m) : m.StandsIn b := by
  cases P with
  | option site q =>
    simp only [Place.next?] at hm
    split at hm
    · cases hm
      exact h
    · obtain ⟨a, -, hm⟩ := Option.bind_eq_some_iff.1 hm
      exact Site.standsIn_of_close? h hm
  | ranges extensions done q =>
    simp only [Place.next?] at hm
    split at hm
    · cases hm
      exact h
    · obtain ⟨a, -, hm⟩ := Option.bind_eq_some_iff.1 hm
      exact standsIn_of_closeRange? h hm
  | field tokens =>
    simp only [Place.next?] at hm
    split at hm
    · cases hm
      exact h
    · obtain ⟨f, -, rfl⟩ := Option.map_eq_some_iff.1 hm
      exact h
  | optionsEnd owner options =>
    simp only [Place.next?] at hm
    split at hm
    · cases hm
      exact Owner.standsIn_statement h options
    · cases hm
  | _ =>
    simp only [Place.next?] at hm
    split at hm
    all_goals
      first
      | cases hm; done
      | cases hm; exact h

theorem PlaceText.standsIn {p : Position} {cs : List Char} (h : PlaceText P p cs m)
    (hP : P.StandsIn b) : m.StandsIn b := by
  induction h with
  | last fs hc hnext hm => exact Place.standsIn_of_next? hP hnext
  | go fs hfinds hnext hrest ih => exact ih (Place.standsIn_of_next? hP hnext)

theorem Opening.standsIn {x : Context} {p : Position} {cs : List Char} (h : Opening b x p cs m) :
    m.StandsIn b := by
  cases h with
  | single hc hbegin hm => exact standsIn_of_begin? hbegin
  | go hfinds hbegin hrest => exact hrest.standsIn (standsIn_of_begin? hbegin)

theorem Body.standsIn {x y : Context} {p : Position} {cs : List Char} {items : List (Item String)}
    (h : Body b x p cs items y) : ∀ item ∈ items, item.StandsIn b := by
  induction h with
  | nil => simp
  | statement fs hopen hrest ih => exact List.forall_mem_cons.2 ⟨.statement hopen.standsIn, ih⟩
  | block fs gs hopen hbody hrest ihbody ihrest =>
    exact List.forall_mem_cons.2 ⟨.block hopen.standsIn ihbody, ihrest⟩

end

section

variable {ν μ ε : Type} {f : ν → Except ε μ} {b : Option BlockKind}

theorem Statement.of_mapM {s : Statement ν} {s' : Statement μ} (h : s.mapM f = .ok s') :
    s'.follow = s.follow ∧ (s.StandsIn b → s'.StandsIn b) := by
  cases s with
  | option a =>
    obtain ⟨a', -, h⟩ := bind_eq_ok h
    cases h
    exact ⟨rfl, id⟩
  | field tokens number options =>
    obtain ⟨n, -, h⟩ := bind_eq_ok h
    obtain ⟨as, -, h⟩ := bind_eq_ok h
    cases h
    exact ⟨rfl, id⟩
  | value name number options =>
    obtain ⟨n, -, h⟩ := bind_eq_ok h
    obtain ⟨as, -, h⟩ := bind_eq_ok h
    cases h
    exact ⟨rfl, id⟩
  | reserved items =>
    obtain ⟨is, -, h⟩ := bind_eq_ok h
    cases h
    exact ⟨rfl, id⟩
  | extensions items options =>
    obtain ⟨is, -, h⟩ := bind_eq_ok h
    obtain ⟨as, -, h⟩ := bind_eq_ok h
    cases h
    exact ⟨rfl, id⟩
  | _ =>
    cases h
    exact ⟨rfl, id⟩

mutual

/-- An item stands where it may also when its integers have values. -/
theorem Item.StandsIn.mapM : {b : Option BlockKind} → (item : Item ν) → {item' : Item μ} →
    item.StandsIn b → item.mapM f = .ok item' → item'.StandsIn b
  | b, .statement span s, item', hitem, h => by
    rw [Item.mapM] at h
    obtain ⟨s', hs', h⟩ := bind_eq_ok h
    cases h
    cases hitem with
    | statement hs => exact .statement ((Statement.of_mapM hs').2 hs)
  | b, .block span head items, item', hitem, h => by
    rw [Item.mapM] at h
    obtain ⟨items', hitems', h⟩ := bind_eq_ok h
    cases h
    cases hitem with
    | block hhead hitems => exact .block hhead (Item.StandsIn.mapList items hitems hitems')

theorem Item.StandsIn.mapList : {b : Option BlockKind} → (items : List (Item ν)) →
    {items' : List (Item μ)} → (∀ item ∈ items, item.StandsIn b) →
      Item.mapList f items = .ok items' → ∀ item ∈ items', item.StandsIn b
  | b, [], items', hitems, h => by
    rw [Item.mapList] at h
    cases h
    simp
  | b, item :: items, items', hitems, h => by
    rw [Item.mapList] at h
    obtain ⟨item', hitem', h⟩ := bind_eq_ok h
    obtain ⟨rest, hrest, h⟩ := bind_eq_ok h
    cases h
    obtain ⟨hfirst, hitems⟩ := List.forall_mem_cons.1 hitems
    exact List.forall_mem_cons.2
      ⟨Item.StandsIn.mapM item hfirst hitem', Item.StandsIn.mapList items hitems hrest⟩

end

end

/-- The items of a text that is a schema stand where they may. -/
theorem standsIn_of_parse {text : String} {s : Schema Int} (h : parse text = .ok s) :
    ∀ item ∈ s.items, item.StandsIn none := by
  obtain ⟨literals, hliterals, h⟩ := bind_eq_ok h
  obtain ⟨items, hitems, h⟩ := bind_eq_ok h
  cases h
  obtain ⟨t, ds, y, -, hbody, -⟩ := exists_parseLiterals_iff.1 ⟨_, hliterals⟩
  exact Item.StandsIn.mapList literals.items hbody.standsIn hitems

end SchemaEnums.Schema
