import SchemaEnums.Proofs.Schema.Parsed
import SchemaEnums.Schema.Outline

namespace SchemaEnums.Schema

open Source

/-- A stretch that stands for any other. -/
def nowhere : Span :=
  { start := {}, stop := {} }

section

variable {ν μ ε : Type}

def Head.unplaced (h : Head) : Head :=
  { h with nameEnd := {} }

mutual

/-- The item without its positions. -/
def Item.unplaced : Item ν → Item ν
  | .statement _ s => .statement nowhere s
  | .block _ head items => .block nowhere head.unplaced (Item.unplacedList items)

/-- The items without their positions. -/
def Item.unplacedList : List (Item ν) → List (Item ν)
  | [] => []
  | item :: items => item.unplaced :: Item.unplacedList items

end

theorem Item.unplacedList_eq_map (items : List (Item ν)) :
    Item.unplacedList items = items.map Item.unplaced := by
  induction items with
  | nil => rfl
  | cons item items ih => rw [Item.unplacedList, ih, List.map_cons]

@[simp] theorem Item.unplaced_statement (span : Span) (s : Statement ν) :
    (Item.statement span s).unplaced = .statement nowhere s := by
  rw [Item.unplaced]

@[simp] theorem Item.unplaced_block (span : Span) (head : Head) (items : List (Item ν)) :
    (Item.block span head items).unplaced =
      .block nowhere head.unplaced (items.map Item.unplaced) := by
  rw [Item.unplaced, Item.unplacedList_eq_map]

mutual

/-- Integers are given values without a look at positions. -/
theorem Item.map_unplaced_mapM (f : ν → Except ε μ) : (item : Item ν) →
    (item.mapM f).map Item.unplaced = item.unplaced.mapM f
  | .statement span s => by
    rw [Item.unplaced_statement, Item.mapM, Item.mapM]
    cases s.mapM f with
    | error e => rfl
    | ok s' => exact congrArg Except.ok (Item.unplaced_statement _ _)
  | .block span head items => by
    have hitems := Item.map_unplaced_mapList f items
    rw [Item.unplaced_block, Item.mapM, Item.mapM, ← hitems]
    cases Item.mapList f items with
    | error e => rfl
    | ok items' => exact congrArg Except.ok (Item.unplaced_block _ _ _)

theorem Item.map_unplaced_mapList (f : ν → Except ε μ) : (items : List (Item ν)) →
    (Item.mapList f items).map (List.map Item.unplaced) =
      Item.mapList f (items.map Item.unplaced)
  | [] => by
    rw [List.map_nil, Item.mapList]
    rfl
  | item :: items => by
    have hitem := Item.map_unplaced_mapM f item
    have hitems := Item.map_unplaced_mapList f items
    rw [List.map_cons, Item.mapList, Item.mapList, ← hitem, ← hitems]
    cases item.mapM f with
    | error e => rfl
    | ok item' => cases Item.mapList f items <;> rfl

end

end

def Token.unplaced (t : Token) : Token :=
  { t with span := nowhere }

def Place.unplaced : Place → Place
  | .blockOpen head => .blockOpen head.unplaced
  | p => p

def Move.unplaced : Move → Move
  | .go p => .go p.unplaced
  | .openBlock head => .openBlock head.unplaced
  | m => m

def Stage.unplaced : Stage → Stage
  | .between x => .between x
  | .inside _ p => .inside {} p.unplaced

def Frame.unplaced (f : Frame) : Frame :=
  { head := f.head.unplaced, first := {}, before := f.before.map Item.unplaced }

/-- The state without all positions that were put down. -/
def State.unplaced (s : State) : State :=
  { frames := s.frames.map Frame.unplaced
    items := s.items.map Item.unplaced
    stage := s.stage.unplaced }

section

variable {s s' u : State} {t t' : Token}

theorem State.context_unplaced (s : State) : s.unplaced.context = s.context := by
  obtain ⟨frames, items, stage⟩ := s
  cases stage with
  | between x => rfl
  | inside first p => cases p <;> rfl

theorem State.body_unplaced (s : State) : s.unplaced.body = s.body := by
  obtain ⟨frames, items, stage⟩ := s
  cases frames <;> rfl

/-- The first token of an item leaves no position behind. -/
theorem map_unplaced_begin? (body : Option BlockKind) (t : Token) :
    (begin? body t).map Move.unplaced = begin? body (Token.unplaced t) := by
  show (begin? body t).map Move.unplaced = begin? body t
  unfold begin?
  split <;> split
  all_goals
    first
    | rfl
    | cases FieldToken.ofToken? t <;> rfl

theorem Site.map_unplaced_close? (site : Site) (a : Assignment String) (kind : Kind) :
    (site.close? a kind).map Move.unplaced = site.close? a kind := by
  unfold Site.close?
  split <;> split <;> rfl

theorem map_unplaced_closeRange? (extensions : Bool) (done : List (ReservedItem String))
    (kind : Kind) :
    (closeRange? extensions done kind).map Move.unplaced = closeRange? extensions done kind := by
  unfold closeRange?
  split
  · rfl
  · rfl
  · split <;> rfl
  · rfl

theorem OptionPlace.next?_unplaced (p : OptionPlace) (t : Token) :
    p.next? (Token.unplaced t) = p.next? t := by
  cases p <;> rfl

theorem RangePlace.next?_unplaced (p : RangePlace) (t : Token) :
    p.next? (Token.unplaced t) = p.next? t := by
  cases p <;> rfl

/-- Only the end of a block's name leaves a position behind. -/
theorem Place.map_unplaced_next? (p : Place) (t : Token) :
    (p.next? t).map Move.unplaced = p.unplaced.next? (Token.unplaced t) := by
  cases p with
  | option site p =>
    simp only [Place.unplaced, Place.next?, p.next?_unplaced]
    split
    · rfl
    · cases p.complete? with
      | none => rfl
      | some a => exact site.map_unplaced_close? a t.kind
  | ranges extensions done p =>
    simp only [Place.unplaced, Place.next?, p.next?_unplaced]
    split
    · rfl
    · cases p.complete? with
      | none => rfl
      | some item => exact map_unplaced_closeRange? extensions (done ++ [item]) t.kind
  | field tokens =>
    show (Place.next? (.field tokens) t).map Move.unplaced = Place.next? (.field tokens) t
    simp only [Place.next?]
    split
    · rfl
    · cases FieldToken.ofToken? t <;> rfl
  | _ =>
    simp only [Place.next?, Place.unplaced, Token.unplaced]
    split <;> rfl

theorem State.map_unplaced_perform? (s : State) (first : Position) (span : Span) (m : Move) :
    (s.perform? first span m).map State.unplaced =
      s.unplaced.perform? {} nowhere m.unplaced := by
  cases m with
  | go p => rfl
  | finish statement => simp [State.perform?, State.unplaced, Move.unplaced, Stage.unplaced, nowhere]
  | openBlock head => rfl
  | closeBlock =>
    obtain ⟨frames, items, stage⟩ := s
    cases frames with
    | nil => rfl
    | cons f fs =>
      simp [State.perform?, State.unplaced, Move.unplaced, Stage.unplaced, Frame.unplaced, nowhere,
        Head.unplaced]

/-- Without positions a token leads from the state without them to the next one without them. -/
theorem State.map_unplaced_next? (s : State) (t : Token) :
    (s.next? t).map State.unplaced = s.unplaced.next? (Token.unplaced t) := by
  have hperform (first : Position) (o : Option Move) :
      (o.bind (s.perform? first t.span)).map State.unplaced =
        (o.map Move.unplaced).bind (s.unplaced.perform? {} nowhere) := by
    cases o with
    | none => rfl
    | some m => exact s.map_unplaced_perform? first t.span m
  cases hstage : s.stage with
  | between x =>
    have hunplaced : s.unplaced.stage = .between x := by
      rw [State.unplaced, hstage]
      rfl
    simp only [State.next?, hstage, hunplaced, State.body_unplaced]
    rw [hperform, map_unplaced_begin?]
    rfl
  | inside first p =>
    have hunplaced : s.unplaced.stage = .inside {} p.unplaced := by
      rw [State.unplaced, hstage]
      rfl
    simp only [State.next?, hstage, hunplaced]
    rw [hperform, Place.map_unplaced_next?]
    rfl

theorem State.map_unplaced_complete? (s : State) :
    s.complete?.map (List.map Item.unplaced) = s.unplaced.complete? := by
  obtain ⟨frames, items, stage⟩ := s
  cases stage with
  | inside first p => rfl
  | between x => cases frames <;> simp [State.complete?, State.unplaced, Stage.unplaced]

/-- States that differ in positions only go on in the same way with tokens of one class and text. -/
theorem State.exists_next?_of_unplaced (hs : s.unplaced = u.unplaced)
    (ht : Token.unplaced t = Token.unplaced t') (h : s.next? t = some s') :
    ∃ u', u.next? t' = some u' ∧ s'.unplaced = u'.unplaced := by
  have hnext := u.map_unplaced_next? t'
  rw [← hs, ← ht, ← s.map_unplaced_next? t, h] at hnext
  obtain ⟨u', hu', heq⟩ := Option.map_eq_some_iff.1 hnext
  exact ⟨u', hu', heq.symm⟩

theorem State.exists_complete?_of_unplaced {items : List (Item String)}
    (hs : s.unplaced = u.unplaced) (h : s.complete? = some items) :
    ∃ items', u.complete? = some items' ∧ items.map Item.unplaced = items'.map Item.unplaced := by
  have hcomplete := u.map_unplaced_complete?
  rw [← hs, ← s.map_unplaced_complete?, h] at hcomplete
  obtain ⟨items', hitems', heq⟩ := Option.map_eq_some_iff.1 hcomplete
  exact ⟨items', hitems', heq.symm⟩

end

namespace Outline

mutual

/-- The outline without its stretches of text. -/
def unplaced : Outline → Outline
  | .node rule children span => .node rule (unplacedList children) (span.map fun _ => nowhere)
  | .token kind text => .token kind text
  | .integer n => .integer n

/-- The outlines without their stretches of text. -/
def unplacedList : List Outline → List Outline
  | [] => []
  | o :: os => o.unplaced :: unplacedList os

end

theorem unplacedList_eq_map (os : List Outline) : unplacedList os = os.map unplaced := by
  induction os with
  | nil => rfl
  | cons o os ih => rw [unplacedList, ih, List.map_cons]

@[simp] theorem unplaced_node (name : String) (children : List Outline) (span : Option Span) :
    (node name children span).unplaced =
      node name (children.map unplaced) (span.map fun _ => nowhere) := by
  rw [unplaced, unplacedList_eq_map]

@[simp] theorem unplaced_rule (name : String) (children : List Outline) :
    (rule name children).unplaced = rule name (children.map unplaced) := by
  rw [rule, rule, unplaced_node]
  rfl

@[simp] theorem unplaced_token (kind : Kind) (text : String) :
    (token kind text).unplaced = token kind text := by
  rw [unplaced]

@[simp] theorem unplaced_integer (n : Int) : (integer n).unplaced = integer n := by
  rw [unplaced]

@[simp] theorem unplaced_ofDottedName (n : DottedName) :
    (ofDottedName n).unplaced = ofDottedName n := by
  simp [ofDottedName, Function.comp_def]

@[simp] theorem unplaced_ofConstant (c : Constant Int) : (ofConstant c).unplaced = ofConstant c := by
  cases c <;> simp [ofConstant]

@[simp] theorem unplaced_ofOptionRoot (r : OptionRoot) :
    (ofOptionRoot r).unplaced = ofOptionRoot r := by
  cases r <;> simp [ofOptionRoot]

@[simp] theorem map_unplaced_ofAssignmentParts (a : Assignment Int) :
    (ofAssignmentParts a).map unplaced = ofAssignmentParts a := by
  simp [ofAssignmentParts, Function.comp_def]

@[simp] theorem map_unplaced_ofOptions (name : String) (options : List (Assignment Int)) :
    (ofOptions name options).map unplaced = ofOptions name options := by
  unfold ofOptions
  split <;> simp [Function.comp_def]

@[simp] theorem unplaced_ofFieldToken (t : FieldToken) :
    (ofFieldToken t).unplaced = ofFieldToken t := by
  cases t <;> simp [ofFieldToken]

@[simp] theorem unplaced_ofReservedItem (item : ReservedItem Int) :
    (ofReservedItem item).unplaced = ofReservedItem item := by
  cases item with
  | range first last => cases last <;> simp [ofReservedItem, ofRangeEnd]
  | _ => simp [ofReservedItem]

theorem unplaced_ofStatement (span : Span) (s : Statement Int) :
    (ofStatement span s).unplaced = ofStatement nowhere s := by
  cases s with
  | importFile modifier path => cases modifier <;> simp [ofStatement]
  | _ => simp [ofStatement, Function.comp_def]

theorem unplaced_ofBlock (span : Span) (head : Head) (os : List Outline) :
    (ofBlock span head os).unplaced = ofBlock nowhere head.unplaced (os.map unplaced) := by
  obtain ⟨kind, name, nameEnd⟩ := head
  cases kind <;> simp [ofBlock, Head.unplaced]

mutual

theorem unplaced_ofItem : (item : Item Int) → (ofItem item).unplaced = ofItem item.unplaced
  | .statement span s => by
    rw [Item.unplaced_statement, ofItem, ofItem, unplaced_ofStatement]
  | .block span head items => by
    rw [Item.unplaced_block, ofItem, ofItem, unplaced_ofBlock, map_unplaced_ofItems items]

theorem map_unplaced_ofItems : (items : List (Item Int)) →
    (ofItems items).map unplaced = ofItems (items.map Item.unplaced)
  | [] => by
    rw [ofItems, List.map_nil, List.map_nil, ofItems]
  | item :: items => by
    rw [ofItems, List.map_cons, List.map_cons, ofItems, unplaced_ofItem item,
      map_unplaced_ofItems items]

end

end Outline

/-- The outline goes back to the items without their positions. -/
theorem unplaced_outline_congr {s u : Schema Int}
    (h : s.items.map Item.unplaced = u.items.map Item.unplaced) :
    (outline s).unplaced = (outline u).unplaced := by
  rw [outline, outline, Outline.unplaced_rule, Outline.unplaced_rule, Outline.map_unplaced_ofItems,
    Outline.map_unplaced_ofItems, h]

/-- Schemas that differ in positions only get the same numbers. -/
theorem exists_evaluate_of_unplaced {s u : Schema String} {r : Schema Int}
    (hs : s.items.map Item.unplaced = u.items.map Item.unplaced) (h : evaluate s = .ok r) :
    ∃ r', evaluate u = .ok r' ∧ r.items.map Item.unplaced = r'.items.map Item.unplaced ∧
      r'.comments = u.comments := by
  obtain ⟨items, hitems, h⟩ := bind_eq_ok h
  cases h
  have hmap := Item.map_unplaced_mapList literalValue u.items
  rw [← hs, ← Item.map_unplaced_mapList, hitems] at hmap
  cases hu : Item.mapList literalValue u.items with
  | error e =>
    rw [hu] at hmap
    cases hmap
  | ok items' =>
    rw [hu] at hmap
    refine ⟨{ items := items', comments := u.comments }, ?_, (Except.ok.inj hmap).symm, rfl⟩
    rw [evaluate, hu]
    rfl

end SchemaEnums.Schema
