import SchemaEnums.Proofs.Descriptor.Outline
import SchemaEnums.Proofs.Layout.Reading
import SchemaEnums.Proofs.Schema.Nesting
import SchemaEnums.Proofs.Schema.Options

namespace SchemaEnums.Schema

open Source

/-- The name is the identifier of the option. -/
def OptionName.IsPlain (option : String) (n : OptionName) : Prop :=
  n = { root := .plain option }

/-- The name is the identifier of the option in parentheses. -/
def OptionName.IsParenthesized (option : String) (n : OptionName) : Prop :=
  ∃ rooted, n = { root := .extension rooted { head := option } }

/-- The value is the identifier `true`. -/
def Constant.IsTrue (c : Constant Int) : Prop :=
  c = .name { head := "true" }

/-- The value is a string that reads `true`. -/
def Constant.IsTrueString (c : Constant Int) : Prop :=
  c = .string "\"true\"" ∨ c = .string "'true'"

/-- Of the assignments to names with the property `named`, the last one has a value with the property
`valued`. -/
def LastAssigns (named : OptionName → Prop) (valued : Constant Int → Prop)
    (options : List (Assignment Int)) : Prop :=
  ∃ before a after, options = before ++ a :: after ∧ named a.name ∧ valued a.value ∧
    ∀ a' ∈ after, ¬ named a'.name

/-- No name looks like that of the option but is another one, and the option is set to no string that looks
like `true`. -/
structure Unmistakable (option : String) (options : List (Assignment Int)) : Prop where
  name : ∀ a ∈ options, ¬ a.name.IsParenthesized option
  value : ∀ a ∈ options, a.name.IsPlain option → ¬ a.value.IsTrueString

/-- The flag is that of the option: it goes by the last assignment to the identifier of the option, with
or without parentheses, and is set if that has the value `true`, as an identifier or as a string. -/
structure IsFlag (option : String) (options : List (Assignment Int)) (flag : Bool) : Prop where
  iff_last : flag = true ↔ LastAssigns (fun n => n.IsPlain option ∨ n.IsParenthesized option)
    (fun c => c.IsTrue ∨ c.IsTrueString) options
  iff_plain : Unmistakable option options →
    (flag = true ↔ LastAssigns (·.IsPlain option) (·.IsTrue) options)

section

variable {named named' : OptionName → Prop} {valued valued' : Constant Int → Prop} {option : String}
  {options : List (Assignment Int)}

theorem LastAssigns.exists_mem (h : LastAssigns named valued options) :
    ∃ a ∈ options, named a.name ∧ valued a.value := by
  obtain ⟨before, a, after, rfl, hname, hvalue, -⟩ := h
  exact ⟨a, by simp, hname, hvalue⟩

theorem LastAssigns.imp (hnamed : ∀ a ∈ options, named a.name ↔ named' a.name)
    (hvalued : ∀ a ∈ options, named a.name → valued a.value → valued' a.value)
    (h : LastAssigns named valued options) : LastAssigns named' valued' options := by
  obtain ⟨before, a, after, rfl, hname, hvalue, hafter⟩ := h
  have ha : a ∈ before ++ a :: after := by simp
  refine ⟨before, a, after, rfl, (hnamed a ha).1 hname, hvalued a ha hname hvalue, ?_⟩
  intro a' ha' hname'
  exact hafter a' ha' ((hnamed a' (by simp [ha'])).2 hname')

theorem lastAssigns_congr (hnamed : ∀ a ∈ options, named a.name ↔ named' a.name)
    (hvalued : ∀ a ∈ options, named a.name → (valued a.value ↔ valued' a.value)) :
    LastAssigns named valued options ↔ LastAssigns named' valued' options := by
  refine ⟨.imp hnamed fun a ha hname => (hvalued a ha hname).1, .imp (fun a ha => (hnamed a ha).symm) ?_⟩
  exact fun a ha hname => (hvalued a ha ((hnamed a ha).2 hname)).2

/-- A flag goes by the texts of names and values. -/
theorem isSet_iff : isSet option options = true ↔
    LastAssigns (fun n => n.text = option) (fun c => c.text = "true") options := by
  constructor
  · intro h
    unfold isSet at h
    split at h
    next a ha =>
      obtain ⟨front, hfront⟩ := List.getLast?_eq_some_iff.1 ha
      obtain ⟨l₁, l₂, rfl, -, hl₂⟩ := List.filter_eq_append_iff.1 hfront
      obtain ⟨l₃, after, rfl, -, hname, hafter⟩ := List.filter_eq_cons_iff.1 hl₂
      refine ⟨l₁ ++ l₃, a, after, by rw [List.append_assoc], beq_iff_eq.1 hname, beq_iff_eq.1 h, ?_⟩
      exact fun a' ha' hname' => List.filter_eq_nil_iff.1 hafter a' ha' (beq_iff_eq.2 hname')
    next => cases h
  · rintro ⟨before, a, after, rfl, hname, hvalue, hafter⟩
    have hnone : after.filter (fun a => a.name.text == option) = [] :=
      List.filter_eq_nil_iff.2 fun a' ha' hname' => hafter a' ha' (beq_iff_eq.1 hname')
    simp [isSet, List.filter_append, hname, hvalue, hnone]

/-- A text without dots is no text of several parts. -/
theorem intercalate_dot_iff {part : String} {parts : List String} (hoption : '.' ∉ option.toList) :
    ".".intercalate (part :: parts) = option ↔ part = option ∧ parts = [] := by
  cases parts with
  | nil => simp [String.intercalate_singleton]
  | cons part' parts =>
    simp only [reduceCtorEq, and_false, iff_false]
    rintro rfl
    apply hoption
    rw [String.intercalate_cons_cons, String.toList_append, String.toList_append]
    simp

theorem DottedName.text_eq_iff {n : DottedName} (hoption : '.' ∉ option.toList) :
    n.text = option ↔ n = { head := option } := by
  obtain ⟨head, tail⟩ := n
  rw [text, parts, intercalate_dot_iff hoption, DottedName.mk.injEq]

theorem OptionName.text_eq_iff {n : OptionName} (hoption : '.' ∉ option.toList) :
    n.text = option ↔ n.IsPlain option ∨ n.IsParenthesized option := by
  obtain ⟨root, fields⟩ := n
  cases root with
  | plain name => simp [text, intercalate_dot_iff hoption, IsPlain, IsParenthesized]
  | extension rooted name =>
    simp [text, intercalate_dot_iff hoption, DottedName.text_eq_iff hoption, IsPlain, IsParenthesized]

/-- No integer is written like a word. -/
theorem toString_ne_true (k : Int) : toString k ≠ "true" := by
  intro h
  have hread := Lexeme.integer?_toString k (by decide : Lexeme.isNamePart ' ' = false) []
  rw [h] at hread
  exact absurd hread (by decide)

theorem unquote_ofList (quote : Char) (inner : List Char) :
    unquote (String.ofList (quote :: (inner ++ [quote]))) = String.ofList inner := by
  simp [unquote]

theorem Constant.text_eq_true_iff {c : Constant Int} (h : c.Spelled) :
    c.text = "true" ↔ c.IsTrue ∨ c.IsTrueString := by
  cases c with
  | name n => simp [text, DottedName.text_eq_iff, IsTrue, IsTrueString]
  | integer k =>
    have hne : (integer k).text ≠ "true" := toString_ne_true k
    simp only [hne, IsTrue, IsTrueString, reduceCtorEq, or_self]
  | float t =>
    have hne : t ≠ "true" := by
      rintro rfl
      exact h (Lexeme.isName_cons rfl rfl)
    simp [text, hne, IsTrue, IsTrueString]
  | string t =>
    refine ⟨fun htrue => .inr ?_, ?_⟩
    · obtain ⟨quote, inner, hquote, ht⟩ := h
      have hstring : t = String.ofList (quote :: (inner ++ [quote])) := by
        rw [← ht, String.ofList_toList]
      have hinner : inner = "true".toList := by
        rw [text, hstring, unquote_ofList] at htrue
        rw [← htrue, String.toList_ofList]
      rw [hstring, hinner]
      obtain rfl | rfl := hquote
      · exact .inl rfl
      · exact .inr rfl
    · rintro (htrue | htrue | htrue) <;> cases htrue <;> rfl

theorem isFlag_isSet (hoption : '.' ∉ option.toList) (hspelled : ValuesSpelled options) :
    IsFlag option options (isSet option options) := by
  have hlast : isSet option options = true ↔
      LastAssigns (fun n => n.IsPlain option ∨ n.IsParenthesized option)
        (fun c => c.IsTrue ∨ c.IsTrueString) options :=
    isSet_iff.trans (lastAssigns_congr (fun _ _ => OptionName.text_eq_iff hoption)
      fun a ha _ => Constant.text_eq_true_iff (hspelled a ha))
  refine ⟨hlast, fun h => hlast.trans (lastAssigns_congr ?_ ?_)⟩
  · exact fun a ha => or_iff_left (h.name a ha)
  · intro a ha hname
    have hplain := hname.resolve_right (h.name a ha)
    exact or_iff_left (h.value a ha hplain)

end

mutual

/-- The enums that stand in an item, wherever in it: their heads and the items of their bodies, in the
order of the text. -/
def Item.enumBlocks {ν : Type} : Item ν → List (Head × List (Item ν))
  | .statement _ _ => []
  | .block _ head items =>
    (if head.kind = .enum then [(head, items)] else []) ++ Item.enumBlocksOf items

def Item.enumBlocksOf {ν : Type} : List (Item ν) → List (Head × List (Item ν))
  | [] => []
  | item :: items => item.enumBlocks ++ Item.enumBlocksOf items

end

/-- The flag of a value goes by the options in its brackets. -/
structure FlaggedValue (d : ValueDescriptor) (v : ValueItem) : Prop where
  name : d.name = v.name
  deprecated : IsFlag "deprecated" v.options d.deprecated

/-- The flags of an enum go by the option statements in its body. -/
structure Flagged (d : EnumDescriptor) (b : Head × List (Item Int)) : Prop where
  name : d.name = some b.1.name
  allowAlias : IsFlag "allow_alias" (b.2.filterMap Item.option?) d.allowAlias
  deprecated : IsFlag "deprecated" (b.2.filterMap Item.option?) d.deprecated
  values : List.Forall₂ FlaggedValue d.values (b.2.filterMap Item.value?)

section

variable {o : Origin} {package : Option String} {head : Head} {items : List (Item Int)}

theorem enumBlocksOf_eq_nil {kind : BlockKind} (hkind : kind ≠ .message)
    (h : ∀ item ∈ items, item.StandsIn (some kind)) : Item.enumBlocksOf items = [] := by
  induction items with
  | nil => rw [Item.enumBlocksOf]
  | cons item items ih =>
    obtain ⟨hfirst, hrest⟩ := List.forall_mem_cons.1 h
    obtain ⟨span, s, rfl⟩ := hfirst.exists_statement hkind
    rw [Item.enumBlocksOf, Item.enumBlocks, ih hrest, List.append_nil]

theorem valuesSpelled_option? (h : ∀ item ∈ items, item.All Statement.ValuesSpelled) :
    ValuesSpelled (items.filterMap Item.option?) := by
  intro a ha
  obtain ⟨item, hitem, hoption⟩ := List.mem_filterMap.1 ha
  cases h item hitem with
  | block => cases hoption
  | @statement span s hs =>
    cases s with
    | option a' =>
      cases hoption
      exact hs a (List.mem_singleton_self a)
    | _ => cases hoption

theorem valuesSpelled_value? (h : ∀ item ∈ items, item.All Statement.ValuesSpelled) :
    ∀ v ∈ items.filterMap Item.value?, ValuesSpelled v.options := by
  intro v hv
  obtain ⟨item, hitem, hvalue⟩ := List.mem_filterMap.1 hv
  cases h item hitem with
  | block => cases hvalue
  | @statement span s hs =>
    cases s with
    | value name number options =>
      cases hvalue
      exact hs
    | _ => cases hvalue

theorem flaggedValues {vs : List ValueItem} (h : ∀ v ∈ vs, ValuesSpelled v.options) :
    List.Forall₂ FlaggedValue (o.values vs) vs := by
  induction vs with
  | nil => exact .nil
  | cons v vs ih =>
    obtain ⟨hfirst, hrest⟩ := List.forall_mem_cons.1 h
    exact .cons ⟨rfl, isFlag_isSet (by decide) hfirst⟩ (ih hrest)

theorem flagged_enum (parents : List String) (span : Span)
    (h : ∀ item ∈ items, item.All Statement.ValuesSpelled) :
    Flagged (o.enum package parents span head items) (head, items) where
  name := rfl
  allowAlias := isFlag_isSet (by decide) (valuesSpelled_option? h)
  deprecated := isFlag_isSet (by decide) (valuesSpelled_option? h)
  values := flaggedValues (valuesSpelled_value? h)

mutual

/-- The descriptors of the enums in an item have their flags from these. -/
theorem flagged_enumsOfItem (o : Origin) (package : Option String) : {b : Option BlockKind} →
    (item : Item Int) → item.StandsIn b → item.All Statement.ValuesSpelled →
    (parents : List String) →
    List.Forall₂ Flagged (o.enumsOfItem package parents item) item.enumBlocks
  | b, .statement span s, _, _, parents => by
    rw [Item.enumBlocks, Origin.enumsOfItem]
    exact .nil
  | b, .block span head items, hstands, hall, parents => by
    cases hstands with
    | block _ hinner =>
    cases hall with
    | block hitems =>
    cases hkind : head.kind with
    | message =>
      rw [Item.enumBlocks, Origin.enumsOfItem, hkind]
      exact flagged_enumsOfItems o package items hinner hitems (parents ++ [head.name])
    | oneof =>
      rw [hkind] at hinner
      rw [Item.enumBlocks, Origin.enumsOfItem, hkind, enumBlocksOf_eq_nil (by decide) hinner]
      exact .nil
    | enum =>
      rw [hkind] at hinner
      rw [Item.enumBlocks, Origin.enumsOfItem, hkind, enumBlocksOf_eq_nil (by decide) hinner]
      exact .cons (flagged_enum parents span hitems) .nil

theorem flagged_enumsOfItems (o : Origin) (package : Option String) : {b : Option BlockKind} →
    (items : List (Item Int)) → (∀ item ∈ items, item.StandsIn b) →
    (∀ item ∈ items, item.All Statement.ValuesSpelled) → (parents : List String) →
    List.Forall₂ Flagged (o.enumsOfItems package parents items) (Item.enumBlocksOf items)
  | b, [], _, _, parents => by
    rw [Item.enumBlocksOf, Origin.enumsOfItems]
    exact .nil
  | b, item :: items, hstands, hall, parents => by
    obtain ⟨hstands₁, hstands⟩ := List.forall_mem_cons.1 hstands
    obtain ⟨hfirst, hall⟩ := List.forall_mem_cons.1 hall
    rw [Item.enumBlocksOf, Origin.enumsOfItems]
    exact List.rel_append (flagged_enumsOfItem o package item hstands₁ hfirst parents)
      (flagged_enumsOfItems o package items hstands hall parents)

end

/-- Package statements between the items change nothing about flags. -/
theorem flagged_enumsAfter (o : Origin) (package : Option String)
    (hstands : ∀ item ∈ items, item.StandsIn none)
    (hall : ∀ item ∈ items, item.All Statement.ValuesSpelled) :
    List.Forall₂ Flagged (o.enumsAfter package items) (Item.enumBlocksOf items) := by
  induction items generalizing package with
  | nil =>
    rw [Item.enumBlocksOf, Origin.enumsAfter]
    exact .nil
  | cons item items ih =>
    obtain ⟨hstands₁, hstands⟩ := List.forall_mem_cons.1 hstands
    obtain ⟨hfirst, hall⟩ := List.forall_mem_cons.1 hall
    obtain ⟨package', henums⟩ := exists_enumsAfter_cons o package item items
    rw [henums, Item.enumBlocksOf]
    exact List.rel_append (flagged_enumsOfItem o package item hstands₁ hfirst [])
      (ih package' hstands hall)

end

end SchemaEnums.Schema

namespace SchemaEnums

open Schema

/-- Flags come from options. The enums of a text that was loaded are those that stand in its schema, one by
one. Whether an enum allows aliases, or is deprecated, depends on the option statements in its body, and
whether a value is deprecated on the options in its brackets. -/
theorem FileDescriptor.flags_of_load {file : Option String} {text : String} {f : FileDescriptor}
    (h : (load file text).result = .ok f) :
    ∃ s, parse text = .ok s ∧ List.Forall₂ Flagged f.enums (Item.enumBlocksOf s.items) := by
  obtain ⟨s, hs, rfl⟩ := parse_of_load h
  exact ⟨s, hs, flagged_enumsAfter _ none (standsIn_of_parse hs) (valuesSpelled_of_parse hs)⟩

/-- An enum whose flag is given twice, with a value that is deprecated. -/
def flaggedEnum : String :=
  "enum E \x7b option allow_alias = false; A = 0; option allow_alias = true; " ++
    "B = 0 [deprecated = true]; \x7d"

theorem FileDescriptor.load_flaggedEnum : (load none flaggedEnum).result = .ok
    { file := none
      enums := [{ name := some "E"
                  values := [{ name := "A", number := 0, line := some 1 },
                             { name := "B", number := 0, deprecated := true, line := some 1 }]
                  allowAlias := true
                  line := some 1 }] } := by
  decide +kernel

theorem FileDescriptor.flags_of_load_flaggedEnum :
    ∃ f s, (load none flaggedEnum).result = .ok f ∧ parse flaggedEnum = .ok s ∧
      f.enums.map (·.allowAlias) = [true] ∧
      List.Forall₂ Flagged f.enums (Item.enumBlocksOf s.items) := by
  obtain ⟨s, hs, hflagged⟩ := flags_of_load load_flaggedEnum
  exact ⟨_, s, load_flaggedEnum, hs, rfl, hflagged⟩

/-- An enum with an extension that looks like an option, and with a string that looks like `true`. -/
def mistakenEnum : String :=
  "enum E \x7b option (allow_alias) = true; A = 0; B = 0 [deprecated = \"true\"]; \x7d"

theorem FileDescriptor.load_mistakenEnum : (load none mistakenEnum).result = .ok
    { file := none
      enums := [{ name := some "E"
                  values := [{ name := "A", number := 0, line := some 1 },
                             { name := "B", number := 0, deprecated := true, line := some 1 }]
                  allowAlias := true
                  line := some 1 }] } := by
  decide +kernel

/-- Both set flags, though no plain option has the value `true`. -/
theorem FileDescriptor.flags_of_mistakenEnum :
    ∃ f s d b v w, (load none mistakenEnum).result = .ok f ∧ parse mistakenEnum = .ok s ∧
      f.enums = [d] ∧ Item.enumBlocksOf s.items = [b] ∧
      d.allowAlias = true ∧
      ¬ LastAssigns (·.IsPlain "allow_alias") (·.IsTrue) (b.2.filterMap Item.option?) ∧
      d.values[1]? = some v ∧ (b.2.filterMap Item.value?)[1]? = some w ∧
      v.deprecated = true ∧ ¬ LastAssigns (·.IsPlain "deprecated") (·.IsTrue) w.options := by
  obtain ⟨s, hs, -⟩ := parse_of_load load_mistakenEnum
  have hblocks : (parse mistakenEnum).toOption.map (fun s =>
      (Item.enumBlocksOf s.items).map fun b => (b.2.filterMap Item.option?,
        (b.2.filterMap Item.value?).map fun v => v.options)) =
      some [([{ name := { root := .extension false { head := "allow_alias" } }
                value := .name { head := "true" } }],
        [[], [{ name := { root := .plain "deprecated" }, value := .string "\"true\"" }]])] := by
    decide +kernel
  rw [hs] at hblocks
  obtain ⟨b, hb, hoptions⟩ := List.map_eq_singleton_iff.1 (Option.some.inj hblocks)
  obtain ⟨hoptions, hvalues⟩ := Prod.mk.inj hoptions
  obtain ⟨w, hw, hwoptions⟩ : ∃ w, (b.2.filterMap Item.value?)[1]? = some w ∧ w.options =
      [{ name := { root := .plain "deprecated" }, value := .string "\"true\"" }] := by
    have hsecond := congrArg (·[1]?) hvalues
    rw [List.getElem?_map] at hsecond
    exact Option.map_eq_some_iff.1 hsecond
  refine ⟨_, s, _, b, _, w, load_mistakenEnum, hs, rfl, hb, rfl, ?_, rfl, hw, rfl, ?_⟩
  · rw [hoptions]
    intro h
    obtain ⟨a, ha, hname, -⟩ := h.exists_mem
    rw [List.mem_singleton.1 ha] at hname
    cases hname
  · rw [hwoptions]
    intro h
    obtain ⟨a, ha, -, hvalue⟩ := h.exists_mem
    rw [List.mem_singleton.1 ha] at hvalue
    cases hvalue

end SchemaEnums
