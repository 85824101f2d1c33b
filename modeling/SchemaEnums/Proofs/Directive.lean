import Mathlib.Data.List.TakeWhile
import SchemaEnums.Directive

namespace SchemaEnums.Directive

/-- The text is split at a mark: `before` stands in front of it, and behind it `label`, as long as it
goes on, and `after`. -/
structure Splits (cs before label after : List Char) : Prop where
  eq : cs = before ++ (mark ++ (label ++ after))
  ne_nil : label ≠ []
  isLabelChar : ∀ c ∈ label, isLabelChar c = true
  maximal : ∀ c ∈ after.head?, Directive.isLabelChar c = false

/-- The text has a mark with the label, and no mark with a label further to the front. -/
def IsFirst (cs label : List Char) : Prop :=
  ∃ before after, Splits cs before label after ∧
    ∀ {before' label' after'}, Splits cs before' label' after' → before.length ≤ before'.length

section

variable {b c : Char} {cs ds before label after : List Char}

theorem takeWhile_label (h : ∀ c ∈ label, isLabelChar c = true)
    (hafter : ∀ c ∈ after.head?, isLabelChar c = false) :
    (label ++ after).takeWhile isLabelChar = label := by
  rw [List.takeWhile_append_of_pos h]
  cases after with
  | nil => simp
  | cons c cs => simp [hafter c rfl]

/-- What follows on the characters of labels is not one of them. -/
theorem head?_dropWhile_label : ∀ c ∈ (ds.dropWhile isLabelChar).head?, isLabelChar c = false := by
  intro c hc
  have hnot := List.head?_dropWhile_not isLabelChar ds
  rw [hc] at hnot
  exact hnot

/-- The label that a text begins with stands behind a mark in front of everything. -/
theorem labelAt?_eq_some_iff : labelAt? cs = some label ↔ ∃ after, Splits cs [] label after := by
  unfold labelAt?
  constructor
  · intro h
    split at h
    next hmark =>
      obtain ⟨ds, rfl⟩ := List.isPrefixOf_iff_prefix.1 hmark
      rw [List.drop_left] at h
      split at h
      next => cases h
      next label hne =>
        cases h
        refine ⟨ds.dropWhile isLabelChar, ?_, hne, fun c hc => List.mem_takeWhile_imp hc,
          head?_dropWhile_label⟩
        rw [List.takeWhile_append_dropWhile, List.nil_append]
    next => cases h
  · rintro ⟨after, rfl, hne, hlabel, hafter⟩
    rw [List.nil_append, if_pos (List.isPrefixOf_iff_prefix.2 (List.prefix_append mark _)),
      List.drop_left, takeWhile_label hlabel hafter]
    cases label with
    | nil => exact absurd rfl hne
    | cons c cs => rfl

theorem labelAt?_eq_none_iff : labelAt? cs = none ↔ ∀ label after, ¬ Splits cs [] label after := by
  simp only [Option.eq_none_iff_forall_ne_some, ne_eq, labelAt?_eq_some_iff, not_exists]

theorem not_splits_nil : ¬ Splits [] before label after := by
  rintro ⟨heq, -⟩
  simp [mark] at heq

theorem splits_cons_iff :
    Splits (c :: cs) (b :: before) label after ↔ b = c ∧ Splits cs before label after := by
  constructor
  · rintro ⟨heq, hne, hlabel, hafter⟩
    obtain ⟨rfl, rfl⟩ := List.cons.inj heq
    exact ⟨rfl, rfl, hne, hlabel, hafter⟩
  · rintro ⟨rfl, rfl, hne, hlabel, hafter⟩
    exact ⟨rfl, hne, hlabel, hafter⟩

/-- Where no directive stands in front of everything, the first one is that of the rest. -/
theorem isFirst_cons_iff (h : labelAt? (c :: cs) = none) :
    IsFirst (c :: cs) label ↔ IsFirst cs label := by
  rw [labelAt?_eq_none_iff] at h
  constructor
  · rintro ⟨before, after, hsplits, hfirst⟩
    cases before with
    | nil => exact absurd hsplits (h label after)
    | cons b before =>
      refine ⟨before, after, (splits_cons_iff.1 hsplits).2, fun hsplits' => ?_⟩
      have hle := hfirst (splits_cons_iff.2 ⟨rfl, hsplits'⟩)
      simpa using hle
  · rintro ⟨before, after, hsplits, hfirst⟩
    refine ⟨c :: before, after, splits_cons_iff.2 ⟨rfl, hsplits⟩, fun {before'} _ _ hsplits' => ?_⟩
    cases before' with
    | nil => exact absurd hsplits' (h _ _)
    | cons b before' =>
      have hle := hfirst (splits_cons_iff.1 hsplits').2
      simpa using hle

/-- The first directive of a text is found. -/
theorem find?_eq_some_iff : find? cs = some label ↔ IsFirst cs label := by
  induction cs with
  | nil =>
    constructor
    · exact nofun
    · rintro ⟨before, after, hsplits, -⟩
      exact absurd hsplits not_splits_nil
  | cons c cs ih =>
    rw [find?]
    cases hat : labelAt? (c :: cs) with
    | none => rw [Option.none_or, ih, isFirst_cons_iff hat]
    | some l =>
      obtain ⟨after, hl⟩ := labelAt?_eq_some_iff.1 hat
      rw [Option.some_or]
      constructor
      · rintro ⟨⟩
        exact ⟨[], after, hl, fun _ => Nat.zero_le _⟩
      · rintro ⟨before, after', hsplits, hfirst⟩
        obtain rfl := List.length_eq_zero_iff.1 (Nat.le_zero.1 (hfirst hl))
        rw [← hat]
        exact labelAt?_eq_some_iff.2 ⟨after', hsplits⟩

/-- Nothing is found exactly where no mark has a label behind it. -/
theorem find?_eq_none_iff :
    find? cs = none ↔ ∀ before label after, ¬ Splits cs before label after := by
  induction cs with
  | nil => exact ⟨fun _ _ _ _ => not_splits_nil, fun _ => rfl⟩
  | cons c cs ih =>
    rw [find?, Option.or_eq_none_iff, ih, labelAt?_eq_none_iff]
    constructor
    · rintro ⟨hhere, hrest⟩ before label after hsplits
      cases before with
      | nil => exact hhere label after hsplits
      | cons b before => exact hrest before label after (splits_cons_iff.1 hsplits).2
    · intro h
      exact ⟨h [], fun before label after hsplits =>
        h (c :: before) label after (splits_cons_iff.2 ⟨rfl, hsplits⟩)⟩

theorem ofComment?_eq_some_iff {comment : Option String} {label : String} :
    ofComment? comment = some label ↔
      ∃ text, comment = some text ∧ IsFirst text.toList label.toList := by
  simp only [ofComment?, Option.bind_eq_some_iff, Option.map_eq_some_iff, find?_eq_some_iff]
  constructor
  · rintro ⟨text, hcomment, l, hfirst, rfl⟩
    rw [← String.toList_ofList (l := l)] at hfirst
    exact ⟨text, hcomment, hfirst⟩
  · rintro ⟨text, hcomment, hfirst⟩
    exact ⟨text, hcomment, label.toList, hfirst, String.ofList_toList⟩

theorem ofComment?_eq_none_iff {comment : Option String} :
    ofComment? comment = none ↔
      ∀ text, comment = some text → ∀ before label after, ¬ Splits text.toList before label after := by
  simp only [ofComment?, Option.bind_eq_none_iff, Option.map_eq_none_iff, find?_eq_none_iff]

/-- Some mark of a text has a label behind it exactly if a character of a label follows some mark. -/
theorem exists_splits_iff :
    (∃ before label after, Splits cs before label after) ↔
      ∃ before ds, cs = before ++ (mark ++ ds) ∧ ∃ c ∈ ds.head?, isLabelChar c = true := by
  constructor
  · rintro ⟨before, label, after, rfl, hne, hlabel, -⟩
    obtain ⟨c, label, rfl⟩ := List.exists_cons_of_ne_nil hne
    exact ⟨before, c :: label ++ after, rfl, c, rfl, hlabel c List.mem_cons_self⟩
  · rintro ⟨before, ds, rfl, c, hc, hlabel⟩
    obtain ⟨es, rfl⟩ := List.head?_eq_some_iff.1 hc
    refine ⟨before, (c :: es).takeWhile isLabelChar, (c :: es).dropWhile isLabelChar, ?_, ?_,
      fun d hd => List.mem_takeWhile_imp hd, head?_dropWhile_label⟩
    · rw [List.takeWhile_append_dropWhile]
    · rw [List.takeWhile_cons_of_pos hlabel]
      exact List.cons_ne_nil _ _

end

/-- Holds of the ASCII letters, the ASCII digits and the underscore. -/
def InLabel (c : Char) : Prop :=
  ('A' ≤ c ∧ c ≤ 'Z') ∨ ('a' ≤ c ∧ c ≤ 'z') ∨ ('0' ≤ c ∧ c ≤ '9') ∨ c = '_'

/-- The text is cut in front of a directive and behind it: `label` is all that can belong to the label.
-/
structure Cut (text before label after : String) : Prop where
  eq : text = before ++ "@Translate: " ++ label ++ after
  ne_empty : label ≠ ""
  inLabel : ∀ c ∈ label.toList, InLabel c
  maximal : ∀ c ∈ after.toList.head?, ¬ InLabel c

section

variable {c : Char} {text before label after : String}

theorem isLabelChar_iff : isLabelChar c = true ↔ InLabel c := by
  have hupper : c.isUpper = true ↔ 'A' ≤ c ∧ c ≤ 'Z' := decide_eq_true_iff
  have hlower : c.isLower = true ↔ 'a' ≤ c ∧ c ≤ 'z' :=
    Bool.and_eq_true_iff.trans (and_congr decide_eq_true_iff decide_eq_true_iff)
  have hdigit : c.isDigit = true ↔ '0' ≤ c ∧ c ≤ '9' :=
    Bool.and_eq_true_iff.trans (and_congr decide_eq_true_iff decide_eq_true_iff)
  have hclasses : isLabelChar c = (((c.isUpper || c.isLower) || c.isDigit) || c == '_') := rfl
  rw [hclasses, Bool.or_eq_true, Bool.or_eq_true, Bool.or_eq_true, hupper, hlower, hdigit, beq_iff_eq,
    or_assoc, or_assoc, InLabel]

theorem eq_append_iff :
    text = before ++ "@Translate: " ++ after ↔
      text.toList = before.toList ++ (mark ++ after.toList) := by
  have hmark : "@Translate: ".toList = mark := rfl
  rw [← String.toList_inj, String.toList_append, String.toList_append, hmark, List.append_assoc]

/-- The cuts of a text are the splits of its characters. -/
theorem cut_iff :
    Cut text before label after ↔
      Splits text.toList before.toList label.toList after.toList := by
  have heq : text = before ++ "@Translate: " ++ label ++ after ↔
      text.toList = before.toList ++ (mark ++ (label.toList ++ after.toList)) := by
    rw [String.append_assoc, eq_append_iff, String.toList_append]
  have hlabel : label ≠ "" ↔ label.toList ≠ [] := by
    rw [ne_eq, ne_eq, String.toList_eq_nil_iff]
  constructor
  · rintro ⟨htext, hne, hin, hend⟩
    exact ⟨heq.1 htext, hlabel.1 hne, fun c hc => isLabelChar_iff.2 (hin c hc),
      fun c hc => Bool.eq_false_iff.2 fun h => hend c hc (isLabelChar_iff.1 h)⟩
  · rintro ⟨htext, hne, hin, hend⟩
    exact ⟨heq.2 htext, hlabel.2 hne, fun c hc => isLabelChar_iff.1 (hin c hc),
      fun c hc h => Bool.eq_false_iff.1 (hend c hc) (isLabelChar_iff.2 h)⟩

/-- The foremost cut of a text is the first split of its characters. -/
theorem isFirst_toList_iff :
    IsFirst text.toList label.toList ↔ ∃ before after, Cut text before label after ∧
      ∀ {before' label' after'}, Cut text before' label' after' → before.length ≤ before'.length := by
  constructor
  · rintro ⟨before, after, hsplits, hfirst⟩
    rw [← String.toList_ofList (l := before), ← String.toList_ofList (l := after)] at hsplits
    refine ⟨_, _, cut_iff.2 hsplits, fun hcut => ?_⟩
    rw [String.length_ofList]
    exact hfirst (cut_iff.1 hcut)
  · rintro ⟨before, after, hcut, hfirst⟩
    refine ⟨_, _, cut_iff.1 hcut, fun {before' label' after'} hsplits => ?_⟩
    rw [← String.toList_ofList (l := before'), ← String.toList_ofList (l := label'),
      ← String.toList_ofList (l := after')] at hsplits
    have hle := hfirst (cut_iff.2 hsplits)
    rwa [String.length_ofList] at hle

/-- A text has no cut exactly if no mark in it has a character of a label right behind it. -/
theorem not_splits_toList_iff :
    (∀ before label after, ¬ Splits text.toList before label after) ↔
      ∀ before after, text = before ++ "@Translate: " ++ after →
        ∀ c ∈ after.toList.head?, ¬ InLabel c := by
  have hsplits := @exists_splits_iff text.toList
  constructor
  · intro hnone before after htext c hc hin
    obtain ⟨b, l, a, h⟩ := hsplits.2
      ⟨before.toList, after.toList, eq_append_iff.1 htext, c, hc, isLabelChar_iff.2 hin⟩
    exact hnone b l a h
  · intro hnone b l a h
    obtain ⟨before, ds, htext, c, hc, hlabel⟩ := hsplits.1 ⟨b, l, a, h⟩
    rw [← String.toList_ofList (l := before), ← String.toList_ofList (l := ds)] at htext
    refine hnone _ _ (eq_append_iff.2 htext) c ?_ (isLabelChar_iff.1 hlabel)
    rwa [String.toList_ofList]

/-- What a text directs is the label of its foremost cut, and nothing exactly if no mark in the text
has a character of a label right behind it. It is never the empty text. -/
theorem ofComment?_first (text : String) :
    (∀ label, ofComment? (some text) = some label ↔ ∃ before after, Cut text before label after ∧
      ∀ {before' label' after'}, Cut text before' label' after' → before.length ≤ before'.length) ∧
    (ofComment? (some text) = none ↔
      ∀ before after, text = before ++ "@Translate: " ++ after →
        ∀ c ∈ after.toList.head?, ¬ InLabel c) ∧
    ofComment? (some text) ≠ some "" := by
  have hsome (label : String) : ofComment? (some text) = some label ↔
      ∃ before after, Cut text before label after ∧
        ∀ {before' label' after'}, Cut text before' label' after' →
          before.length ≤ before'.length := by
    rw [ofComment?_eq_some_iff, ← isFirst_toList_iff]
    constructor
    · rintro ⟨_, ⟨⟩, hfirst⟩
      exact hfirst
    · exact fun hfirst => ⟨text, rfl, hfirst⟩
  refine ⟨hsome, ?_, fun hempty => ?_⟩
  · rw [ofComment?_eq_none_iff, ← not_splits_toList_iff]
    constructor
    · exact fun h => h text rfl
    · rintro h _ ⟨⟩
      exact h
  · obtain ⟨before, after, hcut, -⟩ := (hsome "").1 hempty
    exact hcut.ne_empty rfl

-- The first mark has no label behind it, so the second one counts.
example : ofComment? (some "@Translate: @Translate: Go-Time") = some "Go" := by decide

end

end SchemaEnums.Directive
