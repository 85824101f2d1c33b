import SchemaEnums.Proofs.Descriptor.Located
import SchemaEnums.Proofs.Documentation.Sharing
import SchemaEnums.Proofs.Schema.Terminated

namespace SchemaEnums.Schema

open Source

/-- The comment is the first one that begins at the position or behind it. -/
def FirstBehind (comments : List Comment) (p : Position) (c : Comment) : Prop :=
  ∃ before after, comments = before ++ c :: after ∧ p.offset ≤ c.span.start.offset ∧
    ∀ b ∈ before, b.span.start.offset < p.offset

/-- The comment stands behind the value on the line on which that ends, in front of the next value and of
the closing brace of the enum. -/
structure StaysIn (e : LocatedEnum) (v : ValueItem) (next : Option ValueItem) (c : Comment) : Prop where
  behind : v.span.stop.offset ≤ c.span.start.offset
  line : c.span.start.line = v.span.stop.line
  before_next : ∀ w ∈ next, c.span.start.offset < w.span.start.offset
  before_brace : c.span.stop.offset < e.span.stop.offset

/-- The value is the last one of the enum, and the comment stands behind the closing brace, on the line on
which the value ends. -/
structure Escapes (e : LocatedEnum) (v : ValueItem) (next : Option ValueItem) (c : Comment) : Prop where
  last : next = none
  line : c.span.start.line = v.span.stop.line
  outside : e.span.stop.offset ≤ c.span.start.offset

/-- What the trailing comment in the descriptor of a value is: the first comment behind the value, if that
stays in the enum or escapes from it. So it is always one that stays exactly if the first one does not
escape. -/
structure Trailed (source : List Char) (comments : List Comment) (e : LocatedEnum) (d : ValueDescriptor)
    (v : ValueItem × Option ValueItem) : Prop where
  name : d.name = v.1.name
  semicolon : Behind source ';' v.1.span.stop
  iff_first : ∀ t, d.documentation.trailing = some t ↔
    ∃ c, FirstBehind comments v.1.span.stop c ∧ t = c.content ∧
      (StaysIn e v.1 v.2 c ∨ Escapes e v.1 v.2 c)
  stays_iff : (∀ t, d.documentation.trailing = some t →
      ∃ c ∈ comments, t = c.content ∧ StaysIn e v.1 v.2 c) ↔
    ∀ c, FirstBehind comments v.1.span.stop c → ¬ Escapes e v.1 v.2 c

/-- Trailing comments of the values of an enum. -/
structure ValuesTrailed (source : List Char) (comments : List Comment) (d : EnumDescriptor)
    (e : LocatedEnum) : Prop where
  name : d.name = some e.head.name
  brace : Behind source '\x7d' e.span.stop
  values : List.Forall₂ (Trailed source comments e) d.values (withNext e.values)

/-- No comment reaches to the end of a token. -/
def endMarks (comments : List Comment) : Landmarks where
  starts _ := True
  stops p := ∀ c ∈ comments, c.span.stop.offset < p.offset ∨ p.offset ≤ c.span.start.offset
  names _ := True

/-- How an enum stands in its text: its values stand in order and end with semicolons, and no comment
reaches to its brace. -/
structure LocatedEnum.Laid (source : List Char) (comments : List Comment) (e : LocatedEnum) : Prop where
  ordered : Ordered ValueItem.span e.head.nameEnd.offset e.span.stop.offset e.values
  placed : ∀ v ∈ e.values, v.Placed (textMarks source comments)
  semicolons : ∀ v ∈ e.values, Behind source ';' v.span.stop
  brace : Behind source '\x7d' e.span.stop
  clear : (endMarks comments).stops e.span.stop

section

variable {source : List Char} {comments : List Comment} {c : Comment} {p : Position} {e : LocatedEnum}
  {v w : ValueItem} {next : Option ValueItem} {t : String} {o : Origin}

theorem Trace.endMarks {lo : Nat} {tokens : List Token} (h : Trace source lo tokens comments) {t : Token}
    (ht : t ∈ tokens) : Marks (endMarks comments) t where
  starts _ := trivial
  stops _ c hc := by
    have hlt := h.lt_of_mem t ht
    rcases h.apart t ht c hc with hapart | hapart
    · exact .inr hapart
    · exact .inl (by omega)
  names _ := trivial
  offset_lt := h.lt_of_mem t ht

theorem Item.Terminated.of_within {ν : Type} {x item : Item ν} (h : item.Terminated source)
    (hx : x.Within item) : x.Terminated source := by
  refine hx.of_inner (fun span head items hblock => ?_) h
  cases hblock with
  | block _ hitems => exact hitems

/-- The values among terminated items end with semicolons. -/
theorem behind_of_mem_values {items : List (Item Int)} (h : ∀ item ∈ items, item.Terminated source) :
    ∀ v ∈ items.filterMap Item.value?, Behind source ';' v.span.stop := by
  intro v hv
  obtain ⟨item, hitem, hvalue⟩ := List.mem_filterMap.1 hv
  unfold Item.value? at hvalue
  split at hvalue <;> cases hvalue
  cases h _ hitem with
  | statement hstop => exact hstop

theorem laid_of_parse {text : String} {s : Schema Int} (h : parse text = .ok s)
    (he : e ∈ s.locatedEnums) : e.Laid text.toList s.comments := by
  obtain ⟨-, item, hitem, hwithin⟩ := within_of_mem_locatedAfter he
  obtain ⟨tokens, htrace, hplaced⟩ := exists_trace_of_parse h
  have hmarks := (hplaced (textMarks text.toList s.comments) fun _ ht => htrace.marks ht).placed item hitem
  have hends := (hplaced (endMarks s.comments) fun _ ht => htrace.endMarks ht).placed item hitem
  have hblock : e.block.Placed (textMarks text.toList s.comments) := hmarks.of_within hwithin
  have hend : e.block.Placed (endMarks s.comments) := hends.of_within hwithin
  have hterminated : e.block.Terminated text.toList := (terminated_of_parse h item hitem).of_within hwithin
  cases hblock with
  | block _ _ _ _ _ _ hordered hitems =>
  cases hend with
  | block _ _ _ hstop _ _ _ _ =>
  cases hterminated with
  | block hbrace hinner =>
  obtain ⟨hvalues, hvplaced⟩ := ItemsPlaced.values ⟨hordered, hitems⟩
  exact ⟨hvalues, hvplaced, behind_of_mem_values hinner, hbrace, hstop⟩

theorem firstBehind_iff :
    FirstBehind comments p c ↔
      (comments.find? fun c => p.offset ≤ c.span.start.offset) = some c := by
  simp only [List.find?_eq_some_iff_append, decide_eq_true_eq, Bool.not_eq_true', decide_eq_false_iff_not,
    Nat.not_le]
  constructor
  · rintro ⟨before, after, hsplit, hle, hbefore⟩
    exact ⟨hle, before, after, hsplit, hbefore⟩
  · rintro ⟨hle, before, after, hsplit, hbefore⟩
    exact ⟨before, after, hsplit, hle, hbefore⟩

theorem FirstBehind.mem (h : FirstBehind comments p c) : c ∈ comments := by
  obtain ⟨before, after, rfl, -⟩ := h
  simp

/-- No comment behind the position begins in front of the first one. -/
theorem FirstBehind.start_le (h : FirstBehind comments p c) (hcomments : CommentsPlaced source comments)
    {d : Comment} (hd : d ∈ comments) (hle : p.offset ≤ d.span.start.offset) :
    c.span.start.offset ≤ d.span.start.offset := by
  have hlt := (hcomments.firm c h.mem).offset_lt
  have hpairwise := hcomments.ordered.pairwise
  obtain ⟨before, after, rfl, -, hbefore⟩ := h
  rcases List.mem_append.1 hd with hd | hd
  · have hstart := hbefore d hd
    omega
  · rcases List.mem_cons.1 hd with rfl | hd
    · exact Nat.le_refl _
    · obtain ⟨-, hrest, -⟩ := List.pairwise_append.1 hpairwise
      have hstop := (List.pairwise_cons.1 hrest).1 d hd
      omega

/-- A comment that begins no later than a value of the enum ends in front of it, and so in the enum. -/
theorem LocatedEnum.Laid.stop_le (h : e.Laid source comments) (hc : c ∈ comments) (hw : w ∈ e.values)
    (hle : c.span.start.offset ≤ w.span.start.offset) :
    c.span.stop.offset ≤ w.span.start.offset ∧ c.span.stop.offset < e.span.stop.offset := by
  have hplaced := h.placed w hw
  have hlt := hplaced.offset_lt
  obtain ⟨-, hhi⟩ := h.ordered.le_of_mem w hw
  obtain ⟨-, hout⟩ := hplaced.starts
  rcases hout c hc with hout | hout <;> omega

/-- The first comment behind a value is its trailing comment if it stands in the enum, in front of the next
value, or if there is no next value and it stands behind the enum. -/
theorem trailing_value_iff (hlaid : e.Laid o.source o.comments)
    (hcomments : CommentsPlaced o.source o.comments) (hv : (v, next) ∈ withNext e.values) :
    (o.value v next).documentation.trailing = some t ↔
      ∃ c, FirstBehind o.comments v.span.stop c ∧ t = c.content ∧
        (StaysIn e v next c ∨ Escapes e v next c) := by
  obtain ⟨-, hnext⟩ := mem_of_mem_withNext hv
  have htrailing : (o.value v next).documentation.trailing =
    (trailingComment? o.comments v.span.stop (next.map (·.span.start))).map Comment.content := rfl
  rw [htrailing, Option.map_eq_some_iff]
  constructor
  · rintro ⟨c, hc, rfl⟩
    obtain ⟨hfind, hline, hbound⟩ := trailingComment?_eq_some_iff.1 hc
    have hfirst := firstBehind_iff.2 hfind
    have hbehind : v.span.stop.offset ≤ c.span.start.offset := by simpa using List.find?_some hfind
    have hlt := (hcomments.firm c hfirst.mem).offset_lt
    refine ⟨c, hfirst, rfl, ?_⟩
    cases next with
    | some w =>
      obtain ⟨hstop, hbrace⟩ := hlaid.stop_le hfirst.mem (hnext w rfl) (hbound w.span.start rfl)
      refine .inl ⟨hbehind, hline, fun w' hw' => ?_, hbrace⟩
      cases hw'
      omega
    | none =>
      -- There is no bound, so the comment may stand on either side of the brace.
      rcases hlaid.clear c hfirst.mem with hbrace | houtside
      · exact .inl ⟨hbehind, hline, nofun, hbrace⟩
      · exact .inr ⟨rfl, hline, houtside⟩
  · rintro ⟨c, hfirst, rfl, hplace⟩
    refine ⟨c, trailingComment?_eq_some_iff.2 ⟨firstBehind_iff.1 hfirst, ?_⟩, rfl⟩
    rcases hplace with hstays | hescapes
    · refine ⟨hstays.line, fun b hb => ?_⟩
      obtain ⟨w, hw, rfl⟩ := Option.map_eq_some_iff.1 hb
      exact (hstays.before_next w hw).le
    · refine ⟨hescapes.line, fun b hb => ?_⟩
      rw [hescapes.last] at hb
      cases hb

/-- Where a comment escapes there is none in the enum behind the value, as the first one is taken. -/
theorem trailed_value (hlaid : e.Laid o.source o.comments)
    (hcomments : CommentsPlaced o.source o.comments) (hv : (v, next) ∈ withNext e.values) :
    Trailed o.source o.comments e (o.value v next) (v, next) where
  name := rfl
  semicolon := hlaid.semicolons v (mem_of_mem_withNext hv).1
  iff_first _ := trailing_value_iff hlaid hcomments hv
  stays_iff := by
    constructor
    · -- A comment that stays would begin in front of the one that escapes, which is the first one.
      intro hstays c hfirst hescapes
      have htrailing := (trailing_value_iff hlaid hcomments hv).2 ⟨c, hfirst, rfl, .inr hescapes⟩
      obtain ⟨d, hd, -, hstays⟩ := hstays _ htrailing
      have hle := hfirst.start_le hcomments hd hstays.behind
      have hlt := (hcomments.firm d hd).offset_lt
      have hbrace := hstays.before_brace
      have houtside := hescapes.outside
      omega
    · intro hnone t ht
      obtain ⟨c, hfirst, rfl, hplace⟩ := (trailing_value_iff hlaid hcomments hv).1 ht
      exact ⟨c, hfirst.mem, rfl, hplace.resolve_right (hnone c hfirst)⟩

theorem valuesTrailed_describe (hlaid : e.Laid o.source o.comments)
    (hcomments : CommentsPlaced o.source o.comments) :
    ValuesTrailed o.source o.comments (o.describe e) e where
  name := rfl
  brace := hlaid.brace
  values := by
    rw [values_describe, List.forall₂_map_left_iff, List.forall₂_same]
    exact fun v hv => trailed_value hlaid hcomments hv

end

end SchemaEnums.Schema

namespace SchemaEnums

open Source Schema

/-- Which comments trail values. In a text that was loaded the trailing comment of a value is the first one
behind its semicolon, as long as that stands on the same line and either inside the enum, in front of the next
value, or behind the enum, if the value is the last one. So it stands inside the enum exactly if no comment
escapes. -/
theorem FileDescriptor.trailing_of_load {file : Option String} {text : String} {f : FileDescriptor}
    (h : (load file text).result = .ok f) :
    ∃ s, parse text = .ok s ∧
      List.Forall₂ (ValuesTrailed text.toList s.comments) f.enums s.locatedEnums := by
  obtain ⟨s, hs, rfl⟩ := parse_of_load h
  refine ⟨s, hs, ?_⟩
  rw [enums_eq_map_describe, List.forall₂_map_left_iff, List.forall₂_same]
  exact fun e he => @valuesTrailed_describe e { file, source := text.toList, comments := s.comments }
    (laid_of_parse hs he) (parsed_of_parse hs).comments

/-- The comment stands behind the enum. -/
def commentBehindEnum : String :=
  "enum E \x7b A = 0; \x7d // c"

/-- The value has a trailing comment though no comment of the text stands in an enum. -/
theorem FileDescriptor.trailing_outside_enum :
    ∃ f s, (load none commentBehindEnum).result = .ok f ∧ parse commentBehindEnum = .ok s ∧
      f.enums.map (fun d => d.values.map (·.documentation.trailing)) = [[some "c"]] ∧
      ¬ ∃ e ∈ s.locatedEnums, ∃ c ∈ s.comments, c.span.stop.offset < e.span.stop.offset := by
  have hload : (load none commentBehindEnum).result = .ok
      { file := none
        enums := [{ name := some "E"
                    values := [{ name := "A", number := 0, documentation := { trailing := some "c" }
                                 line := some 1 }]
                    line := some 1 }] } := by
    decide +kernel
  have hplaces : (parse commentBehindEnum).toOption.map (fun s =>
      (s.locatedEnums.map (·.span.stop.offset), s.comments.map (·.span.stop.offset))) =
        some ([17], [22]) := by
    decide +kernel
  obtain ⟨s, hs, -⟩ := parse_of_load hload
  rw [hs] at hplaces
  obtain ⟨henums, hcomments⟩ := Prod.mk.inj (Option.some.inj hplaces)
  refine ⟨_, s, hload, hs, rfl, ?_⟩
  rintro ⟨e, he, c, hc, hlt⟩
  have hstop := List.mem_map_of_mem (f := fun e : LocatedEnum => e.span.stop.offset) he
  have hend := List.mem_map_of_mem (f := fun c : Comment => c.span.stop.offset) hc
  rw [henums, List.mem_singleton] at hstop
  rw [hcomments, List.mem_singleton] at hend
  omega

/-- Two comments in the enum, and one behind it. -/
def trailedValues : String :=
  "enum E \x7b A = 0; /* a */ B = 1; // b\n  C = 2; \x7d // c"

theorem FileDescriptor.trailing_of_load_trailedValues :
    ∃ f s, (load none trailedValues).result = .ok f ∧ parse trailedValues = .ok s ∧
      f.enums.map (fun d => d.values.map (·.documentation.trailing)) =
        [[some "a", some "b", some "c"]] ∧
      List.Forall₂ (ValuesTrailed trailedValues.toList s.comments) f.enums s.locatedEnums := by
  have hload : (load none trailedValues).result = .ok
      { file := none
        enums := [{ name := some "E"
                    values := [{ name := "A", number := 0, documentation := { trailing := some "a" }
                                 line := some 1 },
                               { name := "B", number := 1, documentation := { trailing := some "b" }
                                 line := some 1 },
                               { name := "C", number := 2, documentation := { trailing := some "c" }
                                 line := some 2 }]
                    line := some 1 }] } := by
    decide +kernel
  obtain ⟨s, hs, htrailed⟩ := trailing_of_load hload
  exact ⟨_, s, hload, hs, rfl, htrailed⟩

end SchemaEnums
