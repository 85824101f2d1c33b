import SchemaEnums.Descriptor.OfSchema
import SchemaEnums.Proofs.Layout.Forest
import SchemaEnums.Proofs.Numeral

namespace SchemaEnums.Layout

open Source Schema

theorem Name.newline_not_mem (n : Name) : '\n' ∉ n.text.toList := by
  intro h
  cases n.isName.isNamePart_of_mem h

theorem newline_not_mem_toString (k : Int) : '\n' ∉ (toString k).toList := by
  intro h
  rcases Numeral.isDigit_or_eq_of_mem_toString h with h | h <;> cases h

section

variable {code : List Char} {trailing : Option Remark}

theorem isSingle_codeLine (hcode : '\n' ∉ code) (trailing : Option Remark) :
    (codeLine code trailing).IsSingle := by
  cases trailing with
  | none => exact ⟨hcode, by simp [codeLine]⟩
  | some r =>
    refine ⟨by simp [codeLine, hcode], fun t ht => ?_⟩
    cases ht
    simp [r.single]

theorem hasCode_codeLine {c : Char} (hc : c ∈ code) (hblank : Text.isBlank c = false)
    (trailing : Option Remark) : (codeLine code trailing).HasCode := by
  cases trailing with
  | none => exact ⟨c, hc, hblank⟩
  | some r => exact ⟨c, List.mem_append_left _ hc, hblank⟩

end

theorem isSingle_leadLines (rs : List Remark) : ∀ l ∈ leadLines rs, l.IsSingle := by
  intro l hl
  obtain ⟨t, ht, rfl⟩ := List.mem_map.1 hl
  obtain ⟨r, -, rfl⟩ := List.mem_map.1 ht
  exact isSingle_commentLine r.single

theorem newline_not_mem_word (k : Keyword) : '\n' ∉ k.word.toList := by
  cases k <;> decide

theorem newline_not_mem_isTrue : '\n' ∉ isTrue := by
  decide

theorem isSingle_closing : closing.IsSingle :=
  ⟨by decide, by simp [closing]⟩

theorem Value.newline_not_mem_code (v : Value) : '\n' ∉ v.code := by
  have hname := v.name.toName.newline_not_mem
  have hnumber := newline_not_mem_toString v.number
  have hdeprecated : '\n' ∉ "deprecated".toList := by decide
  have htrue := newline_not_mem_isTrue
  unfold Value.code
  split <;> simp_all

theorem newline_not_mem_headerCode (k : Keyword) (n : Name) : '\n' ∉ headerCode k n := by
  have hword := newline_not_mem_word k
  have hname := n.newline_not_mem
  simp [headerCode, hword, hname]

theorem newline_not_mem_flagCode {e : Enumeration} {option : String} (h : option ∈ e.flags) :
    '\n' ∉ flagCode option := by
  have hword := newline_not_mem_word .option
  have htrue := newline_not_mem_isTrue
  have hoption := Enumeration.mem_flags h
  simp only [List.mem_cons, List.not_mem_nil, or_false] at hoption
  rcases hoption with rfl | rfl
  · simp [flagCode, hword, htrue]
  · simp [flagCode, hword, htrue]

theorem newline_not_mem_packageCode (name : Name × List Name) : '\n' ∉ packageCode name := by
  have hword := newline_not_mem_word .package
  have hname := name.1.newline_not_mem
  have htail : '\n' ∉ name.2.flatMap (fun n => '.' :: n.text.toList) := by
    intro h
    obtain ⟨n, -, hn⟩ := List.mem_flatMap.1 h
    rcases List.mem_cons.1 hn with hn | hn
    · cases hn
    · exact n.newline_not_mem hn
  simp only [packageCode, List.mem_append, List.mem_cons, List.not_mem_nil, not_or, hword, hname,
    htail]
  decide

theorem Value.isSingle_lines (v : Value) : ∀ l ∈ v.lines, l.IsSingle := by
  intro l hl
  rcases List.mem_append.1 hl with hl | hl
  · exact isSingle_leadLines v.leading l hl
  · rw [List.mem_singleton.1 hl]
    exact isSingle_codeLine v.newline_not_mem_code v.trailing

theorem Enumeration.isSingle_lines (e : Enumeration) : ∀ l ∈ e.lines, l.IsSingle := by
  simp only [lines, body, List.forall_mem_append, List.forall_mem_cons, List.forall_mem_map]
  refine ⟨⟨isSingle_leadLines e.leading, ?_, fun option hoption => ?_, fun l hl => ?_⟩,
    isSingle_closing, by simp⟩
  · exact isSingle_codeLine (newline_not_mem_headerCode .enum e.name) e.trailing
  · exact ⟨newline_not_mem_flagCode hoption, by simp [flagLine]⟩
  · obtain ⟨v, -, hl⟩ := List.mem_flatMap.1 hl
    exact v.isSingle_lines l hl

mutual

theorem Tree.isSingle_lines : (t : Tree) → ∀ l ∈ t.lines, l.IsSingle
  | .enum e => by
    rw [Tree.lines]
    exact e.isSingle_lines
  | .message name trees => by
    simp only [Tree.lines, List.forall_mem_append, List.forall_mem_cons]
    exact ⟨⟨⟨newline_not_mem_headerCode .message name, by simp⟩, isSingle_linesOf trees⟩,
      isSingle_closing, by simp⟩

theorem isSingle_linesOf : (ts : List Tree) → ∀ l ∈ linesOf ts, l.IsSingle
  | [] => by
    rw [linesOf]
    simp
  | t :: ts => by
    rw [linesOf, List.forall_mem_append]
    exact ⟨t.isSingle_lines, isSingle_linesOf ts⟩

end

theorem Forest.isSingle_lines (f : Forest) : ∀ l ∈ f.lines, l.IsSingle := by
  rw [lines, List.forall_mem_append]
  refine ⟨fun l hl => ?_, isSingle_linesOf f.trees⟩
  obtain ⟨name, -, rfl⟩ := List.mem_map.1 hl
  exact ⟨newline_not_mem_packageCode name, by simp⟩

/-- The text goes on with the lines `rest` after the lines `front`, of which the last has code. -/
structure Continues (o : Origin) (front rest : List Line) : Prop where
  source : o.source = render (front ++ rest)
  comments : o.comments = commentsOf {} (front ++ rest)
  front_single : ∀ l ∈ front, l.IsSingle
  rest_single : ∀ l ∈ rest, l.IsSingle
  settled : Settled front

section

variable {o : Origin} {front ls rest : List Line}

theorem Continues.skip (h : Continues o front (ls ++ rest)) (hsettled : Settled (front ++ ls)) :
    Continues o (front ++ ls) rest where
  source := by rw [h.source, List.append_assoc]
  comments := by rw [h.comments, List.append_assoc]
  front_single := by
    rw [List.forall_mem_append]
    exact ⟨h.front_single, fun l hl => h.rest_single l (List.mem_append_left _ hl)⟩
  rest_single l hl := h.rest_single l (List.mem_append_right _ hl)
  settled := hsettled

theorem saidAbove?_map (rs : List Remark) :
    saidAbove? (rs.map fun r => r.text.toList) = saidTogether? rs := by
  cases rs with
  | nil => rfl
  | cons r rs =>
    show some ("\n".intercalate (((r :: rs).map _).map said)) = _
    rw [List.map_map]
    rfl

theorem Continues.line_after_leadLines (h : Continues o front rest) (rs : List Remark) :
    (after {} (front ++ leadLines rs)).line = 1 + front.length + rs.length := by
  have hsingle : ∀ l ∈ front ++ leadLines rs, l.IsSingle := by
    rw [List.forall_mem_append]
    exact ⟨h.front_single, isSingle_leadLines rs⟩
  have hlength : (leadLines rs).length = rs.length := by simp [leadLines]
  rw [line_after hsingle, List.length_append, hlength, ← Nat.add_assoc]

/-- A declaration has the comments that were printed with it. Its trailing comment may begin behind
any beginning of its code. -/
theorem Continues.documentation_eq {lead : List Remark} (code back : List Char)
    {trailing : Option Remark} {bound : Option Position}
    (h : Continues o front (leadLines lead ++ codeLine (code ++ back) trailing :: rest))
    (hbound : ∀ b ∈ bound, (after (after {} (front ++ leadLines lead))
      [codeLine (code ++ back) trailing]).offset ≤ b.offset) :
    o.documentation (after {} (front ++ leadLines lead))
        ((after {} (front ++ leadLines lead)).advance code) bound =
      { leading := saidTogether? lead, trailing := trailing.map Remark.said } := by
  have hlead : ∀ t ∈ lead.map fun r => r.text.toList, '\n' ∉ t := by
    intro t ht
    obtain ⟨r, -, rfl⟩ := List.mem_map.1 ht
    exact r.single
  have hline := h.rest_single (codeLine (code ++ back) trailing) (by simp)
  have hrest : ∀ l ∈ codeLine (code ++ back) trailing :: rest, l.IsSingle :=
    fun l hl => h.rest_single l (List.mem_append_right _ hl)
  have hfront : ∀ l ∈ front ++ leadLines lead, l.IsSingle := by
    rw [List.forall_mem_append]
    exact ⟨h.front_single, isSingle_leadLines lead⟩
  have hleading : leadingText? o.source o.comments (after {} (front ++ leadLines lead)) =
      saidTogether? lead := by
    rw [h.source, h.comments, ← List.append_assoc, ← saidAbove?_map]
    exact leadingText?_render h.front_single h.settled hlead hrest
  have htrailing : trailingText? o.comments ((after {} (front ++ leadLines lead)).advance code) bound =
      trailing.map Remark.said := by
    obtain ⟨back', hcode⟩ : ∃ back', (codeLine (code ++ back) trailing).code = code ++ back' := by
      cases trailing with
      | none => exact ⟨back, rfl⟩
      | some r => exact ⟨back ++ [' '], List.append_assoc _ _ _⟩
    rw [← after_append] at hbound
    have hbehind : ∀ l ∈ rest, l.IsSingle := fun l hl => hrest l (List.mem_cons_of_mem _ hl)
    rw [trailingText?, h.comments, ← List.append_assoc,
      trailingComment?_render hfront hline hbehind hcode hbound]
    cases trailing with
    | none => rfl
    | some r => exact congrArg some (content_note r.text.toList _)
  rw [Origin.documentation, hleading, htrailing]

/-- The declaration of a value from the position `p` on. -/
def Value.decl (p : Position) (v : Value) : ValueItem :=
  let start := after p (leadLines v.leading)
  { span := { start, stop := start.advance v.code }
    name := v.name.text
    number := v.number
    options := v.options }

/-- The declarations of values from the position `p` on. -/
def valueDecls (p : Position) (vs : List Value) : List ValueItem :=
  (valueItems id p vs).filterMap Item.value?

/-- The first value begins behind `p`. -/
theorem le_start_of_mem_head? {p : Position} {vs : List Value} {w : ValueItem}
    (h : w ∈ (valueDecls p vs).head?) : p.offset ≤ w.span.start.offset := by
  cases vs with
  | nil => cases h
  | cons v vs =>
    cases h
    exact le_offset_after p (leadLines v.leading)

theorem isSet_deprecated_options (v : Value) : isSet "deprecated" v.options = v.deprecated := by
  unfold Value.options
  cases v.deprecated <;> rfl

theorem Value.settled_lines (v : Value) (front : List Line) : Settled (front ++ v.lines) := by
  rw [Value.lines, ← List.append_assoc]
  have hmem : ';' ∈ v.code := List.mem_append_right _ List.mem_cons_self
  exact .concat _ (hasCode_codeLine hmem (by decide) v.trailing)

/-- A printed value has the descriptor that stands beside it. The next value begins on a later
line. -/
theorem Continues.value_eq {v : Value} (next : Option ValueItem)
    (h : Continues o front (v.lines ++ rest))
    (hnext : ∀ w ∈ next, (after (after {} front) v.lines).offset ≤ w.span.start.offset) :
    o.value (v.decl (after {} front)) next = v.descriptor o.file (1 + front.length) := by
  have hlead : after (after {} front) (leadLines v.leading) =
      after {} (front ++ leadLines v.leading) := (after_append {} front _).symm
  have hlines : v.lines ++ rest =
      leadLines v.leading ++ codeLine (v.code ++ []) v.trailing :: rest := by
    simp [Value.lines]
  have hline := h.line_after_leadLines v.leading
  rw [hlines] at h
  have hbound : ∀ b ∈ next.map (·.span.start), (after (after {} (front ++ leadLines v.leading))
      [codeLine (v.code ++ []) v.trailing]).offset ≤ b.offset := by
    intro b hb
    obtain ⟨w, hw, rfl⟩ := Option.map_eq_some_iff.1 hb
    have hle := hnext w hw
    rw [Value.lines, after_append, hlead] at hle
    simpa using hle
  have hdocumentation := h.documentation_eq v.code [] hbound
  rw [Value.descriptor, ← hdocumentation, ← hline, ← isSet_deprecated_options v, ← hlead]
  rfl

/-- The values of a printed enum have the descriptors that stand beside them. -/
theorem Continues.values_eq {vs : List Value}
    (h : Continues o front (vs.flatMap Value.lines ++ rest)) :
    o.values (valueDecls (after {} front) vs) = valueDescriptors o.file (1 + front.length) vs := by
  induction vs generalizing front with
  | nil => rfl
  | cons v vs ih =>
    rw [List.flatMap_cons, List.append_assoc] at h
    have hrest := ih (h.skip (v.settled_lines front))
    rw [after_append, List.length_append, ← Nat.add_assoc] at hrest
    have hvalue := h.value_eq (valueDecls (after (after {} front) v.lines) vs).head?
      fun w hw => le_start_of_mem_head? hw
    rw [valueDescriptors, ← hrest, ← hvalue]
    rfl

theorem filterMap_flagItems {α : Type} {g : Item Int → Option α} (options : List String)
    (p : Position) (hg : ∀ span a, g (.statement span (.option a)) = none) :
    (flagItems p options).filterMap g = [] := by
  induction options generalizing p with
  | nil => rfl
  | cons option options ih => rw [flagItems, List.filterMap_cons_none (hg _ _), ih]

theorem option?_flagItems (options : List String) (p : Position) :
    (flagItems p options).filterMap Item.option? = options.map flag := by
  induction options generalizing p with
  | nil => rfl
  | cons option options ih =>
    have hoption (span : Span) : Item.option? (.statement span (.option (flag option))) =
      some (flag option) := rfl
    rw [flagItems, List.filterMap_cons_some (hoption _), ih, List.map_cons]

theorem option?_valueItems (vs : List Value) (p : Position) :
    (valueItems id p vs).filterMap Item.option? = [] := by
  induction vs generalizing p with
  | nil => rfl
  | cons v vs ih => rw [valueItems, List.filterMap_cons_none rfl, ih]

theorem Enumeration.value?_bodyItems (e : Enumeration) (p : Position) :
    (e.bodyItems id p).filterMap Item.value? =
      valueDecls (after p (e.flags.map flagLine)) e.values := by
  rw [bodyItems, List.filterMap_append, filterMap_flagItems e.flags p fun _ _ => rfl]
  rfl

theorem Enumeration.option?_bodyItems (e : Enumeration) (p : Position) :
    (e.bodyItems id p).filterMap Item.option? = e.flags.map flag := by
  rw [bodyItems, List.filterMap_append, option?_flagItems, option?_valueItems, List.append_nil]

/-- The flags of an enum are found in its options. -/
theorem Enumeration.isSet_flags (e : Enumeration) :
    isSet "deprecated" (e.flags.map flag) = e.deprecated ∧
      isSet "allow_alias" (e.flags.map flag) = e.allowAlias := by
  unfold flags
  cases e.allowAlias <;> cases e.deprecated <;> exact ⟨rfl, rfl⟩

theorem Enumeration.hasCode_header (e : Enumeration) : e.header.HasCode := by
  have hmem : '\x7b' ∈ headerCode .enum e.name :=
    List.mem_append_right _ (List.mem_cons_of_mem ' ' List.mem_cons_self)
  exact hasCode_codeLine hmem (by decide) e.trailing

theorem hasCode_flagLine (option : String) : (flagLine option).HasCode :=
  ⟨';', List.mem_append_right _ List.mem_cons_self, by decide⟩

theorem hasCode_closing : closing.HasCode :=
  ⟨'\x7d', List.mem_cons_self, by decide⟩

theorem Settled.append (h : Settled front) (hls : ∀ l ∈ ls, l.HasCode) : Settled (front ++ ls) := by
  rcases List.eq_nil_or_concat' ls with rfl | ⟨ms, l, rfl⟩
  · rwa [List.append_nil]
  · rw [← List.append_assoc]
    exact .concat _ (hls l (by simp))

/-- The trailing comment of an enum may reach up to its body. -/
theorem Enumeration.le_bound (e : Enumeration) (p : Position) {stop b : Position}
    (hstop : (after p e.body).offset ≤ stop.offset)
    (hb : b ∈ ((valueDecls (after p (e.flags.map flagLine)) e.values).head?.map
      fun w => some w.span.start).getD (some stop)) : p.offset ≤ b.offset := by
  cases hhead : (valueDecls (after p (e.flags.map flagLine)) e.values).head? with
  | none =>
    rw [hhead] at hb
    cases hb
    exact (le_offset_after p e.body).trans hstop
  | some w =>
    rw [hhead] at hb
    cases hb
    exact (le_offset_after p _).trans (le_start_of_mem_head? hhead)

/-- A printed enum has the descriptor that stands beside it. -/
theorem Continues.enum_eq {e : Enumeration} (h : Continues o front (e.lines ++ rest))
    (package : Option String) (parents : List String) :
    o.enumsOfItem package parents (e.item id (after {} front)) =
      [e.descriptor o.file package parents (1 + front.length)] := by
  let start := after {} (front ++ leadLines e.leading)
  let body := after start [e.header]
  let stop := (after body e.body).advance closing.code
  have hlead : after (after {} front) (leadLines e.leading) = start := (after_append {} front _).symm
  have hline := h.line_after_leadLines e.leading
  have hstop : (after body e.body).offset ≤ stop.offset := by
    rw [Position.offset_advance]
    exact Nat.le_add_right _ _
  have hlines : e.lines ++ rest = leadLines e.leading ++ [e.header] ++ e.flags.map flagLine ++
      (e.values.flatMap Value.lines ++ closing :: rest) := by
    simp [Enumeration.lines, Enumeration.body]
  rw [hlines, List.append_assoc _ (e.flags.map flagLine)] at h
  have hheader : Settled (front ++ (leadLines e.leading ++ [e.header])) := by
    rw [← List.append_assoc]
    exact .concat _ e.hasCode_header
  have hflags : ∀ l ∈ e.flags.map flagLine, l.HasCode := by
    intro l hl
    obtain ⟨option, -, rfl⟩ := List.mem_map.1 hl
    exact hasCode_flagLine option
  have hvalues := ((h.skip hheader).skip (hheader.append hflags)).values_eq
  rw [List.append_assoc] at h
  have hdocumentation := h.documentation_eq (Keyword.enum.word.toList ++ ' ' :: e.name.text.toList)
    [' ', '\x7b'] fun b hb => e.le_bound body hstop hb
  have hname : start.advance (Keyword.enum.word.toList ++ ' ' :: e.name.text.toList) =
      (start.advance (Keyword.enum.word.toList ++ [' '])).advance e.name.text.toList := by
    rw [← Position.advance_append, List.append_assoc, List.singleton_append]
  rw [hname] at hdocumentation
  have hbody : after {} (front ++ (leadLines e.leading ++ [e.header]) ++ e.flags.map flagLine) =
      after body (e.flags.map flagLine) := by
    rw [after_append, ← List.append_assoc, after_append]
  have hlength : 1 + (front ++ (leadLines e.leading ++ [e.header]) ++ e.flags.map flagLine).length =
      1 + front.length + e.leading.length + 1 + e.flags.length := by
    simp only [List.length_append, List.length_map, List.length_singleton, leadLines]
    omega
  rw [hbody, hlength] at hvalues
  obtain ⟨hdeprecated, hallow⟩ := e.isSet_flags
  rw [Enumeration.item, Origin.enumsOfItem, Origin.enum, e.value?_bodyItems, e.option?_bodyItems,
    hdeprecated, hallow, hlead, Enumeration.descriptor, ← hvalues, ← hdocumentation, ← hline]

end

end SchemaEnums.Layout
