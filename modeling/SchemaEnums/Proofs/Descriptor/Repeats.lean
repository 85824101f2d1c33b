import SchemaEnums.Proofs.Descriptor.Located

namespace SchemaEnums

open Schema

/-- The number of `again` is the first one of the list that was there before; `earlier` has it there. -/
def FirstRepeat {α : Type} (number : α → Int) (xs : List α) (earlier again : α) : Prop :=
  ∃ front back, xs = front ++ again :: back ∧ (front.map number).Nodup ∧ earlier ∈ front ∧
    number earlier = number again

/-- Two values of the enum have one number, and no option allows aliases. -/
def Schema.LocatedEnum.Repeats (e : LocatedEnum) : Prop :=
  isSet "allow_alias" e.options = false ∧ ¬ (e.values.map (·.number)).Nodup

namespace FirstRepeat

variable {α β : Type} {number : β → Int} {f : α → β} {xs : List α}

theorem not_nodup {ys : List β} {earlier again : β} (h : FirstRepeat number ys earlier again) :
    ¬ (ys.map number).Nodup := by
  obtain ⟨front, back, rfl, -, hearlier, hnumber⟩ := h
  intro hnodup
  rw [List.map_append, List.map_cons] at hnodup
  have hdisjoint := List.disjoint_of_nodup_append hnodup (List.mem_map_of_mem hearlier)
  exact hdisjoint (by simp [hnumber])

theorem map {earlier again : α} (h : FirstRepeat (number ∘ f) xs earlier again) :
    FirstRepeat number (xs.map f) (f earlier) (f again) := by
  obtain ⟨front, back, rfl, hnodup, hearlier, hnumber⟩ := h
  exact ⟨front.map f, back.map f, by rw [List.map_append, List.map_cons], by rwa [List.map_map],
    List.mem_map_of_mem hearlier, hnumber⟩

theorem exists_of_map {earlier again : β} (h : FirstRepeat number (xs.map f) earlier again) :
    ∃ a b, FirstRepeat (number ∘ f) xs a b ∧ f a = earlier ∧ f b = again := by
  obtain ⟨front, back, hsplit, hnodup, hearlier, hnumber⟩ := h
  obtain ⟨front, back, rfl, rfl, hback⟩ := List.map_eq_append_iff.1 hsplit
  obtain ⟨b, back, rfl, rfl, rfl⟩ := List.map_eq_cons_iff.1 hback
  obtain ⟨a, ha, rfl⟩ := List.mem_map.1 hearlier
  exact ⟨a, b, ⟨front, back, rfl, by rwa [List.map_map] at hnodup, ha, hnumber⟩, rfl, rfl⟩

end FirstRepeat

/-- The search finds nothing exactly where all numbers differ, and else it finds the first repeat. `seen`
are the values before the list, the last one first, and their numbers differ. -/
theorem ValueDescriptor.firstRepeat?_spec {seen : List ValueDescriptor}
    (hseen : (seen.map (·.number)).Nodup) (vs : List ValueDescriptor) :
    (firstRepeat? seen vs = none ∧ ((seen.reverse ++ vs).map (·.number)).Nodup) ∨
      ∃ earlier again, firstRepeat? seen vs = some (again, earlier) ∧
        FirstRepeat (·.number) (seen.reverse ++ vs) earlier again := by
  have hreverse : (seen.reverse.map (·.number)).Nodup := by
    rw [List.map_reverse]
    exact List.nodup_reverse.2 hseen
  induction vs generalizing seen with
  | nil => exact .inl ⟨rfl, by simpa using hreverse⟩
  | cons v vs ih =>
    rw [firstRepeat?]
    cases hfind : seen.find? fun w => w.number == v.number with
    | some earlier =>
      refine .inr ⟨earlier, v, rfl, seen.reverse, vs, rfl, hreverse, ?_, ?_⟩
      · exact List.mem_reverse.2 (List.mem_of_find?_eq_some hfind)
      · simpa using List.find?_some hfind
    | none =>
      have hv : v.number ∉ seen.map (·.number) := by
        intro hmem
        obtain ⟨w, hw, hnumber⟩ := List.mem_map.1 hmem
        simpa [hnumber] using List.find?_eq_none.1 hfind w hw
      -- The value is seen now, and the numbers of those seen still differ.
      have hcons : ((v :: seen).map (·.number)).Nodup := List.nodup_cons.2 ⟨hv, hseen⟩
      have hlist : (v :: seen).reverse ++ vs = seen.reverse ++ v :: vs := by simp
      rw [← hlist]
      exact ih hcons (by rw [List.map_reverse]; exact List.nodup_reverse.2 hcons)

/-- What is found to be repeated in an enum. -/
theorem EnumDescriptor.repeated?_spec (d : EnumDescriptor) :
    (d.repeated? = none ∧ (d.allowAlias = false → (d.values.map (·.number)).Nodup)) ∨
      ∃ earlier again, d.allowAlias = false ∧ FirstRepeat (·.number) d.values earlier again ∧
        d.repeated? = some { file := again.file, line := again.line, name := again.name,
                             number := again.number, earlier := earlier.name, enum := d.fullName } := by
  unfold repeated?
  cases d.allowAlias with
  | true => exact .inl ⟨rfl, nofun⟩
  | false =>
    obtain ⟨hfound, hnodup⟩ | ⟨earlier, again, hfound, hrepeat⟩ :=
      @ValueDescriptor.firstRepeat?_spec [] List.nodup_nil d.values
    · rw [hfound]
      exact .inl ⟨rfl, fun _ => hnodup⟩
    · rw [hfound]
      exact .inr ⟨earlier, again, rfl, hrepeat, rfl⟩

/-- All enums are made sure of, up to the first one with a repeated number. -/
theorem EnumDescriptor.checkAll_spec (ds : List EnumDescriptor) :
    ((checkAll ds).result = .ok () ∧ ∀ d ∈ ds, d.repeated? = none) ∨
      ∃ before d after r, ds = before ++ d :: after ∧ (∀ b ∈ before, b.repeated? = none) ∧
        d.repeated? = some r ∧ (checkAll ds).result = .error (.repeatedNumber r) := by
  induction ds with
  | nil => exact .inl ⟨rfl, by simp⟩
  | cons d ds ih =>
    rw [checkAll, Noted.result_bind, check]
    cases hd : d.repeated? with
    | some r => exact .inr ⟨[], d, ds, r, rfl, by simp, hd, rfl⟩
    | none =>
      obtain ⟨hresult, hds⟩ | ⟨before, d', after, r, rfl, hbefore, hd', hresult⟩ := ih
      · exact .inl ⟨hresult, List.forall_mem_cons.2 ⟨hd, hds⟩⟩
      · exact .inr ⟨d :: before, d', after, r, rfl, List.forall_mem_cons.2 ⟨hd, hbefore⟩, hd', hresult⟩

/-- A text that is read is loaded if all its enums pass. -/
theorem FileDescriptor.result_load {file : Option String} {text : String} {s : Schema Int}
    (h : parse text = .ok s) :
    (load file text).result =
      (EnumDescriptor.checkAll (ofSchema file text.toList s).enums).result.map fun _ =>
        ofSchema file text.toList s := by
  simp only [load, Noted.result_bind, h]
  show ((EnumDescriptor.checkAll (ofSchema file text.toList s).enums).result >>= fun _ => _) = _
  cases (EnumDescriptor.checkAll (ofSchema file text.toList s).enums).result <;> rfl

theorem FileDescriptor.result_load_of_error {file : Option String} {text : String} {e : Schema.Error}
    (h : parse text = .error e) : (load file text).result = .error (.malformed e) := by
  rw [load, h]
  rfl

namespace Schema

variable (o : Origin) (e : LocatedEnum)

theorem numbers_describe :
    (o.describe e).values.map (·.number) = e.values.map (·.number) :=
  calc (o.describe e).values.map (·.number)
      = ((withNext e.values).map Prod.fst).map (·.number) := by
        rw [values_describe, List.map_map, List.map_map]
        rfl
    _ = e.values.map (·.number) := by rw [map_fst_withNext]

theorem LocatedEnum.repeats_iff_describe :
    e.Repeats ↔ (o.describe e).allowAlias = false ∧ ¬ ((o.describe e).values.map (·.number)).Nodup := by
  rw [numbers_describe]
  rfl

/-- What is found to be repeated in the descriptor of an enum. -/
theorem repeated?_describe :
    ((o.describe e).repeated? = none ∧ ¬ e.Repeats) ∨
      ∃ earlier again, e.Repeats ∧ FirstRepeat (·.number) e.values earlier again ∧
        (o.describe e).repeated? =
          some { file := o.file, line := some again.span.start.line, name := again.name,
                 number := again.number, earlier := earlier.name, enum := e.fullName } := by
  rw [LocatedEnum.repeats_iff_describe o]
  obtain ⟨hnone, hnodup⟩ | ⟨earlier, again, hallow, hrepeat, hsome⟩ :=
    (o.describe e).repeated?_spec
  · exact .inl ⟨hnone, fun h => h.2 (hnodup h.1)⟩
  · have hnot := hrepeat.not_nodup
    rw [values_describe] at hrepeat
    obtain ⟨first, second, hpair, rfl, rfl⟩ := hrepeat.exists_of_map
    -- Without what stands behind them, the two are values of the enum.
    have hfst : FirstRepeat (·.number) ((withNext e.values).map Prod.fst) first.1 second.1 :=
      FirstRepeat.map hpair
    rw [map_fst_withNext] at hfst
    exact .inr ⟨first.1, second.1, ⟨hallow, hnot⟩, hfst, hsome⟩

theorem repeated?_describe_eq_none_iff : (o.describe e).repeated? = none ↔ ¬ e.Repeats := by
  obtain ⟨hnone, hnot⟩ | ⟨earlier, again, hrepeats, -, hsome⟩ := repeated?_describe o e
  · exact iff_of_true hnone hnot
  · rw [hsome]
    exact iff_of_false (Option.some_ne_none _) (not_not_intro hrepeats)

end Schema

/-- How the loading of a text that is read ends. -/
theorem FileDescriptor.load_cases {text : String} {s : Schema Int} (file : Option String)
    (h : parse text = .ok s) :
    ((load file text).result = .ok (ofSchema file text.toList s) ∧
      ∀ e ∈ s.locatedEnums, ¬ e.Repeats) ∨
    ∃ before e after earlier again, s.locatedEnums = before ++ e :: after ∧
      (∀ b ∈ before, ¬ b.Repeats) ∧ e.Repeats ∧ FirstRepeat (·.number) e.values earlier again ∧
      (load file text).result = .error (.repeatedNumber
        { file, line := some again.span.start.line, name := again.name, number := again.number,
          earlier := earlier.name, enum := e.fullName }) := by
  rw [result_load h, enums_eq_map_describe]
  obtain ⟨hok, hall⟩ | ⟨before, d, after, r, hsplit, hbefore, hd, herror⟩ := EnumDescriptor.checkAll_spec
    (s.locatedEnums.map (Origin.describe { file, source := text.toList, comments := s.comments }))
  · rw [hok]
    refine .inl ⟨rfl, fun e he => ?_⟩
    exact (repeated?_describe_eq_none_iff _ e).1 (hall _ (List.mem_map_of_mem he))
  · rw [herror]
    obtain ⟨before, rest, hlist, rfl, hrest⟩ := List.map_eq_append_iff.1 hsplit
    obtain ⟨e, after, rfl, rfl, rfl⟩ := List.map_eq_cons_iff.1 hrest
    obtain ⟨hnone, -⟩ | ⟨earlier, again, hrepeats, hfirst, hsome⟩ := repeated?_describe _ e
    · rw [hnone] at hd
      cases hd
    · rw [hsome] at hd
      cases hd
      refine .inr ⟨before, e, after, earlier, again, hlist, fun b hb => ?_, hrepeats, hfirst, rfl⟩
      exact (repeated?_describe_eq_none_iff _ b).1 (hbefore _ (List.mem_map_of_mem hb))

/-- Numbers are made sure of. A text that is read cannot be loaded exactly if one of its enums, however
deep it stands, has two values with one number while its options do not allow aliases. The error tells of
the first such enum in the text: the first value with a number that was there before, and the value that
had it. In what is loaded, numbers differ in all enums that do not allow aliases. -/
theorem FileDescriptor.load_repeats {file : Option String} {text : String} {s : Schema Int}
    (h : parse text = .ok s) :
    (outline s).enumNodes [] = s.locatedEnums.map (fun e => (e.parents, Outline.ofItem e.block)) ∧
    ((∃ error, (load file text).result = .error error) ↔ ∃ e ∈ s.locatedEnums, e.Repeats) ∧
    (∀ error, (load file text).result = .error error →
      ∃ before e after earlier again, s.locatedEnums = before ++ e :: after ∧
        (∀ b ∈ before, ¬ b.Repeats) ∧ e.Repeats ∧ FirstRepeat (·.number) e.values earlier again ∧
        error = .repeatedNumber
          { file, line := some again.span.start.line, name := again.name, number := again.number,
            earlier := earlier.name, enum := e.fullName }) ∧
    ∀ f, (load file text).result = .ok f →
      ∀ d ∈ f.enums, d.allowAlias = false → (d.values.map (·.number)).Nodup := by
  refine ⟨Schema.enumNodes_outline h, ?_⟩
  obtain ⟨hok, hnone⟩ | ⟨before, e, after, earlier, again, hsplit, hbefore, hrepeats, hfirst, herror⟩ :=
    load_cases file h
  · rw [hok]
    have hno : ¬ ∃ e ∈ s.locatedEnums, e.Repeats := fun ⟨e, he, hrepeats⟩ => hnone e he hrepeats
    refine ⟨iff_of_false (by simp) hno, by simp, fun f hf d hd hallow => ?_⟩
    cases hf
    rw [enums_eq_map_describe] at hd
    obtain ⟨e, he, rfl⟩ := List.mem_map.1 hd
    by_contra hnodup
    exact hnone e he ((LocatedEnum.repeats_iff_describe _ e).2 ⟨hallow, hnodup⟩)
  · rw [herror]
    have he : e ∈ s.locatedEnums := by simp [hsplit]
    refine ⟨iff_of_true ⟨_, rfl⟩ ⟨e, he, hrepeats⟩, fun error h => ?_, by simp⟩
    cases h
    exact ⟨before, e, after, earlier, again, hsplit, hbefore, hrepeats, hfirst, rfl⟩

/-- Three numbers that are equal, behind an enum that may have aliases. -/
def repeatedNumbers : String :=
  "package p; enum D \x7b A = 0; option allow_alias = true; B = -0; \x7d " ++
    "message M \x7b enum E \x7b A = 010; B = 1; C = 0x8; D = 8; \x7d \x7d"

/-- Two enums with the same numbers. -/
def distinctNumbers : String :=
  "enum D \x7b A = 0; B = -1; \x7d enum E \x7b A = 0x0; B = 1; C = -1; \x7d"

theorem FileDescriptor.load_repeats_repeatedNumbers :
    (∃ s, parse repeatedNumbers = .ok s ∧
      (outline s).enumNodes [] = s.locatedEnums.map (fun e => (e.parents, Outline.ofItem e.block)) ∧
      (∃ e ∈ s.locatedEnums, e.Repeats) ∧
      ∃ before e after earlier again, s.locatedEnums = before ++ e :: after ∧
        FirstRepeat (·.number) e.values earlier again ∧
        (earlier.name, again.name, again.number, e.fullName) = ("A", "C", 8, "p.M.E")) ∧
    ∃ f, (load none distinctNumbers).result = .ok f ∧
      ∀ d ∈ f.enums, d.allowAlias = false → (d.values.map (·.number)).Nodup := by
  have herror : (load none repeatedNumbers).result = .error (.repeatedNumber
      { file := none, line := some 1, name := "C", number := 8, earlier := "A", enum := "p.M.E" }) := by
    decide +kernel
  have hloads : (load none distinctNumbers).result.toOption.isSome = true := by decide +kernel
  constructor
  · cases hs : parse repeatedNumbers with
    | error e =>
      rw [result_load_of_error hs] at herror
      cases herror
    | ok s =>
      obtain ⟨houtline, hiff, hfirst, -⟩ := @load_repeats none _ _ hs
      obtain ⟨before, e, after, earlier, again, hsplit, -, -, hrepeat, heq⟩ := hfirst _ herror
      refine ⟨s, rfl, houtline, hiff.1 ⟨_, herror⟩, before, e, after, earlier, again, hsplit, hrepeat, ?_⟩
      simp only [LoadError.repeatedNumber.injEq, RepeatedNumber.mk.injEq] at heq
      obtain ⟨-, -, hname, hnumber, hearlier, hfull⟩ := heq
      rw [hname, hnumber, hearlier, hfull]
  · cases hf : (load none distinctNumbers).result with
    | error e =>
      rw [hf] at hloads
      cases hloads
    | ok f =>
      obtain ⟨s, hs, -⟩ := parse_of_load hf
      obtain ⟨-, -, -, hnodup⟩ := @load_repeats none _ _ hs
      exact ⟨f, rfl, hnodup f hf⟩

end SchemaEnums
