import SchemaEnums.Proofs.Documentation.Declaration

namespace SchemaEnums.Schema

open Source

/-- Nothing but blanks stands before the comment on its first line and behind it on its last. -/
def AloneOnLines (source : List Char) (c : Comment) : Prop :=
  beginsLine source c.span.start.offset = true ∧ endsLine source c.span.stop.offset = true

instance (source : List Char) (c : Comment) : Decidable (AloneOnLines source c) :=
  inferInstanceAs (Decidable (_ ∧ _))

/-- The longest run of comments that are alone on their lines, each beginning on the line after the
one on which the comment before it ends, down to the line above `line`. -/
inductive IsRunAbove (source : List Char) (comments : List Comment) : Nat → List Comment → Prop
  | nil {line : Nat} (h : ∀ c ∈ comments, AloneOnLines source c → c.span.stop.line + 1 ≠ line) :
      IsRunAbove source comments line []
  | concat {line : Nat} {run : List Comment} {c : Comment} (hmem : c ∈ comments)
      (halone : AloneOnLines source c) (hline : c.span.stop.line + 1 = line)
      (hrun : IsRunAbove source comments c.span.start.line run) :
      IsRunAbove source comments line (run ++ [c])

/-- What a run of comments says, if there is one. -/
def runText? : List Comment → Option String
  | [] => none
  | run => some ("\n".intercalate (run.map Comment.content))

/-- The line on which a run down to the line above `line` begins. -/
def topLine (line : Nat) : List Comment → Nat
  | [] => line
  | c :: _ => c.span.start.line

/-- Directly above the run a comment begins its line and is the last one on it, but other text stands
behind it. -/
def Stray (source : List Char) (comments : List Comment) (line : Nat) (run : List Comment) : Prop :=
  ∃ c ∈ comments, c.span.stop.line + 1 = topLine line run ∧
    beginsLine source c.span.start.offset = true ∧ endsLine source c.span.stop.offset = false ∧
    ∀ c' ∈ comments, c.span.stop.offset ≤ c'.span.start.offset →
      topLine line run ≤ c'.span.start.line

theorem topLine_concat (line : Nat) (run : List Comment) (c : Comment) :
    topLine line (run ++ [c]) = topLine c.span.start.line run := by
  cases run <;> rfl

theorem Stray.concat_iff {source : List Char} {comments run : List Comment} {line : Nat}
    {c : Comment} : Stray source comments line (run ++ [c]) ↔
      Stray source comments c.span.start.line run := by
  simp only [Stray, topLine_concat]

section

variable {source : List Char} {comments : List Comment} {line : Nat}

/-- Of the comments that end on one line at most one is alone. -/
theorem CommentsPlaced.eq_of_alone (h : CommentsPlaced source comments) {c d : Comment}
    (hc : c ∈ comments) (hd : d ∈ comments) (hline : c.span.stop.line = d.span.stop.line)
    (hcends : endsLine source c.span.stop.offset = true)
    (hdends : endsLine source d.span.stop.offset = true) : c = d := by
  have hcfirm := h.firm c hc
  have hdfirm := h.firm d hd
  have hcle := hcfirm.line_le
  have hdle := hdfirm.line_le
  rcases h.ordered.total hc hd with heq | hle | hle
  · exact heq
  · have := hcfirm.line_lt_of_endsLine hdfirm.solid_start hle hcends
    omega
  · have := hdfirm.line_lt_of_endsLine hcfirm.solid_start hle hdends
    omega

/-- There is a longest run above every line. -/
theorem CommentsPlaced.exists_isRunAbove (h : CommentsPlaced source comments) (line : Nat) :
    ∃ run, IsRunAbove source comments line run := by
  induction line using Nat.strongRecOn with
  | ind line ih =>
    by_cases hlast : ∃ c ∈ comments, AloneOnLines source c ∧ c.span.stop.line + 1 = line
    · obtain ⟨c, hc, halone, hline⟩ := hlast
      have hle := (h.firm c hc).line_le
      obtain ⟨run, hrun⟩ := ih c.span.start.line (by omega)
      exact ⟨run ++ [c], .concat hc halone hline hrun⟩
    · exact ⟨[], .nil fun c hc halone hline => hlast ⟨c, hc, halone, hline⟩⟩

/-- A comment that is alone and ends right above is the last one of the longest run. -/
theorem IsRunAbove.exists_concat (h : CommentsPlaced source comments) {run : List Comment}
    {c : Comment} (hrun : IsRunAbove source comments line run) (hc : c ∈ comments)
    (halone : AloneOnLines source c) (hline : c.span.stop.line + 1 = line) :
    ∃ rest, run = rest ++ [c] ∧ IsRunAbove source comments c.span.start.line rest := by
  cases hrun with
  | nil hnone => exact absurd hline (hnone c hc halone)
  | concat hmem halone' hline' hrun =>
    obtain rfl := h.eq_of_alone hc hmem (by omega) halone.2 halone'.2
    exact ⟨_, rfl, hrun⟩

/-- There is only one longest run above a line. -/
theorem IsRunAbove.unique (h : CommentsPlaced source comments) {run run' : List Comment}
    (hrun : IsRunAbove source comments line run) (hrun' : IsRunAbove source comments line run') :
    run = run' := by
  induction hrun generalizing run' with
  | nil hnone =>
    cases hrun' with
    | nil => rfl
    | concat hmem halone hline => exact absurd hline (hnone _ hmem halone)
  | concat hmem halone hline _ ih =>
    obtain ⟨rest, rfl, hrest⟩ := hrun'.exists_concat h hmem halone hline
    rw [ih hrest]

/-- What is known of the last comment before a line: comments behind it begin on the line or below,
those before it end no later than it begins, and all of these end above the line. -/
structure LastAbove (comments : List Comment) (line : Nat) (c : Comment) (cs : List Comment) :
    Prop where
  mem : c ∈ comments
  stop_lt : c.span.stop.line < line
  mem_or : ∀ x ∈ comments, x = c ∨ x ∈ cs ∨ line ≤ x.span.start.line
  le_start : ∀ x ∈ cs, x.span.stop.offset ≤ c.span.start.offset

theorem CommentsPlaced.stop_le_of_eq {c x : Comment} {cs later : List Comment}
    (h : CommentsPlaced source comments) (hsplit : comments = (c :: cs).reverse ++ later)
    (hx : x ∈ cs) : x.span.stop.offset ≤ c.span.start.offset := by
  have hpairwise := h.ordered.pairwise
  rw [hsplit, List.reverse_cons, List.append_assoc] at hpairwise
  exact (List.pairwise_append.1 hpairwise).2.2 x (List.mem_reverse.2 hx) c (by simp)

theorem CommentsPlaced.lastAbove {c : Comment} {cs later : List Comment}
    (h : CommentsPlaced source comments) (hsplit : comments = (c :: cs).reverse ++ later)
    (hbefore : ∀ x ∈ c :: cs, x.span.stop.line < line)
    (hlater : ∀ x ∈ later, line ≤ x.span.start.line) : LastAbove comments line c cs where
  mem := by simp [hsplit]
  stop_lt := hbefore c List.mem_cons_self
  mem_or x hx := by
    rw [hsplit, List.mem_append, List.mem_reverse, List.mem_cons] at hx
    rcases hx with (hx | hx) | hx
    · exact .inl hx
    · exact .inr (.inl hx)
    · exact .inr (.inr (hlater x hx))
  le_start _ hx := h.stop_le_of_eq hsplit hx

namespace LastAbove

variable {c x : Comment} {cs : List Comment}

/-- A comment that ends on the line above is the last one, or the last one begins behind it and ends
on that line too. -/
theorem eq_or (hc : LastAbove comments line c cs) (h : CommentsPlaced source comments)
    (hx : x ∈ comments) (hline : x.span.stop.line + 1 = line) :
    x = c ∨ x.span.stop.offset ≤ c.span.start.offset ∧ c.span.start.line < line ∧
      c.span.stop.line + 1 = line := by
  have hxle := (h.firm x hx).line_le
  have hcle := (h.firm c hc.mem).line_le
  have hlt := hc.stop_lt
  rcases hc.mem_or x hx with heq | hmem | hlow
  · exact .inl heq
  · have hle := hc.le_start x hmem
    have hmono := (h.firm x hx).inText_stop.line_mono (h.firm c hc.mem).solid_start.1 hle
    exact .inr ⟨hle, by omega, by omega⟩
  · omega

/-- A comment that ends its line right above is the last one. -/
theorem eq_of_endsLine (hc : LastAbove comments line c cs) (h : CommentsPlaced source comments)
    (hx : x ∈ comments) (hline : x.span.stop.line + 1 = line)
    (hends : endsLine source x.span.stop.offset = true) : x = c := by
  rcases hc.eq_or h hx hline with heq | ⟨hle, hlt, -⟩
  · exact heq
  · have := (h.firm x hx).line_lt_of_endsLine (h.firm c hc.mem).solid_start hle hends
    omega

/-- The run is empty unless the last comment is alone and ends right above. -/
theorem eq_nil (hc : LastAbove comments line c cs) (h : CommentsPlaced source comments)
    {run : List Comment} (hrun : IsRunAbove source comments line run)
    (hnot : ¬ (c.span.stop.line + 1 = line ∧ AloneOnLines source c)) : run = [] := by
  cases hrun with
  | nil => rfl
  | concat hmem halone hline =>
    obtain rfl := hc.eq_of_endsLine h hmem hline halone.2
    exact absurd ⟨hline, halone⟩ hnot

/-- Only the last comment can be the stray one above an empty run. -/
theorem stray_iff (hc : LastAbove comments line c cs) (h : CommentsPlaced source comments) :
    Stray source comments line [] ↔ c.span.stop.line + 1 = line ∧
      beginsLine source c.span.start.offset = true ∧
      endsLine source c.span.stop.offset = false := by
  constructor
  · rintro ⟨x, hx, hline, hbegins, hends, hlast⟩
    rcases hc.eq_or h hx hline with rfl | ⟨hle, hlt, -⟩
    · exact ⟨hline, hbegins, hends⟩
    · have hlow : line ≤ c.span.start.line := hlast c hc.mem hle
      omega
  · rintro ⟨hline, hbegins, hends⟩
    refine ⟨c, hc.mem, hline, hbegins, hends, fun x hx hle => ?_⟩
    have hclt := (h.firm c hc.mem).offset_lt
    have hxlt := (h.firm x hx).offset_lt
    rcases hc.mem_or x hx with rfl | hmem | hlow
    · omega
    · have := hc.le_start x hmem
      omega
    · exact hlow

end LastAbove

/-- Where no comment ends right above, there is nothing to take up. -/
theorem IsRunAbove.eq_nil {run : List Comment} (hrun : IsRunAbove source comments line run)
    (hnone : ∀ c ∈ comments, c.span.stop.line + 1 ≠ line) :
    run = [] ∧ ¬ Stray source comments line [] := by
  constructor
  · cases hrun with
    | nil => rfl
    | concat hmem _ hline => exact absurd hline (hnone _ hmem)
  · rintro ⟨c, hc, hline, -⟩
    exact hnone c hc hline

/-- The comments that are taken up end with the longest run; they are more than that exactly if a
stray comment stands above it. The comments in `cs`, the latest first, end above `line`. -/
theorem CommentsPlaced.runAbove_eq (h : CommentsPlaced source comments) {cs later run : List Comment}
    (hsplit : comments = cs.reverse ++ later) (hbefore : ∀ c ∈ cs, c.span.stop.line < line)
    (hlater : ∀ c ∈ later, line ≤ c.span.start.line) (hrun : IsRunAbove source comments line run) :
    ∃ extra, runAbove source line cs = extra ++ run ∧
      (extra ≠ [] ↔ Stray source comments line run) := by
  induction cs generalizing line later run with
  | nil =>
    have hnone : ∀ c ∈ comments, c.span.stop.line + 1 ≠ line := by
      intro c hc hline
      have hle := (h.firm c hc).line_le
      rw [hsplit] at hc
      have := hlater c (by simpa using hc)
      omega
    obtain ⟨rfl, hstray⟩ := hrun.eq_nil hnone
    exact ⟨[], rfl, by simp, fun h => absurd h hstray⟩
  | cons c cs ih =>
    have hlast := h.lastAbove hsplit hbefore hlater
    unfold runAbove
    by_cases hline : c.span.stop.line + 1 = line
    · by_cases hbegins : beginsLine source c.span.start.offset = true
      · rw [if_pos (by simp [hline, hbegins])]
        by_cases hends : endsLine source c.span.stop.offset = true
        · -- The comment is alone: both runs go on above it.
          obtain ⟨rest, rfl, hrest⟩ := hrun.exists_concat h hlast.mem ⟨hbegins, hends⟩ hline
          have hfirm := h.firm c hlast.mem
          have hle := hfirm.line_le
          have habove : ∀ x ∈ cs, x.span.stop.line < c.span.start.line := by
            intro x hx
            have hx' : x ∈ comments := by simp [hsplit, hx]
            exact (h.firm x hx').line_lt_of_beginsLine hfirm.solid_start.1 (hlast.le_start x hx)
              hbegins
          have hbelow : ∀ x ∈ c :: later, c.span.start.line ≤ x.span.start.line := by
            intro x hx
            rcases List.mem_cons.1 hx with rfl | hx
            · exact Nat.le_refl _
            · have := hlater x hx
              omega
          obtain ⟨extra, heq, hextra⟩ := ih (by rw [hsplit]; simp) habove hbelow hrest
          refine ⟨extra, by rw [heq, List.append_assoc], ?_⟩
          rw [hextra, Stray.concat_iff]
        · obtain rfl := hlast.eq_nil h hrun fun hc => hends hc.2.2
          have hstray := (hlast.stray_iff h).2 ⟨hline, hbegins, by simpa using hends⟩
          exact ⟨_, (List.append_nil _).symm, fun _ => hstray, fun _ => by simp⟩
      · rw [if_neg (by simp [hbegins])]
        obtain rfl := hlast.eq_nil h hrun fun hc => hbegins hc.2.1
        refine ⟨[], rfl, by simp, ?_⟩
        intro hstray
        exact absurd ((hlast.stray_iff h).1 hstray).2.1 hbegins
    · rw [if_neg (by simp [hline])]
      obtain rfl := hlast.eq_nil h hrun fun hc => hline hc.1
      refine ⟨[], rfl, by simp, ?_⟩
      intro hstray
      exact absurd ((hlast.stray_iff h).1 hstray).1 hline

/-- The comments before a place come first. -/
theorem CommentsPlaced.eq_before_append (h : CommentsPlaced source comments) (p : Position) :
    comments = (commentsBefore comments p).reverse ++
      comments.filter fun c => p.offset < c.span.stop.offset := by
  obtain ⟨hordered, hfirm⟩ := h
  unfold commentsBefore
  rw [List.reverse_reverse]
  generalize 0 = lo at hordered
  induction comments generalizing lo with
  | nil => rfl
  | cons c cs ih =>
    have hcs : ∀ x ∈ cs, x.span.Firm source := fun x hx => hfirm x (List.mem_cons_of_mem c hx)
    by_cases hc : c.span.stop.offset ≤ p.offset
    · rw [List.filter_cons_of_pos (by simpa using hc), List.filter_cons_of_neg (by simpa using hc),
        List.cons_append, ← ih hcs _ hordered.tail]
    · -- No comment behind one that ends too late ends in time.
      have hlate : ∀ x ∈ c :: cs, p.offset < x.span.stop.offset := by
        intro x hx
        rcases List.mem_cons.1 hx with rfl | hx
        · omega
        · have hle := (hordered.tail.le_of_mem x hx).1
          have hlt := (hcs x hx).offset_lt
          omega
      rw [List.filter_eq_nil_iff.2 fun x hx => by simpa using hlate x hx,
        List.filter_eq_self.2 fun x hx => by simpa using hlate x hx, List.nil_append]

/-- A comment stands on the declaration's line in front of it. -/
def Hidden (comments : List Comment) (p : Position) : Prop :=
  ∃ c ∈ comments, c.span.stop.offset ≤ p.offset ∧ c.span.stop.line = p.line

/-- Nothing is taken up if a comment stands in front of the declaration on its line. -/
theorem CommentsPlaced.runAbove_eq_nil (h : CommentsPlaced source comments) {p : Position}
    (hhidden : Hidden comments p) :
    runAbove source p.line (commentsBefore comments p) = [] := by
  obtain ⟨x, hx, hxle, hxline⟩ := hhidden
  have hsplit := h.eq_before_append p
  have hmem : x ∈ commentsBefore comments p := by simp [commentsBefore, hx, hxle]
  cases hcs : commentsBefore comments p with
  | nil => rfl
  | cons c cs =>
    rw [hcs] at hsplit hmem
    have hc : c ∈ comments := by rw [hsplit]; simp
    have hmono : x.span.stop.line ≤ c.span.stop.line := by
      rcases List.mem_cons.1 hmem with rfl | hxcs
      · exact Nat.le_refl _
      · have hle := h.stop_le_of_eq hsplit hxcs
        have hlt := (h.firm c hc).offset_lt
        exact (h.firm x hx).inText_stop.line_mono (h.firm c hc).inText_stop (by omega)
    rw [runAbove, if_neg]
    simp only [Bool.and_eq_true, decide_eq_true_eq, not_and]
    omega

theorem leadingText?_eq_runText? (source : List Char) (comments : List Comment) (p : Position) :
    leadingText? source comments p =
      runText? (runAbove source p.line (commentsBefore comments p)) := by
  unfold leadingText?
  cases runAbove source p.line (commentsBefore comments p) <;> rfl

theorem runText?_of_ne_nil {run : List Comment} (h : run ≠ []) :
    runText? run = some ("\n".intercalate (run.map Comment.content)) := by
  cases run with
  | nil => exact absurd rfl h
  | cons c cs => rfl

/-- More comments say more. -/
theorem runText?_append_eq_iff {extra run : List Comment} :
    runText? (extra ++ run) = runText? run ↔ extra = [] := by
  constructor
  · intro h
    by_contra hextra
    rw [runText?_of_ne_nil (by simp [hextra])] at h
    by_cases hrun : run = []
    · subst hrun
      cases h
    · rw [runText?_of_ne_nil hrun, List.map_append,
        String.intercalate_append_of_ne_nil (by simpa using hextra) (by simpa using hrun)] at h
      have hlength := congrArg String.length (Option.some.inj h)
      simp only [String.length_append] at hlength
      have hfeed : "\n".length = 1 := rfl
      omega
  · rintro rfl
    rfl

/-- The leading comments of a declaration at `p` are the longest run above it, unless a comment in
front of the declaration hides a run or a stray comment stands above it. -/
theorem CommentsPlaced.leadingText?_eq_iff (h : CommentsPlaced source comments) {p : Position}
    (hp : (textMarks source comments).starts p) {run : List Comment}
    (hrun : IsRunAbove source comments p.line run) :
    leadingText? source comments p = runText? run ↔
      Hidden comments p ∧ run = [] ∨
        ¬ Hidden comments p ∧ ¬ Stray source comments p.line run := by
  rw [leadingText?_eq_runText?]
  by_cases hhidden : Hidden comments p
  · rw [h.runAbove_eq_nil hhidden]
    simp only [hhidden, true_and, not_true, false_and, or_false]
    cases run <;> simp [runText?]
  · have hbefore : ∀ c ∈ commentsBefore comments p, c.span.stop.line < p.line := by
      intro c hc
      obtain ⟨hc, hle⟩ : c ∈ comments ∧ c.span.stop.offset ≤ p.offset := by
        simpa [commentsBefore] using hc
      have hmono := (h.firm c hc).inText_stop.line_mono hp.1.1 hle
      have hne : c.span.stop.line ≠ p.line := fun hline => hhidden ⟨c, hc, hle, hline⟩
      omega
    have hlater : ∀ c ∈ comments.filter fun c => p.offset < c.span.stop.offset,
        p.line ≤ c.span.start.line := by
      intro c hc
      obtain ⟨hc, hlt⟩ : c ∈ comments ∧ p.offset < c.span.stop.offset := by simpa using hc
      rcases hp.2 c hc with hout | hout
      · omega
      · exact hp.1.1.line_mono (h.firm c hc).solid_start.1 (Nat.le_of_lt hout)
    obtain ⟨extra, heq, hextra⟩ := h.runAbove_eq (h.eq_before_append p) hbefore hlater hrun
    rw [heq, runText?_append_eq_iff, ← hextra]
    simp [hhidden]

end

end SchemaEnums.Schema

namespace SchemaEnums

open Schema

/-- The leading comments in the descriptors of a text that was loaded, against the longest run above
each declaration. They are those of the run exactly if it is not hidden by a comment in front of the
declaration (or is empty), and no stray comment stands above it. -/
theorem FileDescriptor.leading_iff_of_load {file : Option String} {text : String}
    {f : FileDescriptor} (hload : (load file text).result = .ok f) :
    ∃ s : Schema Int, parse text = .ok s ∧
      f.documented = s.declarations.map (Declaration.described (s.origin file text)) ∧
      ∀ d ∈ s.declarations, ∃ run, IsRunAbove text.toList s.comments d.start.line run ∧
        (∀ run', IsRunAbove text.toList s.comments d.start.line run' → run' = run) ∧
        ((d.described (s.origin file text)).1.leading = runText? run ↔
          Hidden s.comments d.start ∧ run = [] ∨
            ¬ Hidden s.comments d.start ∧ ¬ Stray text.toList s.comments d.start.line run) := by
  obtain ⟨s, hparse, hdocumented⟩ := documented_of_load hload
  have hparsed := parsed_of_parse hparse
  refine ⟨s, hparse, hdocumented, fun d hd => ?_⟩
  obtain ⟨run, hrun⟩ := hparsed.comments.exists_isRunAbove d.start.line
  have hplaced := (declarationsPlaced_of_parsed hparsed).placed d hd
  exact ⟨run, hrun, fun _ hrun' => hrun'.unique hparsed.comments hrun,
    hparsed.comments.leadingText?_eq_iff hplaced.starts_start hrun⟩

theorem FileDescriptor.leading_iff_of_load_sample :
    ∃ f, (load none commentedText).result = .ok f ∧
      f.documented = [({ leading := some "c" }, some 2), ({}, some 3)] ∧
      ∃ s : Schema Int, parse commentedText = .ok s ∧
        f.documented = s.declarations.map (Declaration.described (s.origin none commentedText)) ∧
        ∀ d ∈ s.declarations, ∃ run, IsRunAbove commentedText.toList s.comments d.start.line run ∧
          ((d.described (s.origin none commentedText)).1.leading = runText? run ↔
            Hidden s.comments d.start ∧ run = [] ∨ ¬ Hidden s.comments d.start ∧
              ¬ Stray commentedText.toList s.comments d.start.line run) := by
  obtain ⟨s, hparse, hdocumented, hruns⟩ := leading_iff_of_load load_commentedText
  refine ⟨_, load_commentedText, rfl, s, hparse, hdocumented, fun d hd => ?_⟩
  obtain ⟨run, hrun, -, hiff⟩ := hruns d hd
  exact ⟨run, hrun, hiff⟩

/-- A text with a comment in front of a package statement and an enum on the next line. -/
def strayText : String := "/* c */ package a;\nenum E { A = 0; }"

/-- A comment that shares its line with a statement is taken for a leading comment. -/
theorem FileDescriptor.leading_of_strayText :
    ∃ f, (load none strayText).result = .ok f ∧
      f.documented.head? = some ({ leading := some "c" }, some 2) ∧
      ∀ comments, (parse strayText).toOption.map Schema.comments = some comments →
        IsRunAbove strayText.toList comments 2 [] := by
  have hload : (load none strayText).result = .ok
      { file := none
        enums := [{ name := some "E"
                    values := [{ name := "A", number := 0
                                 documentation := { leading := some "c" }, line := some 2 }]
                    documentation := { leading := some "c" }
                    package := some "a"
                    line := some 2 }]
        package := some "a" } := by decide +kernel
  have hcomments : (parse strayText).toOption.map Schema.comments = some
      [{ kind := .block, text := "/* c */"
         span := { start := {}, stop := { offset := 7, line := 1, column := 8 } } }] := by
    decide +kernel
  refine ⟨_, hload, rfl, fun comments h => ?_⟩
  rw [hcomments] at h
  cases h
  exact .nil (by decide)

end SchemaEnums
