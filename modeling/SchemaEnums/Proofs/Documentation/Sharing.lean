import Mathlib.Data.List.Lattice
import SchemaEnums.Proofs.Documentation.LeadingRun

namespace SchemaEnums.Schema

open Source

namespace Declaration

/-- The leading comments of the declaration. -/
def leadingRun (o : Origin) (d : Declaration) : List Comment :=
  runAbove o.source d.start.line (commentsBefore o.comments d.start)

/-- The trailing comment of the declaration, if there is one. -/
def trailingRun (o : Origin) (d : Declaration) : List Comment :=
  (trailingComment? o.comments d.tail d.bound).toList

/-- The comments of the declaration, one list for each field of its documentation. -/
def fields (o : Origin) (d : Declaration) : List (List Comment) :=
  [d.leadingRun o, d.trailingRun o]

/-- Both declarations begin on the same line, and the second one has leading comments. -/
def SharesLeading (o : Origin) (d e : Declaration) : Prop :=
  d.start.line = e.start.line ∧ e.leadingRun o ≠ []

/-- The first declaration has no bound, and its trailing comment stands behind the second one, on
the same line and within its bound. -/
def SharesTrailing (o : Origin) (d e : Declaration) : Prop :=
  d.bound = none ∧ ∃ c ∈ d.trailingRun o, e.tail.line = d.tail.line ∧
    e.tail.offset ≤ c.span.start.offset ∧ ∀ b ∈ e.bound, c.span.start.offset ≤ b.offset

/-- The documentation of a declaration is what the comments of its fields say. -/
theorem described_eq (o : Origin) (d : Declaration) :
    d.described o = ({ leading := runText? (d.leadingRun o), trailing := runText? (d.trailingRun o) },
      some d.start.line) := by
  have hleading := leadingText?_eq_runText? o.source o.comments d.start
  have htrailing : trailingText? o.comments d.tail d.bound = runText? (d.trailingRun o) := by
    unfold trailingText? trailingRun
    cases trailingComment? o.comments d.tail d.bound <;> simp [runText?]
  rw [described, Origin.documentation, hleading, htrailing]
  rfl

end Declaration

section

variable {source : List Char} {comments cs : List Comment} {c : Comment} {line : Nat} {p : Position}

theorem beginsLine_of_mem_runAbove (h : c ∈ runAbove source line cs) :
    beginsLine source c.span.start.offset = true := by
  fun_induction runAbove source line cs with
  | case1 => cases h
  | case2 line d cs hd ih =>
    rcases List.mem_append.1 h with h | h
    · exact ih h
    · rw [List.mem_singleton.1 h]
      exact (Bool.and_eq_true_iff.1 hd).2
  | case3 => cases h

theorem mem_of_mem_runAbove (h : c ∈ runAbove source line cs) : c ∈ cs := by
  fun_induction runAbove source line cs with
  | case1 => cases h
  | case2 line d cs hd ih =>
    rcases List.mem_append.1 h with h | h
    · exact List.mem_cons_of_mem d (ih h)
    · rw [List.mem_singleton.1 h]
      exact List.mem_cons_self
  | case3 => cases h

theorem mem_commentsBefore : c ∈ commentsBefore comments p ↔
    c ∈ comments ∧ c.span.stop.offset ≤ p.offset := by
  simp [commentsBefore]

/-- What a trailing comment is: it stands behind the place, on its line and within the bound, and no
comment stands between. -/
theorem trailingComment?_eq_some_iff {bound : Option Position} :
    trailingComment? comments p bound = some c ↔
      (comments.find? fun c => p.offset ≤ c.span.start.offset) = some c ∧
        c.span.start.line = p.line ∧ ∀ b ∈ bound, c.span.start.offset ≤ b.offset := by
  simp only [trailingComment?, Option.filter_eq_some_iff, Bool.and_eq_true, beq_iff_eq,
    Option.all_eq_true, decide_eq_true_eq, Option.mem_def]

/-- No leading comment is a trailing comment: only what is no comment stands before a trailing
comment on its line. -/
theorem Declaration.disjoint_leading_trailing {o : Origin} {d e : Declaration}
    (hcomments : CommentsPlaced o.source o.comments)
    (he : (textMarks o.source o.comments).stops e.tail) :
    List.Disjoint (d.leadingRun o) (e.trailingRun o) := by
  intro c hleading htrailing
  have hbegins := beginsLine_of_mem_runAbove hleading
  obtain ⟨hmem, -⟩ := mem_commentsBefore.1 (mem_of_mem_runAbove hleading)
  obtain ⟨hfind, hline, -⟩ := trailingComment?_eq_some_iff.1 (Option.mem_toList.1 htrailing)
  have hle : e.tail.offset ≤ c.span.start.offset := by simpa using List.find?_some hfind
  obtain ⟨-, ⟨q, hq, hqlt, hqline⟩, -⟩ := he
  have := (beginsLine_iff (hcomments.firm c hmem).solid_start.1).1 hbegins q hq (by omega)
  omega

/-- A place behind a comment of a run and above the run's end stands on the line of a comment before
it. -/
theorem hidden_of_mem_runAbove (hcs : ∀ x ∈ cs, x.span.Firm source ∧ KeepsOut p x.span)
    (hp : p.Solid source) (hc : c ∈ runAbove source line cs) (hle : c.span.stop.offset ≤ p.offset)
    (hlt : p.line < line) : Hidden cs p := by
  fun_induction runAbove source line cs with
  | case1 => cases hc
  | case2 line d cs hd ih =>
    obtain ⟨hline, hbegins⟩ := Bool.and_eq_true_iff.1 hd
    obtain ⟨hfirm, hout⟩ := hcs d List.mem_cons_self
    have hline : d.span.stop.line + 1 = line := by simpa using hline
    rcases hout with hout | hout
    · have hmono := hfirm.inText_stop.line_mono hp.1 hout
      exact ⟨d, List.mem_cons_self, hout, by omega⟩
    · have hbefore := (beginsLine_iff hfirm.solid_start.1).1 hbegins p hp hout
      rcases List.mem_append.1 hc with hc | hc
      · obtain ⟨x, hx, hhidden⟩ :=
          ih (fun x hx => hcs x (List.mem_cons_of_mem d hx)) hc hbefore
        exact ⟨x, List.mem_cons_of_mem d hx, hhidden⟩
      · have hlt := hfirm.offset_lt
        rw [List.mem_singleton.1 hc] at hle
        omega
  | case3 => cases hc

end

section

variable {o : Origin} {d e : Declaration}

/-- Declarations on the same line have the same leading comments, if the second one has any. -/
theorem Declaration.leadingRun_eq (hcomments : CommentsPlaced o.source o.comments)
    (hd : (textMarks o.source o.comments).starts d.start)
    (he : (textMarks o.source o.comments).starts e.start) (hle : d.start.offset ≤ e.start.offset)
    (h : SharesLeading o d e) : d.leadingRun o = e.leadingRun o := by
  obtain ⟨hline, hne⟩ := h
  have hnot : ¬ Hidden o.comments e.start := fun hhidden => hne (hcomments.runAbove_eq_nil hhidden)
  have hbefore : commentsBefore o.comments d.start = commentsBefore o.comments e.start := by
    unfold commentsBefore
    congr 1
    apply List.filter_congr
    intro x hx
    rw [decide_eq_decide]
    refine ⟨fun h => Nat.le_trans h hle, fun h => ?_⟩
    have hfirm := hcomments.firm x hx
    rcases hd.2 x hx with hout | hout
    · exact hout
    · -- Between the two declarations a comment would hide the run from the second one.
      have hlow := hd.1.1.line_mono hfirm.solid_start.1 (Nat.le_of_lt hout)
      have hhigh := hfirm.inText_stop.line_mono he.1.1 h
      have hmid := hfirm.line_le
      exact absurd ⟨x, hx, h, by omega⟩ hnot
  rw [leadingRun, leadingRun, hbefore, hline]

/-- Leading comments are shared on the same line only. -/
theorem Declaration.disjoint_leading_iff (hcomments : CommentsPlaced o.source o.comments)
    (hd : (textMarks o.source o.comments).starts d.start)
    (he : (textMarks o.source o.comments).starts e.start) (hle : d.start.offset ≤ e.start.offset) :
    List.Disjoint (d.leadingRun o) (e.leadingRun o) ↔ ¬ SharesLeading o d e := by
  constructor
  · intro hdisjoint hshares
    obtain ⟨c, cs, hcs⟩ := List.exists_cons_of_ne_nil hshares.2
    have heq := leadingRun_eq hcomments hd he hle hshares
    have hmem : c ∈ e.leadingRun o := by simp [hcs]
    exact hdisjoint (heq ▸ hmem) hmem
  · intro hnot c hcd hce
    have hne : e.leadingRun o ≠ [] := List.ne_nil_of_mem hce
    have hmono := hd.1.1.line_mono he.1.1 hle
    have hlt : d.start.line < e.start.line := by
      have hline : d.start.line ≠ e.start.line := fun hline => hnot ⟨hline, hne⟩
      omega
    obtain ⟨-, hstop⟩ := mem_commentsBefore.1 (mem_of_mem_runAbove hcd)
    have hout : ∀ x ∈ commentsBefore o.comments e.start,
        x.span.Firm o.source ∧ KeepsOut d.start x.span := by
      intro x hx
      obtain ⟨hx, -⟩ := mem_commentsBefore.1 hx
      exact ⟨hcomments.firm x hx, hd.2 x hx⟩
    obtain ⟨x, hx, hhidden⟩ := hidden_of_mem_runAbove hout hd.1 hce hstop hlt
    have hnil := hcomments.runAbove_eq_nil ⟨x, (mem_commentsBefore.1 hx).1, hhidden⟩
    have hmem : c ∈ d.leadingRun o := hcd
    rw [leadingRun, hnil] at hmem
    cases hmem

/-- Only a trailing comment without bound is shared. -/
theorem Declaration.disjoint_trailing_iff (hbefore : d.Before e)
    (hlt : e.start.offset < e.tail.offset) :
    List.Disjoint (d.trailingRun o) (e.trailingRun o) ↔ ¬ SharesTrailing o d e := by
  constructor
  · rintro hdisjoint ⟨-, c, hc, hline, hle, hbound⟩
    refine hdisjoint hc (Option.mem_toList.2 (trailingComment?_eq_some_iff.2 ?_))
    obtain ⟨hfind, hcline, -⟩ := trailingComment?_eq_some_iff.1 (Option.mem_toList.1 hc)
    refine ⟨?_, by omega, hbound⟩
    obtain ⟨-, front, back, happend, hfront⟩ := List.find?_eq_some_iff_append.1 hfind
    refine List.find?_eq_some_iff_append.2 ⟨by simpa using hle, front, back, happend, ?_⟩
    intro x hx
    have htail := hbefore.tail_le
    have := hfront x hx
    simp only [Bool.not_eq_true', decide_eq_false_iff_not] at this ⊢
    omega
  · intro hnot c hcd hce
    obtain ⟨hdfind, hdline, hdbound⟩ := trailingComment?_eq_some_iff.1 (Option.mem_toList.1 hcd)
    obtain ⟨hefind, heline, hebound⟩ := trailingComment?_eq_some_iff.1 (Option.mem_toList.1 hce)
    have hle : e.tail.offset ≤ c.span.start.offset := by simpa using List.find?_some hefind
    refine hnot ⟨?_, c, hcd, by omega, hle, hebound⟩
    cases hb : d.bound with
    | none => rfl
    | some b =>
      have hcb := hdbound b hb
      have hbe := hbefore.bound_le b hb
      omega

/-- No comment of a schema is in two fields unless two declarations share their leading comments or
a trailing one. -/
theorem Declaration.pairwise_disjoint_iff {lo hi : Nat} {ds : List Declaration}
    (hcomments : CommentsPlaced o.source o.comments)
    (hds : DeclarationsPlaced (textMarks o.source o.comments) lo hi ds) :
    (ds.flatMap (fields o)).Pairwise List.Disjoint ↔
      ds.Pairwise fun d e => ¬ SharesLeading o d e ∧ ¬ SharesTrailing o d e := by
  have hmixed {d e : Declaration} (he : e ∈ ds) :
      List.Disjoint (d.leadingRun o) (e.trailingRun o) :=
    disjoint_leading_trailing hcomments (hds.placed e he).stops_tail
  rw [List.pairwise_flatMap, and_iff_right]
  · have hpair : ∀ d ∈ ds, ∀ e ∈ ds, d.Before e →
        ((∀ x ∈ fields o d, ∀ y ∈ fields o e, List.Disjoint x y) ↔
          ¬ SharesLeading o d e ∧ ¬ SharesTrailing o d e) := by
      intro d hd e he hbefore
      have hdplaced := hds.placed d hd
      have heplaced := hds.placed e he
      have htail := hbefore.tail_le
      have hlt := hdplaced.start_lt
      rw [← disjoint_leading_iff hcomments hdplaced.starts_start heplaced.starts_start (by omega),
        ← disjoint_trailing_iff hbefore heplaced.start_lt]
      simp only [fields, List.forall_mem_cons, List.not_mem_nil, false_imp_iff, implies_true, and_true]
      have hde := hmixed (d := d) he
      have hed := (hmixed (d := e) hd).symm
      exact ⟨fun h => ⟨h.1.1, h.2.2⟩, fun h => ⟨⟨h.1, hde⟩, hed, h.2⟩⟩
    constructor
    · intro h
      exact (h.and hds.pairwise).imp_of_mem fun hd he hde => (hpair _ hd _ he hde.2).1 hde.1
    · intro h
      exact (h.and hds.pairwise).imp_of_mem fun hd he hde => (hpair _ hd _ he hde.2).2 hde.1
  · intro d hd
    simpa [fields] using hmixed hd

end

end SchemaEnums.Schema

namespace SchemaEnums

open Schema

/-- Of the comments of a text that was loaded none is in two fields of its descriptors, unless two
declarations begin on one line and the second has leading comments, or the trailing comment of a
last value also stands behind a later declaration. -/
theorem FileDescriptor.fields_disjoint_iff_of_load {file : Option String} {text : String}
    {f : FileDescriptor} (hload : (load file text).result = .ok f) :
    ∃ s : Schema Int, parse text = .ok s ∧
      f.documented = s.declarations.map (fun d =>
        ({ leading := runText? (d.leadingRun (s.origin file text))
           trailing := runText? (d.trailingRun (s.origin file text)) }, some d.start.line)) ∧
      ((s.declarations.flatMap (Declaration.fields (s.origin file text))).Pairwise List.Disjoint ↔
        s.declarations.Pairwise fun d e =>
          ¬ Declaration.SharesLeading (s.origin file text) d e ∧
            ¬ Declaration.SharesTrailing (s.origin file text) d e) := by
  obtain ⟨s, hparse, hdocumented⟩ := documented_of_load hload
  have hparsed := parsed_of_parse hparse
  refine ⟨s, hparse, ?_, ?_⟩
  · rw [hdocumented]
    exact List.map_congr_left fun d _ => Declaration.described_eq (s.origin file text) d
  · exact Declaration.pairwise_disjoint_iff hparsed.comments (declarationsPlaced_of_parsed hparsed)

theorem FileDescriptor.fields_disjoint_iff_of_load_sample :
    ∃ f, (load none commentedText).result = .ok f ∧
      f.documented = [({ leading := some "c" }, some 2), ({}, some 3)] ∧
      ∃ s : Schema Int, parse commentedText = .ok s ∧
        ((s.declarations.flatMap (Declaration.fields (s.origin none commentedText))).Pairwise
          List.Disjoint ↔ s.declarations.Pairwise fun d e =>
            ¬ Declaration.SharesLeading (s.origin none commentedText) d e ∧
              ¬ Declaration.SharesTrailing (s.origin none commentedText) d e) := by
  obtain ⟨s, hparse, -, hiff⟩ := fields_disjoint_iff_of_load load_commentedText
  exact ⟨_, load_commentedText, rfl, s, hparse, hiff⟩

/-- The only comment of a text is the leading comment of an enum and of its value. -/
theorem FileDescriptor.leading_shared_on_line :
    ∃ f, (load none "// c\nenum E { A = 0; }").result = .ok f ∧
      f.documented = [({ leading := some "c" }, some 2), ({ leading := some "c" }, some 2)] ∧
      (parse "// c\nenum E { A = 0; }").toOption.map (fun s => s.comments.length) = some 1 := by
  have hload : (load none "// c\nenum E { A = 0; }").result = .ok
      { file := none
        enums := [{ name := some "E"
                    values := [{ name := "A", number := 0
                                 documentation := { leading := some "c" }, line := some 2 }]
                    documentation := { leading := some "c" }
                    line := some 2 }] } := by decide +kernel
  exact ⟨_, hload, rfl, by decide +kernel⟩

end SchemaEnums
