import SchemaEnums.Proofs.Source.Spelling
import SchemaEnums.Schema.Parse

namespace SchemaEnums.Schema

open Source

/-- Neither stretch reaches into the other. -/
def Apart (a b : Span) : Prop :=
  a.stop.offset ≤ b.start.offset ∨ b.stop.offset ≤ a.start.offset

/-- The tokens and the comments stand in the text from the offset `lo` on, in order and apart. -/
structure Trace (source : List Char) (lo : Nat) (tokens : List Token) (comments : List Comment) :
    Prop where
  tokens_ordered : Ordered Token.span lo source.length tokens
  comments_ordered : Ordered Comment.span lo source.length comments
  comments_firm : ∀ c ∈ comments, c.span.Firm source
  spells : ∀ t ∈ tokens, t.kind.Spells t.text.toList
  tokens_firm : ∀ t ∈ tokens, t.kind.IsSolid → t.span.Firm source
  lt_of_mem : ∀ t ∈ tokens, t.span.start.offset < t.span.stop.offset
  apart : ∀ t ∈ tokens, ∀ c ∈ comments, Apart t.span c.span

/-- What is left when no token follows: the comments of a last gap. -/
theorem Trace.of_gap {source : List Char} {lo hi : Nat} {comments : List Comment}
    (hordered : Ordered Comment.span lo hi comments) (hfirm : ∀ c ∈ comments, c.span.Firm source)
    (hhi : hi ≤ source.length) : Trace source lo [] comments where
  tokens_ordered := .nil
  comments_ordered := hordered.mono (Nat.le_refl _) hhi
  comments_firm := hfirm
  spells := by simp
  tokens_firm := by simp
  lt_of_mem := by simp
  apart := by simp

/-- A gap and a token before a trace make a longer one. -/
theorem Trace.cons {source : List Char} {lo : Nat} {t : Token} {tokens : List Token}
    {gap comments : List Comment} (h : Trace source t.span.stop.offset tokens comments)
    (hordered : Ordered Comment.span lo t.span.start.offset gap)
    (hfirm : ∀ c ∈ gap, c.span.Firm source) (hspells : t.kind.Spells t.text.toList)
    (htoken : t.kind.IsSolid → t.span.Firm source) (hlo : lo ≤ t.span.start.offset)
    (hlt : t.span.start.offset < t.span.stop.offset) (hstop : t.span.stop.offset ≤ source.length) :
    Trace source lo (t :: tokens) (gap ++ comments) where
  tokens_ordered :=
    (Ordered.singleton (x := t) hlo (Nat.le_refl _)).append h.tokens_ordered (by omega) hstop
  comments_ordered := by
    refine hordered.append (h.comments_ordered.mono (by omega) (Nat.le_refl _)) hlo (by omega)
  comments_firm := by
    intro c hc
    rcases List.mem_append.1 hc with hc | hc
    · exact hfirm c hc
    · exact h.comments_firm c hc
  spells := by
    intro u hu
    rcases List.mem_cons.1 hu with rfl | hu
    · exact hspells
    · exact h.spells u hu
  tokens_firm := by
    intro u hu
    rcases List.mem_cons.1 hu with rfl | hu
    · exact htoken
    · exact h.tokens_firm u hu
  lt_of_mem := by
    intro u hu
    rcases List.mem_cons.1 hu with rfl | hu
    · exact hlt
    · exact h.lt_of_mem u hu
  apart := by
    intro u hu c hc
    rcases List.mem_cons.1 hu with rfl | hu
    · rcases List.mem_append.1 hc with hc | hc
      · exact .inr (hordered.le_of_mem c hc).2
      · exact .inl (h.comments_ordered.le_of_mem c hc).1
    · rcases List.mem_append.1 hc with hc | hc
      · have hc := (hordered.le_of_mem c hc).2
        have hu := (h.tokens_ordered.le_of_mem u hu).1
        exact .inr (by omega)
      · exact h.apart u hu c hc

/-- Behind a gap a token is read, and the text goes on behind the token. -/
theorem exists_split_of_read? {source before cs : List Char} {p : Position} {x : Context}
    {l : Lexeme} (hsource : source = before ++ cs) (hp : p = Position.advance {} before)
    (hread : x.read? (Gap.read p cs).rest = some l) :
    ∃ skipped, source = before ++ skipped ++ l.text ++ l.rest ∧
      (Gap.read p cs).stop = Position.advance {} (before ++ skipped) := by
  obtain ⟨skipped, hskipped, hstop, -, -⟩ := Gap.read_spec hsource hp
  obtain ⟨happend, -⟩ := Context.append_of_read? hread
  refine ⟨skipped, ?_, ?_⟩
  · rw [hsource, hskipped, ← happend]
    simp
  · rw [hstop, hp, Position.advance_append]

/-- A gap and the token behind it, read before a trace, make it longer. -/
theorem Trace.cons_of_read? {source before cs : List Char} {p : Position} {x : Context}
    {l : Lexeme} {tokens : List Token} {later : List Comment} (hsource : source = before ++ cs)
    (hp : p = Position.advance {} before) (hread : x.read? (Gap.read p cs).rest = some l)
    (h : Trace source (tokenOf l (Gap.read p cs).stop).span.stop.offset tokens later) :
    Trace source p.offset (tokenOf l (Gap.read p cs).stop :: tokens)
      ((Gap.read p cs).comments ++ later) := by
  obtain ⟨_, -, hstop, hordered, hfirm⟩ := Gap.read_spec hsource hp
  obtain ⟨-, hne⟩ := Context.append_of_read? hread
  have hspells := Context.spells_of_read? hread
  obtain ⟨skipped, hsplit, hstart⟩ := exists_split_of_read? hsource hp hread
  have hfront : p.offset ≤ (Gap.read p cs).stop.offset := by
    rw [hstop, Position.offset_advance]
    exact Nat.le_add_right _ _
  have hlength := List.length_pos_iff.2 hne
  have hend : (tokenOf l (Gap.read p cs).stop).span.stop.offset =
      (Gap.read p cs).stop.offset + l.text.length := by simp [tokenOf]
  apply h.cons hordered hfirm
  · simpa [tokenOf] using hspells
  · intro hsolid
    rw [hsplit]
    simp only [tokenOf, hstart]
    exact Kind.firm_of_spells hsolid hspells hne
  · exact hfront
  · rw [hend]
    simp only [tokenOf]
    omega
  · rw [hend, hstart, hsplit]
    simp only [Position.offset_advance, List.length_append]
    omega

/-- Reading a text to its end leaves a trace of the text, and its tokens lead from the state to one
in which the text may end. -/
theorem exists_trace_of_run {source before cs : List Char} {s : State} {comments : List Comment}
    {last p : Position} {schema : Schema String}
    (hrun : run source s comments last p cs = .ok schema) (hsource : source = before ++ cs)
    (hp : p = Position.advance {} before) :
    ∃ tokens later s', Trace source p.offset tokens later ∧
      schema.comments = comments.reverse ++ later ∧ tokens.foldlM State.next? s = some s' ∧
      s'.complete? = some schema.items := by
  fun_induction run source s comments last p cs generalizing before with
  | case1 =>
    rename_i s comments _ p cs gap comments' hrest items hcomplete
    obtain ⟨skipped, hskipped, hstop, hordered, hfirm⟩ := Gap.read_spec hsource hp
    cases hrun
    have hbound : gap.stop.offset ≤ source.length := by
      have hlength := congrArg List.length hskipped
      rw [show gap.stop = p.advance skipped from hstop, hp, hsource]
      simp only [Position.offset_advance, List.length_append] at hlength ⊢
      omega
    exact ⟨[], gap.comments, s, .of_gap hordered hfirm hbound, by simp [comments'], rfl, hcomplete⟩
  | case2 => cases hrun
  | case3 => cases hrun
  | case4 => cases hrun
  | case5 =>
    rename_i s comments _ p cs gap comments' d ds hrest l hread t s' hnext ih
    have hread : s.context.read? (Gap.read p cs).rest = some l := by
      rw [show (Gap.read p cs).rest = d :: ds from hrest]
      exact hread
    obtain ⟨skipped, hsplit, hstart⟩ := exists_split_of_read? hsource hp hread
    have hstop : t.span.stop = Position.advance {} (before ++ skipped ++ l.text) := by
      rw [Position.advance_append, ← hstart]
      rfl
    obtain ⟨tokens, later, final, htrace, hcomments, htokens, hcomplete⟩ := ih hrun hsplit hstop
    refine ⟨t :: tokens, gap.comments ++ later, final, htrace.cons_of_read? hsource hp hread, ?_, ?_,
      hcomplete⟩
    · rw [hcomments]
      simp [comments']
    · rw [List.foldlM_cons, hnext]
      exact htokens

/-- A text that is a schema has a trace, and the schema's items are what the tokens of the trace
make of the first state. -/
theorem exists_trace {source : List Char} {schema : Schema String}
    (h : parseLiterals source = .ok schema) :
    ∃ tokens s, Trace source 0 tokens schema.comments ∧
      tokens.foldlM State.next? {} = some s ∧ s.complete? = some schema.items := by
  obtain ⟨tokens, later, s, htrace, hcomments, htokens, hcomplete⟩ :=
    exists_trace_of_run h (List.nil_append source).symm rfl
  rw [show schema.comments = later by simpa using hcomments]
  exact ⟨tokens, s, htrace, htokens, hcomplete⟩

end SchemaEnums.Schema
