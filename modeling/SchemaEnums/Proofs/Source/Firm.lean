import SchemaEnums.Proofs.Source.Place
import SchemaEnums.Source.Gap

namespace SchemaEnums.Source

/-- The stretch begins with a solid character and has one on its last line. -/
structure Span.Firm (span : Span) (source : List Char) : Prop where
  solid_start : span.start.Solid source
  inText_stop : span.stop.InText source
  exists_last : ∃ q : Position, q.Solid source ∧ span.start.offset ≤ q.offset ∧
    q.offset < span.stop.offset ∧ q.line = span.stop.line

theorem Span.Firm.offset_lt {span : Span} {source : List Char} (h : span.Firm source) :
    span.start.offset < span.stop.offset := by
  obtain ⟨q, -, hle, hlt, -⟩ := h.exists_last
  omega

namespace Span.Firm

variable {a b : Span} {p : Position} {source : List Char}

theorem line_le (h : a.Firm source) : a.start.line ≤ a.stop.line :=
  h.solid_start.1.line_mono h.inText_stop (Nat.le_of_lt h.offset_lt)

/-- What stands before a place that begins its line ends on an earlier line. -/
theorem line_lt_of_beginsLine (h : a.Firm source) (hp : p.InText source)
    (hle : a.stop.offset ≤ p.offset) (hbegins : Schema.beginsLine source p.offset = true) :
    a.stop.line < p.line := by
  obtain ⟨q, hq, -, hlt, hline⟩ := h.exists_last
  rw [← hline]
  exact (beginsLine_iff hp).1 hbegins q hq (by omega)

/-- What stands behind a stretch that ends its line begins on a later line. -/
theorem line_lt_of_endsLine (h : a.Firm source) (hp : p.Solid source)
    (hle : a.stop.offset ≤ p.offset) (hends : endsLine source a.stop.offset = true) :
    a.stop.line < p.line :=
  (endsLine_iff h.inText_stop).1 hends p hp hle

end Span.Firm

/-- A piece of text with a solid first character is firm if no line feed follows its last solid
one. -/
theorem Span.firm_of_append {before front back after : List Char} {c d : Char}
    (hfirst : (front ++ d :: back).head? = some c) (hc : Text.isBlank c = false)
    (hd : Text.isBlank d = false) (hback : '\n' ∉ back) :
    Span.Firm { start := Position.advance {} before
                stop := (Position.advance {} before).advance (front ++ d :: back) }
      (before ++ (front ++ d :: back) ++ after) := by
  have hoffset : (Position.advance {} before).offset = before.length := by simp
  refine ⟨⟨?_, c, ?_, hc⟩, ?_, Position.advance {} (before ++ front), ⟨?_, d, ?_, hd⟩, ?_, ?_, ?_⟩
  · rw [List.append_assoc]
    exact Position.InText.of_append
  · rw [hoffset, List.append_assoc, List.getElem?_append_right (by omega), Nat.sub_self,
      ← List.head?_eq_getElem?, List.head?_append, hfirst]
    rfl
  · rw [← Position.advance_append]
    exact Position.InText.of_append
  · rw [show before ++ (front ++ d :: back) ++ after = before ++ front ++ (d :: back ++ after) by simp]
    exact Position.InText.of_append
  · simp
  · simp
  · simp only [Position.offset_advance, List.length_append, List.length_cons]
    omega
  · have hne : d ≠ '\n' := by
      rintro rfl
      exact absurd hd (by decide)
    simp [Position.line_advance, List.count_eq_zero.2 hback, hne]
    omega

namespace Comment

theorem exists_body_of_splitBlock? {cs body rest : List Char}
    (h : splitBlock? cs = some (body, rest)) : ∃ front, body = front ++ ['*', '/'] := by
  fun_induction splitBlock? cs generalizing body rest with
  | case1 => simp at h
  | case2 cs =>
    simp only [Option.some.injEq, Prod.mk.injEq] at h
    exact ⟨[], h.1.symm⟩
  | case3 c cs _ ih =>
    obtain ⟨⟨b, r⟩, hsplit, heq⟩ := Option.map_eq_some_iff.1 h
    simp only [Prod.mk.injEq] at heq
    obtain ⟨front, rfl⟩ := ih hsplit
    exact ⟨c :: front, heq.1.symm⟩

/-- A comment begins with a slash, and no line feed follows its last solid character. -/
theorem shape_of_split? {cs text rest : List Char} {kind : Kind}
    (h : split? cs = some (kind, text, rest)) :
    text.head? = some '/' ∧ ∃ front back, text = front ++ '/' :: back ∧ '\n' ∉ back := by
  unfold split? at h
  split at h
  · simp only [Option.some.injEq, Prod.mk.injEq] at h
    obtain ⟨-, rfl, -⟩ := h
    exact ⟨rfl, [], _, rfl, by simp [newline_not_mem_takeWhile]⟩
  · obtain ⟨⟨b, r⟩, hsplit, heq⟩ := Option.map_eq_some_iff.1 h
    simp only [Prod.mk.injEq] at heq
    obtain ⟨-, rfl, -⟩ := heq
    obtain ⟨front, rfl⟩ := exists_body_of_splitBlock? hsplit
    exact ⟨rfl, '/' :: '*' :: front ++ ['*'], [], by simp, by simp⟩
  · simp at h

/-- A comment read at a place of a text is firm there. -/
theorem firm_of_split? {before cs text rest : List Char} {kind : Kind}
    (h : split? cs = some (kind, text, rest)) :
    Span.Firm { start := Position.advance {} before
                stop := (Position.advance {} before).advance text } (before ++ cs) := by
  obtain ⟨hhead, front, back, htext, hback⟩ := shape_of_split? h
  rw [← append_of_split? h, ← List.append_assoc]
  subst htext
  exact Span.firm_of_append hhead (by decide) (by decide) hback

end Comment

/-- The stretches stand one after the other, the first not before `lo` and the last not behind
`hi`. -/
structure Ordered {α : Type} (span : α → Span) (lo hi : Nat) (xs : List α) : Prop where
  le_of_mem : ∀ x ∈ xs, lo ≤ (span x).start.offset ∧ (span x).stop.offset ≤ hi
  pairwise : xs.Pairwise fun x y => (span x).stop.offset ≤ (span y).start.offset

namespace Ordered

variable {α : Type} {span : α → Span} {lo mid hi : Nat} {xs ys : List α} {x : α}

theorem nil : Ordered span lo hi [] :=
  ⟨by simp, .nil⟩

theorem mono {lo' hi' : Nat} (h : Ordered span lo hi xs) (hlo : lo' ≤ lo) (hhi : hi ≤ hi') :
    Ordered span lo' hi' xs := by
  refine ⟨fun x hx => ?_, h.pairwise⟩
  obtain ⟨h₁, h₂⟩ := h.le_of_mem x hx
  omega

theorem append (hxs : Ordered span lo mid xs) (hys : Ordered span mid hi ys) (hlo : lo ≤ mid)
    (hhi : mid ≤ hi) : Ordered span lo hi (xs ++ ys) := by
  refine ⟨fun x hx => ?_, List.pairwise_append.2 ⟨hxs.pairwise, hys.pairwise, fun x hx y hy => ?_⟩⟩
  · rcases List.mem_append.1 hx with hx | hx
    · have := hxs.le_of_mem x hx
      omega
    · have := hys.le_of_mem x hx
      omega
  · have hx := (hxs.le_of_mem x hx).2
    have hy := (hys.le_of_mem y hy).1
    omega

theorem singleton (hlo : lo ≤ (span x).start.offset) (hhi : (span x).stop.offset ≤ hi) :
    Ordered span lo hi [x] :=
  ⟨by simp [hlo, hhi], by simp⟩

theorem tail (h : Ordered span lo hi (x :: xs)) : Ordered span (span x).stop.offset hi xs := by
  obtain ⟨hfirst, hrest⟩ := List.pairwise_cons.1 h.pairwise
  exact ⟨fun y hy => ⟨hfirst y hy, (h.le_of_mem y (List.mem_cons_of_mem x hy)).2⟩, hrest⟩

/-- Of two different stretches one stands before the other. -/
theorem total {y : α} (h : Ordered span lo hi xs) (hx : x ∈ xs) (hy : y ∈ xs) :
    x = y ∨ (span x).stop.offset ≤ (span y).start.offset ∨
      (span y).stop.offset ≤ (span x).start.offset := by
  induction xs generalizing lo with
  | nil => cases hx
  | cons z xs ih =>
    obtain ⟨hfirst, -⟩ := List.pairwise_cons.1 h.pairwise
    rcases List.mem_cons.1 hx with rfl | hxs
    · rcases List.mem_cons.1 hy with rfl | hys
      · exact .inl rfl
      · exact .inr (.inl (hfirst y hys))
    · rcases List.mem_cons.1 hy with rfl | hys
      · exact .inr (.inr (hfirst x hxs))
      · exact ih h.tail hxs hys

/-- All stretches stand behind the beginning of the first one. -/
theorem raise (h : Ordered span lo hi (x :: xs))
    (hle : (span x).start.offset ≤ (span x).stop.offset) :
    Ordered span (span x).start.offset hi (x :: xs) := by
  refine ⟨fun y hy => ⟨?_, (h.le_of_mem y hy).2⟩, h.pairwise⟩
  rcases List.mem_cons.1 hy with rfl | hy
  · exact Nat.le_refl _
  · exact Nat.le_trans hle (h.tail.le_of_mem y hy).1

end Ordered

namespace Gap

/-- A gap is a beginning of the text, and its comments stand in it in order. -/
theorem read_spec {source before cs : List Char} {p : Position} (hsource : source = before ++ cs)
    (hp : p = Position.advance {} before) :
    ∃ skipped, cs = skipped ++ (read p cs).rest ∧ (read p cs).stop = p.advance skipped ∧
      Ordered Comment.span p.offset (read p cs).stop.offset (read p cs).comments ∧
      ∀ c ∈ (read p cs).comments, c.span.Firm source := by
  fun_induction read p cs generalizing before with
  | case1 p => exact ⟨[], rfl, rfl, .nil, by simp⟩
  | case2 p c ds hspace ih =>
    obtain ⟨skipped, hskipped, hstop, hordered, hfirm⟩ :=
      @ih (before ++ [c]) (by simp [hsource]) (by simp [hp, Position.advance_append])
    exact ⟨c :: skipped, by rw [List.cons_append, ← hskipped], hstop,
      hordered.mono (by simp) (Nat.le_refl _), hfirm⟩
  | case3 p c ds => exact ⟨[], rfl, rfl, .nil, by simp⟩
  | case4 p c ds hspace kind text rest hsplit q gap comment =>
    rename_i ih
    have happend := Comment.append_of_split? hsplit
    obtain ⟨skipped, hskipped, hstop, hordered, hfirm⟩ :=
      @ih (before ++ text) (by rw [hsource, ← happend, List.append_assoc])
        (by simp only [q, hp, Position.advance_append])
    have hle : q.offset ≤ (read q rest).stop.offset := by
      have := Position.offset_advance q skipped
      rw [hstop]
      omega
    have hpq : p.offset ≤ q.offset := by
      have : q.offset = p.offset + text.length := Position.offset_advance p text
      omega
    refine ⟨text ++ skipped, ?_, ?_, ?_, ?_⟩
    · rw [List.append_assoc, ← hskipped, happend]
    · rw [Position.advance_append]
      exact hstop
    · exact (Ordered.singleton (x := comment) (Nat.le_refl _) (Nat.le_refl _)).append hordered hpq hle
    · intro c hc
      rcases List.mem_cons.1 hc with rfl | hc
      · rw [hsource]
        subst hp
        exact Comment.firm_of_split? hsplit
      · exact hfirm c hc

end Gap

end SchemaEnums.Source
