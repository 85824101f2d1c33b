import Mathlib.Data.List.TakeWhile
import SchemaEnums.Schema.Attachment

namespace SchemaEnums.Source

theorem Position.line_next (p : Position) (c : Char) :
    (p.next c).line = p.line + [c].count '\n' := by
  unfold Position.next
  by_cases h : c = '\n'
  · simp [h]
  · simp [h]

theorem Position.line_advance (p : Position) (cs : List Char) :
    (p.advance cs).line = p.line + cs.count '\n' := by
  induction cs generalizing p with
  | nil => simp
  | cons c cs ih =>
    rw [Position.advance_cons, ih, Position.line_next, Nat.add_assoc, ← List.count_append]
    rfl

theorem Position.line_advance_of_not_mem (p : Position) {cs : List Char} (h : '\n' ∉ cs) :
    (p.advance cs).line = p.line := by
  rw [Position.line_advance, List.count_eq_zero.2 h, Nat.add_zero]

/-- The position belongs to the text: it is where the text has got to at its offset. -/
def Position.InText (p : Position) (source : List Char) : Prop :=
  p = Position.advance {} (source.take p.offset)

namespace Position.InText

variable {source : List Char} {p q : Position}

/-- The position behind a beginning of a text belongs to the text. -/
theorem of_append {before after : List Char} :
    (Position.advance {} before).InText (before ++ after) := by
  simp [Position.InText]

theorem line_eq (h : p.InText source) : p.line = 1 + (source.take p.offset).count '\n' := by
  have hline := congrArg Position.line h
  rwa [Position.line_advance] at hline

/-- Later positions stand on later lines, or on the same one. -/
theorem line_mono (hp : p.InText source) (hq : q.InText source) (h : p.offset ≤ q.offset) :
    p.line ≤ q.line := by
  rw [hp.line_eq, hq.line_eq]
  have hprefix : source.take p.offset <+: source.take q.offset := List.take_prefix_take_left h
  have := hprefix.sublist.count_le '\n'
  omega

end Position.InText

/-- The position belongs to the text, and the character there is no blank. -/
def Position.Solid (p : Position) (source : List Char) : Prop :=
  p.InText source ∧ ∃ c, source[p.offset]? = some c ∧ Text.isBlank c = false

namespace Position

variable {source : List Char} {p : Position}

/-- A position of a text stands between a beginning and the rest of it. -/
theorem InText.exists_append (h : p.InText source) :
    ∃ before after, source = before ++ after ∧ p = advance {} before :=
  ⟨source.take p.offset, source.drop p.offset, (List.take_append_drop _ _).symm, h⟩

/-- A solid position stands before a character that is no blank. -/
theorem solid_iff_append : p.Solid source ↔ ∃ before c after, source = before ++ c :: after ∧
    p = advance {} before ∧ Text.isBlank c = false := by
  constructor
  · rintro ⟨hp, c, hc, hblank⟩
    obtain ⟨before, after, rfl, rfl⟩ := hp.exists_append
    rw [offset_advance, List.getElem?_append_right (by simp)] at hc
    cases after with
    | nil => simp at hc
    | cons d after =>
      obtain rfl : d = c := by simpa using hc
      exact ⟨before, d, after, rfl, rfl, hblank⟩
  · rintro ⟨before, c, after, rfl, rfl, hblank⟩
    exact ⟨InText.of_append, c, by simp, hblank⟩

end Position

theorem newline_not_mem_takeWhile (cs : List Char) : '\n' ∉ cs.takeWhile (· != '\n') := by
  intro h
  simpa using List.mem_takeWhile_imp h

/-- What stands before the first line feed. -/
theorem mem_takeWhile_iff {c : Char} {cs : List Char} : c ∈ cs.takeWhile (· != '\n') ↔
    c ≠ '\n' ∧ ∃ front back, cs = front ++ c :: back ∧ '\n' ∉ front := by
  constructor
  · intro h
    obtain ⟨front, back, hsplit⟩ := List.append_of_mem h
    have hnone := newline_not_mem_takeWhile cs
    rw [hsplit, List.mem_append, List.mem_cons, not_or, not_or] at hnone
    refine ⟨Ne.symm hnone.2.1, front, back ++ cs.dropWhile (· != '\n'), ?_, hnone.1⟩
    rw [← List.cons_append, ← List.append_assoc, ← hsplit, List.takeWhile_append_dropWhile]
  · rintro ⟨hc, front, back, rfl, hfront⟩
    have hall : ∀ d ∈ front ++ [c], (d != '\n') = true := by
      intro d hd
      rw [bne_iff_ne]
      rintro rfl
      simp [hfront, Ne.symm hc] at hd
    rw [← List.singleton_append, ← List.append_assoc, List.takeWhile_append_of_pos hall]
    simp

/-- A place begins its line if all that is solid before it stands on earlier lines. -/
theorem beginsLine_iff {source : List Char} {q : Position} (hq : q.InText source) :
    Schema.beginsLine source q.offset = true ↔
      ∀ p : Position, p.Solid source → p.offset < q.offset → p.line < q.line := by
  obtain ⟨before, after, rfl, rfl⟩ := hq.exists_append
  have htake : (before ++ after).take (Position.advance {} before).offset = before := by simp
  rw [Schema.beginsLine, htake, List.all_eq_true]
  constructor
  · intro hall p hp hlt
    obtain ⟨front, c, back, hsplit, rfl, hblank⟩ := Position.solid_iff_append.1 hp
    have hlength : front.length < before.length := by simpa using hlt
    obtain ⟨mid, rfl⟩ : ∃ mid, before = front ++ c :: mid := by
      rcases List.append_eq_append_iff.1 hsplit with ⟨mid, rfl, -⟩ | ⟨mid, rfl, hmid⟩
      · rw [List.length_append] at hlength
        omega
      · cases mid with
        | nil => simp at hlength
        | cons d mid => exact ⟨mid, by rw [(List.cons.inj hmid).1]⟩
    by_contra hnot
    rw [Position.advance_append, Position.line_advance _ (c :: mid)] at hnot
    have hmid : '\n' ∉ c :: mid := List.count_eq_zero.1 (by omega)
    rw [List.mem_cons, not_or] at hmid
    have hmem : c ∈ (front ++ c :: mid).reverse.takeWhile (· != '\n') :=
      mem_takeWhile_iff.2 ⟨Ne.symm hmid.1, mid.reverse, front.reverse, by simp, by simp [hmid.2]⟩
    rw [hall c hmem] at hblank
    cases hblank
  · intro hsolid c hc
    obtain ⟨hne, mid, front, hsplit, hmid⟩ := mem_takeWhile_iff.1 hc
    obtain rfl : before = front.reverse ++ c :: mid.reverse := by
      rw [← List.reverse_reverse before, hsplit]
      simp
    by_contra hblank
    have hp : (Position.advance {} front.reverse).Solid (front.reverse ++ c :: mid.reverse ++ after) :=
      Position.solid_iff_append.2
        ⟨front.reverse, c, mid.reverse ++ after, by simp, rfl, by simpa using hblank⟩
    have hlt := hsolid _ hp (by simp)
    have hnone : '\n' ∉ c :: mid.reverse := by simp [hmid, Ne.symm hne]
    rw [Position.advance_append, Position.line_advance_of_not_mem _ hnone] at hlt
    omega

/-- Holds if only blanks stand between the place at the offset and the end of its line. -/
def endsLine (source : List Char) (offset : Nat) : Bool :=
  ((source.drop offset).takeWhile (· != '\n')).all Text.isBlank

/-- A place ends its line if all that is solid from there on stands on later lines. -/
theorem endsLine_iff {source : List Char} {q : Position} (hq : q.InText source) :
    endsLine source q.offset = true ↔
      ∀ p : Position, p.Solid source → q.offset ≤ p.offset → q.line < p.line := by
  obtain ⟨before, after, rfl, rfl⟩ := hq.exists_append
  have hdrop : (before ++ after).drop (Position.advance {} before).offset = after := by simp
  rw [endsLine, hdrop, List.all_eq_true]
  constructor
  · intro hall p hp hle
    obtain ⟨front, c, back, hsplit, rfl, hblank⟩ := Position.solid_iff_append.1 hp
    have hlength : before.length ≤ front.length := by simpa using hle
    obtain ⟨mid, rfl⟩ : ∃ mid, front = before ++ mid := by
      rcases List.append_eq_append_iff.1 hsplit with ⟨mid, hmid, -⟩ | ⟨mid, rfl, -⟩
      · exact ⟨mid, hmid⟩
      · rw [List.length_append] at hlength
        have hnil : mid = [] := List.length_eq_zero_iff.1 (by omega)
        exact ⟨[], by rw [hnil, List.append_nil, List.append_nil]⟩
    rw [List.append_assoc, List.append_cancel_left_eq] at hsplit
    by_contra hnot
    rw [Position.advance_append, Position.line_advance _ mid] at hnot
    have hmid : '\n' ∉ mid := List.count_eq_zero.1 (by omega)
    have hne : c ≠ '\n' := by
      rintro rfl
      cases hblank
    rw [hall c (mem_takeWhile_iff.2 ⟨hne, mid, back, hsplit, hmid⟩)] at hblank
    cases hblank
  · intro hsolid c hc
    obtain ⟨-, mid, back, rfl, hmid⟩ := mem_takeWhile_iff.1 hc
    by_contra hblank
    have hp : (Position.advance {} (before ++ mid)).Solid (before ++ (mid ++ c :: back)) :=
      Position.solid_iff_append.2 ⟨before ++ mid, c, back, by simp, rfl, by simpa using hblank⟩
    have hlt := hsolid _ hp (by simp)
    rw [Position.advance_append, Position.line_advance_of_not_mem _ hmid] at hlt
    omega

end SchemaEnums.Source
