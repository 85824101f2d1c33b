import Mathlib.Data.List.Infix
import SchemaEnums.Proofs.Layout.Reading
import SchemaEnums.Proofs.Source.Reread

namespace SchemaEnums.Spacing

open Source Schema

/-- A blank, or a comment together with what ends it: the line feed of a line comment, the closing
mark of a block comment. -/
inductive Filler where
  | blank (c : Char) (hc : Gap.isSpace c = true)
  | lineComment (body : List Char) (hbody : '\n' ∉ body)
  | blockComment (body : List Char) (hbody : ¬ ['*', '/'] <:+: body)

namespace Filler

def chars : Filler → List Char
  | blank c _ => [c]
  | lineComment body _ => '/' :: '/' :: body ++ ['\n']
  | blockComment body _ => '/' :: '*' :: body ++ ['*', '/']

/-- The comment with the given text that begins at `p`. -/
def commentAt (p : Position) (kind : Comment.Kind) (text : List Char) : Comment :=
  { kind, text := String.ofList text, span := { start := p, stop := p.advance text } }

/-- The comments of the filler if it stands at `p`. A line comment stops before its line feed. -/
def comments (p : Position) : Filler → List Comment
  | blank _ _ => []
  | lineComment body _ => [commentAt p .line ('/' :: '/' :: body)]
  | blockComment body _ => [commentAt p .block ('/' :: '*' :: body ++ ['*', '/'])]

/-- The text of fillers that stand side by side. -/
def text (fs : List Filler) : List Char :=
  fs.flatMap chars

theorem text_append (fs gs : List Filler) : text (fs ++ gs) = text fs ++ text gs :=
  List.flatMap_append

/-- The comments of fillers that stand side by side from `p` on. -/
def commentsFrom (p : Position) : List Filler → List Comment
  | [] => []
  | f :: fs => f.comments p ++ commentsFrom (p.advance f.chars) fs

end Filler

/-- At least one filler, so that what stands on both sides is kept apart. -/
structure Separator where
  fillers : List Filler
  ne_nil : fillers ≠ []

namespace Separator

def text (g : Separator) : List Char :=
  Filler.text g.fillers

def comments (g : Separator) (p : Position) : List Comment :=
  Filler.commentsFrom p g.fillers

end Separator

section

variable {c : Char} {body cs : List Char}

/-- A block comment ends with its first closing mark, and a star before the mark is no half of it. -/
theorem splitBlock?_append (hbody : ¬ ['*', '/'] <:+: body) (cs : List Char) :
    Comment.splitBlock? (body ++ '*' :: '/' :: cs) = some (body ++ ['*', '/'], cs) := by
  induction body with
  | nil => rfl
  | cons c body ih =>
    rw [List.infix_cons_iff, not_or] at hbody
    have hmark (ds : List Char) : c = '*' → body ++ '*' :: '/' :: cs ≠ '/' :: ds := by
      rintro rfl heq
      cases body with
      | nil => cases heq
      | cons d body =>
        obtain rfl : d = '/' := (List.cons.inj heq).1
        exact hbody.1 (by simp)
    rw [List.cons_append, Comment.splitBlock?.eq_3, ih hbody.2]
    · rfl
    · exact hmark

theorem split?_block (hbody : ¬ ['*', '/'] <:+: body) (cs : List Char) :
    Comment.split? ('/' :: '*' :: body ++ '*' :: '/' :: cs) =
      some (.block, '/' :: '*' :: body ++ ['*', '/'], cs) := by
  rw [List.cons_append, List.cons_append, Comment.split?, splitBlock?_append hbody]
  rfl

theorem isBreak_of_isSpace (hc : Gap.isSpace c = true) : Lexeme.IsBreak c := by
  have hall : c ∈ [' ', '\t', '\x0c', '\r', '\n'] := by
    simpa [Gap.isSpace, or_assoc] using hc
  simp only [List.mem_cons, List.not_mem_nil, or_false] at hall
  obtain rfl | rfl | rfl | rfl | rfl := hall
  all_goals exact ⟨by decide, by decide⟩

/-- No name and no number goes on with a filler. -/
theorem Filler.exists_cons (f : Filler) : ∃ c cs, f.chars = c :: cs ∧ Lexeme.IsBreak c := by
  cases f with
  | blank c hc => exact ⟨c, [], rfl, isBreak_of_isSpace hc⟩
  | lineComment body _ => exact ⟨'/', '/' :: body ++ ['\n'], rfl, ⟨by decide, by decide⟩⟩
  | blockComment body _ => exact ⟨'/', '*' :: body ++ ['*', '/'], rfl, ⟨by decide, by decide⟩⟩

theorem Separator.exists_cons (g : Separator) :
    ∃ c cs, g.text = c :: cs ∧ Lexeme.IsBreak c := by
  obtain ⟨f, fs, hfs⟩ := List.exists_cons_of_ne_nil g.ne_nil
  obtain ⟨c, cs, hf, hc⟩ := f.exists_cons
  exact ⟨c, cs ++ Filler.text fs, by simp [text, hfs, Filler.text, hf], hc⟩

end

section

variable {source : List Char} {s : State} {comments : List Comment} {last p : Position}
  {cs : List Char}

theorem run_filler (f : Filler) :
    run source s comments last p (f.chars ++ cs) =
      run source s ((f.comments p).reverse ++ comments) last (p.advance f.chars) cs := by
  cases f with
  | blank c hc => exact run_space hc
  | lineComment body hbody =>
    rw [Filler.chars, List.append_assoc, List.singleton_append, run_comment hbody,
      run_space (by decide), Position.advance_append]
    rfl
  | blockComment body hbody =>
    rw [Filler.chars, List.append_assoc]
    exact run_split (split?_block hbody cs)

/-- The parser passes over fillers and puts their comments down. -/
theorem run_fillers (fs : List Filler) :
    run source s comments last p (Filler.text fs ++ cs) =
      run source s ((Filler.commentsFrom p fs).reverse ++ comments) last
        (p.advance (Filler.text fs)) cs := by
  induction fs generalizing comments p with
  | nil => rfl
  | cons f fs ih =>
    have htext : Filler.text (f :: fs) = f.chars ++ Filler.text fs := rfl
    rw [htext, List.append_assoc, run_filler, ih, Position.advance_append, Filler.commentsFrom,
      List.reverse_append, List.append_assoc]

theorem run_separator (g : Separator) :
    run source s comments last p (g.text ++ cs) =
      run source s ((g.comments p).reverse ++ comments) last (p.advance g.text) cs :=
  run_fillers g.fillers

end

section

variable {cs body rest t : List Char} {kind : Comment.Kind} {p : Position}

/-- The mark that ends a block comment is the first one. -/
theorem not_infix_of_splitBlock? (h : Comment.splitBlock? cs = some (body ++ ['*', '/'], rest)) :
    ¬ ['*', '/'] <:+: body := by
  fun_induction Comment.splitBlock? cs generalizing body with
  | case1 => cases h
  | case2 cs =>
    have hlength := congrArg List.length (Prod.mk.inj (Option.some.inj h)).1
    obtain rfl : body = [] := List.length_eq_zero_iff.1 (by simpa using hlength.symm)
    simp
  | case3 c cs hmark ih =>
    obtain ⟨⟨b, r⟩, hb, heq⟩ := Option.map_eq_some_iff.1 h
    have happend := Comment.append_of_splitBlock? hb
    obtain ⟨front, rfl⟩ := Comment.exists_body_of_splitBlock? hb
    obtain ⟨hbody, rfl⟩ := Prod.mk.inj heq
    obtain rfl : body = c :: front := (List.append_cancel_right hbody).symm
    rw [List.infix_cons_iff, not_or]
    refine ⟨fun hprefix => ?_, ih hb⟩
    obtain ⟨ds, hds⟩ := hprefix
    obtain ⟨rfl, hfront⟩ := List.cons.inj hds
    exact hmark (ds ++ ['*', '/'] ++ r) rfl (by rw [← happend, ← hfront]; simp)

/-- A comment is a filler, but for a line comment that nothing follows. -/
theorem exists_filler_of_split? (h : Comment.split? cs = some (kind, t, rest)) :
    rest = [] ∨ ∃ (f : Filler) (rest' : List Char), cs = f.chars ++ rest' ∧ ∀ p,
      (Gap.read p cs).rest = (Gap.read (p.advance f.chars) rest').rest ∧
        (Gap.read p cs).stop = (Gap.read (p.advance f.chars) rest').stop := by
  have happend := Comment.append_of_split? h
  have hread := read_of_split? h
  unfold Comment.split? at h
  split at h
  next cs =>
    cases h
    cases hrest : cs.dropWhile (· != '\n') with
    | nil => exact .inl rfl
    | cons c rest' =>
      have hhead := List.head?_dropWhile_not (· != '\n') cs
      rw [hrest] at hhead happend hread
      obtain rfl : c = '\n' := by simpa using hhead
      have hbreak (q : Position) : Gap.read q ('\n' :: rest') = Gap.read (q.next '\n') rest' := by
        rw [Gap.read, if_pos (by decide)]
      refine .inr ⟨.lineComment _ (newline_not_mem_takeWhile cs), rest', ?_, fun p => ?_⟩
      · rw [← happend]
        simp [Filler.chars]
      · rw [hread, Filler.chars, Position.advance_append, hbreak]
        exact ⟨rfl, rfl⟩
  next cs =>
    obtain ⟨⟨b, r⟩, hb, heq⟩ := Option.map_eq_some_iff.1 h
    obtain ⟨front, rfl⟩ := Comment.exists_body_of_splitBlock? hb
    cases heq
    refine .inr ⟨.blockComment front (not_infix_of_splitBlock? hb), rest, ?_, fun p => ?_⟩
    · rw [← happend]
      rfl
    · rw [hread]
      exact ⟨rfl, rfl⟩
  next => cases h

theorem exists_fillers {c : Char} {ds : List Char} (p : Position) (cs : List Char)
    (h : (Gap.read p cs).rest = c :: ds) :
    ∃ fs, cs = Filler.text fs ++ c :: ds ∧ (Gap.read p cs).stop = p.advance (Filler.text fs) := by
  cases cs with
  | nil =>
    rw [Gap.read] at h
    cases h
  | cons d cs =>
    by_cases hspace : Gap.isSpace d = true
    · have hread : Gap.read p (d :: cs) = Gap.read (p.next d) cs := by rw [Gap.read, if_pos hspace]
      rw [hread] at h ⊢
      obtain ⟨fs, hfs, hstop⟩ := exists_fillers (p.next d) cs h
      exact ⟨.blank d hspace :: fs, congrArg (d :: ·) hfs, hstop⟩
    cases hsplit : Comment.split? (d :: cs) with
    | none =>
      have hread : Gap.read p (d :: cs) = { comments := [], stop := p, rest := d :: cs } := by
        rw [Gap.read, if_neg hspace]
        split
        · rfl
        next heq =>
          rw [hsplit] at heq
          cases heq
      rw [hread] at h ⊢
      exact ⟨[], h, rfl⟩
    | some comment =>
      obtain ⟨kind, t, rest⟩ := comment
      obtain rfl | ⟨f, rest', hcs, hread⟩ := exists_filler_of_split? hsplit
      · rw [read_of_split? hsplit, Gap.read] at h
        cases h
      · have hshorter : rest'.length < (d :: cs).length := by
          obtain ⟨e, es, hf, -⟩ := f.exists_cons
          rw [hcs, hf]
          simp only [List.cons_append, List.length_cons, List.length_append]
          omega
        rw [(hread p).1] at h
        obtain ⟨fs, hfs, hstop⟩ := exists_fillers (p.advance f.chars) rest' h
        refine ⟨f :: fs, ?_, ?_⟩
        · rw [hcs, hfs, ← List.append_assoc]
          rfl
        · rw [(hread p).2, hstop, ← Position.advance_append]
          rfl
termination_by cs.length

theorem rest_read_congr (p q : Position) (cs : List Char) :
    (Gap.read p cs).rest = (Gap.read q cs).rest := by
  fun_induction Gap.read p cs generalizing q with
  | case1 => rw [Gap.read]
  | case2 p c ds hspace ih =>
    rw [Gap.read, if_pos hspace]
    exact ih _
  | case3 p c ds hspace hsplit =>
    rw [Gap.read, if_neg hspace]
    split
    · rfl
    next heq =>
      rw [hsplit] at heq
      cases heq
  | case4 p c ds hspace kind t rest hsplit stop gap comment ih =>
    rw [read_of_split? hsplit]
    exact ih _

theorem rest_read_space {c : Char} (hc : Gap.isSpace c = true) (p : Position) (cs : List Char) :
    (Gap.read p (c :: cs)).rest = (Gap.read p cs).rest := by
  rw [Gap.read, if_pos hc]
  exact rest_read_congr _ _ cs

theorem rest_read_filler (f : Filler) (p : Position) (cs : List Char) :
    (Gap.read p (f.chars ++ cs)).rest = (Gap.read p cs).rest := by
  cases f with
  | blank c hc => exact rest_read_space hc p cs
  | lineComment body hbody =>
    rw [Filler.chars, List.append_assoc, List.singleton_append]
    refine (congrArg Gap.rest (read_of_split? (split?_line hbody cs) p)).trans ?_
    exact (rest_read_space (by decide) _ cs).trans (rest_read_congr _ _ cs)
  | blockComment body hbody =>
    rw [Filler.chars, List.append_assoc]
    refine (congrArg Gap.rest (read_of_split? (split?_block hbody cs) p)).trans ?_
    exact rest_read_congr _ _ cs

theorem rest_read_fillers (fs : List Filler) (p : Position) (cs : List Char) :
    (Gap.read p (Filler.text fs ++ cs)).rest = (Gap.read p cs).rest := by
  induction fs with
  | nil => rfl
  | cons f fs ih =>
    have htext : Filler.text (f :: fs) ++ cs = f.chars ++ (Filler.text fs ++ cs) := by
      simp [Filler.text]
    rw [htext, rest_read_filler, ih]

end

end SchemaEnums.Spacing
