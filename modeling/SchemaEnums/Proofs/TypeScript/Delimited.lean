import SchemaEnums.Proofs.Output.Literal
import SchemaEnums.Proofs.TypeScript.Identifier
import SchemaEnums.Source.Lexeme
import SchemaEnums.TypeScript.Expr

namespace SchemaEnums.TypeScript

/-- The text does not go on with an identifier. -/
def EndsName (cs : List Char) : Prop :=
  ∀ c ∈ cs.head?, isIdentifierPart c = false

/-- The text goes on neither with an identifier nor with a name that is selected. -/
def Stops (cs : List Char) : Prop :=
  EndsName cs ∧ cs.head? ≠ some '.'

section

variable {c : Char} {cs ds r r' : List Char}

theorem endsName_cons (h : isIdentifierPart c = false) : EndsName (c :: cs) := by
  intro d hd
  obtain rfl : c = d := by simpa using hd
  exact h

theorem Stops.nil : Stops [] :=
  ⟨nofun, nofun⟩

theorem stops_cons (h : isIdentifierPart c = false) (hdot : c ≠ '.') : Stops (c :: cs) :=
  ⟨endsName_cons h, by simpa using hdot⟩

/-- The text of an identifier ends where its characters do. -/
theorem identifierParts_append_inj (hcs : ∀ c ∈ cs, isIdentifierPart c = true)
    (hds : ∀ d ∈ ds, isIdentifierPart d = true) (hr : EndsName r) (hr' : EndsName r')
    (h : cs ++ r = ds ++ r') : cs = ds ∧ r = r' := by
  induction cs generalizing ds with
  | nil =>
    cases ds with
    | nil => exact ⟨rfl, h⟩
    | cons d ds =>
      have hd := hds d List.mem_cons_self
      rw [List.nil_append] at h
      rw [hr d (by rw [h]; rfl)] at hd
      cases hd
  | cons c cs ih =>
    cases ds with
    | nil =>
      have hc := hcs c List.mem_cons_self
      rw [List.nil_append] at h
      rw [hr' c (by rw [← h]; rfl)] at hc
      cases hc
    | cons d ds =>
      obtain ⟨rfl, hrest⟩ := List.cons.inj h
      obtain ⟨rfl, heq⟩ := ih (fun e he => hcs e (List.mem_cons_of_mem c he))
        (fun e he => hds e (List.mem_cons_of_mem c he)) hrest
      exact ⟨rfl, heq⟩

end

/-- An identifier is its text. -/
theorem Identifier.eq_of_toList_eq {i j : Identifier} (h : i.text.toList = j.text.toList) :
    i = j := by
  cases i
  cases j
  simpa using String.toList_inj.1 h

section

open Source.Lexeme (closeString? behind)
open Output Text

theorem digitChar_ne_newline {d : Nat} (hd : d < 16) : Nat.digitChar d ≠ '\n' := by
  revert d
  decide

/-- A line feed is written as an escape. -/
theorem newline_not_mem_literalChar (c : Char) : '\n' ∉ literalChar c := by
  rcases literalChar_cases c with ⟨h, -⟩ | ⟨e, h, he, -⟩ | h
  · rw [h, List.mem_singleton]
    rintro rfl
    exact absurd h (by decide)
  · rw [h]
    rintro hmem
    obtain rfl : '\n' = e := by simpa using hmem
    cases he
  · rw [h, unitEscapes_eq]
    intro hmem
    obtain ⟨n, -, hmem⟩ := List.mem_flatMap.1 hmem
    have hdigit (d : Nat) : '\n' ≠ Nat.digitChar (d % 16) :=
      Ne.symm (digitChar_ne_newline (Nat.mod_lt d (by decide)))
    simp [unitEscape_eq, hdigit] at hmem

/-- A string that is open before the text is open behind it. -/
def KeepsOpen (cs : List Char) : Prop :=
  ∀ r, closeString? '"' (cs ++ r) = (closeString? '"' r).map (behind cs)

variable {c : Char} {cs ds r r' : List Char}

namespace KeepsOpen

theorem nil : KeepsOpen [] :=
  fun _ => Option.map_id'.symm

theorem append (h : KeepsOpen cs) (h' : KeepsOpen ds) : KeepsOpen (cs ++ ds) := by
  intro r
  have hbehind : behind cs ∘ behind ds = behind (cs ++ ds) := by
    funext l
    simp [behind]
  rw [List.append_assoc, h, h', Option.map_map, hbehind]

theorem flatMap {α : Type} {part : α → List Char} {as : List α}
    (h : ∀ a ∈ as, KeepsOpen (part a)) : KeepsOpen (as.flatMap part) := by
  induction as with
  | nil => exact .nil
  | cons a as ih =>
    rw [List.flatMap_cons]
    exact (h a List.mem_cons_self).append (ih fun b hb => h b (List.mem_cons_of_mem a hb))

theorem plain (hquote : c ≠ '"') (hbackslash : c ≠ '\\') (hfeed : c ≠ '\n') : KeepsOpen [c] := by
  intro r
  rw [List.singleton_append, closeString?, if_neg hquote, if_neg hfeed]
  · exact fun hc _ => hbackslash hc
  · exact fun _ _ hc _ => hbackslash hc

theorem escape (hfeed : c ≠ '\n') : KeepsOpen ['\\', c] := by
  intro r
  simp [closeString?, hfeed]

/-- The digits of an escape are plain characters. -/
theorem unitEscape (n : Nat) : KeepsOpen (Text.unitEscape n) := by
  have hdigit (d : Nat) : KeepsOpen [Nat.digitChar (d % 16)] := by
    have hlt : d % 16 < 16 := Nat.mod_lt d (by decide)
    obtain ⟨-, hquote, hbackslash⟩ := digitChar_ne (d % 16) hlt
    exact plain hquote hbackslash (digitChar_ne_newline hlt)
  rw [unitEscape_eq]
  exact (escape (by decide)).append <| (hdigit _).append <| (hdigit _).append <|
    (hdigit _).append (hdigit _)

theorem literalChar (c : Char) : KeepsOpen (Text.literalChar c) := by
  have hfeed := newline_not_mem_literalChar c
  rcases literalChar_cases c with ⟨h, hquote, hbackslash⟩ | ⟨e, h, -⟩ | h
  · rw [h, List.mem_singleton] at hfeed
    rw [h]
    exact plain hquote hbackslash (Ne.symm hfeed)
  · rw [h] at hfeed ⊢
    refine escape ?_
    rintro rfl
    exact hfeed (by simp)
  · rw [h, unitEscapes_eq]
    exact flatMap fun n _ => unitEscape n

end KeepsOpen

/-- The text of a string literal tells where it ends, and which text it denotes. -/
theorem literalChars_append_inj (h : literalChars cs ++ r = literalChars ds ++ r') :
    cs = ds ∧ r = r' := by
  have hclose (cs r : List Char) : closeString? '"' (cs.flatMap literalChar ++ '"' :: r) =
      some (cs.flatMap literalChar ++ ['"'], r) := by
    rw [KeepsOpen.flatMap fun c _ => KeepsOpen.literalChar c]
    rfl
  have hbodies : cs.flatMap literalChar ++ '"' :: r = ds.flatMap literalChar ++ '"' :: r' := by
    simpa [literalChars] using h
  have hread := hclose cs r
  rw [hbodies, hclose ds r'] at hread
  obtain ⟨hbody, rfl⟩ := Prod.mk.inj (Option.some.inj hread)
  have hdenotes := unescape?_literalChar cs
  rw [← List.append_cancel_right hbody, unescape?_literalChar] at hdenotes
  exact ⟨(Option.some.inj hdenotes).symm, rfl⟩

end

theorem Stops.of_head?_eq {cs ds : List Char} (h : Stops cs) (heq : ds.head? = cs.head?) :
    Stops ds :=
  ⟨fun c hc => h.1 c (heq ▸ hc), heq ▸ h.2⟩

theorem Expr.joined_cons (separator p : List Char) (ps : List (List Char)) :
    joined separator (p :: ps) = p ++ ps.flatMap fun q => separator ++ q := by
  induction ps generalizing p with
  | nil => rw [joined, List.intercalate_singleton, List.flatMap_nil, List.append_nil]
  | cons q ps ih =>
    rw [joined, List.intercalate_cons_cons, ← joined, ih, List.flatMap_cons, List.append_assoc,
      List.append_assoc]

section

variable {α β : Type} {item : α → List Char} {view : α → β} {c d : Char}
  {separator close r r' : List Char} {as bs : List α}

/-- The items are read uniquely, up to the view of them. -/
def ReadsUniquely (item : α → List Char) (view : α → β) (as bs : List α) : Prop :=
  ∀ a ∈ as, ∀ b ∈ bs, ∀ s s', Stops s → Stops s' → item a ++ s = item b ++ s' →
    view a = view b ∧ s = s'

theorem ReadsUniquely.tail {a b : α} (h : ReadsUniquely item view (a :: as) (b :: bs)) :
    ReadsUniquely item view as bs :=
  fun x hx y hy => h x (List.mem_cons_of_mem a hx) y (List.mem_cons_of_mem b hy)

/-- What follows the first item of a list begins with the separator or closes the list. -/
theorem stops_tail (hc : Stops (c :: separator)) (hd : Stops (d :: close)) :
    Stops (as.flatMap (fun a => c :: separator ++ item a) ++ (d :: close ++ r)) := by
  cases as with
  | nil => exact hd.of_head?_eq rfl
  | cons a as => exact hc.of_head?_eq rfl

theorem tail_append_inj (hitem : ReadsUniquely item view as bs) (hc : Stops (c :: separator))
    (hd : Stops (d :: close)) (hne : c ≠ d)
    (h : as.flatMap (fun a => c :: separator ++ item a) ++ (d :: close ++ r) =
      bs.flatMap (fun b => c :: separator ++ item b) ++ (d :: close ++ r')) :
    as.map view = bs.map view ∧ r = r' := by
  induction as generalizing bs with
  | nil =>
    cases bs with
    | nil => exact ⟨rfl, List.append_cancel_left h⟩
    | cons b bs => exact absurd (List.cons.inj h).1.symm hne
  | cons a as ih =>
    cases bs with
    | nil => exact absurd (List.cons.inj h).1 hne
    | cons b bs =>
      rw [List.flatMap_cons, List.flatMap_cons] at h
      simp only [List.append_assoc] at h
      obtain ⟨hview, hrest⟩ := hitem a List.mem_cons_self b List.mem_cons_self _ _
        (stops_tail hc hd) (stops_tail hc hd) (List.append_cancel_left h)
      obtain ⟨hviews, heq⟩ := ih hitem.tail hrest
      exact ⟨by rw [List.map_cons, List.map_cons, hview, hviews], heq⟩

/-- Where each item tells where it ends, the text of a list with separators does, if it is closed by
another character than the one that separators begin with. -/
theorem joined_append_inj (hitem : ReadsUniquely item view as bs) (hc : Stops (c :: separator))
    (hd : Stops (d :: close)) (hne : c ≠ d) (has : as ≠ []) (hbs : bs ≠ [])
    (h : Expr.joined (c :: separator) (as.map item) ++ (d :: close ++ r) =
      Expr.joined (c :: separator) (bs.map item) ++ (d :: close ++ r')) :
    as.map view = bs.map view ∧ r = r' := by
  obtain ⟨a, as, rfl⟩ := List.exists_cons_of_ne_nil has
  obtain ⟨b, bs, rfl⟩ := List.exists_cons_of_ne_nil hbs
  simp only [List.map_cons, Expr.joined_cons, List.flatMap_map, List.append_assoc] at h
  obtain ⟨hview, hrest⟩ := hitem a List.mem_cons_self b List.mem_cons_self _ _
    (stops_tail hc hd) (stops_tail hc hd) h
  obtain ⟨hviews, heq⟩ := tail_append_inj hitem.tail hc hd hne hrest
  exact ⟨by rw [List.map_cons, List.map_cons, hview, hviews], heq⟩

end

end SchemaEnums.TypeScript
