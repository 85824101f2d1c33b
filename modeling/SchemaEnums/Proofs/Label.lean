import SchemaEnums.Label
import SchemaEnums.Proofs.Numeral

namespace SchemaEnums

section

variable {cs : List Char}

/-- The lower case of an ASCII text. -/
theorem Text.lowerAfter_of_ascii (before : List Char) (hcs : ∀ c ∈ cs, c.toNat < 128) :
    lowerAfter before cs = cs.map Char.toLower := by
  induction cs generalizing before with
  | nil => rfl
  | cons c cs ih =>
    obtain ⟨hc, hrest⟩ := List.forall_mem_cons.1 hcs
    have hsigma : c ≠ 'Σ' := by
      rintro rfl
      exact absurd hc (by decide)
    rw [lowerAfter, if_neg hsigma, lowerChar, if_pos hc, ih _ hrest]
    rfl

end

namespace Label

/-- All characters of the text belong to ASCII. -/
def IsAscii (name : String) : Prop :=
  ∀ c ∈ name.toList, c.toNat < 128

instance : DecidablePred IsAscii := fun _ => List.decidableBAll _ _

/-- Holds of the underscore and of the blanks and separators of ASCII. -/
def IsBreak (c : Char) : Prop :=
  c = '_' ∨ c = ' ' ∨ ('\t' ≤ c ∧ c ≤ '\r') ∨ ('\x1c' ≤ c ∧ c ≤ '\x1f')

instance : DecidablePred IsBreak := fun _ => instDecidableOr

/-- At the place `i` of a text a word may begin: nothing stands in front of it, or a break right there.
-/
def MayBegin (cs : List Char) (i : Nat) : Prop :=
  ∀ c ∈ (cs.take i).getLast?, IsBreak c

/-- `ls` is the label of `cs`. It has a character for each of `cs`: the letters at which a word may
begin are capitals, all other letters are small, underscores have become spaces, and nothing else has
changed. -/
structure Labels (cs ls : List Char) : Prop where
  length_eq : ls.length = cs.length
  underscore_not_mem : '_' ∉ ls
  isUpper_iff : ∀ i : Nat, (∃ l ∈ ls[i]?, l.isUpper = true) ↔
    ∃ c ∈ cs[i]?, c.isAlpha = true ∧ MayBegin cs i
  isLower_iff : ∀ i : Nat, (∃ l ∈ ls[i]?, l.isLower = true) ↔
    ∃ c ∈ cs[i]?, c.isAlpha = true ∧ ¬ MayBegin cs i
  capital : ∀ i : Nat, ∀ c ∈ cs[i]?, c.isAlpha = true → MayBegin cs i → ls[i]? = some c.toUpper
  small : ∀ i : Nat, ∀ c ∈ cs[i]?, c.isAlpha = true → ¬ MayBegin cs i → ls[i]? = some c.toLower
  space : ∀ i : Nat, cs[i]? = some '_' → ls[i]? = some ' '
  other : ∀ i : Nat, ∀ c ∈ cs[i]?, ¬ c.isAlpha = true → c ≠ '_' → ls[i]? = some c

/-- What becomes of a character; `fresh` says whether a word may begin at it. -/
def shown (fresh : Bool) (c : Char) : Char :=
  spaced (if fresh then c.toLower.toUpper else c.toLower)

section

variable {c : Char}

/-- What holds of the ASCII characters one by one, where a word may begin and where none may, holds of
every such character. -/
@[elab_as_elim]
theorem forall_ascii {P : Bool → Char → Prop} (hc : c.toNat < 128) (fresh : Bool)
    (h : ∀ k < 128, ∀ fresh, P fresh (Char.ofNat k)) : P fresh c :=
  Numeral.ascii_forall (P := fun c => ∀ fresh, P fresh c) h hc fresh

/-- What becomes of an ASCII character, by the kinds of characters. -/
theorem shown_eq (hc : c.toNat < 128) (fresh : Bool) :
    shown fresh c =
      if c.isAlpha then (if fresh then c.toUpper else c.toLower) else if c = '_' then ' ' else c :=
  forall_ascii hc fresh (by decide)

theorem isUpper_shown (hc : c.toNat < 128) (fresh : Bool) :
    (shown fresh c).isUpper = (c.isAlpha && fresh) :=
  forall_ascii hc fresh (by decide)

theorem isLower_shown (hc : c.toNat < 128) (fresh : Bool) :
    (shown fresh c).isLower = (c.isAlpha && !fresh) :=
  forall_ascii hc fresh (by decide)

theorem shown_ne_underscore (hc : c.toNat < 128) (fresh : Bool) : shown fresh c ≠ '_' :=
  forall_ascii hc fresh (by decide)

theorem toNat_shown (hc : c.toNat < 128) (fresh : Bool) : (shown fresh c).toNat < 128 :=
  forall_ascii hc fresh (by decide)

/-- Words begin at the same places before and after. -/
theorem isSeparator_shown (hc : c.toNat < 128) (fresh : Bool) :
    isSeparator (shown fresh c) = isSeparator c :=
  forall_ascii hc fresh (by decide)

theorem shown_shown (hc : c.toNat < 128) (fresh : Bool) :
    shown fresh (shown fresh c) = shown fresh c :=
  forall_ascii hc fresh (by decide +kernel)

theorem isSeparator_iff (hc : c.toNat < 128) : isSeparator c = true ↔ IsBreak c :=
  Numeral.ascii_forall (P := fun c => isSeparator c = true ↔ IsBreak c) (by decide) hc

theorem isSeparator_toLower (hc : c.toNat < 128) : isSeparator c.toLower = isSeparator c :=
  Numeral.ascii_forall (P := fun c => isSeparator c.toLower = isSeparator c) (by decide) hc

end

/-- What becomes of a text; `fresh` says whether a word may begin at its first character. -/
def shownFrom (fresh : Bool) : List Char → List Char
  | [] => []
  | c :: cs => shown fresh c :: shownFrom (isSeparator c) cs

/-- Holds if a word may begin behind the text; `fresh` says whether one may begin at its first character.
-/
def freshBehind (fresh : Bool) (cs : List Char) : Bool :=
  (cs.getLast?.map isSeparator).getD fresh

section

variable {c : Char} {cs ds : List Char} {fresh : Bool}

/-- The label of an ASCII text is made character by character. -/
theorem ofChars_of_ascii (hcs : ∀ c ∈ cs, c.toNat < 128) : ofChars cs = shownFrom true cs := by
  have hfrom (fresh : Bool) :
      (capitalise fresh (cs.map Char.toLower)).map spaced = shownFrom fresh cs := by
    induction cs generalizing fresh with
    | nil => rfl
    | cons c cs ih =>
      obtain ⟨hc, hrest⟩ := List.forall_mem_cons.1 hcs
      rw [List.map_cons, capitalise, List.map_cons, isSeparator_toLower hc, ih hrest]
      rfl
  rw [ofChars, Text.toLower, Text.lowerAfter_of_ascii [] hcs, hfrom]

theorem freshBehind_cons (fresh : Bool) (c : Char) (cs : List Char) :
    freshBehind fresh (c :: cs) = freshBehind (isSeparator c) cs := by
  rw [freshBehind, freshBehind, List.getLast?_cons]
  cases cs.getLast? <;> rfl

theorem freshBehind_take_iff (hcs : ∀ c ∈ cs, c.toNat < 128) {i : Nat} :
    freshBehind true (cs.take i) = true ↔ MayBegin cs i := by
  rw [freshBehind, MayBegin]
  cases hlast : (cs.take i).getLast? with
  | none => simp
  | some c =>
    have hc : c ∈ cs := List.mem_of_mem_take (List.mem_of_getLast? hlast)
    simp [isSeparator_iff (hcs c hc)]

/-- What stands in front of a place decides what becomes of the character there. -/
theorem getElem?_shownFrom (fresh : Bool) (cs : List Char) (i : Nat) :
    (shownFrom fresh cs)[i]? = cs[i]?.map (shown (freshBehind fresh (cs.take i))) := by
  induction cs generalizing fresh i with
  | nil => rfl
  | cons c cs ih =>
    cases i with
    | zero => rfl
    | succ i =>
      rw [shownFrom, List.getElem?_cons_succ, List.getElem?_cons_succ, ih, List.take_succ_cons,
        freshBehind_cons]

theorem length_shownFrom (fresh : Bool) (cs : List Char) :
    (shownFrom fresh cs).length = cs.length := by
  induction cs generalizing fresh with
  | nil => rfl
  | cons c cs ih => rw [shownFrom, List.length_cons, List.length_cons, ih]

theorem exists_of_mem_shownFrom (h : c ∈ shownFrom fresh cs) :
    ∃ d ∈ cs, ∃ fresh, c = shown fresh d := by
  obtain ⟨i, hi⟩ := List.mem_iff_getElem?.1 h
  rw [getElem?_shownFrom] at hi
  obtain ⟨d, hd, rfl⟩ := Option.map_eq_some_iff.1 hi
  exact ⟨d, List.mem_of_getElem? hd, _, rfl⟩

theorem shownFrom_append (fresh : Bool) (cs ds : List Char) :
    shownFrom fresh (cs ++ ds) = shownFrom fresh cs ++ shownFrom (freshBehind fresh cs) ds := by
  induction cs generalizing fresh with
  | nil => rfl
  | cons c cs ih => rw [List.cons_append, shownFrom, shownFrom, ih, freshBehind_cons, List.cons_append]

/-- Behind an underscore everything begins anew. -/
theorem shownFrom_append_underscore (fresh : Bool) (cs ds : List Char) :
    shownFrom fresh (cs ++ '_' :: ds) = shownFrom fresh cs ++ ' ' :: shownFrom true ds := by
  rw [shownFrom_append, shownFrom]
  cases freshBehind fresh cs <;> rfl

/-- A label has nothing left to change. -/
theorem shownFrom_shownFrom (fresh : Bool) (hcs : ∀ c ∈ cs, c.toNat < 128) :
    shownFrom fresh (shownFrom fresh cs) = shownFrom fresh cs := by
  induction cs generalizing fresh with
  | nil => rfl
  | cons c cs ih =>
    obtain ⟨hc, hrest⟩ := List.forall_mem_cons.1 hcs
    rw [shownFrom, shownFrom, shown_shown hc, isSeparator_shown hc, ih _ hrest]

theorem toNat_of_mem_shownFrom (hcs : ∀ c ∈ cs, c.toNat < 128) (h : c ∈ shownFrom fresh cs) :
    c.toNat < 128 := by
  obtain ⟨d, hd, fresh, rfl⟩ := exists_of_mem_shownFrom h
  exact toNat_shown (hcs d hd) fresh

/-- The characters of a label, by the characters of the text and the places where words may begin. -/
theorem labels_shownFrom (hcs : ∀ c ∈ cs, c.toNat < 128) : Labels cs (shownFrom true cs) := by
  have hascii {i : Nat} {c : Char} (hc : cs[i]? = some c) : c.toNat < 128 :=
    hcs c (List.mem_of_getElem? hc)
  have hat {i : Nat} {c : Char} (hc : cs[i]? = some c) :
      (shownFrom true cs)[i]? = some (shown (freshBehind true (cs.take i)) c) := by
    rw [getElem?_shownFrom, hc, Option.map_some]
  constructor
  case length_eq => exact length_shownFrom true cs
  case underscore_not_mem =>
    intro hmem
    obtain ⟨d, hd, fresh, heq⟩ := exists_of_mem_shownFrom hmem
    exact shown_ne_underscore (hcs d hd) fresh heq.symm
  case isUpper_iff =>
    intro i
    cases hc : cs[i]? with
    | none => simp [getElem?_shownFrom, hc]
    | some c => simp [hat hc, isUpper_shown (hascii hc), freshBehind_take_iff hcs]
  case isLower_iff =>
    intro i
    cases hc : cs[i]? with
    | none => simp [getElem?_shownFrom, hc]
    | some c => simp [hat hc, isLower_shown (hascii hc), ← freshBehind_take_iff hcs]
  case capital =>
    intro i c hc halpha hfresh
    rw [hat hc, shown_eq (hascii hc), if_pos halpha, if_pos ((freshBehind_take_iff hcs).2 hfresh)]
  case small =>
    intro i c hc halpha hfresh
    rw [hat hc, shown_eq (hascii hc), if_pos halpha, if_neg (mt (freshBehind_take_iff hcs).1 hfresh)]
  case space =>
    intro i hc
    rw [hat hc, shown_eq (hascii hc)]
    rfl
  case other =>
    intro i c hc halpha hne
    rw [hat hc, shown_eq (hascii hc), if_neg halpha, if_neg hne]

end

theorem toList_ofName {name : String} (h : IsAscii name) :
    (ofName name).toList = shownFrom true name.toList := by
  rw [ofName, String.toList_ofList, ofChars_of_ascii h]

theorem IsAscii.ofName {name : String} (h : IsAscii name) : IsAscii (ofName name) := by
  intro c hc
  rw [toList_ofName h] at hc
  exact toNat_of_mem_shownFrom h hc

theorem ofName_append_underscore {a b : String} (ha : IsAscii a) (hb : IsAscii b) :
    ofName (a ++ "_" ++ b) = ofName a ++ " " ++ ofName b := by
  have htext : (a ++ "_" ++ b).toList = a.toList ++ '_' :: b.toList := by simp
  have hascii : IsAscii (a ++ "_" ++ b) := by
    intro c hc
    rw [htext, List.mem_append, List.mem_cons] at hc
    obtain hc | rfl | hc := hc
    · exact ha c hc
    · decide
    · exact hb c hc
  have hspace : " ".toList = [' '] := rfl
  rw [← String.toList_inj, toList_ofName hascii, htext, shownFrom_append_underscore,
    String.toList_append, String.toList_append, toList_ofName ha, toList_ofName hb, hspace,
    List.append_assoc, List.singleton_append]

/-- Names that are joined by an underscore have their labels joined by a space. Every label of an ASCII
name is what `Labels` says, and it is its own label. -/
theorem ofName_words :
    (∀ a b, IsAscii a → IsAscii b → ofName (a ++ "_" ++ b) = ofName a ++ " " ++ ofName b) ∧
      ∀ name, IsAscii name →
        Labels name.toList (ofName name).toList ∧ ofName (ofName name) = ofName name := by
  refine ⟨fun a b => ofName_append_underscore, fun name h => ⟨?_, ?_⟩⟩
  · rw [toList_ofName h]
    exact labels_shownFrom h
  · rw [← String.toList_inj, toList_ofName h.ofName, toList_ofName h, shownFrom_shownFrom true h]

theorem ofName_words_level :
    (IsAscii "LEVEL_" ∧ IsAscii "2B\tx$" ∧
        ofName ("LEVEL_" ++ "_" ++ "2B\tx$") = ofName "LEVEL_" ++ " " ++ ofName "2B\tx$") ∧
      IsAscii "LEVEL__2B\tx$" ∧
      Labels "LEVEL__2B\tx$".toList (ofName "LEVEL__2B\tx$").toList ∧
      ofName (ofName "LEVEL__2B\tx$") = ofName "LEVEL__2B\tx$" ∧
      ofName "LEVEL__2B\tx$" = "Level  2b\tX$" := by
  have hascii : IsAscii "LEVEL__2B\tx$" := by decide
  obtain ⟨hlabels, hagain⟩ := ofName_words.2 _ hascii
  exact ⟨⟨by decide, by decide, ofName_words.1 _ _ (by decide) (by decide)⟩, hascii, hlabels, hagain,
    by decide⟩

end Label

end SchemaEnums
