import SchemaEnums.Proofs.Numeral
import SchemaEnums.Proofs.Output.DocComment
import SchemaEnums.TypeScript.Statement

namespace SchemaEnums.Output

open TypeScript Text

/-- A word is not empty and consists of the characters of words. -/
structure IsWord (cs : List Char) : Prop where
  ne_nil : cs ≠ []
  isWordPart : ∀ c ∈ cs, isWordPart c = true

section

variable {c : Char} {cs raw : List Char}

theorem isWordPart_of_isIdentifierPart (h : isIdentifierPart c = true) : isWordPart c = true := by
  rw [isWordPart, h]
  rfl

theorem IsWord.slash_not_mem (h : IsWord cs) : '/' ∉ cs := by
  intro hmem
  cases h.isWordPart _ hmem

theorem IsWord.append (h : IsWord cs) {ds : List Char} (hds : ∀ d ∈ ds, Output.isWordPart d = true) :
    IsWord (cs ++ ds) where
  ne_nil hnil := h.ne_nil (List.append_eq_nil_iff.1 hnil).1
  isWordPart c hc := by
    rcases List.mem_append.1 hc with hc | hc
    · exact h.isWordPart c hc
    · exact hds c hc

theorem goes_wordParts (raw : List Char) (hcs : ∀ c ∈ cs, isWordPart c = true) :
    pieces.Goes (.word raw) cs [] (.word (raw ++ cs)) := by
  apply Machine.Goes.collect _ _ hcs
  intro raw c hc
  exact if_pos hc

theorem goes_word (h : IsWord cs) : pieces.Goes .between cs [] (.word cs) := by
  obtain ⟨c, ds, rfl⟩ := List.exists_cons_of_ne_nil h.ne_nil
  have hnext : PiecePlace.next? .between c = some (.word [c], []) := by
    rw [PiecePlace.next?, PiecePlace.start, if_pos (h.isWordPart c List.mem_cons_self)]
  exact .skip hnext (goes_wordParts [c] fun d hd => h.isWordPart d (List.mem_cons_of_mem c hd))

/-- A word ends at a blank. -/
theorem goes_wordBlank (h : IsWord cs) (hc : c = ' ' ∨ c = '\n') :
    pieces.Goes .between (cs ++ [c]) [.word (String.ofList cs)] .between := by
  have hend : pieces.Goes (.word cs) [c] [.word (String.ofList cs)] .between := by
    rcases hc with rfl | rfl <;> rfl
  exact (goes_word h).append hend

/-- A word ends at a mark. -/
theorem goes_wordMark (h : IsWord cs) (hc : c ∈ [',', ':', '.']) :
    pieces.Goes .between (cs ++ [c]) [.word (String.ofList cs), .mark c] .between := by
  have hend : pieces.Goes (.word cs) [c] [.word (String.ofList cs), .mark c] .between := by
    simp only [List.mem_cons, List.not_mem_nil, or_false] at hc
    rcases hc with rfl | rfl | rfl <;> rfl
  exact (goes_word h).append hend

theorem isWord_toString (k : Int) : IsWord (toString k).toList where
  ne_nil := Numeral.toString_ne_nil k
  isWordPart c hc := by
    rcases Numeral.isDigit_or_eq_of_mem_toString hc with h | rfl
    · simp [isWordPart, isIdentifierPart, Char.isAlphanum, h]
    · rfl

theorem natural?_toDigits (n : Nat) : natural? (Nat.toDigits 10 n) = some n := by
  have hdigits : (Nat.toDigits 10 n).all Char.isDigit = true :=
    List.all_eq_true.2 fun c hc => Nat.isDigit_of_mem_toDigits (by decide) (by decide) hc
  have hne : (Nat.toDigits 10 n).isEmpty = false := List.isEmpty_eq_false_iff.2 Nat.toDigits_ne_nil
  rw [natural?, hne, hdigits, Nat.ofDigitChars_ten_toDigits]
  rfl

/-- What is written for an integer is read as the integer. -/
theorem integer?_toString (k : Int) : integer? (toString k) = some k := by
  rw [Int.toString_eq_repr, Int.repr_eq_if, integer?]
  by_cases h : 0 ≤ k
  · obtain ⟨m, rfl⟩ := Int.eq_ofNat_of_zero_le h
    rw [if_pos h, Int.toNat_natCast, Nat.toList_repr]
    split
    next cs hcs =>
      have hmem : '-' ∈ Nat.toDigits 10 m := by simp [hcs]
      cases Nat.isDigit_of_mem_toDigits (by decide) (by decide) hmem
    next =>
      rw [natural?_toDigits]
      rfl
  · have hneg : -(((-k).toNat : Int)) = k := by omega
    rw [if_neg h, String.toList_append, Nat.toList_repr, show "-".toList = ['-'] from rfl,
      List.singleton_append]
    simp only [natural?_toDigits, Option.map_some, hneg]

theorem goes_plain (raw : List Char) (hcs : ∀ c ∈ cs, c ≠ '"' ∧ c ≠ '\\') :
    pieces.Goes (.string raw) cs [] (.string (raw ++ cs)) := by
  apply Machine.Goes.collect _ _ hcs
  intro raw c hc
  exact (if_neg hc.1).trans (if_neg hc.2)

theorem goes_escape {e : Char} (hcs : ∀ c ∈ cs, c ≠ '"' ∧ c ≠ '\\') :
    pieces.Goes (.string raw) ('\\' :: e :: cs) [] (.string (raw ++ '\\' :: e :: cs)) := by
  have hrest := goes_plain (raw ++ ['\\', e]) hcs
  rw [List.append_assoc] at hrest
  exact .skip rfl (.skip rfl hrest)

theorem goes_unitEscape (n : Nat) :
    pieces.Goes (.string raw) (unitEscape n) [] (.string (raw ++ unitEscape n)) := by
  rw [unitEscape_eq]
  apply goes_escape
  intro c hc
  simp only [List.mem_cons, List.not_mem_nil, or_false] at hc
  rcases hc with rfl | rfl | rfl | rfl <;> exact (digitChar_ne _ (by omega)).2

/-- What goes well for the parts of a string goes well for all of it. -/
theorem goes_flatMap {α : Type} {part : α → List Char}
    (hpart : ∀ a raw, pieces.Goes (.string raw) (part a) [] (.string (raw ++ part a)))
    (raw : List Char) (as : List α) :
    pieces.Goes (.string raw) (as.flatMap part) [] (.string (raw ++ as.flatMap part)) := by
  induction as generalizing raw with
  | nil =>
    rw [List.flatMap_nil, List.append_nil]
    exact .nil _
  | cons a as ih =>
    rw [List.flatMap_cons, ← List.append_assoc]
    exact (hpart a raw).append (ih _)

theorem goes_literalChar (c : Char) (raw : List Char) :
    pieces.Goes (.string raw) (literalChar c) [] (.string (raw ++ literalChar c)) := by
  rcases literalChar_cases c with ⟨h, hquote, hbackslash⟩ | ⟨e, h, -⟩ | h
  · rw [h]
    exact goes_plain raw (by simp [hquote, hbackslash])
  · rw [h]
    exact goes_escape (by simp)
  · rw [h, unitEscapes_eq]
    exact goes_flatMap (fun n _ => goes_unitEscape n) raw (utf16 c)

/-- A string literal is read as the text that it denotes. -/
theorem goes_literalChars (cs : List Char) :
    pieces.Goes .between (literalChars cs) [.string (String.ofList cs)] .between := by
  have hinner := goes_flatMap goes_literalChar [] cs
  have hclose : PiecePlace.next? (.string (cs.flatMap literalChar)) '"' =
      some (.between, [.string (String.ofList cs)]) := by
    rw [PiecePlace.next?, if_pos rfl, unescape?_literalChar]
    rfl
  have hbody : pieces.Goes (.string []) (cs.flatMap literalChar ++ ['"'])
      [.string (String.ofList cs)] .between := hinner.append (.single hclose)
  exact .skip rfl hbody

theorem slash_not_mem_unitEscape (n : Nat) : '/' ∉ unitEscape n := by
  have hdigit (d : Nat) : '/' ≠ Nat.digitChar (d % 16) := fun h =>
    (digitChar_ne (d % 16) (by omega)).1 h.symm
  rw [unitEscape_eq]
  simp [hdigit]

theorem slash_not_mem_literalChars (hcs : '/' ∉ cs) : '/' ∉ literalChars cs := by
  have hinner : '/' ∉ cs.flatMap literalChar := by
    intro hmem
    obtain ⟨c, hc, hmem⟩ := List.mem_flatMap.1 hmem
    rcases literalChar_cases c with ⟨h, -⟩ | ⟨e, h, -, he⟩ | h
    · rw [h, List.mem_singleton] at hmem
      exact hcs (hmem ▸ hc)
    · rw [h] at hmem
      simp [Ne.symm he] at hmem
    · rw [h, unitEscapes_eq] at hmem
      obtain ⟨n, -, hmem⟩ := List.mem_flatMap.1 hmem
      exact slash_not_mem_unitEscape n hmem
  simp [literalChars, hinner]

end

/-- Over the text the reader goes from one place to the other and finds the declarations. -/
def Reads (cs : List Char) (p : DeclarationPlace) (ds : List Declaration) (q : DeclarationPlace) :
    Prop :=
  ∃ code ps, comments.Goes .code cs code .code ∧ pieces.Goes .between code ps .between ∧
    declarations.Goes p ps ds q

namespace Reads

variable {cs cs' : List Char} {p q r : DeclarationPlace} {ds ds' : List Declaration}
  {ps : List Piece}

theorem nil (p : DeclarationPlace) : Reads [] p [] p :=
  ⟨[], [], .nil _, .nil _, .nil _⟩

theorem append (h : Reads cs p ds q) (h' : Reads cs' q ds' r) :
    Reads (cs ++ cs') p (ds ++ ds') r := by
  obtain ⟨code, ps, hcode, hps, hds⟩ := h
  obtain ⟨code', ps', hcode', hps', hds'⟩ := h'
  exact ⟨code ++ code', ps ++ ps', hcode.append hcode', hps.append hps', hds.append hds'⟩

/-- Code without comments. -/
theorem code (hslash : '/' ∉ cs) (hps : pieces.Goes .between cs ps .between)
    (hds : declarations.Goes p ps ds q) : Reads cs p ds q :=
  ⟨cs, ps, goes_code hslash, hps, hds⟩

/-- The documentation comment of a statement or of a member, if it has one. -/
theorem commentLines (comment : Option String) {indent : List Char}
    (hindent : indent = [] ∨ indent = indentStep) (p : DeclarationPlace) :
    Reads (endLines (TypeScript.commentLines indent comment)) p [] p := by
  unfold TypeScript.commentLines
  split
  next text _ =>
    rcases hindent with rfl | rfl
    · exact ⟨_, [], goes_docChars text.toList (by decide) (by decide), rfl, .nil _⟩
    · exact ⟨_, [], goes_docChars text.toList (by decide) (by decide), rfl, .nil _⟩
  next => exact .nil p

/-- Where the text of a whole file is read, nothing else is in it. -/
theorem read? {text : String} (h : Reads cs (.head []) ds (.head []))
    (htext : dropLine text.toList = cs) : Output.read? text = some ds := by
  obtain ⟨code, ps, hcode, hps, hds⟩ := h
  rw [Output.read?, htext, hcode.run? rfl]
  simp only [Option.bind_eq_bind, Option.bind_some, hps.run? rfl, hds.run? rfl]

end Reads

end SchemaEnums.Output
