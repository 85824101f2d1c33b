import SchemaEnums.Proofs.Descriptor.Named
import SchemaEnums.Proofs.Directive
import SchemaEnums.Proofs.Generator.Emission
import SchemaEnums.Proofs.Label
import SchemaEnums.Proofs.Output.Code
import SchemaEnums.Proofs.TypeScript.Identifier

namespace SchemaEnums

open Source TypeScript Output

section

variable {c : Char} {cs ds : List Char} {a : String} {d : EnumDescriptor}

theorem isIdentifierPart_of_isNamePart (h : Lexeme.isNamePart c = true) :
    isIdentifierPart c = true := by
  unfold Lexeme.isNamePart at h
  unfold isIdentifierPart
  rw [h]
  rfl

theorem isStrictIdentifier_of_isName (h : Lexeme.IsName cs) : IsStrictIdentifier cs := by
  obtain ⟨c, ds, rfl, hc, hds⟩ := h
  refine ⟨c, ds, rfl, ?_, fun d hd => isIdentifierPart_of_isNamePart (hds d hd)⟩
  have hstart : isIdentifierStart c = (Lexeme.isNameStart c || c == '$') := rfl
  rw [hstart, hc]
  rfl

theorem TypeScript.IsStrictIdentifier.isWord (h : IsStrictIdentifier cs) : IsWord cs where
  ne_nil := h.ne_nil
  isWordPart _ hc := isWordPart_of_isIdentifierPart (h.isIdentifierPart_of_mem hc)

/-- Strict identifiers joined by underscores are one. -/
theorem isStrictIdentifier_intercalate {names : List String} (hne : names ≠ [])
    (hnames : ∀ name ∈ names, IsStrictIdentifier name.toList) :
    IsStrictIdentifier ("_".intercalate names).toList := by
  induction names with
  | nil => exact absurd rfl hne
  | cons name names ih =>
    have hname := hnames name List.mem_cons_self
    cases names with
    | nil => rwa [String.intercalate_singleton]
    | cons name' names =>
      have hrest := ih (List.cons_ne_nil name' names) fun n hn =>
        hnames n (List.mem_cons_of_mem name hn)
      rw [String.intercalate_cons_cons, String.toList_append, String.toList_append]
      refine (hname.append ?_).append fun c hc => hrest.isIdentifierPart_of_mem hc
      exact List.all_eq_true.1 rfl

namespace EnumDescriptor.Named

theorem filled_name (h : d.Named) :
    ∃ name, Text.filled? d.name = some name ∧ Lexeme.IsName name.toList := by
  obtain ⟨name, hname, hisName⟩ := h.name
  refine ⟨name, ?_, hisName⟩
  have hne := (isStrictIdentifier_of_isName hisName).ne_nil
  rw [hname, Text.filled?, Option.filter_some, if_pos]
  simpa [String.isEmpty_iff] using hne

theorem isStrictIdentifier_codeName (h : d.Named) (a : String) :
    IsStrictIdentifier (d.codeName a).toList := by
  obtain ⟨name, hfilled, hisName⟩ := h.filled_name
  have hflat : IsStrictIdentifier (d.flatName a).toList := by
    rw [EnumDescriptor.flatName, hfilled]
    apply isStrictIdentifier_intercalate (by simp)
    intro n hn
    obtain hn | hn := List.mem_append.1 hn
    · exact isStrictIdentifier_of_isName (h.parents n hn)
    · rw [List.mem_singleton.1 hn]
      exact isStrictIdentifier_of_isName hisName
  by_cases hbuiltIn : builtInTypes.contains (d.flatName a) = true
  · have hcode : d.codeName a = d.flatName a ++ "$" := if_pos hbuiltIn
    rw [hcode, String.toList_append]
    exact hflat.append (List.all_eq_true.1 rfl)
  · have hcode : d.codeName a = d.flatName a := if_neg hbuiltIn
    rwa [hcode]

end EnumDescriptor.Named

theorem isStrictIdentifier_candidate {base : String} (h : IsStrictIdentifier base.toList)
    (count : Nat) : IsStrictIdentifier (Scope.candidate base count).toList := by
  cases count with
  | zero => exact h
  | succ count =>
    rw [Scope.candidate, String.toList_append, String.toList_append]
    apply (h.append (List.all_eq_true.1 rfl)).append
    intro c hc
    rw [Nat.toList_repr] at hc
    have hdigit := Nat.isDigit_of_mem_toDigits (by decide) (by decide) hc
    simp [isIdentifierPart, Char.isAlphanum, hdigit]

/-- The name that an enum is given has a property of all strict identifiers, and so have then all
names of the file. -/
theorem EnumDescriptor.Named.nameFor_all {P : List Char → Prop}
    (hP : ∀ cs, IsStrictIdentifier cs → P cs) {f : OutputFile} (h : d.Named)
    (hf : ∀ e ∈ f.scope.declared, P e.name.toList) (a : String) (id : Nat) :
    P (f.nameFor a id d).1.toList ∧
      ∀ e ∈ (f.nameFor a id d).2.scope.declared, P e.name.toList := by
  cases hname : f.scope.name? id with
  | some name =>
    rw [OutputFile.nameFor_of_name? hname]
    exact ⟨hf _ (Scope.mem_of_name? hname), hf⟩
  | none =>
    obtain ⟨n, -, hfound, -⟩ := f.scope.freeName_spec (d.codeName a)
    have hfree : P (f.scope.freeName (d.codeName a)).toList := by
      rw [hfound]
      exact hP _ (isStrictIdentifier_candidate (h.isStrictIdentifier_codeName a) n)
    rw [OutputFile.nameFor_of_none hname]
    refine ⟨hfree, fun e he => ?_⟩
    obtain rfl | he := List.mem_cons.1 he
    · exact hfree
    · exact hf e (List.mem_filter.1 he).1

/-- All names of a scope are words. -/
def TypeScript.Scope.Words (s : Scope) : Prop :=
  ∀ d ∈ s.declared, IsWord d.name.toList

/-- The name that an enum is given is a word, and the names of the file stay words. -/
theorem EnumDescriptor.Named.nameFor {f : OutputFile} (h : d.Named) (hf : f.scope.Words) (a : String)
    (id : Nat) : IsWord (f.nameFor a id d).1.toList ∧ (f.nameFor a id d).2.scope.Words :=
  h.nameFor_all (fun _ hcs => hcs.isWord) hf a id

/-- The characters of the names of members belong to identifiers. -/
theorem EnumDescriptor.Named.isIdentifierPart_of_mem (h : d.Named) {keepPrefix : Bool}
    {e : CatalogEntry} (he : e ∈ Catalog.entries d keepPrefix) (hc : c ∈ e.name.toList) :
    isIdentifierPart c = true := by
  rcases List.mem_append.1 he with he | he
  · unfold Catalog.zeroEntry at he
    split at he
    · cases he
    · rw [List.mem_singleton.1 he] at hc
      exact List.all_eq_true.1 rfl c hc
  · obtain ⟨v, hv, rfl⟩ := List.mem_map.1 he
    rw [Catalog.entry, String.toList_ofList] at hc
    exact isIdentifierPart_of_isNamePart ((h.values v hv).isNamePart_of_mem (List.mem_of_mem_drop hc))

/-- The character belongs to ASCII and is no slash. -/
def Unslashed (c : Char) : Prop :=
  c.toNat < 0x80 ∧ c ≠ '/'

theorem unslashed_of_isIdentifierPart (h : isIdentifierPart c = true) : Unslashed c := by
  constructor
  · have hpart : Lexeme.isNamePart c = true ∨ c = '$' := by
      simpa [isIdentifierPart, Lexeme.isNamePart] using h
    rcases hpart with hpart | rfl
    · have hcode := Lexeme.toNat_of_isNamePart hpart
      omega
    · decide
  · rintro rfl
    cases h

theorem unslashed_of_isIdentifier {name : String} (h : isIdentifier name = true) :
    ∀ c ∈ name.toList, Unslashed c := by
  intro c hc
  obtain hpart | rfl := isIdentifierPart_or_newline_of_mem h hc
  · exact unslashed_of_isIdentifierPart hpart
  · exact ⟨by decide, by decide⟩

theorem slash_not_mem_of_isIdentifier {name : String} (h : isIdentifier name = true) :
    '/' ∉ name.toList := fun hmem => (unslashed_of_isIdentifier h _ hmem).2 rfl

/-- No slash comes about in a label. -/
theorem eq_slash_of_shown (hc : c.toNat < 0x80) {fresh : Bool} (h : Label.shown fresh c = '/') :
    c = '/' := by
  revert h
  exact Label.forall_ascii hc fresh (by decide)

/-- The label of a name holds no slash. -/
theorem slash_not_mem_ofName {name : String} (h : ∀ c ∈ name.toList, Unslashed c) :
    '/' ∉ (Label.ofName name).toList := by
  intro hmem
  rw [Label.toList_ofName fun c hc => (h c hc).1] at hmem
  obtain ⟨c, hc, fresh, heq⟩ := Label.exists_of_mem_shownFrom hmem
  exact (h c hc).2 (eq_slash_of_shown (h c hc).1 heq.symm)

/-- A label that a comment directs holds no slash. -/
theorem slash_not_mem_find? {label : List Char} (h : Directive.find? cs = some label) :
    '/' ∉ label := by
  obtain ⟨before, after, hsplits, -⟩ := Directive.find?_eq_some_iff.1 h
  intro hmem
  cases hsplits.isLabelChar _ hmem

theorem slash_not_mem_label {e : CatalogEntry} (h : ∀ c ∈ e.name.toList, Unslashed c) :
    '/' ∉ (Generator.label d e).toList := by
  unfold Generator.label
  cases hdirective : Directive.ofComment? (Generator.leadingComment? d e) with
  | none => exact slash_not_mem_ofName h
  | some text =>
    obtain ⟨comment, -, hfind⟩ := Option.bind_eq_some_iff.1 hdirective
    obtain ⟨label, hlabel, rfl⟩ := Option.map_eq_some_iff.1 hfind
    rw [Option.getD_some, String.toList_ofList]
    exact slash_not_mem_find? hlabel

end

end SchemaEnums
