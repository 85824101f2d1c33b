import SchemaEnums.Proofs.Generator.Success
import SchemaEnums.Proofs.Layout.Descriptors
import SchemaEnums.Proofs.Output.DocContent
import SchemaEnums.Proofs.TypeScript.UniqueReading

namespace SchemaEnums.TypeScript

/-- The text passes for an identifier: it is one in the strict sense, perhaps with a line feed
behind it. -/
def Passes (cs : List Char) : Prop :=
  ∃ ds, IsStrictIdentifier ds ∧ (cs = ds ∨ cs = ds ++ ['\n'])

section

variable {c d : Char} {cs ds : List Char}

/-- A line feed behind a text is one behind the rest of it. -/
theorem cons_eq_or_eq_concat_iff :
    (c :: cs = d :: ds ∨ c :: cs = d :: ds ++ ['\n']) ↔ c = d ∧ (cs = ds ∨ cs = ds ++ ['\n']) := by
  rw [List.cons_append, List.cons.injEq, List.cons.injEq, and_or_left]

theorem isIdentifierTail_iff :
    isIdentifierTail cs = true ↔
      ∃ ds, (∀ d ∈ ds, isIdentifierPart d = true) ∧ (cs = ds ∨ cs = ds ++ ['\n']) := by
  fun_induction isIdentifierTail cs with
  | case1 => exact ⟨fun _ => ⟨[], by simp, .inl rfl⟩, fun _ => rfl⟩
  | case2 => exact ⟨fun _ => ⟨[], by simp, .inr rfl⟩, fun _ => rfl⟩
  | case3 c cs hend ih =>
    rw [Bool.and_eq_true, ih]
    constructor
    · rintro ⟨hc, ds, hds, hcs⟩
      exact ⟨c :: ds, List.forall_mem_cons.2 ⟨hc, hds⟩, cons_eq_or_eq_concat_iff.2 ⟨rfl, hcs⟩⟩
    · rintro ⟨ds, hds, hcs⟩
      cases ds with
      | nil =>
        -- Nothing but the line feed would be left.
        obtain hcs | hcs := hcs
        · cases hcs
        · cases hcs
          exact (hend rfl rfl).elim
      | cons d ds =>
        obtain ⟨hd, htail⟩ := List.forall_mem_cons.1 hds
        obtain ⟨rfl, hrest⟩ := cons_eq_or_eq_concat_iff.1 hcs
        exact ⟨hd, ds, htail, hrest⟩

/-- The texts that pass for identifiers. -/
theorem isIdentifier_iff (s : String) : isIdentifier s = true ↔ Passes s.toList := by
  rw [isIdentifier]
  cases s.toList with
  | nil =>
    constructor
    · intro h
      cases h
    · rintro ⟨ds, hds, hcs | hcs⟩
      · exact absurd hcs.symm hds.ne_nil
      · simp at hcs
  | cons c cs =>
    rw [isIdentifierChars, Bool.and_eq_true, isIdentifierTail_iff]
    constructor
    · rintro ⟨hc, ds, hds, hcs⟩
      exact ⟨c :: ds, ⟨c, ds, rfl, hc, hds⟩, cons_eq_or_eq_concat_iff.2 ⟨rfl, hcs⟩⟩
    · rintro ⟨es, ⟨d, ds, rfl, hd, hds⟩, hcs⟩
      obtain ⟨rfl, hrest⟩ := cons_eq_or_eq_concat_iff.1 hcs
      exact ⟨hd, ds, hds, hrest⟩

theorem IsStrictIdentifier.newline_not_mem (h : IsStrictIdentifier cs) : '\n' ∉ cs := by
  intro hmem
  cases h.isIdentifierPart_of_mem hmem

/-- The line feed is all that keeps a name that passes from being an identifier. -/
theorem Passes.newline_mem_iff (h : Passes cs) : '\n' ∈ cs ↔ ¬ IsStrictIdentifier cs := by
  refine ⟨fun hmem hstrict => hstrict.newline_not_mem hmem, fun hnot => ?_⟩
  obtain ⟨ds, hds, rfl | rfl⟩ := h
  · exact absurd hds hnot
  · simp

theorem IsStrictIdentifier.passes (h : IsStrictIdentifier cs) : Passes cs :=
  ⟨cs, h, .inl rfl⟩

/-- Only with a line feed does a text pass that is no identifier. -/
theorem passes_iff_isStrictIdentifier_iff :
    (Passes cs ↔ IsStrictIdentifier cs) ↔ (Passes cs → '\n' ∉ cs) := by
  constructor
  · intro hiff h hmem
    exact h.newline_mem_iff.1 hmem (hiff.1 h)
  · intro hclean
    refine ⟨fun h => ?_, fun h => h.passes⟩
    by_contra hnot
    exact hclean h (h.newline_mem_iff.2 hnot)

theorem Identifier.passes (i : Identifier) : Passes i.text.toList :=
  (isIdentifier_iff i.text).1 i.isIdentifier_text

end

namespace Expr

mutual

/-- The identifiers and the selected names of an expression, in order. -/
def names : Expr → List String
  | identifier name => [name.text]
  | access target name => target.names ++ [name.text]
  | string _ => []
  | object properties => propertiesNames properties
  | array elements _ => listNames elements

def listNames : List Expr → List String
  | [] => []
  | e :: es => e.names ++ listNames es

def propertiesNames : List (String × Expr) → List String
  | [] => []
  | (_, e) :: properties => e.names ++ propertiesNames properties

end

/-- No part of the expression is laid out on lines of its own, and no key has a line feed. -/
inductive OnOneLine : Expr → Prop where
  | identifier (name : Identifier) : OnOneLine (identifier name)
  | access {target : Expr} (name : Identifier) (htarget : target.OnOneLine) :
    OnOneLine (access target name)
  | string (text : String) : OnOneLine (string text)
  | object {properties : List (String × Expr)} (hkeys : ∀ p ∈ properties, '\n' ∉ p.1.toList)
    (hvalues : ∀ p ∈ properties, p.2.OnOneLine) : OnOneLine (object properties)
  | array {elements : List Expr} {multiLine : Bool} (hlayout : multiLine = true → elements = [])
    (helements : ∀ e ∈ elements, e.OnOneLine) : OnOneLine (array elements multiLine)

theorem mem_listNames {name : String} {es : List Expr} :
    name ∈ listNames es ↔ ∃ e ∈ es, name ∈ e.names := by
  induction es with
  | nil => simp [listNames]
  | cons e es ih => simp [listNames, ih]

theorem mem_propertiesNames {name : String} {properties : List (String × Expr)} :
    name ∈ propertiesNames properties ↔ ∃ p ∈ properties, name ∈ p.2.names := by
  induction properties with
  | nil => simp [propertiesNames]
  | cons p properties ih => simp [propertiesNames, ih]

mutual

/-- All names of an expression have passed. -/
theorem passes_of_mem_names {name : String} : (e : Expr) → name ∈ e.names → Passes name.toList
  | identifier i, h => by
    rw [names, List.mem_singleton] at h
    exact h ▸ i.passes
  | access target i, h => by
    rw [names, List.mem_append, List.mem_singleton] at h
    obtain h | h := h
    · exact passes_of_mem_names target h
    · exact h ▸ i.passes
  | string _, h => by
    rw [names] at h
    cases h
  | object properties, h => passes_of_mem_propertiesNames properties (by rwa [names] at h)
  | array elements _, h => passes_of_mem_listNames elements (by rwa [names] at h)

theorem passes_of_mem_listNames {name : String} :
    (es : List Expr) → name ∈ listNames es → Passes name.toList
  | [], h => by
    rw [listNames] at h
    cases h
  | e :: es, h => by
    rw [listNames, List.mem_append] at h
    obtain h | h := h
    · exact passes_of_mem_names e h
    · exact passes_of_mem_listNames es h

theorem passes_of_mem_propertiesNames {name : String} :
    (properties : List (String × Expr)) → name ∈ propertiesNames properties → Passes name.toList
  | [], h => by
    rw [propertiesNames] at h
    cases h
  | (_, e) :: properties, h => by
    rw [propertiesNames, List.mem_append] at h
    obtain h | h := h
    · exact passes_of_mem_names e h
    · exact passes_of_mem_propertiesNames properties h

end

/-- Separators without a line feed set none. -/
theorem newline_mem_joined {separator : List Char} (hseparator : '\n' ∉ separator)
    (pieces : List (List Char)) : '\n' ∈ joined separator pieces ↔ ∃ p ∈ pieces, '\n' ∈ p := by
  cases pieces with
  | nil => simp [joined, List.intercalate]
  | cons p ps => simp [joined_cons, hseparator]

theorem newline_mem_objectChars (pieces : List (List Char)) :
    '\n' ∈ objectChars pieces ↔ ∃ p ∈ pieces, '\n' ∈ p := by
  unfold objectChars
  split
  next hempty => simp [List.isEmpty_iff.1 hempty]
  next => simp [newline_mem_joined]

/-- An array whose elements do not stand on lines of their own. -/
theorem newline_mem_arrayChars {multiLine : Bool} (indent : List Char) {pieces : List (List Char)}
    (hlayout : multiLine = true → pieces = []) :
    '\n' ∈ arrayChars indent multiLine pieces ↔ ∃ p ∈ pieces, '\n' ∈ p := by
  unfold arrayChars
  split
  next hempty => simp [List.isEmpty_iff.1 hempty]
  next hne =>
    rw [if_neg fun h => hne (List.isEmpty_iff.2 (hlayout h))]
    simp [newline_mem_joined]

/-- Only names break the line of an expression that is laid out on one line. -/
theorem OnOneLine.newline_mem_iff {e : Expr} (h : e.OnOneLine) :
    '\n' ∈ e.chars ↔ ∃ name ∈ e.names, ¬ IsStrictIdentifier name.toList := by
  induction h with
  | identifier i => simp [chars, names, i.passes.newline_mem_iff]
  | @access target i htarget ih =>
    rw [chars, names, List.mem_append, List.mem_append, ih, i.passes.newline_mem_iff]
    simp [or_and_right, exists_or]
  | string text =>
    have hbody : '\n' ∉ text.toList.flatMap Text.literalChar := by
      intro hmem
      obtain ⟨c, -, hc⟩ := List.mem_flatMap.1 hmem
      exact newline_not_mem_literalChar c hc
    simp [chars, names, Text.literalChars, hbody]
  | @object properties hkeys hvalues ih =>
    rw [chars, newline_mem_objectChars, propertiesChars_eq_map, names]
    constructor
    · rintro ⟨piece, hpiece, hmem⟩
      obtain ⟨p, hp, rfl⟩ := List.mem_map.1 hpiece
      have hvalue : '\n' ∈ p.2.chars := by simpa [propertyChars, hkeys p hp] using hmem
      obtain ⟨name, hname, hnot⟩ := (ih p hp).1 hvalue
      exact ⟨name, mem_propertiesNames.2 ⟨p, hp, hname⟩, hnot⟩
    · rintro ⟨name, hname, hnot⟩
      obtain ⟨p, hp, hname⟩ := mem_propertiesNames.1 hname
      refine ⟨_, List.mem_map_of_mem hp, ?_⟩
      simp [propertyChars, (ih p hp).2 ⟨name, hname, hnot⟩]
  | @array elements multiLine hlayout helements ih =>
    rw [chars, newline_mem_arrayChars [] (by simpa [listChars_eq_map] using hlayout),
      listChars_eq_map, names]
    constructor
    · rintro ⟨piece, hpiece, hmem⟩
      obtain ⟨e, he, rfl⟩ := List.mem_map.1 hpiece
      obtain ⟨name, hname, hnot⟩ := (ih e he).1 hmem
      exact ⟨name, mem_listNames.2 ⟨e, he, hname⟩, hnot⟩
    · rintro ⟨name, hname, hnot⟩
      obtain ⟨e, he, hname⟩ := mem_listNames.1 hname
      exact ⟨e.chars, List.mem_map_of_mem he, (ih e he).2 ⟨name, hname, hnot⟩⟩

/-- An expression that is laid out on one line has the same text on every line. -/
theorem OnOneLine.charsAt_eq {e : Expr} (h : e.OnOneLine) (indent : List Char) :
    e.charsAt indent = e.chars := by
  cases h with
  | @array elements multiLine hlayout helements =>
    cases multiLine with
    | false => rfl
    | true =>
      rw [hlayout rfl]
      rfl
  | _ => rfl

end Expr

/-- The names of a statement: that which it declares, those of its members, and those of its
expression. -/
def Statement.names : Statement → List String
  | .enum d => d.name.text :: d.members.map (·.name)
  | .binding d => d.name.text :: d.initializer.names
  | .expression e _ => e.names

/-- A line feed breaks one of the lines. -/
def Broken (lines : List (List Char)) : Prop :=
  ∃ l ∈ lines, '\n' ∈ l

section

variable {indent name l : List Char} {lines lines' : List (List Char)} {modifiers : List String}

@[simp] theorem broken_append : Broken (lines ++ lines') ↔ Broken lines ∨ Broken lines' := by
  simp [Broken, or_and_right, exists_or]

@[simp] theorem broken_singleton : Broken [l] ↔ '\n' ∈ l := by
  simp [Broken]

/-- A comment never goes on past the end of a line. -/
theorem not_broken_commentLines (hindent : '\n' ∉ indent) (comment : Option String) :
    ¬ Broken (commentLines indent comment) := by
  unfold commentLines
  split
  next text _ =>
    rintro ⟨l, hl, hmem⟩
    simp only [docChars, List.mem_append, List.mem_singleton, List.mem_map] at hl
    obtain (rfl | ⟨k, hk, rfl⟩) | rfl := hl
    · simp [hindent] at hmem
    · exact Output.newline_not_mem_docLine hindent (Text.newline_not_mem_of_mem_lines hk) hmem
    · simp [hindent] at hmem
  next => simp [Broken]

theorem newline_not_mem_introduction {keyword : String} (hkeyword : '\n' ∉ keyword.toList)
    (hmodifiers : ∀ m ∈ modifiers, '\n' ∉ m.toList) :
    '\n' ∉ introduction modifiers keyword := by
  have hwords : '\n' ∉ Expr.joined " ".toList ((modifiers ++ [keyword]).map String.toList) := by
    rw [Expr.newline_mem_joined (by decide)]
    rintro ⟨word, hword, hmem⟩
    obtain ⟨m, hm, rfl⟩ := List.mem_map.1 hword
    obtain hm | hm := List.mem_append.1 hm
    · exact hmodifiers m hm hmem
    · exact hkeyword (List.mem_singleton.1 hm ▸ hmem)
  rw [introduction, String.toList_intercalate, List.mem_append]
  exact not_or.2 ⟨hwords, by decide⟩

/-- A name breaks its line exactly if it is no identifier in the strict sense. -/
theorem Passes.newline_mem_line_iff {front back : List Char} (h : Passes name)
    (hfront : '\n' ∉ front) (hback : '\n' ∉ back) :
    '\n' ∈ front ++ name ++ back ↔ ¬ IsStrictIdentifier name := by
  rw [← h.newline_mem_iff]
  simp [hfront, hback]

theorem Member.newline_mem_line_iff (hindent : '\n' ∉ indent) {m : Member}
    (h : Passes m.name.toList) : '\n' ∈ m.line indent ↔ ¬ IsStrictIdentifier m.name.toList := by
  have hnumber : '\n' ∉ [' ', '=', ' '] ++ (toString m.number).toList :=
    List.not_mem_append (by decide) (Layout.newline_not_mem_toString m.number)
  rw [line, List.append_assoc]
  exact h.newline_mem_line_iff hindent hnumber

theorem broken_memberLines_iff (hindent : '\n' ∉ indent) {ms : List Member}
    (hms : ∀ m ∈ ms, Passes m.name.toList) :
    Broken (EnumDeclaration.memberLines indent ms) ↔
      ∃ name ∈ ms.map (·.name), ¬ IsStrictIdentifier name.toList := by
  have hcomment := not_broken_commentLines hindent
  fun_induction EnumDeclaration.memberLines indent ms with
  | case1 => simp [Broken]
  | case2 m =>
    have hline := m.newline_mem_line_iff hindent (hms m List.mem_cons_self)
    simp [hcomment, hline]
  | case3 m ms hne ih =>
    obtain ⟨hm, hms⟩ := List.forall_mem_cons.1 hms
    have hline := m.newline_mem_line_iff hindent hm
    have hrest : Broken (EnumDeclaration.memberLines indent ms) ↔
        ∃ name ∈ ms.map (·.name), ¬ IsStrictIdentifier name.toList := ih hms
    rw [broken_append, broken_append, broken_singleton, hrest, List.map_cons,
      List.exists_mem_cons_iff]
    simp [hcomment, hline]

/-- The names of an enum declaration are all that breaks its lines. -/
theorem EnumDeclaration.broken_lines_iff (hindent : '\n' ∉ indent) {d : EnumDeclaration}
    (hmodifiers : ∀ m ∈ d.modifiers, '\n' ∉ m.toList)
    (hmembers : ∀ m ∈ d.members, Passes m.name.toList) :
    Broken (d.lines indent) ↔
      ∃ name ∈ (Statement.enum d).names, ¬ IsStrictIdentifier name.toList := by
  have hfront : '\n' ∉ indent ++ introduction d.modifiers "enum" :=
    List.not_mem_append hindent (newline_not_mem_introduction (by decide) hmodifiers)
  have hback : '\n' ∉ [' ', '\x7b'] := by decide
  have hhead := d.name.passes.newline_mem_line_iff hfront hback
  have hinner : '\n' ∉ indent ++ indentStep := List.not_mem_append hindent (by decide)
  have hbody := broken_memberLines_iff hinner hmembers
  have hclose : '\n' ∉ indent ++ ['\x7d'] := List.not_mem_append hindent (by decide)
  rw [lines, broken_append, broken_append, broken_append, broken_singleton, broken_singleton,
    hhead, hbody, Statement.names, List.exists_mem_cons_iff]
  simp only [not_broken_commentLines hindent, hclose, false_or, or_false]

/-- The names of a variable with a value on one line are all that breaks its lines. -/
theorem VariableDeclaration.broken_lines_iff (hindent : '\n' ∉ indent) {d : VariableDeclaration}
    (hmodifiers : ∀ m ∈ d.modifiers, '\n' ∉ m.toList) (hvalue : d.initializer.OnOneLine) :
    Broken (d.lines indent) ↔
      ∃ name ∈ (Statement.binding d).names, ¬ IsStrictIdentifier name.toList := by
  have hword : '\n' ∉ d.kind.word.toList := by cases d.kind <;> decide
  have hfront : '\n' ∉ indent ++ introduction d.modifiers d.kind.word :=
    List.not_mem_append hindent (newline_not_mem_introduction hword hmodifiers)
  have hline : '\n' ∈ indent ++ introduction d.modifiers d.kind.word ++ d.name.text.toList ++
      [' ', '=', ' '] ++ d.initializer.chars ++ [';'] ↔
      ¬ IsStrictIdentifier d.name.text.toList ∨ '\n' ∈ d.initializer.chars := by
    rw [← d.name.passes.newline_mem_iff, List.mem_append, List.mem_append, List.mem_append,
      List.mem_append]
    simp [hfront]
  rw [lines, broken_append, broken_singleton, hvalue.charsAt_eq, hline, hvalue.newline_mem_iff,
    Statement.names, List.exists_mem_cons_iff]
  simp only [not_broken_commentLines hindent, false_or]

end

namespace EnumDraft

variable {enum : String} {seen : List String} {ms : List Member}

theorem nodup_of_checkMembers (h : checkMembers enum seen ms = .ok ()) :
    (ms.map (·.name)).Nodup ∧ ∀ m ∈ ms, m.name ∉ seen := by
  induction ms generalizing seen with
  | nil => simp
  | cons m ms ih =>
    rw [checkMembers] at h
    split at h
    · cases h
    · split at h
      · cases h
      next hfresh =>
        obtain ⟨hnodup, hrest⟩ := ih h
        have hm : m.name ∉ seen := fun hmem => hfresh (List.contains_iff_mem.2 hmem)
        refine ⟨List.nodup_cons.2 ⟨fun hmem => ?_, hnodup⟩, List.forall_mem_cons.2 ⟨hm, ?_⟩⟩
        · obtain ⟨k, hk, hname⟩ := List.mem_map.1 hmem
          exact hrest k hk (hname ▸ List.mem_cons_self)
        · exact fun k hk hmem => hrest k hk (List.mem_cons_of_mem _ hmem)

theorem members_foldl_add (adds : List Member) (draft : EnumDraft) :
    (adds.foldl add draft).members = draft.members ++ adds := by
  induction adds generalizing draft with
  | nil => simp
  | cons m adds ih =>
    rw [List.foldl_cons, ih, add, List.append_assoc]
    rfl

/-- The drafts that can be finished, and what they make. -/
theorem finish_eq_ok_iff (draft : EnumDraft) (name : String) (modifiers : List String)
    (d : EnumDeclaration) :
    draft.finish name modifiers = .ok d ↔
      draft.members ≠ [] ∧ (∀ m ∈ draft.members, Passes m.name.toList) ∧
        (draft.members.map (·.name)).Nodup ∧ d.name.text = name ∧
        d = { name := d.name, members := draft.members, modifiers } := by
  constructor
  · intro h
    obtain ⟨hne, hmembers, hname, -, -⟩ := finish_ok h
    unfold finish at h
    split at h
    · cases h
    · obtain ⟨u, hcheck, h⟩ := Schema.bind_eq_ok h
      obtain ⟨i, hi, h⟩ := Schema.bind_eq_ok h
      cases h
      exact ⟨hne, fun m hm => (isIdentifier_iff m.name).1 (hmembers m hm),
        (nodup_of_checkMembers hcheck).1, hname, rfl⟩
  · rintro ⟨hne, hmembers, hnodup, rfl, hd⟩
    have hcheck : checkMembers d.name.text [] draft.members = .ok () :=
      checkMembers_eq_ok (fun m hm => (isIdentifier_iff m.name).2 (hmembers m hm)) hnodup (by simp)
    rw [finish, if_neg (by simpa using hne), hcheck,
      Identifier.ofText_eq_ok d.name.isIdentifier_text, hd]
    rfl

end EnumDraft

/-- What passes for an identifier is an identifier in the strict sense, perhaps with one line feed
behind it, and nothing else; the check is exact but for the texts with a line feed. Nodes are built
from names that pass, and from no others; so all names of an expression, of a variable and of an
enum that was built from any members have passed. Such names break their lines exactly if they are
no identifiers in the strict sense. -/
theorem names_pass (s : String) (e : Expr) (v : VariableDeclaration) (adds : List Member)
    (enum : String) (modifiers : List String) (d : EnumDeclaration) :
    (isIdentifier s = true ↔ Passes s.toList) ∧
    ((isIdentifier s = true ↔ IsStrictIdentifier s.toList) ↔
      (Passes s.toList → '\n' ∉ s.toList)) ∧
    ((∃ i, Identifier.ofText s = .ok i ∧ i.text = s) ↔ Passes s.toList) ∧
    ((∀ name ∈ e.names, Passes name.toList) ∧
      (e.OnOneLine → ('\n' ∈ e.chars ↔ ∃ name ∈ e.names, ¬ IsStrictIdentifier name.toList))) ∧
    ((∀ name ∈ (Statement.binding v).names, Passes name.toList) ∧
      ((∀ m ∈ v.modifiers, '\n' ∉ m.toList) → v.initializer.OnOneLine →
        (Broken (v.lines []) ↔
          ∃ name ∈ (Statement.binding v).names, ¬ IsStrictIdentifier name.toList))) ∧
    ((adds.foldl EnumDraft.add {}).finish enum modifiers = .ok d ↔
      adds ≠ [] ∧ (∀ m ∈ adds, Passes m.name.toList) ∧ (adds.map (·.name)).Nodup ∧
        d.name.text = enum ∧ d = { name := d.name, members := adds, modifiers }) ∧
    ((adds.foldl EnumDraft.add {}).finish enum modifiers = .ok d →
      (∀ name ∈ (Statement.enum d).names, Passes name.toList) ∧
      ((∀ m ∈ modifiers, '\n' ∉ m.toList) → (Broken (d.lines []) ↔
        ∃ name ∈ (Statement.enum d).names, ¬ IsStrictIdentifier name.toList))) := by
  have hdraft := EnumDraft.finish_eq_ok_iff (adds.foldl EnumDraft.add {}) enum modifiers d
  rw [EnumDraft.members_foldl_add] at hdraft
  refine ⟨isIdentifier_iff s, ?_, ?_,
    ⟨fun name => e.passes_of_mem_names, fun h => h.newline_mem_iff⟩,
    ⟨?_, fun hmodifiers hvalue => v.broken_lines_iff (by simp) hmodifiers hvalue⟩, hdraft,
    fun h => ?_⟩
  · rw [isIdentifier_iff]
    exact passes_iff_isStrictIdentifier_iff
  · constructor
    · rintro ⟨i, -, rfl⟩
      exact i.passes
    · intro h
      exact ⟨_, Identifier.ofText_eq_ok ((isIdentifier_iff s).2 h), rfl⟩
  · exact List.forall_mem_cons.2 ⟨v.name.passes, fun name => v.initializer.passes_of_mem_names⟩
  · obtain ⟨-, hmembers, -, -, hd⟩ := hdraft.1 h
    have hpass : ∀ m ∈ d.members, Passes m.name.toList := by
      rw [hd]
      exact hmembers
    refine ⟨List.forall_mem_cons.2 ⟨d.name.passes, List.forall_mem_map.2 hpass⟩,
      fun hmodifiers => d.broken_lines_iff (by simp) (by rwa [hd]) hpass⟩

/-- A name that passes though it has a line feed. -/
def brokenName : Identifier where
  text := "A\n"
  isIdentifier_text := rfl

/-- A variable with this name. -/
def brokenVariable : VariableDeclaration where
  name := brokenName
  initializer := .string "\n"
  modifiers := ["export"]

/-- A member with such a name behind one with a strict name. -/
def brokenMembers : List Member :=
  [{ name := "$b", number := 0 }, { name := "A\n", number := 1, comment := some "c\nd" }]

/-- The enum with these members. -/
def brokenEnum : EnumDeclaration where
  name := { text := "E", isIdentifier_text := rfl }
  members := brokenMembers
  modifiers := ["export"]

theorem not_isStrictIdentifier_brokenName : ¬ IsStrictIdentifier brokenName.text.toList :=
  fun h => h.newline_not_mem (by decide)

theorem names_pass_brokenName :
    ¬ (isIdentifier brokenName.text = true ↔ IsStrictIdentifier brokenName.text.toList) ∧
      (Expr.identifier brokenName).OnOneLine ∧ '\n' ∈ (Expr.identifier brokenName).chars ∧
      Broken (brokenVariable.lines []) ∧
      (brokenMembers.foldl EnumDraft.add {}).finish "E" ["export"] = .ok brokenEnum ∧
      Broken (brokenEnum.lines []) := by
  obtain ⟨-, hexact, -, ⟨-, hexpr⟩, ⟨-, hvariable⟩, -, hdraft⟩ :=
    names_pass brokenName.text (.identifier brokenName) brokenVariable brokenMembers "E" ["export"]
      brokenEnum
  have hexport : ∀ m ∈ ["export"], '\n' ∉ m.toList := by decide
  obtain ⟨-, henum⟩ := hdraft rfl
  refine ⟨fun h => hexact.1 h brokenName.passes (by decide), .identifier _, ?_, ?_, rfl, ?_⟩
  · exact (hexpr (.identifier brokenName)).2
      ⟨"A\n", List.mem_singleton_self _, not_isStrictIdentifier_brokenName⟩
  · exact (hvariable hexport (.string "\n")).2
      ⟨"A\n", List.mem_cons_self, not_isStrictIdentifier_brokenName⟩
  · exact (henum hexport).2
      ⟨"A\n", by simp [Statement.names, brokenEnum, brokenMembers],
        not_isStrictIdentifier_brokenName⟩

/-- A text with a line feed passes, and a member with this name breaks its line. -/
theorem isIdentifier_brokenName :
    isIdentifier "A\n" = true ∧ ¬ IsStrictIdentifier "A\n".toList ∧
      ∃ d, (EnumDraft.add {} { name := "A\n", number := 0 }).finish "E" = .ok d ∧
        (Statement.enum d).render = "enum E \x7b\n    A\n = 0\n\x7d" := by
  refine ⟨rfl, not_isStrictIdentifier_brokenName,
    { name := ⟨"E", rfl⟩, members := [{ name := "A\n", number := 0 }] }, rfl, ?_⟩
  decide +kernel

end SchemaEnums.TypeScript
