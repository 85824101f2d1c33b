import SchemaEnums.Descriptor.Load
import SchemaEnums.Proofs.Layout.Descriptors
import SchemaEnums.Proofs.Layout.Parse

namespace SchemaEnums.Layout

open Source Schema

/-- A tree ends with a line that has code. -/
theorem Tree.settled_lines (t : Tree) (front : List Line) : Settled (front ++ t.lines) := by
  cases t with
  | enum e =>
    rw [Tree.lines, Enumeration.lines, ← List.append_assoc]
    exact .concat _ hasCode_closing
  | message name trees =>
    rw [Tree.lines, ← List.append_assoc]
    exact .concat _ hasCode_closing

section

variable {o : Origin} {front rest : List Line}

mutual

theorem Tree.enumsOfItem_eq (package : Option String) : (t : Tree) → {front rest : List Line} →
    (parents : List String) → Continues o front (t.lines ++ rest) →
    o.enumsOfItem package parents (t.item id (after {} front)) =
      t.descriptors o.file package parents (1 + front.length)
  | .enum e, front, rest, parents, h => by
    rw [Tree.lines] at h
    rw [Tree.item, Tree.descriptors]
    exact h.enum_eq package parents
  | .message name trees, front, rest, parents, h => by
    let header : Line := { code := headerCode .message name }
    have hheader : Settled (front ++ [header]) := by
      have hmem : '\x7b' ∈ headerCode .message name :=
        List.mem_append_right _ (List.mem_cons_of_mem ' ' List.mem_cons_self)
      exact .concat _ ⟨'\x7b', hmem, by decide⟩
    have hlines : (Tree.message name trees).lines ++ rest =
        [header] ++ (linesOf trees ++ closing :: rest) := by
      simp [Tree.lines, header]
    rw [hlines] at h
    have htrees := enumsOfItems_eq package trees (parents ++ [name.text]) (h.skip hheader)
    rw [after_append, List.length_append, List.length_singleton, ← Nat.add_assoc] at htrees
    rw [Tree.item, Tree.descriptors, Origin.enumsOfItem]
    exact htrees

theorem enumsOfItems_eq (package : Option String) : (ts : List Tree) → {front rest : List Line} →
    (parents : List String) → Continues o front (linesOf ts ++ rest) →
    o.enumsOfItems package parents (itemsOf id (after {} front) ts) =
      descriptorsOf o.file package parents (1 + front.length) ts
  | [], front, rest, parents, h => by
    rw [itemsOf, descriptorsOf, Origin.enumsOfItems]
  | t :: ts, front, rest, parents, h => by
    rw [linesOf, List.append_assoc] at h
    have ht := t.enumsOfItem_eq package parents h
    have hts := enumsOfItems_eq package ts parents (h.skip (t.settled_lines front))
    rw [after_append, List.length_append, ← Nat.add_assoc] at hts
    rw [itemsOf, descriptorsOf, Origin.enumsOfItems, ht, hts]

end

/-- All enums of a file without messages around them stand after its package statement. -/
theorem enumsAfter_itemsOf (o : Origin) (package : Option String) (p : Position) (ts : List Tree) :
    o.enumsAfter package (itemsOf id p ts) = o.enumsOfItems package [] (itemsOf id p ts) := by
  induction ts generalizing p with
  | nil =>
    rw [itemsOf, Origin.enumsAfter, Origin.enumsOfItems]
  | cons t ts ih =>
    cases t with
    | enum e =>
      rw [itemsOf, Tree.item, Enumeration.item, Origin.enumsAfter, Origin.enumsOfItems, ih]
      simp
    | message name trees =>
      rw [itemsOf, Tree.item, Origin.enumsAfter, Origin.enumsOfItems, ih]
      simp

theorem filterMap_itemsOf {α : Type} {g : Item Int → Option α} (p : Position) (ts : List Tree)
    (hg : ∀ span head items, g (.block span head items) = none) :
    (itemsOf id p ts).filterMap g = [] := by
  induction ts generalizing p with
  | nil => rfl
  | cons t ts ih =>
    have ht : g (t.item id p) = none := by
      cases t with
      | enum e => exact hg _ _ _
      | message name trees => exact hg _ _ _
    rw [itemsOf, List.filterMap_cons_none ht, ih]

end

/-- The lines after the package statement, if there is one. -/
theorem continues_trees (f : Forest) (file : Option String) :
    Continues { file, source := render f.lines, comments := commentsOf {} f.lines } f.packageLines
      (linesOf f.trees ++ []) where
  source := by rw [List.append_nil, Forest.lines]
  comments := by rw [List.append_nil, Forest.lines]
  front_single l hl := f.isSingle_lines l (List.mem_append_left _ hl)
  rest_single l hl := by
    rw [List.append_nil] at hl
    exact isSingle_linesOf f.trees l hl
  settled := by
    unfold Forest.packageLines
    cases f.package with
    | none => exact .nil
    | some name =>
      exact .concat [] ⟨';', List.mem_append_right _ List.mem_cons_self, by decide⟩

/-- The items of a printed forest have the descriptors that stand beside it. -/
theorem ofSchema_items (f : Forest) (file : Option String) :
    FileDescriptor.ofSchema file (render f.lines)
      { items := f.items id, comments := commentsOf {} f.lines } = f.descriptor file := by
  let o : Origin := { file, source := render f.lines, comments := commentsOf {} f.lines }
  let package := f.package.map fun name => (Forest.packageName name).text
  have htrees := enumsOfItems_eq package f.trees [] (continues_trees f file)
  have henums : o.enumsAfter none (f.items id) =
      o.enumsAfter package (itemsOf id (after {} f.packageLines) f.trees) := by
    unfold package Forest.items Forest.packageItems
    cases f.package with
    | none => rfl
    | some name =>
      show o.enumsAfter none (_ :: _) = _
      rw [Origin.enumsAfter]
      rfl
  have hpackage : ((f.items id).filterMap Item.package?).getLast? = package := by
    rw [Forest.items, List.filterMap_append, filterMap_itemsOf _ _ fun _ _ _ => rfl]
    unfold package Forest.packageItems
    cases f.package <;> rfl
  have hedition : ((f.items id).filterMap Item.edition?).getLast? = none := by
    rw [Forest.items, List.filterMap_append, filterMap_itemsOf _ _ fun _ _ _ => rfl]
    unfold Forest.packageItems
    cases f.package <;> rfl
  rw [FileDescriptor.ofSchema, henums, enumsAfter_itemsOf, htrees, hpackage, hedition]
  rfl

theorem firstRepeat?_eq_none {seen vs : List ValueDescriptor}
    (hvs : (vs.map ValueDescriptor.number).Nodup)
    (hseen : ∀ w ∈ seen, w.number ∉ vs.map ValueDescriptor.number) :
    ValueDescriptor.firstRepeat? seen vs = none := by
  induction vs generalizing seen with
  | nil => rfl
  | cons v vs ih =>
    rw [List.map_cons, List.nodup_cons] at hvs
    have hfind : seen.find? (fun w => w.number == v.number) = none := by
      rw [List.find?_eq_none]
      intro w hw heq
      exact hseen w hw (by simpa using .inl (beq_iff_eq.1 heq))
    have hnext : ∀ w ∈ v :: seen, w.number ∉ vs.map ValueDescriptor.number := by
      intro w hw hmem
      rcases List.mem_cons.1 hw with rfl | hw
      · exact hvs.1 hmem
      · exact hseen w hw (List.mem_cons_of_mem _ hmem)
    rw [ValueDescriptor.firstRepeat?, hfind]
    exact ih hvs.2 hnext

theorem map_number_valueDescriptors (file : Option String) (line : Nat) (vs : List Value) :
    (valueDescriptors file line vs).map ValueDescriptor.number = vs.map Value.number := by
  induction vs generalizing line with
  | nil => rfl
  | cons v vs ih =>
    rw [valueDescriptors, List.map_cons, ih]
    rfl

theorem Enumeration.repeated?_descriptor (e : Enumeration) (file package : Option String)
    (parents : List String) (line : Nat) :
    (e.descriptor file package parents line).repeated? = none := by
  rw [EnumDescriptor.repeated?]
  split
  · rfl
  · rename_i hallow
    have hnodup := e.distinct (by simpa [descriptor] using hallow)
    rw [firstRepeat?_eq_none, Option.map_none]
    · rw [descriptor, map_number_valueDescriptors]
      exact hnodup
    · intro n hn
      cases hn

section

variable {file package : Option String} {d : EnumDescriptor}

mutual

theorem Tree.repeated?_of_mem : (t : Tree) → {parents : List String} → {line : Nat} →
    d ∈ t.descriptors file package parents line → d.repeated? = none
  | .enum e, parents, line, hd => by
    rw [Tree.descriptors, List.mem_singleton] at hd
    rw [hd]
    exact e.repeated?_descriptor file package parents line
  | .message name trees, parents, line, hd => by
    rw [Tree.descriptors] at hd
    exact repeated?_of_mem trees hd

theorem repeated?_of_mem : (ts : List Tree) → {parents : List String} → {line : Nat} →
    d ∈ descriptorsOf file package parents line ts → d.repeated? = none
  | [], parents, line, hd => by
    rw [descriptorsOf] at hd
    cases hd
  | t :: ts, parents, line, hd => by
    rw [descriptorsOf] at hd
    rcases List.mem_append.1 hd with hd | hd
    · exact t.repeated?_of_mem hd
    · exact repeated?_of_mem ts hd

end

end

theorem checkAll_of_repeated? {ds : List EnumDescriptor} (hds : ∀ d ∈ ds, d.repeated? = none) :
    (EnumDescriptor.checkAll ds).result = .ok () := by
  induction ds with
  | nil => rfl
  | cons d ds ih =>
    have hd : d.check.result = .ok () := by
      rw [EnumDescriptor.check, hds d List.mem_cons_self]
      rfl
    rw [EnumDescriptor.checkAll, Noted.result_bind, hd]
    exact ih fun d' hd' => hds d' (List.mem_cons_of_mem d hd')

/-- From the text of a forest its descriptor is loaded: its package, and every enum with its name,
its parents, its flags, its values and the comments of all of them. -/
theorem load_text (f : Forest) (file : Option String) :
    (FileDescriptor.load file f.text).result = .ok (f.descriptor file) := by
  have hcheck : (EnumDescriptor.checkAll (f.descriptor file).enums).result = .ok () :=
    checkAll_of_repeated? fun d hd => repeated?_of_mem f.trees hd
  have hschema : FileDescriptor.ofSchema file f.text.toList
      { items := f.items id, comments := commentsOf {} f.lines } = f.descriptor file := by
    rw [Forest.text, String.toList_ofList]
    exact ofSchema_items f file
  rw [FileDescriptor.load, parse_text, Noted.result_bind]
  show Noted.result (EnumDescriptor.checkAll (FileDescriptor.ofSchema file f.text.toList
    { items := f.items id, comments := commentsOf {} f.lines }).enums >>= _) = _
  rw [hschema, Noted.result_bind, hcheck]
  rfl

/-- An enum in a message, with all that can be printed of an enum. -/
def jobs : Forest where
  package := some (⟨"shop", Lexeme.isName_cons rfl rfl⟩, [⟨"jobs", Lexeme.isName_cons rfl rfl⟩])
  trees := [.message ⟨"Job", Lexeme.isName_cons rfl rfl⟩ [.enum {
    leading := [⟨"State of a job.", by decide⟩]
    name := ⟨"State", Lexeme.isName_cons rfl rfl⟩
    allowAlias := true
    trailing := some ⟨"of any kind", by decide⟩
    values := [
      { name := ⟨⟨"IDLE", Lexeme.isName_cons rfl rfl⟩, by decide⟩
        number := 0 },
      { leading := [⟨"Not", by decide⟩, ⟨"used", by decide⟩]
        name := ⟨⟨"NONE", Lexeme.isName_cons rfl rfl⟩, by decide⟩
        number := 0
        deprecated := true
        trailing := some ⟨"yet", by decide⟩ }]
    distinct := by decide }]]

theorem load_text_jobs :
    jobs.text =
      "package shop.jobs;\nmessage Job \x7b\n// State of a job.\nenum State \x7b // of any kind\n" ++
      "option allow_alias = true;\nIDLE = 0;\n// Not\n// used\nNONE = 0 [deprecated = true]; // yet\n" ++
      "\x7d\n\x7d\n" ∧
    (FileDescriptor.load none jobs.text).result = .ok
      { file := none
        package := some "shop.jobs"
        enums := [
          { name := some "State"
            package := some "shop.jobs"
            parents := ["Job"]
            allowAlias := true
            documentation := { leading := some "State of a job.", trailing := some "of any kind" }
            line := some 4
            values := [
              { name := "IDLE", number := 0, line := some 6 },
              { name := "NONE"
                number := 0
                deprecated := true
                documentation := { leading := some "Not\nused", trailing := some "yet" }
                line := some 9 }] }] } :=
  ⟨by decide +kernel, (load_text jobs none).trans (congrArg Except.ok (by decide +kernel))⟩

end SchemaEnums.Layout
