import SchemaEnums.Proofs.TypeScript.Delimited

namespace SchemaEnums.TypeScript

namespace Expr

/-- All names in the expression are identifiers in the strict sense. -/
inductive IsStrict : Expr → Prop where
  | identifier {name : Identifier} (hname : IsStrictIdentifier name.text.toList) :
    IsStrict (identifier name)
  | access {target : Expr} {name : Identifier} (htarget : target.IsStrict)
    (hname : IsStrictIdentifier name.text.toList) : IsStrict (access target name)
  | string (text : String) : IsStrict (string text)
  | object {properties : List (String × Expr)}
    (hkeys : ∀ p ∈ properties, IsStrictIdentifier p.1.toList)
    (hvalues : ∀ p ∈ properties, p.2.IsStrict) : IsStrict (object properties)
  | array {elements : List Expr} {multiLine : Bool} (helements : ∀ e ∈ elements, e.IsStrict) :
    IsStrict (array elements multiLine)

mutual

/-- The expression with all empty arrays on one line. -/
def normal : Expr → Expr
  | identifier name => identifier name
  | access target name => access target.normal name
  | string text => string text
  | object properties => object (normalProperties properties)
  | array elements multiLine => array (normalList elements) (multiLine && !elements.isEmpty)

def normalList : List Expr → List Expr
  | [] => []
  | e :: es => e.normal :: normalList es

def normalProperties : List (String × Expr) → List (String × Expr)
  | [] => []
  | (name, e) :: properties => (name, e.normal) :: normalProperties properties

end

/-- The expression without the names that are selected from it. -/
def stem : Expr → Expr
  | access target _ => target.stem
  | e => e

/-- The names that are selected from the stem, in order. -/
def path : Expr → List Identifier
  | access target name => target.path ++ [name]
  | _ => []

/-- The text of names that are selected one after the other. -/
def pathChars (names : List Identifier) : List Char :=
  names.flatMap fun name => '.' :: name.text.toList

/-- The character may be the first one of an expression from which no name is selected. -/
def Begins (c : Char) : Expr → Prop
  | identifier _ => isIdentifierStart c = true
  | access _ _ => False
  | string _ => c = '"'
  | object _ => c = '\x7b'
  | array _ _ => c = '['

section

variable {e e' : Expr} {es es' : List Expr} {names names' : List Identifier} {r r' : List Char}

theorem listChars_eq_map (es : List Expr) : listChars es = es.map chars := by
  induction es with
  | nil => rfl
  | cons e es ih => rw [listChars, ih, List.map_cons]

theorem propertiesChars_eq_map (properties : List (String × Expr)) :
    propertiesChars properties = properties.map fun p => propertyChars p.1 p.2.chars := by
  induction properties with
  | nil => rfl
  | cons p properties ih => rw [propertiesChars, ih, List.map_cons]

theorem normalList_eq_map (es : List Expr) : normalList es = es.map normal := by
  induction es with
  | nil => rfl
  | cons e es ih => rw [normalList, ih, List.map_cons]

theorem normalProperties_eq_map (properties : List (String × Expr)) :
    normalProperties properties = properties.map fun p => (p.1, p.2.normal) := by
  induction properties with
  | nil => rfl
  | cons p properties ih => rw [normalProperties, ih, List.map_cons]

theorem IsStrict.stem (h : e.IsStrict) : e.stem.IsStrict := by
  induction h with
  | access htarget hname ih => exact ih
  | identifier hname => exact .identifier hname
  | string text => exact .string text
  | object hkeys hvalues => exact .object hkeys hvalues
  | array helements => exact .array helements

theorem IsStrict.of_mem_path (h : e.IsStrict) :
    ∀ name ∈ e.path, IsStrictIdentifier name.text.toList := by
  induction h with
  | access htarget hname ih =>
    exact List.forall_mem_append.2 ⟨ih, List.forall_mem_singleton.2 hname⟩
  | _ => exact List.forall_mem_nil _

theorem chars_eq_stem_path (e : Expr) : e.chars = e.stem.chars ++ pathChars e.path := by
  match e with
  | access target name =>
    rw [chars, chars_eq_stem_path target, Expr.stem, path, pathChars, pathChars,
      List.flatMap_append]
    simp
  | identifier name => exact (List.append_nil _).symm
  | string text => exact (List.append_nil _).symm
  | object properties => exact (List.append_nil _).symm
  | array elements multiLine => exact (List.append_nil _).symm

theorem normal_eq_foldl (e : Expr) : e.normal = e.path.foldl access e.stem.normal := by
  match e with
  | access target name =>
    rw [normal, normal_eq_foldl target, path, List.foldl_append]
    rfl
  | identifier name => rfl
  | string text => rfl
  | object properties => rfl
  | array elements multiLine => rfl

/-- The stem and the names that are selected from it make the expression. -/
theorem normal_eq_of_stem_path (hstem : e.stem.normal = e'.stem.normal) (hpath : e.path = e'.path) :
    e.normal = e'.normal := by
  rw [normal_eq_foldl e, normal_eq_foldl e', hstem, hpath]

theorem endsName_pathChars (names : List Identifier) (hr : EndsName r) :
    EndsName (pathChars names ++ r) := by
  cases names with
  | nil => exact hr
  | cons name names => exact endsName_cons (by decide)

/-- Names that are selected tell where they end. -/
theorem pathChars_append_inj (hnames : ∀ n ∈ names, IsStrictIdentifier n.text.toList)
    (hnames' : ∀ n ∈ names', IsStrictIdentifier n.text.toList) (hr : Stops r) (hr' : Stops r')
    (h : pathChars names ++ r = pathChars names' ++ r') : names = names' ∧ r = r' := by
  have hdot {n : Identifier} {ns : List Identifier} {r r' : List Char} (hr : Stops r)
      (h : pathChars [] ++ r = pathChars (n :: ns) ++ r') : False := by
    refine hr.2 ?_
    rw [show r = pathChars (n :: ns) ++ r' from h]
    rfl
  induction names generalizing names' with
  | nil =>
    cases names' with
    | nil => exact ⟨rfl, h⟩
    | cons n' ns' => exact (hdot hr h).elim
  | cons n ns ih =>
    cases names' with
    | nil => exact (hdot hr' h.symm).elim
    | cons n' ns' =>
      obtain ⟨hn, hns⟩ := List.forall_mem_cons.1 hnames
      obtain ⟨hn', hns'⟩ := List.forall_mem_cons.1 hnames'
      simp only [pathChars, List.flatMap_cons, List.cons_append, List.append_assoc,
        List.cons.injEq, true_and] at h
      obtain ⟨htext, hrest⟩ := identifierParts_append_inj (fun _ => hn.isIdentifierPart_of_mem)
        (fun _ => hn'.isIdentifierPart_of_mem) (endsName_pathChars ns hr.1)
        (endsName_pathChars ns' hr'.1) h
      obtain ⟨rfl, heq⟩ := ih hns hns' hrest
      exact ⟨by rw [Identifier.eq_of_toList_eq htext], heq⟩

theorem exists_cons_objectChars (pieces : List (List Char)) :
    ∃ cs, objectChars pieces = '\x7b' :: cs := by
  unfold objectChars
  split
  · exact ⟨_, rfl⟩
  · exact ⟨_, rfl⟩

theorem exists_cons_arrayChars (indent : List Char) (multiLine : Bool) (pieces : List (List Char)) :
    ∃ cs, arrayChars indent multiLine pieces = '[' :: cs := by
  unfold arrayChars
  split
  · exact ⟨_, rfl⟩
  · split
    · exact ⟨_, rfl⟩
    · exact ⟨_, rfl⟩

/-- The first character tells what kind of expression follows. -/
theorem IsStrict.exists_cons (h : e.IsStrict) :
    ∃ c cs, e.stem.chars = c :: cs ∧ e.stem.Begins c := by
  induction h with
  | access htarget hname ih => exact ih
  | identifier hname =>
    obtain ⟨c, ds, hcons, hc⟩ := hname.exists_cons
    exact ⟨c, ds, hcons, hc⟩
  | string text => exact ⟨'"', _, rfl, rfl⟩
  | object hkeys hvalues =>
    obtain ⟨cs, hcons⟩ := exists_cons_objectChars (propertiesChars _)
    exact ⟨_, cs, hcons, rfl⟩
  | array helements =>
    obtain ⟨cs, hcons⟩ := exists_cons_arrayChars [] _ (listChars _)
    exact ⟨_, cs, hcons, rfl⟩

/-- An expression does not begin like the end of an array or like a new line. -/
theorem IsStrict.exists_cons_ne (h : e.IsStrict) :
    ∃ c cs, e.chars = c :: cs ∧ c ≠ ']' ∧ c ≠ '\n' := by
  obtain ⟨c, cs, hcons, hc⟩ := h.exists_cons
  refine ⟨c, cs ++ pathChars e.path, by rw [chars_eq_stem_path, hcons, List.cons_append], ?_⟩
  cases hstem : e.stem with
  | access target name =>
    rw [hstem] at hc
    exact hc.elim
  | identifier name =>
    rw [hstem] at hc
    constructor
    · rintro rfl
      cases hc
    · rintro rfl
      cases hc
  | _ =>
    rw [hstem] at hc
    rw [show c = _ from hc]
    decide

/-- The view of a property that its text determines. -/
def propertyView (p : String × Expr) : String × Expr :=
  (p.1, p.2.normal)

theorem readsUniquely_properties {properties properties' : List (String × Expr)}
    (hkeys : ∀ p ∈ properties, IsStrictIdentifier p.1.toList)
    (hkeys' : ∀ p ∈ properties', IsStrictIdentifier p.1.toList)
    (hvalues : ReadsUniquely (fun p => p.2.chars) (fun p => p.2.normal) properties properties') :
    ReadsUniquely (fun p => propertyChars p.1 p.2.chars) propertyView properties properties' := by
  intro p hp p' hp' s s' hs hs' h
  simp only [propertyChars, List.append_assoc, List.cons_append, List.nil_append] at h
  obtain ⟨hkey, hrest⟩ := identifierParts_append_inj
    (fun _ => (hkeys p hp).isIdentifierPart_of_mem)
    (fun _ => (hkeys' p' hp').isIdentifierPart_of_mem) (endsName_cons (by decide))
    (endsName_cons (by decide)) h
  simp only [List.cons.injEq, true_and] at hrest
  obtain ⟨hvalue, heq⟩ := hvalues p hp p' hp' s s' hs hs' hrest
  exact ⟨Prod.ext (String.toList_inj.1 hkey) hvalue, heq⟩

theorem objectChars_append_inj {properties properties' : List (String × Expr)}
    (hitem : ReadsUniquely (fun p => propertyChars p.1 p.2.chars) propertyView properties
      properties')
    (h : objectChars (propertiesChars properties) ++ r =
      objectChars (propertiesChars properties') ++ r') :
    (object properties).normal = (object properties').normal ∧ r = r' := by
  have hview : properties.map propertyView = properties'.map propertyView ∧ r = r' := by
    rw [propertiesChars_eq_map, propertiesChars_eq_map] at h
    cases properties with
    | nil =>
      cases properties' with
      | nil => exact ⟨rfl, List.append_cancel_left h⟩
      | cons p' ps' => simp [objectChars] at h
    | cons p ps =>
      cases properties' with
      | nil => simp [objectChars] at h
      | cons p' ps' =>
        have hseparator : Stops [',', ' '] := stops_cons (by decide) (by decide)
        have hclose : Stops [' ', '\x7d'] := stops_cons (by decide) (by decide)
        refine joined_append_inj hitem hseparator hclose (by decide) (List.cons_ne_nil p ps)
          (List.cons_ne_nil p' ps') ?_
        simpa [objectChars] using h
  refine ⟨?_, hview.2⟩
  rw [normal, normal, normalProperties_eq_map, normalProperties_eq_map]
  exact congrArg object hview.1

/-- An array has nothing between its brackets, or each element on a line of its own, or all of them
on one line. -/
theorem arrayChars_cases (indent : List Char) (multiLine : Bool) (hes : ∀ e ∈ es, e.IsStrict) :
    (es = [] ∧ arrayChars indent multiLine (listChars es) = ['[', ']']) ∨
      (es ≠ [] ∧ multiLine = true ∧ arrayChars indent multiLine (listChars es) =
        '[' :: '\n' :: (joined [',', '\n'] (es.map fun e => indent ++ indentStep ++ e.chars) ++
          '\n' :: (indent ++ [']']))) ∨
      (es ≠ [] ∧ multiLine = false ∧
        ∃ c cs, joined [',', ' '] (es.map chars) = c :: cs ∧ c ≠ ']' ∧ c ≠ '\n' ∧
          arrayChars indent multiLine (listChars es) = '[' :: (c :: cs ++ [']'])) := by
  rw [listChars_eq_map]
  cases es with
  | nil => exact .inl ⟨rfl, rfl⟩
  | cons e es =>
    cases multiLine with
    | true =>
      refine .inr (.inl ⟨List.cons_ne_nil e es, rfl, ?_⟩)
      simp [arrayChars, Function.comp_def]
    | false =>
      obtain ⟨c, cs, hcons, hclose, hfeed⟩ := (hes e List.mem_cons_self).exists_cons_ne
      have hjoined : joined [',', ' '] ((e :: es).map chars) =
          c :: (cs ++ (es.map chars).flatMap fun q => [',', ' '] ++ q) := by
        rw [List.map_cons, joined_cons, hcons, List.cons_append]
      refine .inr (.inr ⟨List.cons_ne_nil e es, rfl, c, _, hjoined, hclose, hfeed, ?_⟩)
      rw [← hjoined]
      simp [arrayChars]

theorem arrayChars_and_isEmpty (indent : List Char) (multiLine : Bool) (es : List Expr) :
    arrayChars indent (multiLine && !es.isEmpty) (listChars es) =
      arrayChars indent multiLine (listChars es) := by
  cases es with
  | nil => rfl
  | cons e es => rw [List.isEmpty_cons, Bool.not_false, Bool.and_true]

theorem normal_array_congr {multiLine : Bool} (h : es.map normal = es'.map normal) :
    (array es multiLine).normal = (array es' multiLine).normal := by
  have hempty : es.isEmpty = es'.isEmpty := by
    rw [← List.isEmpty_map (f := normal), h, List.isEmpty_map]
  rw [normal, normal, normalList_eq_map, normalList_eq_map, h, hempty]

/-- The text of an array on a line that is indented in a given way tells where it ends. -/
theorem arrayChars_append_inj {multiLine multiLine' : Bool} (indent : List Char)
    (hes : ∀ e ∈ es, e.IsStrict) (hes' : ∀ e ∈ es', e.IsStrict)
    (hitem : ReadsUniquely chars normal es es')
    (h : arrayChars indent multiLine (listChars es) ++ r =
      arrayChars indent multiLine' (listChars es') ++ r') :
    (array es multiLine).normal = (array es' multiLine').normal ∧ r = r' := by
  have hindented : ReadsUniquely (fun e => indent ++ indentStep ++ e.chars) normal es es' := by
    intro e he e' he' s s' hs hs' heq
    simp only [List.append_assoc] at heq
    exact hitem e he e' he' s s' hs hs' (List.append_cancel_left (List.append_cancel_left heq))
  -- The character behind the bracket tells which of the three cases both arrays are in.
  obtain ⟨rfl, htext⟩ | ⟨hne, rfl, htext⟩ | ⟨hne, rfl, c, cs, hjoined, hclose, hfeed, htext⟩ :=
    arrayChars_cases indent multiLine hes
  · rw [htext] at h
    obtain ⟨rfl, htext'⟩ | ⟨-, rfl, htext'⟩ | ⟨-, rfl, c', cs', -, hclose', -, htext'⟩ :=
      arrayChars_cases indent multiLine' hes'
    · rw [htext'] at h
      exact ⟨by simp [normal], List.append_cancel_left h⟩
    · simp [htext'] at h
    · simp [htext', Ne.symm hclose'] at h
  · rw [htext] at h
    obtain ⟨rfl, htext'⟩ | ⟨hne', rfl, htext'⟩ | ⟨-, rfl, c', cs', -, -, hfeed', htext'⟩ :=
      arrayChars_cases indent multiLine' hes'
    · simp [htext'] at h
    · rw [htext'] at h
      have hseparator : Stops [',', '\n'] := stops_cons (by decide) (by decide)
      have hend : Stops ('\n' :: (indent ++ [']'])) := stops_cons (by decide) (by decide)
      obtain ⟨hview, heq⟩ := joined_append_inj hindented hseparator hend (by decide) hne hne'
        (by simpa using h)
      exact ⟨normal_array_congr hview, heq⟩
    · simp [htext', Ne.symm hfeed'] at h
  · rw [htext] at h
    obtain ⟨rfl, htext'⟩ | ⟨-, rfl, htext'⟩ | ⟨hne', rfl, c', cs', hjoined', -, -, htext'⟩ :=
      arrayChars_cases indent multiLine' hes'
    · simp [htext', hclose] at h
    · simp [htext', hfeed] at h
    · rw [htext', ← hjoined, ← hjoined'] at h
      have hseparator : Stops [',', ' '] := stops_cons (by decide) (by decide)
      have hend : Stops [']'] := stops_cons (by decide) (by decide)
      obtain ⟨hview, heq⟩ := joined_append_inj hitem hseparator hend (by decide) hne hne'
        (by simpa using h)
      exact ⟨normal_array_congr hview, heq⟩

/-- Both texts begin with the first character of the stems. -/
theorem exists_begins (he : e.IsStrict) (he' : e'.IsStrict) (h : e.chars ++ r = e'.chars ++ r') :
    ∃ c, e.stem.Begins c ∧ e'.stem.Begins c := by
  obtain ⟨c, cs, hcons, hc⟩ := he.exists_cons
  obtain ⟨c', cs', hcons', hc'⟩ := he'.exists_cons
  rw [chars_eq_stem_path e, chars_eq_stem_path e', hcons, hcons'] at h
  obtain rfl : c = c' := (List.cons.inj h).1
  exact ⟨c, hc, hc'⟩

/-- With its stem an expression is read as well, where no other name is selected behind it. -/
theorem normal_eq_of_stem_append_eq (he : e.IsStrict) (he' : e'.IsStrict) (hr : Stops r)
    (hr' : Stops r')
    (h : e.stem.normal = e'.stem.normal ∧ pathChars e.path ++ r = pathChars e'.path ++ r') :
    e.normal = e'.normal ∧ r = r' := by
  obtain ⟨hpath, heq⟩ := pathChars_append_inj he.of_mem_path he'.of_mem_path hr hr' h.2
  exact ⟨normal_eq_of_stem_path h.1 hpath, heq⟩

theorem Begins.exists_identifier {c : Char} (h : e.Begins c) (hc : isIdentifierStart c = true) :
    ∃ name, e = identifier name := by
  cases e with
  | identifier name => exact ⟨name, rfl⟩
  | access => exact h.elim
  | _ =>
    rw [show c = _ from h] at hc
    cases hc

theorem Begins.exists_string (h : e.Begins '"') : ∃ text, e = string text := by
  cases e with
  | string text => exact ⟨text, rfl⟩
  | _ => cases h

theorem Begins.exists_object (h : e.Begins '\x7b') : ∃ properties, e = object properties := by
  cases e with
  | object properties => exact ⟨properties, rfl⟩
  | _ => cases h

theorem Begins.exists_array (h : e.Begins '[') : ∃ es multiLine, e = array es multiLine := by
  cases e with
  | array es multiLine => exact ⟨es, multiLine, rfl⟩
  | _ => cases h

/-- The text of an expression tells its stem and where that ends. -/
theorem IsStrict.stem_append_inj (he : e.IsStrict) (he' : e'.IsStrict) (hr : EndsName r)
    (hr' : EndsName r') (h : e.chars ++ r = e'.chars ++ r') :
    e.stem.normal = e'.stem.normal ∧ pathChars e.path ++ r = pathChars e'.path ++ r' := by
  have hends := endsName_pathChars e'.path hr'
  induction he generalizing e' r r' with
  | @access target name htarget hname ih =>
    -- The name is read with what stands behind the target.
    have htext : target.chars ++ ('.' :: (name.text.toList ++ r)) = e'.chars ++ r' := by
      simpa [chars] using h
    obtain ⟨hstem, hrest⟩ := ih he' (endsName_cons (by decide)) hr' htext hends
    exact ⟨hstem, by simpa [path, pathChars] using hrest⟩
  | @identifier name hname =>
    obtain ⟨c, hc, hc'⟩ := exists_begins (.identifier hname) he' h
    have hstrict := he'.stem
    rw [chars_eq_stem_path e', List.append_assoc] at h
    obtain ⟨name', hstem⟩ := hc'.exists_identifier hc
    rw [hstem] at h hstrict ⊢
    cases hstrict with
    | identifier hname' =>
      obtain ⟨htext, heq⟩ := identifierParts_append_inj (fun _ => hname.isIdentifierPart_of_mem)
        (fun _ => hname'.isIdentifierPart_of_mem) hr hends h
      exact ⟨congrArg (normal ∘ Expr.identifier) (Identifier.eq_of_toList_eq htext), heq⟩
  | string text =>
    obtain ⟨c, rfl, hc'⟩ := exists_begins (.string text) he' h
    rw [chars_eq_stem_path e', List.append_assoc] at h
    obtain ⟨text', hstem⟩ := hc'.exists_string
    rw [hstem] at h ⊢
    obtain ⟨htext, heq⟩ := literalChars_append_inj h
    exact ⟨congrArg (normal ∘ Expr.string) (String.toList_inj.1 htext), heq⟩
  | @object properties hkeys hvalues ih =>
    obtain ⟨c, rfl, hc'⟩ := exists_begins (.object hkeys hvalues) he' h
    have hstrict := he'.stem
    rw [chars_eq_stem_path e', List.append_assoc] at h
    obtain ⟨properties', hstem⟩ := hc'.exists_object
    rw [hstem] at h hstrict ⊢
    cases hstrict with
    | object hkeys' hvalues' =>
      refine objectChars_append_inj (readsUniquely_properties hkeys hkeys' ?_) h
      intro p hp p' hp' s s' hs hs' htext
      exact normal_eq_of_stem_append_eq (hvalues p hp) (hvalues' p' hp') hs hs'
        (ih p hp (hvalues' p' hp') hs.1 hs'.1 htext (endsName_pathChars _ hs'.1))
  | @array es multiLine hes ih =>
    obtain ⟨c, rfl, hc'⟩ := exists_begins (.array hes) he' h
    have hstrict := he'.stem
    rw [chars_eq_stem_path e', List.append_assoc] at h
    obtain ⟨es', multiLine', hstem⟩ := hc'.exists_array
    rw [hstem] at h hstrict ⊢
    cases hstrict with
    | array hes' =>
      refine arrayChars_append_inj [] hes hes' ?_ h
      intro a ha b hb s s' hs hs' htext
      exact normal_eq_of_stem_append_eq (hes a ha) (hes' b hb) hs hs'
        (ih a ha (hes' b hb) hs.1 hs'.1 htext (endsName_pathChars _ hs'.1))

/-- The text of an expression tells where it ends, and which expression it is. -/
theorem IsStrict.chars_append_inj (he : e.IsStrict) (he' : e'.IsStrict) (hr : Stops r)
    (hr' : Stops r') (h : e.chars ++ r = e'.chars ++ r') : e.normal = e'.normal ∧ r = r' :=
  normal_eq_of_stem_append_eq he he' hr hr' (he.stem_append_inj he' hr.1 hr'.1 h)

theorem readsUniquely_chars (hes : ∀ e ∈ es, e.IsStrict) (hes' : ∀ e ∈ es', e.IsStrict) :
    ReadsUniquely chars normal es es' :=
  fun e he e' he' _ _ hs hs' h => (hes e he).chars_append_inj (hes' e' he') hs hs' h

mutual

/-- The text of an expression does not depend on the layout of its empty arrays. -/
theorem chars_normal : (e : Expr) → e.normal.chars = e.chars
  | identifier name => rfl
  | access target name => by rw [normal, chars, chars, chars_normal target]
  | string text => rfl
  | object properties => by rw [normal, chars, chars, propertiesChars_normal properties]
  | array elements multiLine => by
    rw [normal, chars, chars, listChars_normal elements, arrayChars_and_isEmpty]

theorem listChars_normal : (es : List Expr) → listChars (normalList es) = listChars es
  | [] => rfl
  | e :: es => by rw [normalList, listChars, listChars, chars_normal e, listChars_normal es]

theorem propertiesChars_normal : (properties : List (String × Expr)) →
    propertiesChars (normalProperties properties) = propertiesChars properties
  | [] => rfl
  | (name, e) :: properties => by
    rw [normalProperties, propertiesChars, propertiesChars, chars_normal e,
      propertiesChars_normal properties]

end

theorem charsAt_normal (indent : List Char) (e : Expr) :
    e.normal.charsAt indent = e.charsAt indent := by
  cases e with
  | array elements multiLine =>
    rw [normal, charsAt, charsAt, listChars_normal, arrayChars_and_isEmpty]
  | _ => exact chars_normal _

theorem exists_concat_arrayChars (indent : List Char) (multiLine : Bool)
    (pieces : List (List Char)) : ∃ cs, arrayChars indent multiLine pieces = cs ++ [']'] := by
  unfold arrayChars
  split
  · exact ⟨['['], rfl⟩
  · split
    · exact ⟨_, rfl⟩
    · exact ⟨_, rfl⟩

/-- An array on an indented line has the text of no other expression, since it begins and ends with
its brackets. -/
theorem IsStrict.chars_ne_arrayChars (h : e.IsStrict)
    (harray : ∀ es multiLine, e ≠ Expr.array es multiLine) (indent : List Char) (multiLine : Bool)
    (pieces : List (List Char)) :
    e.chars ≠ arrayChars indent multiLine pieces := by
  intro heq
  cases h with
  | @access target name htarget hname =>
    obtain ⟨cs, hcs⟩ := exists_concat_arrayChars indent multiLine pieces
    obtain ⟨ds, d, hds⟩ : ∃ ds d, name.text.toList = ds ++ [d] :=
      ⟨_, _, (List.dropLast_concat_getLast hname.ne_nil).symm⟩
    rw [hcs, chars, hds, ← List.append_assoc] at heq
    obtain rfl : d = ']' := by simpa using (List.append_inj' heq rfl).2
    have hpart := hname.isIdentifierPart_of_mem (c := ']') (by simp [hds])
    cases hpart
  | array => exact harray _ _ rfl
  | identifier hname =>
    obtain ⟨cs, hcs⟩ := exists_cons_arrayChars indent multiLine pieces
    obtain ⟨c, ds, hcons, hc⟩ := hname.exists_cons
    rw [chars, hcons, hcs] at heq
    rw [(List.cons.inj heq).1] at hc
    cases hc
  | string text =>
    obtain ⟨cs, hcs⟩ := exists_cons_arrayChars indent multiLine pieces
    rw [hcs] at heq
    cases (List.cons.inj heq).1
  | object =>
    obtain ⟨cs, hcs⟩ := exists_cons_arrayChars indent multiLine pieces
    obtain ⟨ds, hds⟩ := exists_cons_objectChars (propertiesChars _)
    rw [chars, hcs, hds] at heq
    cases (List.cons.inj heq).1

theorem charsAt_of_ne_array (h : ∀ es multiLine, e ≠ array es multiLine) (indent : List Char) :
    e.charsAt indent = e.chars := by
  cases e with
  | array es multiLine => exact absurd rfl (h es multiLine)
  | _ => rfl

/-- On a line that is indented in a given way an expression is determined by its text. -/
theorem IsStrict.charsAt_inj (he : e.IsStrict) (he' : e'.IsStrict) {indent : List Char}
    (h : e.charsAt indent = e'.charsAt indent) : e.normal = e'.normal := by
  by_cases harray : ∃ es multiLine, e = Expr.array es multiLine
  · obtain ⟨es, multiLine, rfl⟩ := harray
    by_cases harray' : ∃ es multiLine, e' = Expr.array es multiLine
    · obtain ⟨es', multiLine', rfl⟩ := harray'
      cases he with
      | array hes =>
        cases he' with
        | array hes' =>
          have htext : arrayChars indent multiLine (listChars es) ++ [] =
              arrayChars indent multiLine' (listChars es') ++ [] := congrArg (· ++ []) h
          exact (arrayChars_append_inj indent hes hes' (readsUniquely_chars hes hes') htext).1
    · have hother : ∀ es multiLine, e' ≠ Expr.array es multiLine := by simpa using harray'
      rw [charsAt_of_ne_array hother] at h
      exact absurd h.symm (he'.chars_ne_arrayChars hother indent _ _)
  · have hother : ∀ es multiLine, e ≠ Expr.array es multiLine := by simpa using harray
    rw [charsAt_of_ne_array hother] at h
    by_cases harray' : ∃ es multiLine, e' = Expr.array es multiLine
    · obtain ⟨es', multiLine', rfl⟩ := harray'
      exact absurd h (he.chars_ne_arrayChars hother indent _ _)
    · have hother' : ∀ es multiLine, e' ≠ Expr.array es multiLine := by simpa using harray'
      rw [charsAt_of_ne_array hother'] at h
      exact (he.chars_append_inj he' .nil .nil (congrArg (· ++ []) h)).1

theorem charsAt_nil (e : Expr) : e.charsAt [] = e.chars := by
  cases e <;> rfl

theorem IsStrict.charsAt_eq_iff (he : e.IsStrict) (he' : e'.IsStrict) (indent : List Char) :
    e.charsAt indent = e'.charsAt indent ↔ e.normal = e'.normal := by
  refine ⟨he.charsAt_inj he', fun h => ?_⟩
  rw [← charsAt_normal, h, charsAt_normal]

end

/-- Expressions in which all names are identifiers in the strict sense have the same text exactly if
they are equal, up to the layout of empty arrays. The same holds on lines that are all indented in
one way. -/
theorem render_eq_iff {e e' : Expr} (he : e.IsStrict) (he' : e'.IsStrict) :
    (e.render = e'.render ↔ e.normal = e'.normal) ∧
      ∀ indent, e.renderAt indent = e'.renderAt indent ↔ e.normal = e'.normal := by
  constructor
  · rw [render, render, String.ofList_inj, ← charsAt_nil e, ← charsAt_nil e']
    exact he.charsAt_eq_iff he' []
  · intro indent
    rw [renderAt, renderAt, String.ofList_inj]
    exact he.charsAt_eq_iff he' indent.toList

/-- The identifier `a`. -/
def shortName : Identifier where
  text := "a"
  isIdentifier_text := rfl

/-- An array with arrays inside, one of which may have its one element on a line of its own, and one
which is empty. -/
def nestedArrays (multiLine emptyMultiLine : Bool) : Expr :=
  .array [.array [.access (.identifier shortName) shortName] multiLine,
    .object [("a", .string "\"]\n, [ .a"),
      ("$b", .access (.array [] emptyMultiLine) shortName)]] true

theorem isStrict_nestedArrays (multiLine emptyMultiLine : Bool) :
    (nestedArrays multiLine emptyMultiLine).IsStrict := by
  have hname : IsStrictIdentifier shortName.text.toList := ⟨'a', [], rfl, rfl, by simp⟩
  have hkey : IsStrictIdentifier "$b".toList :=
    ⟨'$', ['b'], rfl, rfl, List.forall_mem_singleton.2 rfl⟩
  have hinner : (Expr.array [.access (.identifier shortName) shortName] multiLine).IsStrict :=
    .array (List.forall_mem_singleton.2 (.access (.identifier hname) hname))
  have hempty : (Expr.array [] emptyMultiLine).IsStrict := .array (List.forall_mem_nil _)
  refine .array (List.forall_mem_cons.2 ⟨hinner, List.forall_mem_singleton.2 (.object ?_ ?_)⟩)
  · exact List.forall_mem_cons.2 ⟨hname, List.forall_mem_singleton.2 hkey⟩
  · exact List.forall_mem_cons.2 ⟨.string _, List.forall_mem_singleton.2 (.access hempty hname)⟩

theorem render_eq_iff_nestedArrays :
    (nestedArrays true true).IsStrict ∧ (nestedArrays true false).IsStrict ∧
      (nestedArrays false true).IsStrict ∧
      (nestedArrays true true).render = (nestedArrays true false).render ∧
      (nestedArrays true true).renderAt " " ≠ (nestedArrays false true).renderAt " " := by
  have hstrict := isStrict_nestedArrays
  have hempty := render_eq_iff (hstrict true true) (hstrict true false)
  have hother := render_eq_iff (hstrict true true) (hstrict false true)
  refine ⟨hstrict _ _, hstrict _ _, hstrict _ _, hempty.1.2 rfl, fun h => ?_⟩
  cases (hother.2 " ").1 h

end Expr

end SchemaEnums.TypeScript
