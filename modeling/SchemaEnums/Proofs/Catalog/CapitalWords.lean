import SchemaEnums.Proofs.Catalog.Contract
import SchemaEnums.Proofs.Source.Spelling

namespace SchemaEnums

/-- An ASCII capital, and ASCII small letters and digits. -/
structure CapitalWord where
  first : Char
  others : List Char
  isUpper_first : first.isUpper = true
  isSmall_others : ∀ c ∈ others, c.isLower = true ∨ c.isDigit = true

namespace CapitalWord

def chars (w : CapitalWord) : List Char :=
  w.first :: w.others

/-- The word with all letters in capitals. -/
def capitals (w : CapitalWord) : List Char :=
  w.first :: w.others.map Char.toUpper

/-- The name that is made of the words. -/
def joined (ws : List CapitalWord) : String :=
  String.ofList (ws.flatMap chars)

/-- The words in capitals, each with an underscore behind it. -/
def constantPrefix (ws : List CapitalWord) : String :=
  String.ofList (ws.flatMap fun w => w.capitals ++ ['_'])

section

variable {c : Char}

/-- A capital stays what it is when it is written small and large again. -/
theorem upperChar_toLower (h : c.isUpper = true) : Text.upperChar c.toLower = [c] := by
  have hcapitals : ∀ n < 91, 65 ≤ n →
      Text.upperChar (Char.ofNat n).toLower = [Char.ofNat n] := by decide
  obtain ⟨hlo, hhi⟩ := Source.Lexeme.toNat_of_isUpper h
  have hc := hcapitals c.toNat (by omega) hlo
  rwa [Char.ofNat_toNat] at hc

theorem upperChar_of_isSmall (h : c.isLower = true ∨ c.isDigit = true) :
    Text.upperChar c = [c.toUpper] := by
  have hcode : c.toNat < 128 := by
    obtain h | h := h
    · have hsmall := Source.Lexeme.toNat_of_isLower h
      omega
    · have hdigit := Numeral.toNat_of_isDigit h
      omega
  exact if_pos hcode

theorem not_isUpper_of_isSmall (h : c.isLower = true ∨ c.isDigit = true) : c.isUpper = false := by
  rw [Bool.eq_false_iff]
  intro hupper
  have hcapital := Source.Lexeme.toNat_of_isUpper hupper
  obtain h | h := h
  · have hsmall := Source.Lexeme.toNat_of_isLower h
    omega
  · have hdigit := Numeral.toNat_of_isDigit h
    omega

end

/-- Small letters and digits are not set apart. -/
theorem toUpper_separate_others {cs : List Char}
    (h : ∀ c ∈ cs, c.isLower = true ∨ c.isDigit = true) :
    Text.toUpper (SharedPrefix.separate cs) = cs.map Char.toUpper := by
  induction cs with
  | nil => rfl
  | cons c cs ih =>
    obtain ⟨hc, hcs⟩ := List.forall_mem_cons.1 h
    have hcapital : SharedPrefix.isCapital c = false := not_isUpper_of_isSmall hc
    have hupper := upperChar_of_isSmall hc
    have hrest := ih hcs
    unfold Text.toUpper SharedPrefix.separate at hrest ⊢
    rw [List.flatMap_cons, List.flatMap_append, hrest, hcapital]
    simp [hupper]

theorem toUpper_append (cs ds : List Char) :
    Text.toUpper (cs ++ ds) = Text.toUpper cs ++ Text.toUpper ds :=
  List.flatMap_append

theorem separate_append (cs ds : List Char) :
    SharedPrefix.separate (cs ++ ds) = SharedPrefix.separate cs ++ SharedPrefix.separate ds :=
  List.flatMap_append

/-- A word behind its underscore. -/
theorem separate_chars (w : CapitalWord) :
    SharedPrefix.separate w.chars =
      '_' :: w.first.toLower :: SharedPrefix.separate w.others := by
  have hcapital : SharedPrefix.isCapital w.first = true := w.isUpper_first
  rw [chars, SharedPrefix.separate, List.flatMap_cons, if_pos hcapital]
  rfl

theorem toUpper_separate_chars (w : CapitalWord) :
    Text.toUpper (SharedPrefix.separate w.chars) = '_' :: w.capitals := by
  have hothers := toUpper_separate_others w.isSmall_others
  have hunderscore : Text.upperChar '_' = ['_'] := rfl
  rw [separate_chars, Text.toUpper, List.flatMap_cons, List.flatMap_cons, hunderscore,
    upperChar_toLower w.isUpper_first, ← Text.toUpper, hothers]
  rfl

theorem toUpper_separate_joined (ws : List CapitalWord) :
    Text.toUpper (SharedPrefix.separate (ws.flatMap chars)) = ws.flatMap fun w => '_' :: w.capitals := by
  induction ws with
  | nil => rfl
  | cons w ws ih =>
    rw [List.flatMap_cons, List.flatMap_cons, separate_append, toUpper_append, ih,
      toUpper_separate_chars]

/-- Underscores in front of all words and one at the end are underscores behind all words and one in
front. -/
theorem flatMap_underscore (ws : List CapitalWord) :
    (ws.flatMap fun w => '_' :: w.capitals) ++ ['_'] =
      '_' :: ws.flatMap fun w => w.capitals ++ ['_'] := by
  induction ws with
  | nil => rfl
  | cons w ws ih =>
    rw [List.flatMap_cons, List.flatMap_cons, List.append_assoc, ih]
    simp

/-- The prefix that belongs to a name made of words. -/
theorem ofName_joined {ws : List CapitalWord} (hws : ws ≠ []) :
    String.ofList (SharedPrefix.ofName (joined ws).toList) = constantPrefix ws := by
  obtain ⟨w, ws, rfl⟩ := List.exists_cons_of_ne_nil hws
  rw [joined, String.toList_ofList, constantPrefix, SharedPrefix.ofName]
  congr 1
  have hfront : SharedPrefix.dropUnderscore (SharedPrefix.separate ((w :: ws).flatMap chars)) =
      w.first.toLower :: SharedPrefix.separate w.others ++
        SharedPrefix.separate (ws.flatMap chars) := by
    rw [List.flatMap_cons, separate_append, separate_chars]
    rfl
  have hfirst : Text.toUpper (w.first.toLower :: SharedPrefix.separate w.others) = w.capitals := by
    rw [Text.toUpper, List.flatMap_cons, upperChar_toLower w.isUpper_first, ← Text.toUpper,
      toUpper_separate_others w.isSmall_others]
    rfl
  rw [hfront, toUpper_append, hfirst, toUpper_separate_joined, List.append_assoc,
    flatMap_underscore, List.flatMap_cons]
  simp

theorem joined_ne_empty {ws : List CapitalWord} (hws : ws ≠ []) : joined ws ≠ "" := by
  obtain ⟨w, ws, rfl⟩ := List.exists_cons_of_ne_nil hws
  intro hempty
  have hchars := congrArg String.toList hempty
  rw [joined, String.toList_ofList, List.flatMap_cons, chars] at hchars
  cases hchars

end CapitalWord

/-- Two characters at least, the first of them an ASCII capital. -/
def IsMemberRest (rest : String) : Prop :=
  ∃ c d cs, rest.toList = c :: d :: cs ∧ c.isUpper = true

/-- The name goes on behind the prefix as a member may be called. -/
def GoesOn (start name : String) : Prop :=
  ∃ rest, name = start ++ rest ∧ IsMemberRest rest

section

variable {d : EnumDescriptor} {name : String} {rest : List Char}

theorem isRemainder_iff (hline : '\n' ∉ rest) :
    SharedPrefix.isRemainder rest = true ↔ IsMemberRest (String.ofList rest) := by
  simp only [IsMemberRest, String.toList_ofList]
  constructor
  · intro h
    match rest, h with
    | c :: d :: cs, h => exact ⟨c, d, cs, rfl, (Bool.and_eq_true_iff.1 h).1⟩
  · rintro ⟨c, d, cs, rfl, hc⟩
    have hd : d ≠ '\n' := fun hd => hline (by simp [hd])
    exact Bool.and_eq_true_iff.2 ⟨hc, by simpa using hd⟩

/-- On one line the prefix fits the names that go on behind it. -/
theorem fits_iff (start : List Char) (hline : '\n' ∉ name.toList) :
    SharedPrefix.fits start name.toList = true ↔ GoesOn (String.ofList start) name := by
  unfold SharedPrefix.fits
  constructor
  · intro h
    split at h
    next rest hrest =>
      have happend : start ++ rest = name.toList := List.isPrefixOf?_eq_some_iff_append_eq.1 hrest
      rw [← happend, List.mem_append, not_or] at hline
      refine ⟨String.ofList rest, ?_, (isRemainder_iff hline.2).1 h⟩
      rw [← String.toList_inj, String.toList_append, String.toList_ofList, String.toList_ofList,
        happend]
    next => cases h
  · rintro ⟨rest, rfl, hrest⟩
    rw [String.toList_append, String.toList_ofList, List.mem_append, not_or] at hline
    rw [String.toList_append, String.toList_ofList,
      List.isPrefixOf?_eq_some_iff_append_eq.2 (rfl : start ++ rest.toList = _)]
    exact (isRemainder_iff hline.2).2 (by rwa [String.ofList_toList])

/-- The prefix that belongs to the name of an enum is shared if all value names go on behind it. -/
theorem sharedPrefix?_eq_some_iff {start p : String} (hname : d.name = some name) (hne : name ≠ "")
    (hstart : String.ofList (SharedPrefix.ofName name.toList) = start)
    (hlines : ∀ v ∈ d.values, '\n' ∉ v.name.toList) :
    d.sharedPrefix? = some p ↔ start = p ∧ d.values ≠ [] ∧ ∀ v ∈ d.values, GoesOn start v.name := by
  have hfilled : Text.filled? d.name = some name := by simp [hname, Text.filled?, hne]
  have hfits : (!d.values.isEmpty && d.values.all fun v =>
      SharedPrefix.fits (SharedPrefix.ofName name.toList) v.name.toList) = true ↔
        d.values ≠ [] ∧ ∀ v ∈ d.values, GoesOn start v.name := by
    rw [Bool.and_eq_true_iff, List.all_eq_true, ← hstart]
    exact and_congr (by simp) (forall₂_congr fun v hv => fits_iff _ (hlines v hv))
  unfold EnumDescriptor.sharedPrefix? EnumDescriptor.sharedPrefixChars?
  simp only [hfilled, hfits, Option.map_eq_some_iff, Option.ite_none_right_eq_some,
    Option.some.injEq]
  constructor
  · rintro ⟨cs, ⟨hall, rfl⟩, rfl⟩
    exact ⟨hstart.symm, hall⟩
  · rintro ⟨rfl, hall⟩
    exact ⟨_, ⟨hall, rfl⟩, hstart⟩

end

open CapitalWord

section

variable {ws : List CapitalWord} {d : EnumDescriptor} {rests : List String}

/-- Where all names are the prefix and a rest, the rests are the names in the catalog. -/
theorem Catalog.valueNames_eq_rests (hws : ws ≠ []) (hname : d.name = some (joined ws))
    (hlines : ∀ v ∈ d.values, '\n' ∉ v.name.toList) (hrests : ∀ r ∈ rests, IsMemberRest r)
    (hvalues : d.values.map (·.name) = rests.map (constantPrefix ws ++ ·)) :
    valueNames d false = rests := by
  cases rests with
  | nil =>
    rw [List.map_nil, List.map_eq_nil_iff] at hvalues
    rw [valueNames, hvalues, List.map_nil]
  | cons r rs =>
    have hne : d.values ≠ [] := by
      intro hnil
      rw [hnil] at hvalues
      cases hvalues
    have hgo : ∀ v ∈ d.values, GoesOn (constantPrefix ws) v.name := by
      intro v hv
      have hmem : v.name ∈ (r :: rs).map (constantPrefix ws ++ ·) := by
        rw [← hvalues]
        exact List.mem_map_of_mem hv
      obtain ⟨rest, hrest, heq⟩ := List.mem_map.1 hmem
      exact ⟨rest, heq.symm, hrests rest hrest⟩
    have hshared : d.lostPrefix? false = some (constantPrefix ws) :=
      (sharedPrefix?_eq_some_iff hname (joined_ne_empty hws) (ofName_joined hws) hlines).2
        ⟨rfl, hne, hgo⟩
    rw [← map_append_valueNames d false, ofList_droppedPrefix, hshared, Option.getD_some] at hvalues
    exact List.map_injective_iff.2 (fun _ _ => (String.append_right_inj _).1) hvalues

/-- Of an enum whose name is made of words the prefix is shared exactly if every value name goes on
behind it. Values whose names are the prefix and rests that differ have these rests for names in the
catalog, unless a member with number zero is added and one of the rests is its name. -/
theorem sharedPrefix?_joined (hws : ws ≠ []) (hname : d.name = some (joined ws))
    (hlines : ∀ v ∈ d.values, '\n' ∉ v.name.toList) :
    (d.values ≠ [] →
      ((∀ v ∈ d.values, GoesOn (constantPrefix ws) v.name) →
        d.sharedPrefix? = some (constantPrefix ws)) ∧
      (¬ (∀ v ∈ d.values, GoesOn (constantPrefix ws) v.name) → d.sharedPrefix? = none)) ∧
    ∀ rests : List String, rests.Nodup → (∀ r ∈ rests, IsMemberRest r) →
      d.values.map (·.name) = rests.map (constantPrefix ws ++ ·) →
      (d.HasZero ∨ Catalog.zeroName ∉ rests → ∃ shown : Catalog,
        Catalog.build d = .ok (Catalog.zeroEntry d.values ++ shown) ∧
          shown.map (·.name) = rests ∧ shown.map (·.number) = d.values.map (·.number)) ∧
      (¬ (d.HasZero ∨ Catalog.zeroName ∉ rests) → ∃ e, Catalog.build d = .error e) := by
  have hiff (p : String) := sharedPrefix?_eq_some_iff (p := p) hname (joined_ne_empty hws)
    (ofName_joined hws) hlines
  refine ⟨fun hne => ⟨fun hgo => (hiff _).2 ⟨rfl, hne, hgo⟩, fun hgo => ?_⟩,
    fun rests hnodup hrests hvalues => ?_⟩
  · rw [Option.eq_none_iff_forall_ne_some]
    exact fun p hp => hgo ((hiff p).1 hp).2.2
  · have hnames := Catalog.valueNames_eq_rests hws hname hlines hrests hvalues
    have hbuilds : (∃ c, Catalog.build d = .ok c) ↔ d.HasZero ∨ Catalog.zeroName ∉ rests := by
      have hdistinct : (d.values.map (·.name)).Nodup := by
        rwa [← Catalog.nodup_valueNames_iff d false, hnames]
      rw [Catalog.exists_build_iff_nodup, and_iff_right hdistinct, ← hnames, Catalog.mem_valueNames_iff]
      simp only [not_exists, not_and, or_iff_not_imp_left]
    refine ⟨fun hzero => ?_, fun hzero => ?_⟩
    · obtain ⟨c, hc⟩ := hbuilds.2 hzero
      obtain rfl := Catalog.eq_entries_of_build hc
      refine ⟨_, hc, ?_, ?_⟩
      · rw [List.map_map]
        exact hnames
      · rw [List.map_map]
        rfl
    · rw [Catalog.exists_error_iff, hbuilds]
      exact hzero

end

/-- A name that begins with words of one letter. -/
def uriPart : List CapitalWord :=
  [{ first := 'U', others := [], isUpper_first := rfl, isSmall_others := by simp },
    { first := 'R', others := [], isUpper_first := rfl, isSmall_others := by simp },
    { first := 'I', others := ['2'], isUpper_first := rfl, isSmall_others := by simp },
    { first := 'P', others := ['a', 'r', 't'], isUpper_first := rfl, isSmall_others := by simp }]

/-- An enum of that name with one value. -/
def uriPartEnum (value : String) : EnumDescriptor :=
  { name := some (joined uriPart), values := [{ name := value, number := 1 }] }

/-- An enum of that name with two values. -/
def uriParts : EnumDescriptor where
  name := some (joined uriPart)
  values := [{ name := "U_R_I2_PART_HOST", number := 1 }, { name := "U_R_I2_PART_PATH", number := 2 }]

theorem sharedPrefix?_joined_uriPart :
    joined uriPart = "URI2Part" ∧ constantPrefix uriPart = "U_R_I2_PART_" ∧
    uriParts.sharedPrefix? = some (constantPrefix uriPart) ∧
    ∃ shown, Catalog.build uriParts = .ok ({ name := "UNSPECIFIED$", number := 0 } :: shown) ∧
      shown.map (·.name) = ["HOST", "PATH"] := by
  obtain ⟨hshared, hcatalog⟩ := sharedPrefix?_joined (d := uriParts)
    (show uriPart ≠ [] by decide) rfl (by decide +kernel)
  have hrests : ∀ r ∈ ["HOST", "PATH"], IsMemberRest r := by
    rw [List.forall_mem_cons, List.forall_mem_singleton]
    exact ⟨⟨'H', 'O', ['S', 'T'], by decide +kernel, rfl⟩,
      ⟨'P', 'A', ['T', 'H'], by decide +kernel, rfl⟩⟩
  have hvalues : uriParts.values.map (·.name) =
      ["HOST", "PATH"].map (constantPrefix uriPart ++ ·) := by decide +kernel
  refine ⟨by decide +kernel, by decide +kernel, (hshared (by decide)).1 fun v hv => ?_, ?_⟩
  · obtain ⟨rest, hrest, hname⟩ := List.mem_map.1 (hvalues ▸ List.mem_map_of_mem hv)
    exact ⟨rest, hname.symm, hrests rest hrest⟩
  · obtain ⟨shown, hbuild, hnames, -⟩ :=
      (hcatalog ["HOST", "PATH"] (by decide) hrests hvalues).1 (.inr (by decide))
    exact ⟨shown, hbuild, hnames⟩

/-- A rest may be the name of the member that is added. Then there is no catalog, although the name of
the value is the prefix and the rest. -/
theorem Catalog.build_error_of_zeroName :
    IsMemberRest zeroName ∧ '\n' ∉ zeroName.toList ∧
    (uriPartEnum (constantPrefix uriPart ++ zeroName)).name = some (joined uriPart) ∧
    build (uriPartEnum (constantPrefix uriPart ++ zeroName)) =
      .error { enum := "URI2Part", name := "UNSPECIFIED$" } :=
  ⟨⟨'U', 'N', "SPECIFIED$".toList, by decide +kernel, rfl⟩, by decide +kernel, rfl,
    by decide +kernel⟩

end SchemaEnums
