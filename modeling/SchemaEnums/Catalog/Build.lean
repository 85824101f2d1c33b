import SchemaEnums.Catalog.SharedPrefix

namespace SchemaEnums

structure DuplicateMember where
  enum : String
  name : String
deriving DecidableEq, Repr

def DuplicateMember.message (e : DuplicateMember) : String :=
  s!"Enum '{e.enum}' has duplicate member name '{e.name}'."

namespace Catalog

def zeroName : String := "UNSPECIFIED$"

/-- The member with number zero, unless a value has that number. -/
def zeroEntry (values : List ValueDescriptor) : Catalog :=
  if values.any fun v => v.number == 0 then [] else [{ name := zeroName, number := 0 }]

/-- The entry of a value whose name loses as many characters as the prefix has. -/
def entry (start : List Char) (v : ValueDescriptor) : CatalogEntry :=
  { name := String.ofList (v.name.toList.drop start.length), number := v.number }

/-- The characters that the value names of an enum lose. -/
def droppedPrefix (d : EnumDescriptor) (keepPrefix : Bool) : List Char :=
  if keepPrefix then [] else d.sharedPrefixChars?.getD []

/-- The entries of the catalog, whether or not their names differ. -/
def entries (d : EnumDescriptor) (keepPrefix : Bool) : Catalog :=
  zeroEntry d.values ++ d.values.map (entry (droppedPrefix d keepPrefix))

/-- The first name that occurred before; `seen` are the names before the list. -/
def firstDuplicate? (seen : List String) : List String → Option String
  | [] => none
  | name :: names =>
    if seen.contains name then some name else firstDuplicate? (name :: seen) names

/-- The catalog of an enum, if its names differ: its values in order, and a member with number zero
in front if no value has that number. -/
def build (d : EnumDescriptor) (keepPrefix : Bool := false) : Except DuplicateMember Catalog :=
  let catalog := entries d keepPrefix
  match firstDuplicate? [] (catalog.map (·.name)) with
  | some name => .error { enum := d.fullName, name }
  | none => .ok catalog

/-- No duplicate is found exactly where all names differ, from each other and from those before. -/
theorem firstDuplicate?_eq_none_iff {seen names : List String} :
    firstDuplicate? seen names = none ↔ names.Nodup ∧ ∀ name ∈ names, name ∉ seen := by
  induction names generalizing seen with
  | nil => simp [firstDuplicate?]
  | cons name names ih =>
    rw [firstDuplicate?]
    by_cases h : name ∈ seen
    · simp [h]
    · rw [if_neg (by simpa using h), ih, List.nodup_cons]
      constructor
      · rintro ⟨hnodup, hfresh⟩
        refine ⟨⟨fun hmem => hfresh name hmem (by simp), hnodup⟩, fun n hn => ?_⟩
        rcases List.mem_cons.1 hn with rfl | hn
        · exact h
        · exact fun hseen => hfresh n hn (by simp [hseen])
      · rintro ⟨⟨hname, hnodup⟩, hfresh⟩
        refine ⟨hnodup, fun n hn hseen => ?_⟩
        rcases List.mem_cons.1 hseen with rfl | hseen
        · exact hname hn
        · exact hfresh n (by simp [hn]) hseen

/-- The entries of a catalog that was built all have different names. -/
theorem nodup_names_of_build {d : EnumDescriptor} {keepPrefix : Bool} {c : Catalog}
    (h : build d keepPrefix = .ok c) : (c.map (·.name)).Nodup := by
  simp only [build] at h
  split at h
  · simp at h
  next hnone =>
    cases h
    exact (firstDuplicate?_eq_none_iff.1 hnone).1

end Catalog

namespace EnumDescriptor

/-- The catalog that was assigned to the enum, or else the one that is built for it without its
prefix. -/
def currentCatalog (d : EnumDescriptor) : Except DuplicateMember Catalog :=
  match d.catalog with
  | some c => .ok c
  | none => Catalog.build d

/-- Assigns a catalog to each enum in order. At the first enum that has none it stops, and the enums
before it keep their new catalogs. -/
def assignCatalogs (keepPrefix : Bool) :
    List EnumDescriptor → List EnumDescriptor × Except DuplicateMember Unit
  | [] => ([], .ok ())
  | d :: ds =>
    match Catalog.build d keepPrefix with
    | .error e => (d :: ds, .error e)
    | .ok c =>
      let (rest, result) := assignCatalogs keepPrefix ds
      ({ d with catalog := some c } :: rest, result)

/-- Assigns catalogs once for each element of `keep`, up to the first failure. -/
def assignAllCatalogs (keep : List Bool) (ds : List EnumDescriptor) :
    List EnumDescriptor × Except DuplicateMember Unit :=
  match keep with
  | [] => (ds, .ok ())
  | keepPrefix :: keep =>
    match assignCatalogs keepPrefix ds with
    | (ds, .error e) => (ds, .error e)
    | (ds, .ok ()) => assignAllCatalogs keep ds

end EnumDescriptor

end SchemaEnums
