import SchemaEnums.Proofs.Descriptor.Named
import SchemaEnums.Proofs.Generator.Words
import SchemaEnums.Proofs.Schema.Statements

namespace SchemaEnums.Schema

open Source

/-- A package that is stated has a name with a first part. -/
def Statement.PackageFilled {ν : Type} : Statement ν → Prop
  | .package n => n.head ≠ ""
  | _ => True

/-- The name of a package has a first part as soon as it begins. -/
def Place.PackageFilled : Place → Prop
  | .packageName n => n.head ≠ ""
  | .packageDot n => n.head ≠ ""
  | _ => True

theorem fits_of_site {site : Site} {a : Assignment String} {kind : Kind} {move : Move}
    (h : site.close? a kind = some move) :
    move.Fits Statement.PackageFilled Place.PackageFilled := by
  unfold Site.close? at h
  split at h <;> split at h <;> cases h
  all_goals trivial

theorem fits_of_closeRange? {extensions : Bool} {done : List (ReservedItem String)} {kind : Kind}
    {move : Move} (h : closeRange? extensions done kind = some move) :
    move.Fits Statement.PackageFilled Place.PackageFilled := by
  unfold closeRange? at h
  split at h
  · cases h
    trivial
  · cases h
    cases extensions <;> trivial
  · split at h <;> cases h
    trivial
  · cases h

theorem leads_packageFilled :
    Leads Statement.PackageFilled Place.PackageFilled (fun t => t.kind = .name → t.text ≠ "") where
  begin := by
    intro body t move _ h
    unfold begin? at h
    split at h <;> split at h
    all_goals
      first
      | obtain ⟨f, -, rfl⟩ := Option.map_eq_some_iff.1 h
        trivial
      | cases h
    all_goals trivial
  next := by
    intro p t move hp ht h
    cases p with
    | package =>
      simp only [Place.next?] at h
      split at h <;> cases h
      exact ht ‹_›
    | packageName n =>
      simp only [Place.next?] at h
      split at h <;> cases h
      · exact hp
      · exact hp
    | packageDot n =>
      simp only [Place.next?] at h
      split at h <;> cases h
      exact hp
    | option site p =>
      simp only [Place.next?] at h
      split at h
      · cases h
        trivial
      · obtain ⟨a, -, hclose⟩ := Option.bind_eq_some_iff.1 h
        exact fits_of_site hclose
    | ranges extensions done p =>
      simp only [Place.next?] at h
      split at h
      · cases h
        trivial
      · obtain ⟨a, -, hclose⟩ := Option.bind_eq_some_iff.1 h
        exact fits_of_closeRange? hclose
    | optionsEnd owner options =>
      simp only [Place.next?] at h
      split at h <;> cases h
      cases owner <;> trivial
    | field tokens =>
      simp only [Place.next?] at h
      split at h
      · cases h
        trivial
      · obtain ⟨f, -, rfl⟩ := Option.map_eq_some_iff.1 h
        trivial
    | _ =>
      simp only [Place.next?] at h
      split at h <;> cases h
      all_goals trivial

section

variable {ν μ ε : Type} {f : ν → Except ε μ}

/-- Only a package statement becomes one when integers are given values. -/
theorem Statement.eq_package_of_mapM {s : Statement ν} {n : DottedName}
    (h : s.mapM f = .ok (.package n)) : s = .package n := by
  cases s with
  | option a =>
    obtain ⟨a', -, h⟩ := bind_eq_ok h
    cases h
  | field tokens number options =>
    obtain ⟨k, -, h⟩ := bind_eq_ok h
    obtain ⟨as, -, h⟩ := bind_eq_ok h
    cases h
  | value name number options =>
    obtain ⟨k, -, h⟩ := bind_eq_ok h
    obtain ⟨as, -, h⟩ := bind_eq_ok h
    cases h
  | reserved items =>
    obtain ⟨is, -, h⟩ := bind_eq_ok h
    cases h
  | extensions items options =>
    obtain ⟨is, -, h⟩ := bind_eq_ok h
    obtain ⟨as, -, h⟩ := bind_eq_ok h
    cases h
  | package n' =>
    cases h
    rfl
  | _ => cases h

end

theorem DottedName.text_ne_empty {n : DottedName} (h : n.head ≠ "") : n.text ≠ "" := by
  obtain ⟨head, tail⟩ := n
  rw [text, parts]
  cases tail with
  | nil => rwa [String.intercalate_singleton]
  | cons part tail =>
    rw [String.intercalate_cons_cons]
    intro hempty
    have hchars := congrArg String.toList hempty
    rw [String.toList_append, String.toList_append] at hchars
    simp at hchars

theorem package?_ne_empty_of_parse {text : String} {s : Schema Int} (h : parse text = .ok s) :
    ∀ item ∈ s.items, item.package? ≠ some "" := by
  have hall := all_of_parse (T := Statement.PackageFilled) leads_packageFilled ?_ ?_ h
  · intro item hitem hempty
    cases hall item hitem with
    | block _ => cases hempty
    | @statement span statement hfilled =>
      cases statement with
      | package n => exact DottedName.text_ne_empty hfilled (Option.some.inj hempty)
      | _ => cases hempty
  · intro t hspells hname htext
    rw [hname, htext] at hspells
    obtain ⟨c, cs, hcons, -, -⟩ := hspells
    cases hcons
  · intro s s' hfilled hs'
    cases s' with
    | package n => rwa [Statement.eq_package_of_mapM hs'] at hfilled
    | _ => trivial

/-- The item declares an enum of the name inside the messages `parents`, the outermost first. -/
inductive Item.Declares {ν : Type} : Item ν → List String → String → Prop where
  | enum {span : Span} {head : Head} {items : List (Item ν)} (hkind : head.kind = .enum) :
    Item.Declares (.block span head items) [] head.name
  | message {span : Span} {head : Head} {items : List (Item ν)} {item : Item ν}
    {parents : List String} {name : String} (hkind : head.kind = .message) (hitem : item ∈ items)
    (h : item.Declares parents name) :
    Item.Declares (.block span head items) (head.name :: parents) name

/-- The items in front of the first package statement. -/
def beforePackage (items : List (Item Int)) : List (Item Int) :=
  items.takeWhile fun item => item.package?.isNone

/-- The first package statement and the items behind it. -/
def fromPackage (items : List (Item Int)) : List (Item Int) :=
  items.dropWhile fun item => item.package?.isNone

section

variable {o : Origin} {package : Option String} {d : EnumDescriptor} {items : List (Item Int)}
  {parents inner : List String} {name : String}

mutual

/-- The enums of an item have the package, and are declared by the item. -/
theorem declares_of_mem_enumsOfItem : (item : Item Int) → {parents : List String} →
    d ∈ o.enumsOfItem package parents item → d.package = package ∧
      ∃ inner name, d.parents = parents ++ inner ∧ d.name = some name ∧ item.Declares inner name
  | .statement _ _, parents, hd => by
    rw [Origin.enumsOfItem] at hd
    cases hd
  | .block span head items, parents, hd => by
    rw [Origin.enumsOfItem] at hd
    cases hkind : head.kind with
    | enum =>
      rw [hkind] at hd
      rw [List.mem_singleton.1 hd]
      exact ⟨rfl, [], head.name, (List.append_nil _).symm, rfl, .enum hkind⟩
    | message =>
      rw [hkind] at hd
      obtain ⟨hpackage, item, hitem, inner, name, hparents, hname, hdeclares⟩ :=
        declares_of_mem_enumsOfItems items hd
      exact ⟨hpackage, head.name :: inner, name, by rw [hparents, List.append_assoc]; rfl, hname,
        .message hkind hitem hdeclares⟩
    | oneof =>
      rw [hkind] at hd
      cases hd

theorem declares_of_mem_enumsOfItems : (items : List (Item Int)) → {parents : List String} →
    d ∈ o.enumsOfItems package parents items → d.package = package ∧
      ∃ item ∈ items, ∃ inner name, d.parents = parents ++ inner ∧ d.name = some name ∧
        item.Declares inner name
  | [], parents, hd => by
    rw [Origin.enumsOfItems] at hd
    cases hd
  | item :: items, parents, hd => by
    rw [Origin.enumsOfItems] at hd
    obtain hd | hd := List.mem_append.1 hd
    · obtain ⟨hpackage, hdeclared⟩ := declares_of_mem_enumsOfItem item hd
      exact ⟨hpackage, item, List.mem_cons_self, hdeclared⟩
    · obtain ⟨hpackage, i, hi, hdeclared⟩ := declares_of_mem_enumsOfItems items hd
      exact ⟨hpackage, i, List.mem_cons_of_mem item hi, hdeclared⟩

end

theorem mem_enumsOfItems_of_mem {item : Item Int} (hitem : item ∈ items)
    (hd : d ∈ o.enumsOfItem package parents item) : d ∈ o.enumsOfItems package parents items := by
  induction items with
  | nil => cases hitem
  | cons i items ih =>
    rw [Origin.enumsOfItems, List.mem_append]
    obtain rfl | hitem := List.mem_cons.1 hitem
    · exact .inl hd
    · exact .inr (ih hitem)

/-- Every enum that an item declares has a descriptor. -/
theorem exists_mem_enumsOfItem {item : Item Int} (h : item.Declares inner name)
    (parents : List String) : ∃ d ∈ o.enumsOfItem package parents item,
      d.parents = parents ++ inner ∧ d.name = some name := by
  induction h generalizing parents with
  | @enum span head items hkind =>
    rw [Origin.enumsOfItem, hkind]
    exact ⟨_, List.mem_singleton_self _, (List.append_nil _).symm, rfl⟩
  | @message span head items item inner name hkind hitem _ ih =>
    obtain ⟨d, hd, hparents, hname⟩ := ih (parents ++ [head.name])
    rw [Origin.enumsOfItem, hkind]
    exact ⟨d, mem_enumsOfItems_of_mem hitem hd, by rw [hparents, List.append_assoc]; rfl, hname⟩

/-- The descriptors of items are those of the enums that the items declare. -/
theorem exists_mem_enumsOfItems_iff :
    (∃ d ∈ o.enumsOfItems package [] items, d.parents = parents ∧ d.name = some name) ↔
      ∃ item ∈ items, item.Declares parents name := by
  constructor
  · rintro ⟨d, hd, rfl, hname⟩
    obtain ⟨-, item, hitem, inner, name', hparents, hname', hdeclares⟩ :=
      declares_of_mem_enumsOfItems items hd
    rw [hname] at hname'
    cases hname'
    rw [hparents]
    exact ⟨item, hitem, hdeclares⟩
  · rintro ⟨item, hitem, hdeclares⟩
    obtain ⟨d, hd, hparents, hname⟩ := exists_mem_enumsOfItem hdeclares []
    exact ⟨d, mem_enumsOfItems_of_mem hitem hd, hparents, hname⟩

theorem enumsAfter_cons {item : Item Int} (h : item.package? = none) :
    o.enumsAfter package (item :: items) =
      o.enumsOfItem package [] item ++ o.enumsAfter package items := by
  cases item with
  | block span head items => rw [Origin.enumsAfter]; simp
  | statement span s =>
    cases s with
    | package n => cases h
    | _ => rw [Origin.enumsAfter]; simp

/-- Items among which no package statement is have their enums one after the other. -/
theorem enumsAfter_append {before : List (Item Int)} (h : ∀ item ∈ before, item.package? = none) :
    o.enumsAfter package (before ++ items) =
      o.enumsOfItems package [] before ++ o.enumsAfter package items := by
  induction before with
  | nil => rw [Origin.enumsOfItems]; rfl
  | cons item before ih =>
    rw [List.cons_append, enumsAfter_cons (h item List.mem_cons_self),
      ih fun i hi => h i (List.mem_cons_of_mem item hi), Origin.enumsOfItems, List.append_assoc]

theorem enumsAfter_eq (h : ∀ item ∈ items, item.package? = none) :
    o.enumsAfter package items = o.enumsOfItems package [] items := by
  have happend := @enumsAfter_append o package [] items h
  rw [Origin.enumsAfter] at happend
  simpa using happend

theorem package?_of_mem_beforePackage {item : Item Int} (h : item ∈ beforePackage items) :
    item.package? = none := by
  simpa using List.mem_takeWhile_imp h

/-- Where a package is stated at most once, it is the package of all enums from the statement on. -/
theorem enumsAfter_fromPackage (hone : (items.filterMap Item.package?).length ≤ 1) :
    o.enumsAfter package (fromPackage items) =
      o.enumsOfItems (items.filterMap Item.package?).head? [] (fromPackage items) := by
  have hsplit : items = beforePackage items ++ fromPackage items :=
    List.takeWhile_append_dropWhile.symm
  have hbefore : (beforePackage items).filterMap Item.package? = [] := by
    rw [List.filterMap_eq_nil_iff]
    exact fun _ => package?_of_mem_beforePackage
  have hstated : items.filterMap Item.package? = (fromPackage items).filterMap Item.package? := by
    rw [congrArg (List.filterMap Item.package?) hsplit, List.filterMap_append, hbefore,
      List.nil_append]
  have hhead := List.head?_dropWhile_not (fun item : Item Int => item.package?.isNone) items
  rw [hstated] at hone ⊢
  unfold fromPackage at hone ⊢
  cases hback : items.dropWhile fun item => item.package?.isNone with
  | nil => rw [Origin.enumsAfter, Origin.enumsOfItems]
  | cons item after =>
    rw [hback] at hhead hone
    cases item with
    | block span head items => cases hhead
    | statement span s =>
      cases s with
      | package n =>
        have hafter : ∀ i ∈ after, i.package? = none := by
          rw [← List.filterMap_eq_nil_iff, ← List.length_eq_zero_iff]
          simp only [List.filterMap_cons, Item.package?, List.length_cons] at hone
          omega
        rw [Origin.enumsAfter, enumsAfter_eq hafter, Origin.enumsOfItems, Origin.enumsOfItem]
        rfl
      | _ => cases hhead

end

end SchemaEnums.Schema

namespace SchemaEnums

open Schema

section

variable {file : Option String} {text : String} {f : FileDescriptor} {s : Schema Int}

theorem FileDescriptor.ofSchema_of_load (h : (load file text).result = .ok f)
    (hs : parse text = .ok s) : f = ofSchema file text.toList s := by
  obtain ⟨s', hs', rfl⟩ := parse_of_load h
  rw [hs] at hs'
  cases hs'
  rfl

/-- A package that is stated once is that of the file, and of the enums behind the statement. -/
theorem FileDescriptor.enums_ofSchema (file : Option String) (source : List Char)
    (hone : (s.items.filterMap Item.package?).length ≤ 1) :
    (ofSchema file source s).package = (s.items.filterMap Item.package?).head? ∧
      ∃ o : Origin, (ofSchema file source s).enums =
        o.enumsOfItems none [] (beforePackage s.items) ++
          o.enumsOfItems (s.items.filterMap Item.package?).head? [] (fromPackage s.items) := by
  have hlast : (s.items.filterMap Item.package?).getLast? =
      (s.items.filterMap Item.package?).head? := by
    cases hstated : s.items.filterMap Item.package? with
    | nil => rfl
    | cons p ps =>
      rw [hstated, List.length_cons] at hone
      have hps : ps = [] := List.length_eq_zero_iff.1 (by omega)
      rw [hps]
      rfl
  refine ⟨hlast, { file, source, comments := s.comments }, ?_⟩
  have hsplit : s.items = beforePackage s.items ++ fromPackage s.items :=
    List.takeWhile_append_dropWhile.symm
  have henums := @enumsAfter_fromPackage { file, source, comments := s.comments } none s.items hone
  rw [← henums, ← enumsAfter_append fun _ => package?_of_mem_beforePackage, ← hsplit]
  rfl

/-- The full name of an enum whose package is not empty. -/
theorem EnumDescriptor.Named.fullName_eq {d : EnumDescriptor} (h : d.Named)
    (hpackage : d.package ≠ some "") : ∃ name, d.name = some name ∧
      d.fullName = ".".intercalate (d.package.toList ++ d.parents ++ [name]) := by
  obtain ⟨name, hname, -⟩ := h.filled_name
  have hfilled : Text.filled? d.package = d.package := by
    cases hd : d.package with
    | none => rfl
    | some p =>
      rw [hd] at hpackage
      have hne : p ≠ "" := fun hp => hpackage (hp ▸ rfl)
      simp [Text.filled?, hne]
  refine ⟨name, (Option.filter_eq_some_iff.1 hname).1, ?_⟩
  rw [EnumDescriptor.fullName, EnumDescriptor.path, hfilled, hname]
  rfl

/-- Where a package is stated at most once, it is the package of the file. The enums that are declared
in front of the statement have no package, all others have that of the file; so all enums have it
exactly if none is declared in front. The full name of an enum is made of the package that the enum has,
the messages around it and its name. -/
theorem FileDescriptor.packages_of_load (h : (load file text).result = .ok f)
    (hs : parse text = .ok s) (hone : (s.items.filterMap Item.package?).length ≤ 1) :
    f.package = (s.items.filterMap Item.package?).head? ∧
    (∃ early late, f.enums = early ++ late ∧
      (∀ d ∈ early, d.package = none) ∧ (∀ d ∈ late, d.package = f.package) ∧
      (∀ parents name, (∃ d ∈ early, d.parents = parents ∧ d.name = some name) ↔
        ∃ item ∈ beforePackage s.items, item.Declares parents name) ∧
      ∀ parents name, (∃ d ∈ late, d.parents = parents ∧ d.name = some name) ↔
        ∃ item ∈ fromPackage s.items, item.Declares parents name) ∧
    ((∀ d ∈ f.enums, d.package = f.package) ↔ f.package = none ∨
      ∀ item ∈ beforePackage s.items, ∀ parents name, ¬ item.Declares parents name) ∧
    ∀ d ∈ f.enums, ∃ name, d.name = some name ∧
      d.fullName = ".".intercalate (d.package.toList ++ d.parents ++ [name]) := by
  have hnamed := named_of_load h
  have hfilled := package?_ne_empty_of_parse hs
  obtain rfl := ofSchema_of_load h hs
  obtain ⟨hpackage, o, henums⟩ := enums_ofSchema file text.toList hone
  have hearly : ∀ d ∈ o.enumsOfItems none [] (beforePackage s.items), d.package = none :=
    fun d hd => (declares_of_mem_enumsOfItems _ hd).1
  have hlate : ∀ d ∈ o.enumsOfItems (s.items.filterMap Item.package?).head? []
      (fromPackage s.items), d.package = (ofSchema file text.toList s).package := by
    rw [hpackage]
    exact fun d hd => (declares_of_mem_enumsOfItems _ hd).1
  refine ⟨hpackage, ⟨_, _, henums, hearly, hlate, fun _ _ => exists_mem_enumsOfItems_iff,
    fun _ _ => exists_mem_enumsOfItems_iff⟩, ⟨fun hall => ?_, fun hnone d hd => ?_⟩, fun d hd => ?_⟩
  · by_cases hstated : (ofSchema file text.toList s).package = none
    · exact .inl hstated
    · refine .inr fun item hitem parents name hdeclares => hstated ?_
      obtain ⟨d, hd, -, -⟩ : ∃ d ∈ o.enumsOfItems none [] (beforePackage s.items),
          d.parents = parents ∧ d.name = some name :=
        exists_mem_enumsOfItems_iff.2 ⟨item, hitem, hdeclares⟩
      rw [← hall d (by rw [henums]; exact List.mem_append_left _ hd)]
      exact hearly d hd
  · rw [henums] at hd
    obtain hd | hd := List.mem_append.1 hd
    · obtain hstated | hdeclares := hnone
      · rw [hstated]
        exact hearly d hd
      · obtain ⟨-, item, hitem, parents, name, -, -, hitem'⟩ := declares_of_mem_enumsOfItems _ hd
        exact absurd hitem' (hdeclares item hitem parents name)
    · exact hlate d hd
  · refine (hnamed d hd).fullName_eq fun hempty => ?_
    rw [henums] at hd
    obtain hd | hd := List.mem_append.1 hd
    · rw [hearly d hd] at hempty
      cases hempty
    · rw [hlate d hd, hpackage] at hempty
      obtain ⟨item, hitem, hitem'⟩ := List.mem_filterMap.1 (List.mem_of_head? hempty)
      exact hfilled item hitem hitem'

end

/-- A package that is stated between two enums. -/
def latePackage : String :=
  "enum E \x7b A = 0; \x7d\npackage p;\nmessage M \x7b enum F \x7b B = 0; \x7d \x7d"

theorem FileDescriptor.load_latePackage : (load none latePackage).result = .ok
    { file := none
      enums := [{ name := some "E", values := [{ name := "A", number := 0, line := some 1 }]
                  line := some 1 },
                { name := some "F", values := [{ name := "B", number := 0, line := some 3 }]
                  package := some "p", parents := ["M"], line := some 3 }]
      package := some "p" } := by
  decide +kernel

theorem FileDescriptor.packages_of_load_latePackage :
    ∃ f s, (load none latePackage).result = .ok f ∧ parse latePackage = .ok s ∧
      f.package = some "p" ∧
      ((∀ d ∈ f.enums, d.package = f.package) ↔ f.package = none ∨
        ∀ item ∈ beforePackage s.items, ∀ parents name, ¬ item.Declares parents name) ∧
      ∀ d ∈ f.enums, ∃ name, d.name = some name ∧
        d.fullName = ".".intercalate (d.package.toList ++ d.parents ++ [name]) := by
  obtain ⟨s, hs, -⟩ := parse_of_load load_latePackage
  have hstated : (parse latePackage).toOption.map
      (fun s => s.items.filterMap Item.package?) = some ["p"] := by decide +kernel
  rw [hs] at hstated
  have hone : s.items.filterMap Item.package? = ["p"] := Option.some.inj hstated
  obtain ⟨-, -, hiff, hnames⟩ := packages_of_load load_latePackage hs (by rw [hone]; decide)
  exact ⟨_, s, load_latePackage, hs, rfl, hiff, hnames⟩

/-- An enum in front of the package statement has not the package of its file. -/
theorem FileDescriptor.package_ne_of_latePackage :
    ∃ f s, (load none latePackage).result = .ok f ∧ parse latePackage = .ok s ∧
      (s.items.filterMap Item.package?).length = 1 ∧
      ∃ d ∈ f.enums, d.package ≠ f.package ∧ d.fullName ≠ "p.E" ∧ d.name = some "E" := by
  obtain ⟨s, hs, -⟩ := parse_of_load load_latePackage
  have hstated : (parse latePackage).toOption.map
      (fun s => (s.items.filterMap Item.package?).length) = some 1 := by decide +kernel
  rw [hs] at hstated
  exact ⟨_, s, load_latePackage, hs, Option.some.inj hstated, _, List.mem_cons_self, by decide,
    by decide, rfl⟩

end SchemaEnums
