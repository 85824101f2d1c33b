import SchemaEnums.Proofs.Schema.Statements

namespace SchemaEnums.Schema

open Source

/-- The value is spelled like one of its kind. -/
def Constant.Spelled {ν : Type} : Constant ν → Prop
  | .float text => ¬ Lexeme.IsName text.toList
  | .string text => Lexeme.IsQuoted text.toList
  | _ => True

/-- The values of the options are spelled like those of their kinds. -/
def ValuesSpelled {ν : Type} (options : List (Assignment ν)) : Prop :=
  ∀ a ∈ options, a.value.Spelled

/-- The options of a statement. -/
def Statement.options {ν : Type} : Statement ν → List (Assignment ν)
  | .option a => [a]
  | .field _ _ options => options
  | .value _ _ options => options
  | .extensions _ options => options
  | _ => []

def Statement.ValuesSpelled {ν : Type} (s : Statement ν) : Prop :=
  Schema.ValuesSpelled s.options

def OptionPlace.ValuesSpelled : OptionPlace → Prop
  | .assigned a => a.value.Spelled
  | _ => True

def Site.ValuesSpelled : Site → Prop
  | .statement => True
  | .brackets _ done => Schema.ValuesSpelled done

def Place.ValuesSpelled : Place → Prop
  | .option site p => site.ValuesSpelled ∧ p.ValuesSpelled
  | .optionsEnd _ options => Schema.ValuesSpelled options
  | _ => True

section

variable {ν : Type} {options : List (Assignment ν)} {a : Assignment ν}

theorem valuesSpelled_nil : ValuesSpelled ([] : List (Assignment ν)) := by
  simp [ValuesSpelled]

theorem ValuesSpelled.concat (h : ValuesSpelled options) (ha : a.value.Spelled) :
    ValuesSpelled (options ++ [a]) :=
  List.forall_mem_append.2 ⟨h, List.forall_mem_singleton.2 ha⟩

end

section

variable {t : Token} {p q : OptionPlace} {a : Assignment String} {kind : Kind} {move : Move}

/-- The token that a value is made of is spelled like one of its class. -/
theorem OptionPlace.valuesSpelled_next? (ht : t.kind.Spells t.text.toList)
    (h : p.next? t = some q) : q.ValuesSpelled := by
  cases p with
  | value o =>
    simp only [OptionPlace.next?] at h
    split at h
    next => cases h; trivial
    next => cases h; trivial
    next hkind =>
      cases h
      rwa [hkind] at ht
    next hkind =>
      cases h
      rwa [hkind] at ht
    next => cases h
  | assigned a => cases h
  | _ =>
    simp only [OptionPlace.next?] at h
    split at h <;> cases h
    all_goals trivial

theorem OptionPlace.valuesSpelled_complete? (hp : p.ValuesSpelled) (h : p.complete? = some a) :
    a.value.Spelled := by
  cases p with
  | nameValue o n =>
    cases h
    trivial
  | assigned a' =>
    cases h
    exact hp
  | _ => cases h

theorem Site.valuesSpelled_close? {site : Site} (hsite : site.ValuesSpelled)
    (ha : a.value.Spelled) (h : site.close? a kind = some move) :
    move.Fits Statement.ValuesSpelled Place.ValuesSpelled := by
  cases site with
  | statement =>
    simp only [Site.close?] at h
    split at h <;> cases h
    exact List.forall_mem_singleton.2 ha
  | brackets owner done =>
    simp only [Site.close?] at h
    split at h <;> cases h
    · exact ⟨hsite.concat ha, trivial⟩
    · exact hsite.concat ha

theorem valuesSpelled_closeRange? {extensions : Bool} {done : List (ReservedItem String)}
    (h : closeRange? extensions done kind = some move) :
    move.Fits Statement.ValuesSpelled Place.ValuesSpelled := by
  unfold closeRange? at h
  split at h
  · cases h
    trivial
  · cases h
    cases extensions <;> exact valuesSpelled_nil
  · split at h <;> cases h
    exact ⟨valuesSpelled_nil, trivial⟩
  · cases h

/-- A value is spelled like the token that it is made of, and stays so until its statement ends. -/
theorem leads_valuesSpelled : Leads Statement.ValuesSpelled Place.ValuesSpelled
    (fun t => t.kind.Spells t.text.toList) where
  begin := by
    intro body t move _ h
    unfold begin? at h
    split at h <;> split at h
    all_goals
      first
      | obtain ⟨f, -, rfl⟩ := Option.map_eq_some_iff.1 h
        trivial
      | cases h
    all_goals first | trivial | exact ⟨trivial, trivial⟩ | exact valuesSpelled_nil
  next := by
    intro p t move hp ht h
    cases p with
    | option site p =>
      simp only [Place.next?] at h
      split at h
      next hnext =>
        cases h
        exact ⟨hp.1, OptionPlace.valuesSpelled_next? ht hnext⟩
      next =>
        obtain ⟨a, ha, hclose⟩ := Option.bind_eq_some_iff.1 h
        exact Site.valuesSpelled_close? hp.1 (OptionPlace.valuesSpelled_complete? hp.2 ha) hclose
    | optionsEnd owner options =>
      simp only [Place.next?] at h
      split at h <;> cases h
      cases owner <;> exact hp
    | ranges extensions done p =>
      simp only [Place.next?] at h
      split at h
      · cases h
        trivial
      · obtain ⟨item, -, hclose⟩ := Option.bind_eq_some_iff.1 h
        exact valuesSpelled_closeRange? hclose
    | field tokens =>
      simp only [Place.next?] at h
      split at h
      · cases h
        trivial
      · obtain ⟨f, -, rfl⟩ := Option.map_eq_some_iff.1 h
        trivial
    | _ =>
      simp only [Place.next?] at h
      split at h <;> cases h
      all_goals first | trivial | exact valuesSpelled_nil | exact ⟨valuesSpelled_nil, trivial⟩

end

section

variable {ν μ ε : Type} {f : ν → Except ε μ}

theorem Assignment.spelled_of_mapM {a : Assignment ν} {a' : Assignment μ} (ha : a.value.Spelled)
    (h : a.mapM f = .ok a') : a'.value.Spelled := by
  obtain ⟨name, value⟩ := a
  obtain ⟨value', hvalue, h⟩ := bind_eq_ok h
  cases h
  cases value with
  | integer n =>
    obtain ⟨k, -, hvalue⟩ := bind_eq_ok hvalue
    cases hvalue
    trivial
  | _ =>
    cases hvalue
    exact ha

theorem ValuesSpelled.mapM {options : List (Assignment ν)} {options' : List (Assignment μ)}
    (hoptions : ValuesSpelled options) (h : options.mapM (Assignment.mapM f) = .ok options') :
    ValuesSpelled options' := by
  have hall := forall₂_of_mapM h
  clear h
  induction hall with
  | nil => exact valuesSpelled_nil
  | cons ha _ ih =>
    obtain ⟨hfirst, hrest⟩ := List.forall_mem_cons.1 hoptions
    exact List.forall_mem_cons.2 ⟨Assignment.spelled_of_mapM hfirst ha, ih hrest⟩

theorem Statement.ValuesSpelled.mapM {s : Statement ν} {s' : Statement μ} (hs : s.ValuesSpelled)
    (h : s.mapM f = .ok s') : s'.ValuesSpelled := by
  cases s with
  | option a =>
    obtain ⟨a', ha', h⟩ := bind_eq_ok h
    cases h
    exact List.forall_mem_singleton.2
      (Assignment.spelled_of_mapM (hs a (List.mem_singleton_self a)) ha')
  | field tokens number options =>
    obtain ⟨k, -, h⟩ := bind_eq_ok h
    obtain ⟨as, has, h⟩ := bind_eq_ok h
    cases h
    exact Schema.ValuesSpelled.mapM hs has
  | value name number options =>
    obtain ⟨k, -, h⟩ := bind_eq_ok h
    obtain ⟨as, has, h⟩ := bind_eq_ok h
    cases h
    exact Schema.ValuesSpelled.mapM hs has
  | reserved items =>
    obtain ⟨is, -, h⟩ := bind_eq_ok h
    cases h
    exact valuesSpelled_nil
  | extensions items options =>
    obtain ⟨is, -, h⟩ := bind_eq_ok h
    obtain ⟨as, has, h⟩ := bind_eq_ok h
    cases h
    exact Schema.ValuesSpelled.mapM hs has
  | _ =>
    cases h
    exact valuesSpelled_nil

end

/-- In a text that is a schema, the values of all options are spelled like those of their kinds. -/
theorem valuesSpelled_of_parse {text : String} {s : Schema Int} (h : parse text = .ok s) :
    ∀ item ∈ s.items, item.All Statement.ValuesSpelled :=
  all_of_parse leads_valuesSpelled id Statement.ValuesSpelled.mapM h

end SchemaEnums.Schema
