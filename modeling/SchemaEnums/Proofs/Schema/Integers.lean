import SchemaEnums.Schema.Literals

namespace SchemaEnums.Schema

section

variable {ν μ ε : Type}

def Constant.integers : Constant ν → List ν
  | .integer n => [n]
  | _ => []

def Assignment.integers (a : Assignment ν) : List ν :=
  a.value.integers

def RangeEnd.integers : RangeEnd ν → List ν
  | .number n => [n]
  | _ => []

def ReservedItem.integers : ReservedItem ν → List ν
  | .range first last => first :: last.integers
  | _ => []

def Statement.integers : Statement ν → List ν
  | .option a => a.integers
  | .field _ number options => number :: options.flatMap Assignment.integers
  | .value _ number options => number :: options.flatMap Assignment.integers
  | .reserved items => items.flatMap ReservedItem.integers
  | .extensions items options =>
    items.flatMap ReservedItem.integers ++ options.flatMap Assignment.integers
  | _ => []

mutual

/-- The integers of an item, in the order of the text. -/
def Item.integers : Item ν → List ν
  | .statement _ s => s.integers
  | .block _ _ items => Item.integersOf items

/-- The integers of a list of items, in the order of the text. -/
def Item.integersOf : List (Item ν) → List ν
  | [] => []
  | item :: items => item.integers ++ Item.integersOf items

end

def Constant.map (g : ν → μ) : Constant ν → Constant μ
  | .name n => .name n
  | .integer n => .integer (g n)
  | .float text => .float text
  | .string text => .string text

def Assignment.map (g : ν → μ) (a : Assignment ν) : Assignment μ where
  name := a.name
  value := a.value.map g

def RangeEnd.map (g : ν → μ) : RangeEnd ν → RangeEnd μ
  | .same => .same
  | .number n => .number (g n)
  | .max => .max

def ReservedItem.map (g : ν → μ) : ReservedItem ν → ReservedItem μ
  | .range first last => .range (g first) (last.map g)
  | .string text => .string text
  | .name text => .name text

def Statement.map (g : ν → μ) : Statement ν → Statement μ
  | .edition text => .edition text
  | .package name => .package name
  | .importFile modifier path => .importFile modifier path
  | .option a => .option (a.map g)
  | .field tokens number options => .field tokens (g number) (options.map (Assignment.map g))
  | .value name number options => .value name (g number) (options.map (Assignment.map g))
  | .reserved items => .reserved (items.map (ReservedItem.map g))
  | .extensions items options =>
    .extensions (items.map (ReservedItem.map g)) (options.map (Assignment.map g))
  | .empty => .empty

mutual

/-- The item with other integers in their places. -/
def Item.map (g : ν → μ) : Item ν → Item μ
  | .statement span s => .statement span (s.map g)
  | .block span head items => .block span head (Item.mapItems g items)

/-- The items with other integers in their places. -/
def Item.mapItems (g : ν → μ) : List (Item ν) → List (Item μ)
  | [] => []
  | item :: items => item.map g :: Item.mapItems g items

end

end

section

variable {ν μ ε α β γ δ : Type} {f : ν → Except ε μ} {g : ν → μ} {ls ls' : List ν}
  {r : Except ε α} {r' : Except ε β} {whole : (ν → μ) → α} {whole' : (ν → μ) → β}

/-- The result `r` comes from a visit of the integers `ls` in order. If all of them have values, it
is made of the values; otherwise it is the error of the first one that has none. -/
structure Visits (f : ν → Except ε μ) (ls : List ν) (r : Except ε α) (whole : (ν → μ) → α) :
    Prop where
  ok : ∀ g : ν → μ, (∀ n ∈ ls, f n = .ok (g n)) → r = .ok (whole g)
  error : ∀ (g : ν → μ) front n back e, ls = front ++ n :: back →
    (∀ k ∈ front, f k = .ok (g k)) → f n = .error e → r = .error e

namespace Visits

/-- Where there is no integer, nothing is visited. -/
theorem nil (a : α) : Visits f [] (pure a) fun _ => a where
  ok _ _ := rfl
  error _ front n back _ h := absurd h.symm (by simp)

theorem single (n : ν) : Visits f [n] (f n) fun g => g n where
  ok _ h := h n List.mem_cons_self
  error _ front k back e h _ he := by
    cases front with
    | nil =>
      obtain rfl := (List.cons.inj h).1
      exact he
    | cons => simp at h

/-- What is made of the result of a visit. -/
theorem map (h : Visits f ls r whole) (c : α → β) :
    Visits f ls (r >>= fun a => pure (c a)) fun g => c (whole g) where
  ok g hg := by
    rw [h.ok g hg]
    rfl
  error g front n back e hls hfront he := by
    rw [h.error g front n back e hls hfront he]
    rfl

/-- What is made of the results of two visits, one after the other. -/
theorem map₂ (h : Visits f ls r whole) (h' : Visits f ls' r' whole') (c : α → β → γ) :
    Visits f (ls ++ ls') (r >>= fun a => r' >>= fun b => pure (c a b))
      fun g => c (whole g) (whole' g) where
  ok g hg := by
    obtain ⟨hls, hls'⟩ := List.forall_mem_append.1 hg
    rw [h.ok g hls, h'.ok g hls']
    rfl
  error g front n back e hsplit hfront he := by
    obtain ⟨mid, rfl, hback⟩ | ⟨mid, hls, hmid⟩ := List.append_eq_append_iff.1 hsplit
    · -- The first part has all its values.
      obtain ⟨hls, hmid⟩ := List.forall_mem_append.1 hfront
      rw [h.ok g hls, h'.error g mid n back e hback hmid he]
      rfl
    · cases mid with
      | nil =>
        rw [List.append_nil] at hls
        rw [h.ok g (hls ▸ hfront), h'.error g [] n back e hmid.symm (by simp) he]
        rfl
      | cons k mid =>
        obtain ⟨rfl, -⟩ := List.cons.inj hmid
        rw [h.error g front n mid e hls hfront he]
        rfl

/-- Visits of the elements of a list one after the other. -/
theorem mapM {visit : δ → Except ε α} {integers : δ → List ν} {whole : δ → (ν → μ) → α}
    (h : ∀ a, Visits f (integers a) (visit a) (whole a)) (as : List δ) :
    Visits f (as.flatMap integers) (as.mapM visit) fun g => as.map fun a => whole a g := by
  induction as with
  | nil => exact nil []
  | cons a as ih =>
    rw [List.mapM_cons]
    exact (h a).map₂ ih List.cons

end Visits

theorem Constant.visits (f : ν → Except ε μ) (c : Constant ν) :
    Visits f c.integers (c.mapM f) fun g => c.map g := by
  cases c with
  | integer n => exact (Visits.single n).map Constant.integer
  | _ => exact .nil _

theorem Assignment.visits (f : ν → Except ε μ) (a : Assignment ν) :
    Visits f a.integers (a.mapM f) fun g => a.map g :=
  (a.value.visits f).map (Assignment.mk a.name)

theorem RangeEnd.visits (f : ν → Except ε μ) (last : RangeEnd ν) :
    Visits f last.integers (last.mapM f) fun g => last.map g := by
  cases last with
  | number n => exact (Visits.single n).map RangeEnd.number
  | _ => exact .nil _

theorem ReservedItem.visits (f : ν → Except ε μ) (item : ReservedItem ν) :
    Visits f item.integers (item.mapM f) fun g => item.map g := by
  cases item with
  | range first last => exact (Visits.single first).map₂ (last.visits f) ReservedItem.range
  | _ => exact .nil _

theorem Statement.visits (f : ν → Except ε μ) (s : Statement ν) :
    Visits f s.integers (s.mapM f) fun g => s.map g := by
  cases s with
  | option a => exact (a.visits f).map Statement.option
  | field tokens number options =>
    exact (Visits.single number).map₂ (.mapM (Assignment.visits f) options)
      (Statement.field tokens)
  | value name number options =>
    exact (Visits.single number).map₂ (.mapM (Assignment.visits f) options)
      (Statement.value name)
  | reserved items => exact (Visits.mapM (ReservedItem.visits f) items).map Statement.reserved
  | extensions items options =>
    exact (Visits.mapM (ReservedItem.visits f) items).map₂ (.mapM (Assignment.visits f) options)
      Statement.extensions
  | _ => exact .nil _

mutual

/-- The integers of an item are visited in the order of the text. -/
theorem Item.visits (f : ν → Except ε μ) :
    (item : Item ν) → Visits f item.integers (item.mapM f) fun g => item.map g
  | .statement span s => by
    rw [Item.integers, Item.mapM]
    simp only [Item.map]
    exact (s.visits f).map (Item.statement span)
  | .block span head items => by
    rw [Item.integers, Item.mapM]
    simp only [Item.map]
    exact (Item.visits_mapList f items).map (Item.block span head)

theorem Item.visits_mapList (f : ν → Except ε μ) :
    (items : List (Item ν)) →
      Visits f (Item.integersOf items) (Item.mapList f items) fun g => Item.mapItems g items
  | [] => by
    rw [Item.integersOf, Item.mapList]
    simp only [Item.mapItems]
    exact .nil []
  | item :: items => by
    rw [Item.integersOf, Item.mapList]
    simp only [Item.mapItems]
    exact (Item.visits f item).map₂ (Item.visits_mapList f items) List.cons

end

end

end SchemaEnums.Schema
