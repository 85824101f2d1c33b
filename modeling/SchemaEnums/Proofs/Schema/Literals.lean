import SchemaEnums.Proofs.Numeral.Denotes
import SchemaEnums.Proofs.Schema.Integers
import SchemaEnums.Proofs.Spacing.Parse

namespace SchemaEnums.Schema

open Source Spacing

/-- The literal that a token is, if it is one. -/
def literalOf (t : Token) : List String :=
  if t.kind = .integer then [t.text] else []

def OptionPlace.integers : OptionPlace → List String
  | assigned a => a.integers
  | _ => []

def Owner.integers : Owner → List String
  | .field _ number => [number]
  | .value _ number => [number]
  | .extensions items => items.flatMap ReservedItem.integers

def Site.integers : Site → List String
  | .statement => []
  | .brackets owner done => owner.integers ++ done.flatMap Assignment.integers

def RangePlace.integers : RangePlace → List String
  | start => []
  | first n => [n]
  | upTo n => [n]
  | done item => item.integers

/-- The literals of a statement that has been read up to the place. -/
def Place.integers : Place → List String
  | option site p => site.integers ++ p.integers
  | optionsEnd owner options => owner.integers ++ options.flatMap Assignment.integers
  | fieldEnd _ number => [number]
  | valueEnd _ number => [number]
  | ranges _ done p => done.flatMap ReservedItem.integers ++ p.integers
  | _ => []

def Move.integers : Move → List String
  | .go p => p.integers
  | .finish s => s.integers
  | .openBlock _ => []
  | .closeBlock => []

def Stage.integers : Stage → List String
  | .between _ => []
  | .inside _ p => p.integers

/-- The literals of the items before the current one. -/
def State.doneIntegers (s : State) : List String :=
  (s.frames.reverse.flatMap fun f => Item.integersOf f.before.reverse) ++
    Item.integersOf s.items.reverse

/-- The literals that have been read, in order. -/
def State.integers (s : State) : List String :=
  s.doneIntegers ++ s.stage.integers

section

variable {t : Token} {kind : Kind} {move : Move} {s s' : State}

theorem Item.integersOf_append {ν : Type} (items items' : List (Item ν)) :
    Item.integersOf (items ++ items') = Item.integersOf items ++ Item.integersOf items' := by
  induction items with
  | nil => rfl
  | cons item items ih => rw [List.cons_append, integersOf, integersOf, ih, List.append_assoc]

theorem Owner.integers_statement (owner : Owner) (options : List (Assignment String)) :
    (owner.statement options).integers = owner.integers ++ options.flatMap Assignment.integers := by
  cases owner <;> rfl

theorem OptionPlace.integers_next? {p q : OptionPlace} (h : p.next? t = some q) :
    q.integers = p.integers ++ literalOf t := by
  cases p with
  | assigned a => cases h
  | _ =>
    simp only [next?] at h
    split at h <;> cases h
    all_goals simp [integers, Assignment.integers, Constant.integers, literalOf, *]

theorem OptionPlace.integers_complete? {p : OptionPlace} {a : Assignment String}
    (h : p.complete? = some a) : a.integers = p.integers := by
  cases p with
  | nameValue name n =>
    cases h
    rfl
  | assigned b =>
    cases h
    rfl
  | _ => cases h

theorem Site.integers_close? {site : Site} {a : Assignment String}
    (h : site.close? a t.kind = some move) :
    move.integers = site.integers ++ a.integers ++ literalOf t := by
  cases site with
  | statement =>
    simp only [close?] at h
    split at h <;> cases h
    simp [Move.integers, Statement.integers, integers, literalOf, *]
  | brackets owner done =>
    simp only [close?] at h
    split at h <;> cases h
    all_goals
      simp [Move.integers, Place.integers, OptionPlace.integers, integers, literalOf, *]

theorem RangePlace.integers_next? {p q : RangePlace} (h : p.next? t = some q) :
    q.integers = p.integers ++ literalOf t := by
  cases p with
  | done item => cases h
  | _ =>
    simp only [next?] at h
    split at h <;> cases h
    all_goals simp [integers, ReservedItem.integers, RangeEnd.integers, literalOf, *]

theorem RangePlace.integers_complete? {p : RangePlace} {item : ReservedItem String}
    (h : p.complete? = some item) : item.integers = p.integers := by
  cases p with
  | first n =>
    cases h
    rfl
  | done item =>
    cases h
    rfl
  | _ => cases h

theorem integers_closeRange? {extensions : Bool} {done : List (ReservedItem String)}
    (h : closeRange? extensions done t.kind = some move) :
    move.integers = done.flatMap ReservedItem.integers ++ literalOf t := by
  simp only [closeRange?] at h
  split at h
  next hkind =>
    cases h
    simp [Move.integers, Place.integers, RangePlace.integers, literalOf, hkind]
  next hkind =>
    cases h
    cases extensions <;> simp [Move.integers, Statement.integers, literalOf, hkind]
  next hkind =>
    split at h <;> cases h
    simp [Move.integers, Place.integers, Site.integers, Owner.integers, OptionPlace.integers,
      literalOf, hkind]
  next => cases h

theorem literalOf_of_ofToken? {f : FieldToken} (h : FieldToken.ofToken? t = some f) :
    literalOf t = [] := by
  simp only [FieldToken.ofToken?] at h
  split at h <;> cases h
  all_goals simp [literalOf, *]

/-- No item begins with a literal. -/
theorem integers_begin? {body : Option BlockKind} (h : begin? body t = some move) :
    move.integers = literalOf t := by
  unfold begin? at h
  split at h <;> split at h
  all_goals
    first
    | obtain ⟨f, hf, rfl⟩ := Option.map_eq_some_iff.1 h
      rw [literalOf_of_ofToken? hf]
      rfl
    | cases h
  all_goals
    simp [Move.integers, Statement.integers, Place.integers, Site.integers, OptionPlace.integers,
      RangePlace.integers, literalOf, *]

theorem Place.integers_next? {p : Place} (h : p.next? t = some move) :
    move.integers = p.integers ++ literalOf t := by
  cases p with
  | option site p =>
    simp only [next?] at h
    split at h
    next hnext =>
      cases h
      rw [Move.integers, integers, integers, OptionPlace.integers_next? hnext, List.append_assoc]
    next =>
      obtain ⟨a, ha, hclose⟩ := Option.bind_eq_some_iff.1 h
      rw [Site.integers_close? hclose, integers, OptionPlace.integers_complete? ha]
  | optionsEnd owner options =>
    simp only [next?] at h
    split at h <;> cases h
    simp [Move.integers, Owner.integers_statement, integers, literalOf, *]
  | ranges extensions done p =>
    simp only [next?] at h
    split at h
    next hnext =>
      cases h
      rw [Move.integers, integers, integers, RangePlace.integers_next? hnext, List.append_assoc]
    next =>
      obtain ⟨item, hitem, hclose⟩ := Option.bind_eq_some_iff.1 h
      rw [integers_closeRange? hclose, integers, List.flatMap_append, List.flatMap_singleton,
        RangePlace.integers_complete? hitem]
  | field tokens =>
    simp only [next?] at h
    split at h
    next hkind =>
      cases h
      simp [Move.integers, integers, literalOf, hkind]
    next =>
      obtain ⟨f, hf, rfl⟩ := Option.map_eq_some_iff.1 h
      rw [literalOf_of_ofToken? hf]
      rfl
  | _ =>
    simp only [next?] at h
    split at h <;> cases h
    all_goals
      simp [Move.integers, Statement.integers, integers, Site.integers, Owner.integers,
        OptionPlace.integers, literalOf, *]

theorem State.integers_perform? {first : Position} {span : Span}
    (h : s.perform? first span move = some s') :
    s'.integers = s.doneIntegers ++ move.integers := by
  cases move with
  | go p =>
    cases h
    rfl
  | finish statement =>
    cases h
    simp [integers, doneIntegers, Stage.integers, Move.integers, Item.integersOf_append,
      Item.integersOf, Item.integers]
  | openBlock head =>
    cases h
    simp [integers, doneIntegers, Stage.integers, Move.integers, Item.integersOf]
  | closeBlock =>
    obtain ⟨frames, items, stage⟩ := s
    cases frames with
    | nil => cases h
    | cons f fs =>
      cases h
      simp [integers, doneIntegers, Stage.integers, Move.integers, Item.integersOf_append,
        Item.integersOf, Item.integers]

/-- A token that is a literal is the last one of the next state. -/
theorem State.integers_next? (h : s.next? t = some s') :
    s'.integers = s.integers ++ literalOf t := by
  simp only [next?] at h
  split at h
  next x hx =>
    obtain ⟨move, hmove, hperform⟩ := Option.bind_eq_some_iff.1 h
    rw [integers_perform? hperform, integers_begin? hmove, integers, hx, Stage.integers,
      List.append_nil]
  next first p hp =>
    obtain ⟨move, hmove, hperform⟩ := Option.bind_eq_some_iff.1 h
    rw [integers_perform? hperform, Place.integers_next? hmove, integers, hp, Stage.integers,
      List.append_assoc]

theorem State.integers_complete? {items : List (Item String)} (h : s.complete? = some items) :
    Item.integersOf items = s.integers := by
  obtain ⟨frames, done, stage⟩ := s
  unfold complete? at h
  split at h
  next hstage hframes =>
    cases h
    obtain rfl : stage = _ := hstage
    obtain rfl : frames = [] := hframes
    simp [integers, doneIntegers, Stage.integers]
  next => cases h

end

/-- The integer literals among the lexemes of a text, in order. -/
def integerLexemes (text : String) : List String :=
  ((lexemes text).filter fun l => Lexeme.IsInteger l).map String.ofList

section

variable {source cs : List Char} {s : State} {comments : List Comment} {last p : Position}
  {l : Lexeme}

theorem literalOf_tokenOf (h : l.Sorted) (p : Position) :
    literalOf (tokenOf l p) =
      ([l.text].filter fun l => Lexeme.IsInteger l).map String.ofList := by
  have hkind : (tokenOf l p).kind = .integer ↔ Lexeme.IsInteger l.text := h
  by_cases hinteger : Lexeme.IsInteger l.text
  · rw [literalOf, if_pos (hkind.2 hinteger), List.filter_cons_of_pos (by simpa using hinteger)]
    rfl
  · rw [literalOf, if_neg (mt hkind.1 hinteger), List.filter_cons_of_neg (by simpa using hinteger)]
    rfl

/-- The integers of a schema are those read before and the integer lexemes of the rest. -/
theorem integersOf_of_run {r : Schema String} (h : run source s comments last p cs = .ok r) :
    Item.integersOf r.items = s.integers ++
      ((lexemesFrom s p cs).filter fun l => Lexeme.IsInteger l).map String.ofList := by
  fun_induction run source s comments last p cs with
  | case1 =>
    rename_i hrest _ hcomplete
    cases h
    rw [lexemesFrom_of_rest_eq_nil hrest, State.integers_complete? hcomplete]
    simp
  | case2 => cases h
  | case3 => cases h
  | case4 => cases h
  | case5 =>
    rename_i s _ _ p cs gap _ d ds hrest l hread t s' hnext ih
    have hrest : (Gap.read p cs).rest = d :: ds := hrest
    rw [ih h, State.integers_next? hnext, literalOf_tokenOf (Context.sorted_of_read? hread),
      lexemesFrom_of_read? (hrest ▸ hread) hnext, List.append_assoc, ← List.map_append,
      ← List.filter_append]
    rfl

end

/-- The integers of a schema, in the order of the text. -/
def integers {ν : Type} (s : Schema ν) : List ν :=
  Item.integersOf s.items

/-- The schema with other integers in their places. -/
def map {ν μ : Type} (g : ν → μ) (s : Schema ν) : Schema μ where
  items := Item.mapItems g s.items
  comments := s.comments

/-- The integers of a schema are the integer lexemes of its text. -/
theorem integers_of_parseLiterals {text : String} {s : Schema String}
    (h : parseLiterals text.toList = .ok s) : s.integers = integerLexemes text :=
  integersOf_of_run h

theorem isInteger_of_mem_integerLexemes {text l : String} (h : l ∈ integerLexemes text) :
    Lexeme.IsInteger l.toList := by
  obtain ⟨cs, hcs, rfl⟩ := List.mem_map.1 h
  rw [String.toList_ofList]
  simpa using (List.mem_filter.1 hcs).2

open Numeral

/-- The first of the literals that is a bad octal one has the digits `ds`. -/
def FirstBadOctal (literals : List String) (ds : List Char) : Prop :=
  ∃ front l back, literals = front ++ l :: back ∧
    (∀ k ∈ front, ∀ es, ¬ IsBadOctal k.toList es) ∧ IsBadOctal l.toList ds

/-- The value of a literal, and zero for a bad octal one. -/
def valueOf (l : String) : Int :=
  (Numeral.parse l).toOption.getD 0

section

variable {ls : List String} {l : String} {ds : List Char} {s : Schema String}

theorem literalValue_of_denotes {n : Int} (h : Denotes l.toList n) :
    literalValue l = .ok n := by
  rw [literalValue, Numeral.parse, ofChars_of_denotes h]
  rfl

theorem literalValue_of_isBadOctal (h : IsBadOctal l.toList ds) :
    literalValue l = .error (.badDigits (badOctal ds)) := by
  rw [literalValue, Numeral.parse, ofChars_of_isBadOctal h]
  rfl

theorem denotes_valueOf (hl : Lexeme.IsInteger l.toList)
    (h : ∀ es, ¬ IsBadOctal l.toList es) : Denotes l.toList (valueOf l) := by
  obtain ⟨n, hn⟩ | ⟨es, hes⟩ := denotes_or_isBadOctal hl
  · rw [valueOf, Numeral.parse, ofChars_of_denotes hn]
    exact hn
  · exact absurd hes (h es)

theorem exists_firstBadOctal (h : ∃ l ∈ ls, ∃ ds, IsBadOctal l.toList ds) :
    ∃ ds, FirstBadOctal ls ds := by
  induction ls with
  | nil =>
    obtain ⟨l, hl, -⟩ := h
    cases hl
  | cons k ls ih =>
    by_cases hk : ∃ ds, IsBadOctal k.toList ds
    · obtain ⟨ds, hds⟩ := hk
      exact ⟨ds, [], k, ls, rfl, by simp, hds⟩
    · obtain ⟨l, hl, hbad⟩ := h
      obtain rfl | hl := List.mem_cons.1 hl
      · exact absurd hbad hk
      · obtain ⟨ds, front, l, back, rfl, hfront, hds⟩ := ih ⟨l, hl, hbad⟩
        exact ⟨ds, k :: front, l, back, rfl, List.forall_mem_cons.2 ⟨not_exists.1 hk, hfront⟩, hds⟩

theorem FirstBadOctal.exists_mem (h : FirstBadOctal ls ds) : ∃ l ∈ ls, IsBadOctal l.toList ds := by
  obtain ⟨front, l, back, rfl, -, hds⟩ := h
  exact ⟨l, by simp, hds⟩

/-- Where all literals denote integers, these are put in their places. -/
theorem evaluate_eq_ok {value : String → Int} (h : ∀ l ∈ s.integers, Denotes l.toList (value l)) :
    evaluate s = .ok (s.map value) := by
  have hvisits := Item.visits_mapList literalValue s.items
  rw [evaluate, hvisits.ok value fun l hl => literalValue_of_denotes (h l hl)]
  rfl

/-- The first bad octal literal is the one that is complained about. -/
theorem evaluate_eq_error (hs : ∀ l ∈ s.integers, Lexeme.IsInteger l.toList)
    (h : FirstBadOctal s.integers ds) : evaluate s = .error (.badDigits (badOctal ds)) := by
  have hvisits := Item.visits_mapList literalValue s.items
  obtain ⟨front, l, back, hsplit, hfront, hbad⟩ := h
  rw [evaluate, hvisits.error valueOf front l back _ hsplit (fun k hk => ?_)
    (literalValue_of_isBadOctal hbad)]
  · rfl
  · exact literalValue_of_denotes (denotes_valueOf (hs k (by simp [hsplit, hk])) (hfront k hk))

/-- Either all literals denote integers, or there is a first bad octal one. -/
theorem evaluate_cases (hs : ∀ l ∈ s.integers, Lexeme.IsInteger l.toList) :
    ((∀ l ∈ s.integers, Denotes l.toList (valueOf l)) ∧ evaluate s = .ok (s.map valueOf)) ∨
      ∃ ds, FirstBadOctal s.integers ds ∧ evaluate s = .error (.badDigits (badOctal ds)) := by
  by_cases hbad : ∃ l ∈ s.integers, ∃ ds, IsBadOctal l.toList ds
  · obtain ⟨ds, hds⟩ := exists_firstBadOctal hbad
    exact .inr ⟨ds, hds, evaluate_eq_error hs hds⟩
  · have hvalue : ∀ l ∈ s.integers, Denotes l.toList (valueOf l) :=
      fun l hl => denotes_valueOf (hs l hl) fun es hes => hbad ⟨l, hl, es, hes⟩
    exact .inl ⟨hvalue, evaluate_eq_ok hvalue⟩

theorem evaluate_eq_ok_iff (hs : ∀ l ∈ s.integers, Lexeme.IsInteger l.toList) (r : Schema Int) :
    evaluate s = .ok r ↔
      ∃ value : String → Int, (∀ l ∈ s.integers, Denotes l.toList (value l)) ∧ r = s.map value := by
  constructor
  · intro h
    obtain ⟨hvalue, hok⟩ | ⟨ds, -, herror⟩ := evaluate_cases hs
    · rw [hok] at h
      cases h
      exact ⟨valueOf, hvalue, rfl⟩
    · rw [herror] at h
      cases h
  · rintro ⟨value, hvalue, rfl⟩
    exact evaluate_eq_ok hvalue

theorem evaluate_eq_error_iff (hs : ∀ l ∈ s.integers, Lexeme.IsInteger l.toList) (e : Error) :
    evaluate s = .error e ↔ ∃ ds, FirstBadOctal s.integers ds ∧ e = .badDigits (badOctal ds) := by
  constructor
  · intro h
    obtain ⟨-, hok⟩ | ⟨ds, hds, herror⟩ := evaluate_cases hs
    · rw [hok] at h
      cases h
    · rw [herror] at h
      cases h
      exact ⟨ds, hds, rfl⟩
  · rintro ⟨ds, hds, rfl⟩
    exact evaluate_eq_error hs hds

end

/-- Integer literals have the values that they denote. A literal has no other value, and none
exactly if it is a bad octal one; an integer written in any radix is read as the integer. The
integers of a schema are the integer literals of its text. All of them are replaced by their values
and nothing else is changed, unless there is a bad octal one among them; then the first of these is
complained about. -/
theorem integerLiterals_values :
    (∀ l : String, Lexeme.IsInteger l.toList →
      (∀ n, Numeral.parse l = .ok n ↔ Denotes l.toList n) ∧
        ∀ e, Numeral.parse l = .error e ↔ ∃ ds, IsBadOctal l.toList ds ∧ e = badOctal ds) ∧
    (∀ (r : Radix) (n : Int), Numeral.parse (r.write n) = .ok n) ∧
    ∀ (text : String) (s : Schema String), parseLiterals text.toList = .ok s →
      s.integers = integerLexemes text ∧
      (∀ r, parse text = .ok r ↔
        ∃ value : String → Int, (∀ l ∈ s.integers, Denotes l.toList (value l)) ∧ r = s.map value) ∧
      (∀ e, parse text = .error e ↔
        ∃ ds, FirstBadOctal s.integers ds ∧ e = .badDigits (badOctal ds)) ∧
      ((∃ e, parse text = .error e) ↔ ∃ l ∈ s.integers, ∃ ds, IsBadOctal l.toList ds) := by
  refine ⟨fun l hl => ⟨fun n => ofChars_eq_ok_iff hl, fun e => ofChars_eq_error_iff hl⟩,
    Radix.parse_write, fun text s hs => ?_⟩
  have hintegers := integers_of_parseLiterals hs
  have hparse : parse text = evaluate s := by
    rw [parse, hs]
    rfl
  have hall : ∀ l ∈ s.integers, Lexeme.IsInteger l.toList :=
    fun l hl => isInteger_of_mem_integerLexemes (hintegers ▸ hl)
  rw [hparse]
  refine ⟨hintegers, evaluate_eq_ok_iff hall, evaluate_eq_error_iff hall, ?_⟩
  constructor
  · rintro ⟨e, he⟩
    obtain ⟨ds, hds, -⟩ := (evaluate_eq_error_iff hall e).1 he
    obtain ⟨l, hl, hbad⟩ := hds.exists_mem
    exact ⟨l, hl, ds, hbad⟩
  · intro hbad
    obtain ⟨ds, hds⟩ := exists_firstBadOctal hbad
    exact ⟨_, evaluate_eq_error hall hds⟩

/-- A schema with literals of all notations, in a range, a field and an option. -/
def allLiterals : String :=
  "message M\x7breserved 9 to 0x1F; a b = 00 [o = -010];\x7d"

/-- A schema with two bad octal literals. -/
def twoBadLiterals : String :=
  "enum E\x7bA = 007; reserved -018 to 09;\x7d"

theorem exists_parseLiterals (text : String) (h : (parseLiterals text.toList).isOk = true) :
    ∃ s, parseLiterals text.toList = .ok s := by
  cases hs : parseLiterals text.toList with
  | error e =>
    rw [hs] at h
    cases h
  | ok s => exact ⟨s, rfl⟩

theorem integerLiterals_values_allLiterals :
    (∃ s, parseLiterals allLiterals.toList = .ok s ∧
      s.integers = ["9", "0x1F", "00", "-010"] ∧
      s.integers.map valueOf = [9, 31, 0, -8] ∧
      parse allLiterals = .ok (s.map valueOf)) ∧
    ∃ s, parseLiterals twoBadLiterals.toList = .ok s ∧
      s.integers = ["007", "-018", "09"] ∧
      parse twoBadLiterals = .error (.badDigits { base := 8, digits := "18" }) := by
  obtain ⟨hliterals, -, htexts⟩ := integerLiterals_values
  constructor
  · obtain ⟨s, hs⟩ := exists_parseLiterals allLiterals (by decide +kernel)
    obtain ⟨hintegers, hok, -⟩ := htexts allLiterals s hs
    have hlexemes : integerLexemes allLiterals = ["9", "0x1F", "00", "-010"] := by decide +kernel
    rw [hlexemes] at hintegers
    refine ⟨s, hs, hintegers, ?_, (hok _).2 ⟨valueOf, fun l hl => ?_, rfl⟩⟩
    · rw [hintegers]
      decide +kernel
    · have hvalues : ∀ l ∈ ["9", "0x1F", "00", "-010"],
          Lexeme.IsInteger l.toList ∧ Numeral.parse l = .ok (valueOf l) := by decide +kernel
      obtain ⟨hinteger, hvalue⟩ := hvalues l (hintegers ▸ hl)
      exact ((hliterals l hinteger).1 _).1 hvalue
  · obtain ⟨s, hs⟩ := exists_parseLiterals twoBadLiterals (by decide +kernel)
    obtain ⟨hintegers, -, herror, -⟩ := htexts twoBadLiterals s hs
    have hlexemes : integerLexemes twoBadLiterals = ["007", "-018", "09"] := by decide +kernel
    rw [hlexemes] at hintegers
    refine ⟨s, hs, hintegers, (herror _).2 ⟨['1', '8'], ?_, rfl⟩⟩
    refine ⟨["007"], "-018", ["09"], hintegers, ?_, ?_⟩
    · have hvalues : ∀ l ∈ ["007"], Lexeme.IsInteger l.toList ∧
          Numeral.parse l = .ok (valueOf l) := by decide +kernel
      intro l hl ds hbad
      obtain ⟨hinteger, hvalue⟩ := hvalues l hl
      rw [((hliterals l hinteger).2 _).2 ⟨ds, hbad, rfl⟩] at hvalue
      cases hvalue
    · have hrun : Lexeme.IsRun Char.isDigit ['1', '8'] :=
        ⟨List.cons_ne_nil _ _, List.all_eq_true.1 rfl⟩
      exact ⟨.inr rfl, hrun, .inl (by decide)⟩

end SchemaEnums.Schema
