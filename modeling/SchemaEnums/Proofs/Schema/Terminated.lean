import SchemaEnums.Proofs.Schema.Nesting

namespace SchemaEnums.Schema

open Source Spacing

/-- The position stands behind the character. -/
def Behind (source : List Char) (c : Char) (p : Position) : Prop :=
  ∃ front back, source = front ++ c :: back ∧ p = Position.advance {} (front ++ [c])

/-- Statements end with semicolons and blocks with braces, the items in them included. -/
inductive Item.Terminated {ν : Type} (source : List Char) : Item ν → Prop
  | statement {span : Span} {s : Statement ν} (hstop : Behind source ';' span.stop) :
      Item.Terminated source (.statement span s)
  | block {span : Span} {head : Head} {items : List (Item ν)} (hstop : Behind source '\x7d' span.stop)
      (hitems : ∀ item ∈ items, Item.Terminated source item) :
      Item.Terminated source (.block span head items)

section

variable {b : Option BlockKind} {x y : Context} {p : Position} {t : List Char} {s : Statement String}
  {P : Place} {u : Token}

theorem Lexeme.eq_of_mark?_semicolon {c : Char} (h : Lexeme.mark? c = some .semicolon) : c = ';' := by
  unfold Lexeme.mark? at h
  split at h <;> first | rfl | cases h

/-- Only a semicolon ends a statement. -/
theorem Site.kind_of_finish {site : Site} {a : Assignment String} {kind : Kind}
    (h : site.close? a kind = some (.finish s)) : kind = .semicolon := by
  unfold Site.close? at h
  split at h <;> split at h <;> first | rfl | cases h

theorem kind_of_closeRange?_finish {extensions : Bool} {done : List (ReservedItem String)} {kind : Kind}
    (h : closeRange? extensions done kind = some (.finish s)) : kind = .semicolon := by
  unfold closeRange? at h
  split at h
  · cases h
  · rfl
  · split at h <;> cases h
  · cases h

theorem Place.kind_of_finish (h : P.next? u = some (.finish s)) : u.kind = .semicolon := by
  cases P with
  | option site q =>
    simp only [Place.next?] at h
    split at h
    · cases h
    · obtain ⟨a, -, h⟩ := Option.bind_eq_some_iff.1 h
      exact Site.kind_of_finish h
  | ranges extensions done q =>
    simp only [Place.next?] at h
    split at h
    · cases h
    · obtain ⟨a, -, h⟩ := Option.bind_eq_some_iff.1 h
      exact kind_of_closeRange?_finish h
  | field tokens =>
    simp only [Place.next?] at h
    split at h
    · cases h
    · obtain ⟨f, -, hf⟩ := Option.map_eq_some_iff.1 h
      cases hf
  | _ =>
    simp only [Place.next?] at h
    split at h <;> first | assumption | cases h

theorem kind_of_begin?_finish (h : begin? b u = some (.finish s)) : u.kind = .semicolon := by
  obtain ⟨Q, hQ⟩ | ⟨-, hkind⟩ | ⟨hclose, -⟩ := begin?_cases h
  · cases hQ
  · exact hkind
  · cases hclose

theorem PlaceText.exists_semicolon {m : Move} (h : PlaceText P p t m) (hm : m = .finish s) :
    ∃ front, t = front ++ [';'] := by
  induction h with
  | last fs hc hnext hend =>
    subst hm
    obtain rfl : _ = Kind.semicolon := Place.kind_of_finish hnext
    obtain rfl := Lexeme.eq_of_mark?_semicolon hc
    exact ⟨_, rfl⟩
  | go fs hfinds hnext hrest ih =>
    obtain ⟨front, rfl⟩ := ih hm
    exact ⟨_, by rw [← List.append_assoc, ← List.append_assoc]⟩

theorem Opening.exists_semicolon (h : Opening b x p t (.finish s)) : ∃ front, t = front ++ [';'] := by
  cases h with
  | single hc hbegin hend =>
    obtain rfl : _ = Kind.semicolon := kind_of_begin?_finish hbegin
    obtain rfl := Lexeme.eq_of_mark?_semicolon hc
    exact ⟨[], rfl⟩
  | go hfinds hbegin hrest =>
    obtain ⟨front, rfl⟩ := hrest.exists_semicolon rfl
    exact ⟨_, by rw [← List.append_assoc]⟩

theorem behind_of_eq {source : List Char} {c : Char} (front back : List Char)
    (hsource : source = front ++ [c] ++ back) (hp : p = Position.advance {} (front ++ [c])) :
    Behind source c p :=
  ⟨front, back, by rw [hsource, List.append_assoc]; rfl, hp⟩

/-- A list of items that stands in a text ends its items in the text. -/
theorem Body.terminated {source : List Char} {items : List (Item String)} (before after : List Char)
    (h : Body b x p t items y) (hsource : source = before ++ t ++ after)
    (hp : p = Position.advance {} before) : ∀ item ∈ items, item.Terminated source := by
  induction h generalizing before after with
  | nil => simp
  | @statement b x y p t us s items fs hopen hrest ih =>
    subst hp
    obtain ⟨front, rfl⟩ := hopen.exists_semicolon
    refine List.forall_mem_cons.2 ⟨.statement ?_, ?_⟩
    · exact behind_of_eq (before ++ Filler.text fs ++ front) (us ++ after) (by simp [hsource])
        (by simp [Position.advance_append])
    · exact ih (before ++ Filler.text fs ++ (front ++ [';'])) after (by simp [hsource])
        (by simp [Position.advance_append])
  | @block b x y z p t ts us head inner items fs gs hopen hbody hrest ihbody ihrest =>
    subst hp
    refine List.forall_mem_cons.2 ⟨.block ?_ ?_, ?_⟩
    · exact behind_of_eq (before ++ Filler.text fs ++ t ++ ts ++ Filler.text gs) (us ++ after)
        (by simp [hsource]) (by simp [Position.advance_append])
    · exact ihbody (before ++ Filler.text fs ++ t) (Filler.text gs ++ ['\x7d'] ++ us ++ after)
        (by simp [hsource]) (by simp [Position.advance_append])
    · exact ihrest (before ++ Filler.text fs ++ (t ++ (ts ++ (Filler.text gs ++ ['\x7d'])))) after
        (by simp [hsource]) (by simp [Position.advance_append])

end

section

variable {ν μ ε : Type} {f : ν → Except ε μ} {source : List Char}

mutual

theorem Item.Terminated.mapM : (item : Item ν) → {item' : Item μ} → item.Terminated source →
    item.mapM f = .ok item' → item'.Terminated source
  | .statement span s, item', hitem, h => by
    rw [Item.mapM] at h
    obtain ⟨s', -, h⟩ := bind_eq_ok h
    cases h
    cases hitem with
    | statement hstop => exact .statement hstop
  | .block span head items, item', hitem, h => by
    rw [Item.mapM] at h
    obtain ⟨items', hitems', h⟩ := bind_eq_ok h
    cases h
    cases hitem with
    | block hstop hitems => exact .block hstop (Item.Terminated.mapList items hitems hitems')

/-- Giving the integers values does not change where items end. -/
theorem Item.Terminated.mapList : (items : List (Item ν)) → {items' : List (Item μ)} →
    (∀ item ∈ items, item.Terminated source) → Item.mapList f items = .ok items' →
      ∀ item ∈ items', item.Terminated source
  | [], items', hitems, h => by
    rw [Item.mapList] at h
    cases h
    simp
  | item :: items, items', hitems, h => by
    rw [Item.mapList] at h
    obtain ⟨item', hitem', h⟩ := bind_eq_ok h
    obtain ⟨rest, hrest, h⟩ := bind_eq_ok h
    cases h
    obtain ⟨hfirst, hitems⟩ := List.forall_mem_cons.1 hitems
    exact List.forall_mem_cons.2
      ⟨Item.Terminated.mapM item hfirst hitem', Item.Terminated.mapList items hitems hrest⟩

end

end

/-- The items of a text that is a schema end with semicolons and braces. -/
theorem terminated_of_parse {text : String} {s : Schema Int} (h : parse text = .ok s) :
    ∀ item ∈ s.items, item.Terminated text.toList := by
  obtain ⟨literals, hliterals, h⟩ := bind_eq_ok h
  obtain ⟨items, hitems, h⟩ := bind_eq_ok h
  cases h
  obtain ⟨t, ds, y, hsource, hbody, -⟩ := exists_parseLiterals_iff.1 ⟨_, hliterals⟩
  exact Item.Terminated.mapList literals.items (hbody.terminated [] ds hsource rfl) hitems

end SchemaEnums.Schema
