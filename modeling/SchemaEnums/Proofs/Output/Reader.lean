import SchemaEnums.Catalog.Entry
import SchemaEnums.Proofs.Output.Literal
import SchemaEnums.Text.Blank
import SchemaEnums.TypeScript.Identifier

namespace SchemaEnums.Output

open TypeScript

/-- A machine goes from state to state on its input and puts something out on the way. It need not
accept all inputs, nor end in all states. -/
structure Machine (σ α β : Type) where
  next? : σ → α → Option (σ × List β)
  ends : σ → Bool

namespace Machine

section

variable {σ α β : Type} (m : Machine σ α β)

/-- The state after an input, and what was put out. -/
def feed? (s : σ) : List α → Option (σ × List β)
  | [] => some (s, [])
  | a :: as => do
    let (s, bs) ← m.next? s a
    let (s, cs) ← feed? s as
    return (s, bs ++ cs)

/-- What is put out for a whole input. -/
def run? (s : σ) (as : List α) : Option (List β) :=
  match m.feed? s as with
  | some (s, bs) => if m.ends s then some bs else none
  | none => none

/-- On the input the machine goes from the first state to the second one and puts out the list. -/
def Goes (s : σ) (as : List α) (bs : List β) (t : σ) : Prop :=
  m.feed? s as = some (t, bs)

variable {m} {s t u : σ} {a : α} {as as' : List α} {bs cs : List β}

theorem Goes.nil (s : σ) : m.Goes s [] [] s :=
  rfl

theorem Goes.cons (h : m.next? s a = some (t, bs)) (h' : m.Goes t as cs u) :
    m.Goes s (a :: as) (bs ++ cs) u := by
  unfold Goes at h' ⊢
  rw [feed?, h]
  simp [h']

theorem Goes.skip (h : m.next? s a = some (t, [])) (h' : m.Goes t as cs u) :
    m.Goes s (a :: as) cs u :=
  .cons h h'

theorem Goes.single (h : m.next? s a = some (t, bs)) : m.Goes s [a] bs t := by
  have hgoes := Goes.cons h (.nil t)
  rwa [List.append_nil] at hgoes

theorem Goes.append (h : m.Goes s as bs t) (h' : m.Goes t as' cs u) :
    m.Goes s (as ++ as') (bs ++ cs) u := by
  induction as generalizing s bs with
  | nil =>
    cases h
    exact h'
  | cons a as ih =>
    unfold Goes at h
    rw [feed?] at h
    obtain ⟨⟨s', ds⟩, hnext, h⟩ := Option.bind_eq_some_iff.1 h
    obtain ⟨⟨t', es⟩, hfeed, h⟩ := Option.bind_eq_some_iff.1 h
    cases h
    rw [List.cons_append, List.append_assoc]
    exact .cons hnext (ih hfeed)

/-- A place that takes up what it reads has taken up the whole input in the end. -/
theorem Goes.collect {place : List α → σ} (p : α → Prop)
    (hnext : ∀ raw a, p a → m.next? (place raw) a = some (place (raw ++ [a]), []))
    (has : ∀ a ∈ as, p a) (raw : List α) : m.Goes (place raw) as [] (place (raw ++ as)) := by
  induction as generalizing raw with
  | nil =>
    rw [List.append_nil]
    exact .nil _
  | cons a as ih =>
    have hrest := ih (fun b hb => has b (List.mem_cons_of_mem a hb)) (raw ++ [a])
    rw [List.append_assoc, List.singleton_append] at hrest
    exact .skip (hnext raw a (has a List.mem_cons_self)) hrest

theorem Goes.run? (h : m.Goes s as bs t) (hends : m.ends t = true) : m.run? s as = some bs := by
  unfold Goes at h
  simp [Machine.run?, h, hends]

end

end Machine

/-- The text without the line comment that it may begin with. -/
def dropLine : List Char → List Char
  | '/' :: '/' :: cs => cs.dropWhile (· != '\n')
  | cs => cs

/-- How much of the beginning or the end of a documentation comment was read. -/
inductive CommentPlace where
  | code
  | slash
  | slashStar
  | inside
  | star
deriving DecidableEq, Repr

namespace CommentPlace

/-- The place after one more character, and the characters that turn out to belong to no comment. -/
def next : CommentPlace → Char → CommentPlace × List Char
  | code, c => if c = '/' then (slash, []) else (code, [c])
  | slash, c =>
    if c = '*' then (slashStar, []) else if c = '/' then (slash, ['/']) else (code, ['/', c])
  | slashStar, c =>
    if c = '*' then (inside, [])
    else if c = '/' then (slash, ['/', '*'])
    else (code, ['/', '*', c])
  | inside, c => if c = '*' then (star, []) else (inside, [])
  | star, c => if c = '/' then (code, []) else if c = '*' then (star, []) else (inside, [])

end CommentPlace

/-- Drops documentation comments. Every comment has to be closed. -/
def comments : Machine CommentPlace Char Char where
  next? p c := some (p.next c)
  ends p := p == .code

/-- A piece of code. Numbers are words, and a string stands for the text that it denotes. -/
inductive Piece where
  | word (text : String)
  | mark (c : Char)
  | string (text : String)
deriving DecidableEq, Repr

/-- Holds of the characters of words. A minus sign is one of them. -/
def isWordPart (c : Char) : Bool :=
  isIdentifierPart c || c == '-'

/-- What was read of the current piece. The characters of a string are not yet unescaped. -/
inductive PiecePlace where
  | between
  | word (cs : List Char)
  | string (cs : List Char)
  | escape (cs : List Char)
deriving DecidableEq, Repr

namespace PiecePlace

/-- The place after a character between two pieces, and the piece that it is. -/
def start (c : Char) : PiecePlace × List Piece :=
  if isWordPart c then (word [c], [])
  else if c = '"' then (string [], [])
  else if Text.isBlank c then (between, [])
  else (between, [.mark c])

/-- The place after one more character, and the pieces that are complete. -/
def next? : PiecePlace → Char → Option (PiecePlace × List Piece)
  | between, c => some (start c)
  | word cs, c =>
    if isWordPart c then some (word (cs ++ [c]), [])
    else some ((start c).1, .word (String.ofList cs) :: (start c).2)
  | string cs, c =>
    if c = '"' then (unescape? cs).map fun t => (between, [.string (String.ofList t)])
    else if c = '\\' then some (escape cs, [])
    else some (string (cs ++ [c]), [])
  | escape cs, c => some (string (cs ++ ['\\', c]), [])

end PiecePlace

/-- Cuts a text that ends with a mark or a blank into pieces. -/
def pieces : Machine PiecePlace Char Piece where
  next? := PiecePlace.next?
  ends p := p == .between

/-- A row of a table: a member of an enum, and its label. -/
structure Row where
  enum : String
  member : String
  label : String
deriving DecidableEq, Repr

/-- What is declared: an enum with the names and numbers of its members, or a table with its rows. -/
inductive Declaration where
  | enum (name : String) (members : Catalog)
  | table (name : String) (rows : List Row)
deriving DecidableEq, Repr

/-- The number that decimal digits write, if there are any. -/
def natural? (cs : List Char) : Option Nat :=
  if cs.isEmpty || !cs.all Char.isDigit then none else some (Nat.ofDigitChars 10 cs 0)

/-- The integer with the decimal digits, and with a minus sign if it is negative. -/
def integer? (text : String) : Option Int :=
  match text.toList with
  | '-' :: cs => (natural? cs).map fun n : Nat => -(n : Int)
  | cs => (natural? cs).map Int.ofNat

/-- The name that is declared by the words before the members of an enum. -/
def enumName? : List Piece → Option String
  | [w, v, .word name] => if w = .word "export" ∧ v = .word "enum" then some name else none
  | _ => none

/-- The name that is declared by the words before the rows of a table. -/
def tableName? : List Piece → Option String
  | [w, v, .word name, .mark '='] =>
    if w = .word "export" ∧ v = .word "const" then some name else none
  | _ => none

/-- The member of an enum. -/
def member? : List Piece → Option CatalogEntry
  | [.word name, .mark '=', .word number] => (integer? number).map fun number => { name, number }
  | _ => none

/-- The row of a table, from what stands between its braces. -/
def row? : List Piece → Option Row
  | [w, .mark ':', .word enum, .mark '.', .word member, .mark ',', v, .mark ':', .string label] =>
    if w = .word "id" ∧ v = .word "name" then some { enum, member, label } else none
  | _ => none

/-- What was read of the current declaration: its name, its complete members or rows, and the pieces
of the next part. -/
inductive DeclarationPlace where
  | head (ps : List Piece)
  | member (name : String) (members : Catalog) (ps : List Piece)
  | rowStart (name : String) (rows : List Row)
  | row (name : String) (rows : List Row) (ps : List Piece)
  | rowEnd (name : String) (rows : List Row)
  | tableEnd (name : String) (rows : List Row)
deriving DecidableEq, Repr

namespace DeclarationPlace

/-- The place after one more piece, and the declaration that is complete. -/
def next? : DeclarationPlace → Piece → Option (DeclarationPlace × List Declaration)
  | head ps, .mark '\x7b' => (enumName? ps).map fun name => (member name [] [], [])
  | head ps, .mark '[' => (tableName? ps).map fun name => (rowStart name [], [])
  | head ps, p => some (head (ps ++ [p]), [])
  | member name members ps, .mark ',' =>
    (member? ps).map fun m => (member name (members ++ [m]) [], [])
  | member name members ps, .mark '\x7d' =>
    (member? ps).map fun m => (head [], [.enum name (members ++ [m])])
  | member name members ps, p => some (member name members (ps ++ [p]), [])
  | rowStart name rows, .mark '\x7b' => some (row name rows [], [])
  | row name rows ps, .mark '\x7d' => (row? ps).map fun r => (rowEnd name (rows ++ [r]), [])
  | row name rows ps, p => some (row name rows (ps ++ [p]), [])
  | rowEnd name rows, .mark ',' => some (rowStart name rows, [])
  | rowEnd name rows, .mark ']' => some (tableEnd name rows, [])
  | tableEnd name rows, .mark ';' => some (head [], [.table name rows])
  | _, _ => none

end DeclarationPlace

/-- Reads the declarations of a file. -/
def declarations : Machine DeclarationPlace Piece Declaration where
  next? := DeclarationPlace.next?
  ends p := p == .head []

/-- The declarations in a text, if there is nothing else in it but comments. -/
def read? (text : String) : Option (List Declaration) := do
  declarations.run? (.head []) (← pieces.run? .between (← comments.run? .code (dropLine text.toList)))

end SchemaEnums.Output
