import SchemaEnums.Source.Splits

namespace SchemaEnums.Source

/-- The lexical classes that are looked for at a place. Strings and the marks other than the dot are
looked for everywhere. Where names are looked for, a keyword is a name that equals it; where they
are not, a keyword is also read off the front of a longer word. -/
structure Context where
  keywords : List Keyword := []
  name : Bool := false
  integer : Bool := false
  float : Bool := false
  dot : Bool := false
  modifier : Bool := false
deriving DecidableEq, Repr

/-- A lexeme with its class, and the text behind it. -/
structure Lexeme where
  kind : Kind
  text : List Char
  rest : List Char
deriving DecidableEq, Repr

namespace Context

def all : Context :=
  { keywords := Keyword.all, name := true, integer := true, float := true, dot := true }

def classify (kind : Kind) (l : List Char × List Char) : Lexeme :=
  { kind, text := l.1, rest := l.2 }

/-- The class of a whole word: the keyword that it equals, or a name. -/
def wordKind (keywords : List Keyword) (word : List Char) : Kind :=
  match keywords.find? fun k => k.word.toList = word with
  | some k => .keyword k
  | none => .name

def readWord? (keywords : List Keyword) (cs : List Char) : Option Lexeme :=
  (Lexeme.name? cs).map fun l => classify (wordKind keywords l.1) l

def readKeyword? (keywords : List Keyword) (cs : List Char) : Option Lexeme :=
  keywords.findSome? fun k => (Lexeme.word? k.word cs).map (classify (.keyword k))

/-- Reads `public` or `weak`. -/
def readModifier? (cs : List Char) : Option Lexeme :=
  ((Lexeme.word? "public" cs).or (Lexeme.word? "weak" cs)).map (classify .modifier)

/-- Reads a mark; a dot only if it is looked for. -/
def readMark? (dot : Bool) : List Char → Option Lexeme
  | [] => none
  | c :: cs =>
    if c = '.' then if dot then some { kind := .dot, text := [c], rest := cs } else none
    else (Lexeme.mark? c).map fun kind => { kind, text := [c], rest := cs }

/-- Reads the lexeme of the context that a text begins with. A number with a point or an exponent
goes before an integer. -/
def read? (x : Context) (cs : List Char) : Option Lexeme :=
  (if x.float then (Lexeme.float? cs).map (classify .float) else none)
  |>.or (if x.name then readWord? x.keywords cs else readKeyword? x.keywords cs)
  |>.or (if x.integer then (Lexeme.integer? cs).map (classify .integer) else none)
  |>.or (if x.modifier then readModifier? cs else none)
  |>.or ((Lexeme.string? cs).map (classify .string))
  |>.or (readMark? x.dot cs)

theorem append_of_classify {kind : Kind} {cs : List Char} {o : Option (List Char × List Char)}
    {l : Lexeme} (hsplits : ∀ l', o = some l' → Lexeme.Splits cs l')
    (h : o.map (classify kind) = some l) : l.text ++ l.rest = cs ∧ l.text ≠ [] := by
  obtain ⟨l', hl', rfl⟩ := Option.map_eq_some_iff.1 h
  exact hsplits l' hl'

theorem append_of_readWord? {keywords : List Keyword} {cs : List Char} {l : Lexeme}
    (h : readWord? keywords cs = some l) : l.text ++ l.rest = cs ∧ l.text ≠ [] := by
  obtain ⟨l', hl', rfl⟩ := Option.map_eq_some_iff.1 h
  exact Lexeme.splits_name? hl'

theorem append_of_readKeyword? {keywords : List Keyword} {cs : List Char} {l : Lexeme}
    (h : readKeyword? keywords cs = some l) : l.text ++ l.rest = cs ∧ l.text ≠ [] := by
  obtain ⟨k, -, hk⟩ := List.exists_of_findSome?_eq_some h
  exact append_of_classify (fun _ => Lexeme.splits_word? (by cases k <;> decide)) hk

theorem append_of_readModifier? {cs : List Char} {l : Lexeme} (h : readModifier? cs = some l) :
    l.text ++ l.rest = cs ∧ l.text ≠ [] := by
  refine append_of_classify (fun l' hl' => ?_) h
  rcases Option.or_eq_some_iff.1 hl' with hl' | ⟨-, hl'⟩
  · exact Lexeme.splits_word? (by decide) hl'
  · exact Lexeme.splits_word? (by decide) hl'

theorem append_of_readMark? {dot : Bool} {cs : List Char} {l : Lexeme}
    (h : readMark? dot cs = some l) : l.text ++ l.rest = cs ∧ l.text ≠ [] := by
  cases cs with
  | nil => simp [readMark?] at h
  | cons c cs =>
    simp only [readMark?] at h
    split at h
    · split at h
      · simp only [Option.some.injEq] at h
        subst h
        simp
      · simp at h
    · obtain ⟨kind, -, rfl⟩ := Option.map_eq_some_iff.1 h
      simp

theorem append_of_read? {x : Context} {cs : List Char} {l : Lexeme} (h : x.read? cs = some l) :
    l.text ++ l.rest = cs ∧ l.text ≠ [] := by
  simp only [read?, Option.or_eq_some_iff] at h
  rcases h with ((((h | ⟨-, h⟩) | ⟨-, h⟩) | ⟨-, h⟩) | ⟨-, h⟩) | ⟨-, h⟩
  · split at h
    · exact append_of_classify (fun _ => Lexeme.splits_float?) h
    · simp at h
  · split at h
    · exact append_of_readWord? h
    · exact append_of_readKeyword? h
  · split at h
    · exact append_of_classify (fun _ => Lexeme.splits_integer?) h
    · simp at h
  · split at h
    · exact append_of_readModifier? h
    · simp at h
  · exact append_of_classify (fun _ => Lexeme.splits_string?) h
  · exact append_of_readMark? h

theorem length_rest_lt_of_read? {x : Context} {cs : List Char} {l : Lexeme}
    (h : x.read? cs = some l) : l.rest.length < cs.length := by
  obtain ⟨happend, hne⟩ := append_of_read? h
  have hpos := List.length_pos_iff.2 hne
  rw [← happend, List.length_append]
  omega

end Context

end SchemaEnums.Source
