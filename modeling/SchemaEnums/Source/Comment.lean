import SchemaEnums.Source.Position
import SchemaEnums.Text.Blank
import SchemaEnums.Text.Lines

namespace SchemaEnums.Source

inductive Comment.Kind where
  | line
  | block
deriving DecidableEq, Repr

/-- A comment with its marks, and where it stands. -/
structure Comment where
  kind : Comment.Kind
  text : String
  span : Span
deriving DecidableEq, Repr

namespace Comment

/-- Splits a text behind its first closing mark. -/
def splitBlock? : List Char → Option (List Char × List Char)
  | [] => none
  | '*' :: '/' :: cs => some (['*', '/'], cs)
  | c :: cs => (splitBlock? cs).map fun (body, rest) => (c :: body, rest)

/-- Splits a text behind the comment that it begins with. A line comment runs to the end of its
line, a block comment to its first closing mark. -/
def split? : List Char → Option (Kind × List Char × List Char)
  | '/' :: '/' :: cs =>
    some (.line, '/' :: '/' :: cs.takeWhile (· != '\n'), cs.dropWhile (· != '\n'))
  | '/' :: '*' :: cs => (splitBlock? cs).map fun (body, rest) => (.block, '/' :: '*' :: body, rest)
  | _ => none

def dropSpace : List Char → List Char
  | ' ' :: cs => cs
  | cs => cs

def dropStar : List Char → List Char
  | '*' :: cs => cs
  | cs => cs

def lineContent (cs : List Char) : List Char :=
  Text.trimEnd (dropSpace (dropStar (Text.trimStart cs)))

def trimLines (ls : List (List Char)) : List (List Char) :=
  ((ls.dropWhile List.isEmpty).reverse.dropWhile List.isEmpty).reverse

/-- The text between the marks of a block comment. -/
def body (cs : List Char) : List Char :=
  (cs.drop 2).take (cs.length - 4)

/-- What a comment says, without its marks, the stars before its lines, and the blank lines around
it. -/
def contentChars : List Char → List Char
  | '/' :: '/' :: cs => Text.trimEnd (dropSpace cs)
  | cs => Text.joinLines (trimLines ((Text.lines (body cs)).map lineContent))

def contentOf (text : String) : String :=
  String.ofList (contentChars text.toList)

def content (c : Comment) : String :=
  contentOf c.text

theorem append_of_splitBlock? {cs body rest : List Char} (h : splitBlock? cs = some (body, rest)) :
    body ++ rest = cs := by
  fun_induction splitBlock? cs generalizing body rest with
  | case1 => simp at h
  | case2 cs =>
    simp only [Option.some.injEq, Prod.mk.injEq] at h
    obtain ⟨rfl, rfl⟩ := h
    rfl
  | case3 c cs _ ih =>
    obtain ⟨⟨b, r⟩, hsplit, heq⟩ := Option.map_eq_some_iff.1 h
    simp only [Prod.mk.injEq] at heq
    obtain ⟨rfl, rfl⟩ := heq
    simp [ih hsplit]

theorem append_of_split? {cs text rest : List Char} {kind : Kind}
    (h : split? cs = some (kind, text, rest)) : text ++ rest = cs := by
  unfold split? at h
  split at h
  · simp only [Option.some.injEq, Prod.mk.injEq] at h
    obtain ⟨-, rfl, rfl⟩ := h
    simp [List.takeWhile_append_dropWhile]
  · obtain ⟨⟨b, r⟩, hsplit, heq⟩ := Option.map_eq_some_iff.1 h
    simp only [Prod.mk.injEq] at heq
    obtain ⟨-, rfl, rfl⟩ := heq
    simp [append_of_splitBlock? hsplit]
  · simp at h

/-- A comment is never empty. -/
theorem text_ne_nil_of_split? {cs text rest : List Char} {kind : Kind}
    (h : split? cs = some (kind, text, rest)) : text ≠ [] := by
  unfold split? at h
  split at h
  · simp only [Option.some.injEq, Prod.mk.injEq] at h
    obtain ⟨-, rfl, -⟩ := h
    simp
  · obtain ⟨⟨b, r⟩, hsplit, heq⟩ := Option.map_eq_some_iff.1 h
    simp only [Prod.mk.injEq] at heq
    obtain ⟨-, rfl, -⟩ := heq
    simp
  · simp at h

theorem length_lt_of_split? {cs text rest : List Char} {kind : Kind}
    (h : split? cs = some (kind, text, rest)) : rest.length < cs.length := by
  have happend := append_of_split? h
  have hne := List.length_pos_iff.2 (text_ne_nil_of_split? h)
  rw [← happend, List.length_append]
  omega

end Comment

end SchemaEnums.Source
