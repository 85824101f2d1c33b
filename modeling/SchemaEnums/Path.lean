import SchemaEnums.Text.Raw

namespace SchemaEnums

/-- The characters that give paths their parts. -/
class PathChar (α : Type) where
  slash : α
  dot : α

instance : PathChar Char := ⟨'/', '.'⟩

instance : PathChar RawChar := ⟨.char '/', .char '.'⟩

namespace Path

open PathChar

variable {α : Type} [DecidableEq α] [PathChar α]

/-- Splits a path behind its last slash. -/
def splitBase (path : List α) : List α × List α :=
  ((path.reverse.dropWhile (· != slash)).reverse, (path.reverse.takeWhile (· != slash)).reverse)

def baseName (path : List α) : List α :=
  (splitBase path).2

/-- The name without its extension, which begins at the last dot that has more than dots in front of
it. -/
def stem (name : List α) : List α :=
  match name.reverse.dropWhile (· != dot) with
  | [] => name
  | _ :: front => if front.all (· == dot) then name else front.reverse

/-- A path inside a folder. A path that begins with a slash is in no folder. -/
def join (folder path : List α) : List α :=
  if path.head? == some slash then path
  else if folder.isEmpty || folder.getLast? == some slash then folder ++ path
  else folder ++ slash :: path

/-- Cuts the slashes off the end of a path, unless it consists of slashes. -/
def trimSlashes (path : List α) : List α :=
  if path.all (· == slash) then path else (path.reverse.dropWhile (· == slash)).reverse

/-- The folder that a path leads through last, and what follows it. -/
def splitFolder (path : List α) : List α × List α :=
  (trimSlashes (splitBase path).1, (splitBase path).2)

/-- The folder that a path leads through last and the name behind it. One slash or more at the end
are not looked at. A path without a folder, or without a name, has none. -/
def parent? (path : List α) : Option (List α × List α) :=
  let (folder, name) := splitFolder path
  let (folder, name) := if name.isEmpty then splitFolder folder else (folder, name)
  if folder.isEmpty || name.isEmpty then none else some (folder, name)

theorem splitBase_append (path : List α) : (splitBase path).1 ++ (splitBase path).2 = path := by
  simp only [splitBase, ← List.reverse_append, List.takeWhile_append_dropWhile,
    List.reverse_reverse]

theorem length_trimSlashes_le (path : List α) : (trimSlashes path).length ≤ path.length := by
  unfold trimSlashes
  split
  · exact Nat.le_refl _
  · have := (List.dropWhile_sublist (· == slash) (l := path.reverse)).length_le
    simpa using this

theorem length_splitFolder_le (path : List α) :
    (splitFolder path).1.length + (splitFolder path).2.length ≤ path.length := by
  have h := congrArg List.length (splitBase_append path)
  have := length_trimSlashes_le (splitBase path).1
  rw [List.length_append] at h
  simp only [splitFolder]
  omega

theorem length_lt_of_parent? {path folder name : List α}
    (h : parent? path = some (folder, name)) : folder.length < path.length := by
  have hle := length_splitFolder_le path
  have hle' := length_splitFolder_le (splitFolder path).1
  simp only [parent?, Option.ite_none_left_eq_some, Option.some.injEq, Prod.mk.injEq] at h
  obtain ⟨hne, rfl, rfl⟩ := h
  simp only [Bool.or_eq_true, not_or, List.isEmpty_iff] at hne
  have hpos := List.length_pos_iff.2 hne.2
  split at hpos <;> split <;> simp_all <;> omega

end Path

end SchemaEnums
