import SchemaEnums.TypeScript.Statement

namespace SchemaEnums.TypeScript

inductive DraftError where
  | noMembers (enum : String)
  | invalidMember (enum member : String)
  | duplicateMember (enum member : String)
  | invalidName (e : InvalidIdentifier)
deriving DecidableEq, Repr

def DraftError.message : DraftError → String
  | noMembers enum => s!"Enum '{enum}' has no members."
  | invalidMember enum member =>
    s!"Enum '{enum}' member '{member}' is not a valid TypeScript identifier."
  | duplicateMember enum member => s!"Enum '{enum}' has duplicate member '{member}'."
  | invalidName e => e.message

structure EnumDraft where
  members : List Member := []
deriving DecidableEq, Repr

namespace EnumDraft

def add (d : EnumDraft) (m : Member) : EnumDraft :=
  { members := d.members ++ [m] }

/-- Looks at the names of members in order; `seen` are the names before them. -/
def checkMembers (enum : String) (seen : List String) : List Member → Except DraftError Unit
  | [] => .ok ()
  | m :: ms =>
    if !isIdentifier m.name then .error (.invalidMember enum m.name)
    else if seen.contains m.name then .error (.duplicateMember enum m.name)
    else checkMembers enum (m.name :: seen) ms

/-- Finishes the draft as the declaration with the name, if it has any members and their names are
identifiers and all different. -/
def finish (d : EnumDraft) (name : String) (modifiers : List String := []) :
    Except DraftError EnumDeclaration := do
  if d.members.isEmpty then
    throw (.noMembers name)
  checkMembers name [] d.members
  let name ← (Identifier.ofText name).mapError .invalidName
  return { name, members := d.members, modifiers }

end EnumDraft

end SchemaEnums.TypeScript
