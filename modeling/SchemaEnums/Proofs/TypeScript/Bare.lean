import SchemaEnums.TypeScript.EnumDraft
import SchemaEnums.TypeScript.OutputFile

namespace SchemaEnums.TypeScript

/-- The member without its comment. -/
def Member.bare (m : Member) : Member :=
  { m with comment := none }

/-- The declaration without its comment and those of its members. -/
def EnumDeclaration.bare (d : EnumDeclaration) : EnumDeclaration :=
  { d with members := d.members.map Member.bare, comment := none }

/-- The declaration without its comment. -/
def VariableDeclaration.bare (d : VariableDeclaration) : VariableDeclaration :=
  { d with comment := none }

/-- The statement without its comments. -/
def Statement.bare : Statement → Statement
  | .enum d => .enum d.bare
  | .binding d => .binding d.bare
  | .expression e _ => .expression e none

/-- The file without its comments, but for the line that tells the schema file. -/
def OutputFile.bare (f : OutputFile) : OutputFile :=
  { f with statements := f.statements.map Statement.bare }

/-- A draft without its comments. -/
def EnumDraft.bare (d : EnumDraft) : EnumDraft :=
  { d with members := d.members.map Member.bare }

namespace EnumDraft

theorem checkMembers_bare (enum : String) (seen : List String) (ms : List Member) :
    checkMembers enum seen (ms.map Member.bare) = checkMembers enum seen ms := by
  induction ms generalizing seen with
  | nil => rfl
  | cons m ms ih =>
    have hname : m.bare.name = m.name := rfl
    rw [List.map_cons, checkMembers, checkMembers, hname, ih]

/-- A draft without comments is finished like the one with comments. -/
theorem finish_bare (d : EnumDraft) (name : String) (modifiers : List String) :
    d.bare.finish name modifiers = (d.finish name modifiers).map EnumDeclaration.bare := by
  have hempty : d.bare.members.isEmpty = d.members.isEmpty := List.isEmpty_map
  have hcheck : checkMembers name [] d.bare.members = checkMembers name [] d.members :=
    checkMembers_bare name [] d.members
  rw [finish, finish, hempty, hcheck]
  cases d.members.isEmpty with
  | true => rfl
  | false =>
    cases checkMembers name [] d.members with
    | error e => rfl
    | ok u => cases Identifier.ofText name <;> rfl

end EnumDraft

end SchemaEnums.TypeScript
