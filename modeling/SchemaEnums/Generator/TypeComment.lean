import SchemaEnums.Descriptor

namespace SchemaEnums

/-- The line of the comment that tells the enum it was made from. -/
def EnumDescriptor.provenance (d : EnumDescriptor) : String :=
  s!"@generated from protobuf enum {d.fullName}"

def EnumDescriptor.typeComment (d : EnumDescriptor) : String :=
  let text := match d.documentation.block? with
    | some block => Documentation.paragraphs block d.provenance
    | none => d.provenance
  if d.deprecated then text ++ "\n@deprecated" else text

inductive CommentMode where
  | append
  | replace
deriving DecidableEq, Repr

structure UnknownMode where
  name : String
deriving DecidableEq, Repr

def UnknownMode.message (e : UnknownMode) : String :=
  s!"Unknown comment mode '{e.name}', expected one of ('append', 'replace')."

namespace CommentMode

def ofName (name : String) : Except UnknownMode CommentMode :=
  if name == "append" then .ok append
  else if name == "replace" then .ok replace
  else .error { name }

/-- The comment of a statement after `comment` was attached to it, behind the comment that is there
already or in its place. -/
def attach (mode : CommentMode) (present : Option String) (comment : String) : String :=
  match mode, Text.filled? present with
  | append, some text => Documentation.paragraphs text comment
  | _, _ => comment

end CommentMode

end SchemaEnums
