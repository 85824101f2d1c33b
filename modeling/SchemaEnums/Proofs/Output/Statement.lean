import SchemaEnums.Generator.Emission
import SchemaEnums.Proofs.Output.Code

namespace SchemaEnums.Output

open TypeScript Generator

/-- The entry that a member stands for. -/
def entryOf (m : Member) : CatalogEntry :=
  { name := m.name, number := m.number }

/-- How statements are introduced. -/
theorem introduction_export : introduction ["export"] "enum" = "export enum ".toList ∧
    introduction ["export"] VariableKind.const.word = "export const ".toList := by
  decide

section

variable {name : String} {done : Catalog} {rows : List Row}

/-- The line of a member without what stands behind it. -/
theorem goes_memberLine {m : Member} (hm : IsWord m.name.toList) {cs : List Char} {ps : List Piece}
    (hcs : pieces.Goes .between ((toString m.number).toList ++ cs) ps .between) :
    pieces.Goes .between (m.line indentStep ++ cs) (.word m.name :: .mark '=' :: ps) .between := by
  have hindent : pieces.Goes .between indentStep [] .between := rfl
  have hname := goes_wordBlank hm (.inl rfl)
  have hequal : pieces.Goes .between ['=', ' '] [.mark '='] .between := rfl
  have hall := ((hindent.append hname).append hequal).append hcs
  rw [String.ofList_toList] at hall
  simpa [Member.line] using hall

theorem slash_not_mem_memberLine {m : Member} (hm : '/' ∉ m.name.toList) :
    '/' ∉ m.line indentStep := by
  have hnumber := (isWord_toString m.number).slash_not_mem
  have hindent : '/' ∉ indentStep := by decide
  have hequal : '/' ∉ [' ', '=', ' '] := by decide
  simp only [Member.line, List.mem_append, not_or]
  exact ⟨⟨⟨hindent, hm⟩, hequal⟩, hnumber⟩

/-- The pieces of a member are read as its entry. -/
theorem member?_eq (m : Member) :
    member? [.word m.name, .mark '=', .word (toString m.number)] = some (entryOf m) := by
  rw [member?, integer?_toString]
  rfl

/-- A member with a mark behind it, which ends the member. -/
theorem reads_marked {m : Member} (hm : IsWord m.name.toList) {c : Char} {cs : List Char}
    {ds : List Declaration} {q : DeclarationPlace} (hslash : '/' ∉ cs)
    (hcs : pieces.Goes .between ((toString m.number).toList ++ cs)
      [.word (toString m.number), .mark c] .between)
    (hmark : declarations.next?
      (.member name done [.word m.name, .mark '=', .word (toString m.number)]) (.mark c) =
        some (q, ds)) :
    Reads (m.line indentStep ++ cs) (.member name done []) ds q := by
  have hline := slash_not_mem_memberLine hm.slash_not_mem
  refine .code (by simp [hline, hslash]) (goes_memberLine hm hcs) ?_
  exact .skip rfl (.skip rfl (.skip rfl (.single hmark)))

/-- A member with a comma behind it. -/
theorem reads_member {m : Member} (hm : IsWord m.name.toList) (name : String) (done : Catalog) :
    Reads (m.line indentStep ++ [',', '\n']) (.member name done []) []
      (.member name (done ++ [entryOf m]) []) := by
  have hfeed : pieces.Goes .between ['\n'] [] .between := rfl
  have hnumber := (goes_wordMark (isWord_toString m.number) (c := ',') (by simp)).append hfeed
  rw [String.ofList_toList, List.append_assoc] at hnumber
  apply reads_marked hm (by decide) hnumber
  show (member? _).map _ = _
  rw [member?_eq]
  rfl

/-- The last member and the end of the declaration. -/
theorem reads_lastMember {m : Member} (hm : IsWord m.name.toList) (name : String) (done : Catalog) :
    Reads (m.line indentStep ++ ['\n', '\x7d', '\n']) (.member name done [])
      [.enum name (done ++ [entryOf m])] (.head []) := by
  have hend : pieces.Goes .between ['\x7d', '\n'] [.mark '\x7d'] .between := rfl
  have hnumber := (goes_wordBlank (isWord_toString m.number) (.inr rfl)).append hend
  rw [String.ofList_toList, List.append_assoc] at hnumber
  apply reads_marked hm (by decide) hnumber
  show (member? _).map _ = _
  rw [member?_eq]
  rfl

/-- The members of a declaration and its end. -/
theorem reads_members {ms : List Member} (hne : ms ≠ []) (hms : ∀ m ∈ ms, IsWord m.name.toList)
    (name : String) (done : Catalog) :
    Reads (endLines (EnumDeclaration.memberLines indentStep ms ++ [['\x7d']])) (.member name done [])
      [.enum name (done ++ ms.map entryOf)] (.head []) := by
  induction ms generalizing done with
  | nil => exact absurd rfl hne
  | cons m ms ih =>
    have hm := hms m List.mem_cons_self
    have hcomment := Reads.commentLines m.comment (.inr rfl) (.member name done [])
    cases ms with
    | nil =>
      have hall := hcomment.append (reads_lastMember hm name done)
      simpa [EnumDeclaration.memberLines, endLines] using hall
    | cons m' ms =>
      have hrest := ih (List.cons_ne_nil m' ms) (fun k hk => hms k (List.mem_cons_of_mem m hk))
        (done ++ [entryOf m])
      have hall := hcomment.append ((reads_member hm name done).append hrest)
      simpa [EnumDeclaration.memberLines, endLines] using hall

/-- An enum declaration is read with its name and its members. -/
theorem reads_enum {d : EnumDeclaration} (hname : IsWord d.name.text.toList)
    (hmodifiers : d.modifiers = ["export"]) (hne : d.members ≠ [])
    (hms : ∀ m ∈ d.members, IsWord m.name.toList) :
    Reads (endLines (d.lines [])) (.head []) [.enum d.name.text (d.members.map entryOf)]
      (.head []) := by
  have hcomment := Reads.commentLines d.comment (.inl rfl) (.head [])
  have hheader : Reads ("export enum ".toList ++ d.name.text.toList ++ [' ', '\x7b', '\n'])
      (.head []) [] (.member d.name.text [] []) := by
    have hslash := hname.slash_not_mem
    have hstart : pieces.Goes .between "export enum ".toList [.word "export", .word "enum"] .between :=
      rfl
    have hend : pieces.Goes .between ['\x7b', '\n'] [.mark '\x7b'] .between := rfl
    have hpieces := (hstart.append (goes_wordBlank hname (.inl rfl))).append hend
    rw [String.ofList_toList] at hpieces
    refine .code (by simp [hslash]) (by simpa using hpieces) ?_
    show declarations.feed? _ _ = _
    simp [Machine.feed?, declarations, DeclarationPlace.next?, enumName?]
  have hall := hcomment.append (hheader.append (reads_members hne hms d.name.text []))
  rw [EnumDeclaration.lines, hmodifiers, introduction_export.1]
  simpa [endLines] using hall

/-- What stands before the member in a row. -/
def beforeId : List Char :=
  ['\x7b', ' ', 'i', 'd', ':', ' ']

/-- What stands before the label in a row. -/
def beforeLabel : List Char :=
  [' ', 'n', 'a', 'm', 'e', ':', ' ']

/-- The text of a row. -/
def rowChars (r : Row) : List Char :=
  beforeId ++ (r.enum.toList ++ ['.']) ++ (r.member.toList ++ [',']) ++ beforeLabel ++
    Text.literalChars r.label.toList ++ [' ', '\x7d']

/-- What a row consists of can be read. -/
structure RowReadable (r : Row) : Prop where
  enum : IsWord r.enum.toList
  member : IsWord r.member.toList
  label : '/' ∉ r.label.toList

theorem slash_not_mem_rowChars {r : Row} (henum : '/' ∉ r.enum.toList)
    (hmember : '/' ∉ r.member.toList) (hlabel : '/' ∉ r.label.toList) : '/' ∉ rowChars r := by
  have hliteral := slash_not_mem_literalChars hlabel
  have hfixed : '/' ∉ beforeId ∧ '/' ∉ ['.'] ∧ '/' ∉ [','] ∧ '/' ∉ beforeLabel ∧
    '/' ∉ [' ', '\x7d'] := by decide
  obtain ⟨hopen, hdot, hcomma, hname, hclose⟩ := hfixed
  simp only [rowChars, List.mem_append, not_or]
  exact ⟨⟨⟨⟨⟨hopen, henum, hdot⟩, hmember, hcomma⟩, hname⟩, hliteral⟩, hclose⟩

theorem reads_row {r : Row} (hr : RowReadable r) (name : String) (rows : List Row) :
    Reads (indentStep ++ rowChars r) (.rowStart name rows) [] (.rowEnd name (rows ++ [r])) := by
  have hrow := slash_not_mem_rowChars hr.enum.slash_not_mem hr.member.slash_not_mem hr.label
  have hslash : '/' ∉ indentStep ++ rowChars r := by
    rw [List.mem_append, not_or]
    exact ⟨by decide, hrow⟩
  have hindent : pieces.Goes .between indentStep [] .between := rfl
  have hopen : pieces.Goes .between beforeId [.mark '\x7b', .word "id", .mark ':'] .between := rfl
  have hname : pieces.Goes .between beforeLabel [.word "name", .mark ':'] .between := rfl
  have hclose : pieces.Goes .between [' ', '\x7d'] [.mark '\x7d'] .between := rfl
  have hpieces := hindent.append (((((hopen.append (goes_wordMark hr.enum (c := '.') (by simp))).append
    (goes_wordMark hr.member (c := ',') (by simp))).append hname).append
    (goes_literalChars r.label.toList)).append hclose)
  simp only [String.ofList_toList] at hpieces
  exact .code hslash hpieces rfl

/-- The rows of a table are read in order. -/
theorem reads_rows {rs : List Row} (hne : rs ≠ []) (hrs : ∀ r ∈ rs, RowReadable r) (name : String)
    (rows : List Row) :
    Reads (Expr.joined [',', '\n'] (rs.map fun r => indentStep ++ rowChars r)) (.rowStart name rows)
      [] (.rowEnd name (rows ++ rs)) := by
  induction rs generalizing rows with
  | nil => exact absurd rfl hne
  | cons r rs ih =>
    have hr := reads_row (hrs r List.mem_cons_self) name rows
    cases rs with
    | nil => simpa [Expr.joined, List.intercalate] using hr
    | cons r' rs =>
      have hcomma : Reads [',', '\n'] (.rowEnd name (rows ++ [r])) []
          (.rowStart name (rows ++ [r])) :=
        .code (by decide) rfl rfl
      have hrest := ih (List.cons_ne_nil r' rs) (fun k hk => hrs k (List.mem_cons_of_mem r hk))
        (rows ++ [r])
      have hall := (hr.append hcomma).append hrest
      simpa [Expr.joined, List.intercalate, List.intersperse] using hall

/-- A table is read with its name and its rows. -/
theorem reads_table {d : VariableDeclaration} {rs : List Row} {es : List Expr}
    (hname : IsWord d.name.text.toList) (hmodifiers : d.modifiers = ["export"])
    (hkind : d.kind = .const) (hcomment : d.comment = none)
    (hinitializer : d.initializer = .array es true)
    (hes : Expr.listChars es = rs.map rowChars) (hne : rs ≠ [])
    (hrs : ∀ r ∈ rs, RowReadable r) :
    Reads (endLines (d.lines [])) (.head []) [.table d.name.text rs] (.head []) := by
  have hheader : Reads
      ("export const ".toList ++ (d.name.text.toList ++ [' ']) ++ ['=', ' ', '[', '\n']) (.head [])
      [] (.rowStart d.name.text []) := by
    have hslash := hname.slash_not_mem
    have hstart : pieces.Goes .between "export const ".toList [.word "export", .word "const"]
      .between := rfl
    have hend : pieces.Goes .between ['=', ' ', '[', '\n'] [.mark '=', .mark '['] .between := rfl
    have hpieces := (hstart.append (goes_wordBlank hname (.inl rfl))).append hend
    rw [String.ofList_toList] at hpieces
    exact .code (by simp [hslash]) hpieces rfl
  have hend : Reads ['\n', ']', ';', '\n'] (.rowEnd d.name.text rs) [.table d.name.text rs]
      (.head []) :=
    .code (by decide) rfl rfl
  have hall := (hheader.append (reads_rows hne hrs d.name.text [])).append hend
  have hcharsAt : d.initializer.charsAt [] = ['[', '\n'] ++
      Expr.joined [',', '\n'] (rs.map fun r => indentStep ++ rowChars r) ++ ['\n', ']'] := by
    rw [hinitializer, Expr.charsAt, hes, Expr.arrayChars, if_neg (by simpa using hne), if_pos rfl]
    simp [Function.comp_def]
  have hnone : commentLines [] (none : Option String) = [] := rfl
  rw [VariableDeclaration.lines, hmodifiers, hkind, introduction_export.2, hcharsAt, hcomment, hnone]
  simpa [endLines] using hall

end

end SchemaEnums.Output
