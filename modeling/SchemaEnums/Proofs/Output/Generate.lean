import SchemaEnums.Proofs.Generator.Emission
import SchemaEnums.Proofs.Generator.Words
import SchemaEnums.Proofs.Output.Statement

namespace SchemaEnums.Output

open Source TypeScript Generator

/-- The rows of the label table for an enum with the name. -/
def rowsOf (name : String) (d : EnumDescriptor) (entries : Catalog) : List Row :=
  entries.map fun e => { enum := name, member := e.name, label := label d e }

/-- What the output declares for an enum with the name. -/
def declared (o : Options) (name : String) (d : EnumDescriptor) : List Declaration :=
  .enum name (Catalog.entries d o.keepPrefix) ::
    if o.labelTables then
      [.table (name ++ tableSuffix) (rowsOf name d (Catalog.entries d o.keepPrefix))]
    else []

/-- What the output declares for enums that are emitted into a file one after the other; `id` is the
number of the first. -/
def declaredAll (o : Options) (id : Nat) : List EnumDescriptor → OutputFile → List Declaration
  | [], _ => []
  | d :: ds, f =>
    declared o (f.nameFor o.anonymousName id d).1 d ++
      declaredAll o (id + 1) ds (f.nameFor o.anonymousName id d).2

/-- The text of statements, each with a line feed behind it. -/
def statementsText (ss : List Statement) : List Char :=
  ss.flatMap fun s => s.charsAt [] ++ ['\n']

section

variable {o : Options} {name : String} {d : EnumDescriptor} {ss : List Statement}

theorem EnumDescriptor.Named.isWord_of_mem (h : d.Named) {keepPrefix : Bool} {e : CatalogEntry}
    (he : e ∈ Catalog.entries d keepPrefix) (hidentifier : isIdentifier e.name = true) :
    IsWord e.name.toList where
  ne_nil hnil := by
    rw [isIdentifier, hnil] at hidentifier
    cases hidentifier
  isWordPart _ hc := isWordPart_of_isIdentifierPart (h.isIdentifierPart_of_mem he hc)

/-- The text of a row that was made. -/
theorem chars_of_row {e : CatalogEntry} {x : Expr} (h : row name d e = .ok x) :
    x.chars = rowChars { enum := name, member := e.name, label := label d e } := by
  obtain ⟨target, htarget, h⟩ := Schema.bind_eq_ok h
  obtain ⟨field, hfield, h⟩ := Schema.bind_eq_ok h
  cases h
  have htext := Identifier.text_of_ofText htarget
  have htext' := Identifier.text_of_ofText hfield
  simp [Expr.chars, Expr.propertiesChars, Expr.objectChars, Expr.propertyChars, Expr.joined,
    List.intercalate, htext, htext', rowChars, beforeId, beforeLabel]

theorem listChars_of_mapM {entries : Catalog} {xs : List Expr}
    (h : entries.mapM (row name d) = .ok xs) :
    Expr.listChars xs = (rowsOf name d entries).map rowChars := by
  have hrows := Schema.forall₂_of_mapM h
  clear h
  induction hrows with
  | nil => rfl
  | cons hx _ ih =>
    rw [Expr.listChars, chars_of_row hx, ih]
    rfl

theorem text_enum (d : EnumDeclaration) :
    (Statement.enum d).charsAt [] ++ ['\n'] = endLines (d.lines []) :=
  joinLines_concat (by simp [EnumDeclaration.lines])

theorem text_binding (d : VariableDeclaration) :
    (Statement.binding d).charsAt [] ++ ['\n'] = endLines (d.lines []) :=
  joinLines_concat (by simp [VariableDeclaration.lines])

/-- The statements that were added for an enum declare it. -/
theorem Emitted.reads (h : Emitted o name d (Catalog.entries d o.keepPrefix) ss)
    (hname : IsWord name.toList) (hd : d.Named) :
    Reads (statementsText ss) (.head []) (declared o name d) (.head []) := by
  obtain ⟨hne, hidentifier, declaration, htext, hmembers, hmodifiers, hss⟩ := h
  have hwords : ∀ e ∈ Catalog.entries d o.keepPrefix, IsWord e.name.toList := fun e he =>
    EnumDescriptor.Named.isWord_of_mem hd he (hidentifier e he)
  have hmembers_ne : declaration.members ≠ [] := by
    rw [hmembers]
    simpa using hne
  have hmembers_words : ∀ m ∈ declaration.members, IsWord m.name.toList := by
    intro m hm
    rw [hmembers] at hm
    obtain ⟨e, he, rfl⟩ := List.mem_map.1 hm
    exact hwords e he
  have hentries : declaration.members.map entryOf = Catalog.entries d o.keepPrefix := by
    rw [hmembers, List.map_map]
    exact List.map_id _
  have henum := reads_enum (htext ▸ hname) hmodifiers hmembers_ne hmembers_words
  rw [htext, hentries] at henum
  unfold declared
  by_cases htables : o.labelTables = true
  · rw [if_pos htables] at hss ⊢
    obtain ⟨t, ht, rfl⟩ := hss
    obtain ⟨rows, tableName, hrows, htableName, rfl⟩ := table_ok ht
    have htable_word : IsWord tableName.text.toList := by
      rw [htableName, String.toList_append]
      exact hname.append (List.all_eq_true.1 rfl)
    have hreadable : ∀ r ∈ rowsOf name d (Catalog.entries d o.keepPrefix), RowReadable r := by
      intro r hr
      obtain ⟨e, he, rfl⟩ := List.mem_map.1 hr
      exact ⟨hname, hwords e he, slash_not_mem_label (unslashed_of_isIdentifier (hidentifier e he))⟩
    have htable := reads_table
      (d := { name := tableName, initializer := .array rows true, modifiers := ["export"] })
      htable_word rfl rfl rfl rfl (listChars_of_mapM hrows) (by simpa [rowsOf] using hne) hreadable
    rw [htableName] at htable
    have hall := henum.append htable
    simpa [statementsText, text_enum, text_binding] using hall
  · rw [if_neg htables] at hss ⊢
    subst hss
    simpa [statementsText, text_enum] using henum

/-- What is declared depends on the scope of the file only. -/
theorem declaredAll_congr {f g : OutputFile} (o : Options) (id : Nat) (ds : List EnumDescriptor)
    (h : f.scope = g.scope) : declaredAll o id ds f = declaredAll o id ds g := by
  induction ds generalizing f g id with
  | nil => rfl
  | cons d ds ih =>
    obtain ⟨hname, hscope⟩ := OutputFile.nameFor_congr o.anonymousName id d h
    rw [declaredAll, declaredAll, hname, ih (id + 1) hscope]

/-- What is declared does not depend on the catalogs that are assigned. -/
theorem declaredAll_map (o : Options) (id : Nat) (ds : List EnumDescriptor) (f : OutputFile)
    (g : EnumDescriptor → Option Catalog) :
    declaredAll o id (ds.map fun d => { d with catalog := g d }) f = declaredAll o id ds f := by
  induction ds generalizing f id with
  | nil => rfl
  | cons d ds ih =>
    have hrest := ih (id + 1) (f.nameFor o.anonymousName id d).2
    rw [declaredAll, ← hrest]
    rfl

/-- The first statement, if there is any, declares an enum. -/
def Opens (ss : List Statement) : Prop :=
  ∀ s ∈ ss.head?, ∃ declaration, s = .enum declaration ∧ declaration.modifiers = ["export"]

theorem Emitted.opens {entries : Catalog} (h : Emitted o name d entries ss) (rest : List Statement) :
    Opens (ss ++ rest) := by
  obtain ⟨-, -, declaration, -, -, hmodifiers, hss⟩ := h
  split at hss
  · obtain ⟨t, -, rfl⟩ := hss
    intro s hs
    cases hs
    exact ⟨declaration, rfl, hmodifiers⟩
  · subst hss
    intro s hs
    cases hs
    exact ⟨declaration, rfl, hmodifiers⟩

/-- The statements that were added for enums with catalogs declare them. -/
theorem reads_emitAll {ds : List EnumDescriptor} {id : Nat} {f f' : OutputFile}
    (hds : ∀ d ∈ ds, d.Named ∧ d.currentCatalog = .ok (Catalog.entries d o.keepPrefix))
    (hf : f.scope.Words) (h : (emitAll o id ds f).result = .ok f') :
    ∃ ss, f'.statements = f.statements ++ ss ∧ f'.source = f.source ∧ Opens ss ∧
      Reads (statementsText ss) (.head []) (declaredAll o id ds f) (.head []) := by
  induction ds generalizing f id with
  | nil =>
    cases h
    exact ⟨[], (List.append_nil _).symm, rfl, nofun, .nil _⟩
  | cons d ds ih =>
    obtain ⟨hnamed, hcatalog⟩ := hds d List.mem_cons_self
    rw [emitAll, Noted.result_bind] at h
    obtain ⟨f₁, hf₁, h⟩ := Schema.bind_eq_ok h
    obtain ⟨ss, hemitted, hstatements, hsource, hscope⟩ := emit_ok hcatalog hf₁
    obtain ⟨hword, hwords⟩ := hnamed.nameFor hf o.anonymousName id
    rw [← hscope] at hwords
    obtain ⟨rest, hrest, hsource', -, hreads⟩ := ih (fun e he => hds e (List.mem_cons_of_mem d he))
      hwords h
    have hhead := Emitted.reads hemitted hword hnamed
    rw [declaredAll_congr o _ ds hscope] at hreads
    refine ⟨ss ++ rest, ?_, ?_, Emitted.opens hemitted rest, ?_⟩
    · rw [hrest, hstatements, List.append_assoc]
    · rw [hsource', hsource]
    · have hall := hhead.append hreads
      simpa [statementsText, declaredAll] using hall

theorem generate_ok {o : Options} {f : FileDescriptor} {code : String}
    (h : (generate o f).result = .ok code) :
    (EnumDescriptor.assignCatalogs o.keepPrefix f.enums).2 = .ok () ∧
      ∃ f', (emitAll o 0 (EnumDescriptor.assignCatalogs o.keepPrefix f.enums).1
        (emptyFile f.file)).result = .ok f' ∧ code = f'.content := by
  obtain ⟨f', hout, hcode⟩ := exists_outputFile h
  obtain ⟨hassigned, hemitAll⟩ := outputFile_ok hout
  exact ⟨hassigned, f', hemitAll, hcode⟩

theorem endLines_statements (ss : List Statement) :
    endLines (ss.map (Statement.charsAt [])) = statementsText ss :=
  List.flatMap_map _ _ ss

/-- Statements that begin with an enum do not begin with a line comment. -/
theorem dropLine_statementsText (h : Opens ss) : dropLine (statementsText ss) = statementsText ss := by
  cases ss with
  | nil => rfl
  | cons s ss =>
    obtain ⟨declaration, rfl, hmodifiers⟩ := h s rfl
    rw [statementsText, List.flatMap_cons, text_enum, EnumDeclaration.lines, hmodifiers,
      introduction_export.1, commentLines]
    split
    · rfl
    · rfl

/-- The line that names the schema file is a comment on one line. -/
theorem dropLine_header {source : String} (hsource : '\n' ∉ source.toList) (cs : List Char) :
    dropLine ("// @generated by enum_wrangler from ".toList ++ source.toList ++ '\n' :: cs) =
      '\n' :: cs := by
  have hmark : "// @generated by enum_wrangler from ".toList =
    '/' :: '/' :: " @generated by enum_wrangler from ".toList := rfl
  have hline : ∀ c ∈ " @generated by enum_wrangler from ".toList ++ source.toList,
      (c != '\n') = true := by
    intro c hc
    rw [bne_iff_ne]
    rintro rfl
    rcases List.mem_append.1 hc with hc | hc
    · revert hc
      decide
    · exact hsource hc
  rw [hmark, List.cons_append, List.cons_append, List.cons_append, List.cons_append, dropLine,
    List.dropWhile_append_of_pos hline]
  rfl

/-- A file whose source is on one line is read like its statements. -/
theorem reads_content {f : OutputFile} {ds : List Declaration} (hopens : Opens f.statements)
    (hsource : ∀ source ∈ f.source, '\n' ∉ source.toList)
    (h : Reads (statementsText f.statements) (.head []) ds (.head [])) :
    read? f.content = some ds := by
  have hfeed : Reads ['\n'] (.head []) [] (.head []) := .code (by decide) rfl rfl
  have hchars : f.content.toList = f.contentChars := String.toList_ofList
  unfold OutputFile.contentChars OutputFile.headerLines at hchars
  cases hfilled : Text.filled? f.source with
  | some source =>
    have hline := hsource source (Option.filter_eq_some_iff.1 hfilled).1
    simp only [hfilled] at hchars
    rw [joinLines_concat (by simp), List.singleton_append, endLines, List.flatMap_cons, ← endLines,
      endLines_statements, List.append_assoc, List.singleton_append] at hchars
    refine (hfeed.append h).read? ?_
    rw [hchars]
    exact dropLine_header hline _
  | none =>
    simp only [hfilled, List.nil_append] at hchars
    cases hss : f.statements with
    | nil =>
      rw [hss] at hchars h
      have hall := h.append hfeed
      rw [List.append_nil] at hall
      apply hall.read?
      rw [hchars]
      rfl
    | cons s ss =>
      rw [joinLines_concat (by simp [hss]), endLines_statements] at hchars
      apply h.read?
      rw [hchars]
      exact dropLine_statementsText hopens

theorem newline_not_mem_source {file : Option String} (hfile : ∀ name ∈ file, '\n' ∉ name.toList) :
    ∀ source ∈ (emptyFile file).source, '\n' ∉ source.toList := by
  intro source hsource hnewline
  obtain ⟨path, hpath, hbase⟩ := path_of_mem_source hsource
  rw [hbase] at hnewline
  exact hfile path hpath (mem_baseName hnewline).1

end

/-- The output for a text that was loaded declares its enums in order, each with the members of its
catalog and, if tables are wanted, with its table right behind it. There is nothing else in it but
comments. -/
theorem read?_generate_of_load {file : Option String} {text code : String} {f : FileDescriptor}
    {o : Options} (hload : (FileDescriptor.load file text).result = .ok f)
    (hfile : ∀ name ∈ file, '\n' ∉ name.toList) (hcode : (generate o f).result = .ok code) :
    (∀ d ∈ f.enums, Catalog.build d o.keepPrefix = .ok (Catalog.entries d o.keepPrefix)) ∧
      read? code = some (declaredAll o 0 f.enums (emptyFile file)) := by
  have hnamed := FileDescriptor.named_of_load hload
  have hf : f.file = file := by
    obtain ⟨s, -, rfl⟩ := FileDescriptor.parse_of_load hload
    rfl
  obtain ⟨hassigned, f', hemitAll, rfl⟩ := generate_ok hcode
  obtain ⟨hbuild, henums⟩ := EnumDescriptor.assignCatalogs_ok hassigned
  have hds : ∀ d ∈ (EnumDescriptor.assignCatalogs o.keepPrefix f.enums).1,
      d.Named ∧ d.currentCatalog = .ok (Catalog.entries d o.keepPrefix) := by
    intro d hd
    rw [henums] at hd
    obtain ⟨e, he, rfl⟩ := List.mem_map.1 hd
    exact ⟨⟨(hnamed e he).name, (hnamed e he).parents, (hnamed e he).values⟩, rfl⟩
  have hempty : (emptyFile f.file).statements = [] ∧ (emptyFile f.file).scope = {} := by
    unfold emptyFile
    split <;> exact ⟨rfl, rfl⟩
  have hwords : (emptyFile f.file).scope.Words := by
    rw [hempty.2]
    intro d hd
    cases hd
  obtain ⟨ss, hstatements, hsource, hopens, hreads⟩ := reads_emitAll hds hwords hemitAll
  rw [hempty.1, List.nil_append] at hstatements
  rw [henums, declaredAll_map, hf] at hreads
  refine ⟨hbuild, reads_content (hstatements ▸ hopens) ?_ (hstatements ▸ hreads)⟩
  rw [hsource, hf]
  exact newline_not_mem_source hfile

/-- An enum without a value that has the number zero. -/
def withoutZero : FileDescriptor where
  file := some "e.proto"
  enums := [{ name := some "E"
              values := [{ name := "A", number := -1, file := some "e.proto", line := some 2 }]
              file := some "e.proto"
              line := some 1 }]

theorem read?_generate_of_load_sample :
    ∃ code, (FileDescriptor.load (some "e.proto") "enum E \x7b\n  A = -1;\n\x7d").result =
        .ok withoutZero ∧
      (generate {} withoutZero).result = .ok code ∧
      read? code = some
        [.enum "E" [{ name := "UNSPECIFIED$", number := 0 }, { name := "A", number := -1 }],
          .table "ETranslation"
            [{ enum := "E", member := "UNSPECIFIED$", label := "Unspecified$" },
              { enum := "E", member := "A", label := "A" }]] := by
  have hload : (FileDescriptor.load (some "e.proto") "enum E \x7b\n  A = -1;\n\x7d").result =
      .ok withoutZero := by decide +kernel
  obtain ⟨code, hcode⟩ : ∃ code, (generate {} withoutZero).result = .ok code := ⟨_, rfl⟩
  obtain ⟨-, hread⟩ := read?_generate_of_load hload (by decide) hcode
  refine ⟨code, hload, hcode, hread.trans ?_⟩
  decide +kernel

end SchemaEnums.Output
