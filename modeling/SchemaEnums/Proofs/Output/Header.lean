import SchemaEnums.Proofs.Output.Modular

namespace SchemaEnums

open TypeScript

/-- The file under another name, made from another schema file. -/
def TypeScript.OutputFile.renamed (f : OutputFile) (name : String) (source : Option String) :
    OutputFile :=
  { f with name, source }

namespace Generator

section

variable {o : Options} {id : Nat} {d : EnumDescriptor} {ds : List EnumDescriptor}
  {f f' : OutputFile}

theorem nameFor_renamed (f : OutputFile) (name : String) (source : Option String) (a : String)
    (id : Nat) (d : EnumDescriptor) :
    (f.renamed name source).nameFor a id d =
      ((f.nameFor a id d).1, (f.nameFor a id d).2.renamed name source) := by
  have hscope : (f.renamed name source).scope = f.scope := rfl
  rw [OutputFile.nameFor, OutputFile.nameFor, hscope]
  cases f.scope.name? id <;> rfl

/-- What is emitted does not depend on the name of the file and on its source. -/
theorem result_emit_renamed (name : String) (source : Option String) :
    (emit o id d (f.renamed name source)).result =
      (emit o id d f).result.map fun g => g.renamed name source := by
  rw [result_emit_eq_block, result_emit_eq_block, nameFor_renamed]
  cases block o (f.nameFor o.anonymousName id d).1 d <;> rfl

theorem result_emitAll_renamed (name : String) (source : Option String) :
    (emitAll o id ds (f.renamed name source)).result =
      (emitAll o id ds f).result.map fun g => g.renamed name source := by
  induction ds generalizing id f with
  | nil => rfl
  | cons d ds ih =>
    rw [emitAll, emitAll, Noted.result_bind, Noted.result_bind, result_emit_renamed]
    cases (emit o id d f).result with
    | error e => rfl
    | ok g => exact ih

theorem emptyFile_eq_renamed (path : Option String) :
    emptyFile path =
      (emptyFile none).renamed (emptyFile path).name (emptyFile path).source := by
  obtain ⟨hstatements, hscope⟩ := emptyFile_spec path
  cases hfile : emptyFile path
  simp only [hfile] at hstatements hscope
  rw [hstatements, hscope]
  rfl

/-- The output file for the enums of a schema file at another path. -/
theorem outputFile_renamed (o : Options) (file : FileDescriptor) (path : Option String) :
    outputFile o { file with file := path } =
      (outputFile o { file with file := none }).map fun g =>
        g.renamed (emptyFile path).name (emptyFile path).source := by
  unfold outputFile
  simp only
  cases (EnumDescriptor.assignCatalogs o.keepPrefix file.enums).2 with
  | error e => rfl
  | ok u =>
    rw [emptyFile_eq_renamed path]
    exact result_emitAll_renamed _ _

theorem source_of_outputFile {file : FileDescriptor} (h : outputFile o file = .ok f) :
    f.source = (emptyFile file.file).source := by
  have hrenamed := outputFile_renamed o file file.file
  cases hout : outputFile o { file with file := none } with
  | error e =>
    rw [hout] at hrenamed
    cases h.symm.trans hrenamed
  | ok g =>
    rw [hout] at hrenamed
    cases h.symm.trans hrenamed
    rfl

/-- The code begins with the line that names the schema file. -/
theorem sourceLine_isPrefix {file : FileDescriptor} {code : String}
    (h : (generate o file).result = .ok code) :
    (sourceLine file.file).toList <+: code.toList := by
  rw [result_generate] at h
  cases hout : outputFile o file with
  | error e =>
    rw [hout] at h
    cases h
  | ok f =>
    rw [hout] at h
    cases h
    rw [toList_sourceLine, OutputFile.content, String.toList_ofList, Output.contentChars_eq,
      source_of_outputFile hout]
    split
    next hnil =>
      rw [hnil.1]
      exact List.nil_prefix
    next => exact List.prefix_append _ _

theorem statements_ne_nil_of_emit (h : (emit o id d f).result = .ok f') : f'.statements ≠ [] := by
  rw [result_emit_eq_block] at h
  cases hblock : block o (f.nameFor o.anonymousName id d).1 d with
  | error e =>
    rw [hblock] at h
    cases h
  | ok ss =>
    rw [hblock] at h
    cases h
    exact List.append_ne_nil_of_right_ne_nil _ (block_ne_nil hblock)

/-- A file with an enum has statements. -/
theorem statements_ne_nil_of_emitAll (hne : ds ≠ []) (h : (emitAll o id ds f).result = .ok f') :
    f'.statements ≠ [] := by
  obtain ⟨d, ds, rfl⟩ := List.exists_cons_of_ne_nil hne
  rw [emitAll, Noted.result_bind] at h
  obtain ⟨g, hg, hrest⟩ := Schema.bind_eq_ok h
  intro hnil
  have hbefore := (extends_emitAll hrest).statements
  rw [hnil, List.prefix_nil] at hbefore
  exact statements_ne_nil_of_emit hg hbefore

/-- All that the path of the schema file has to do with the output is the line in front. -/
theorem result_generate_renamed (o : Options) {file : FileDescriptor} (hne : file.enums ≠ [])
    (path : Option String) :
    (generate o { file with file := path }).result =
      (generate o { file with file := none }).result.map fun plain => sourceLine path ++ plain := by
  rw [result_generate, result_generate, outputFile_renamed o file path]
  cases hout : outputFile o { file with file := none } with
  | error e => rfl
  | ok g =>
    obtain ⟨hassigned, hemit⟩ := outputFile_ok hout
    obtain ⟨-, henums⟩ := EnumDescriptor.assignCatalogs_ok hassigned
    have hstatements : g.statements ≠ [] := by
      refine statements_ne_nil_of_emitAll ?_ hemit
      rw [henums]
      simpa using hne
    have hsource : g.source = (emptyFile none).source := source_of_outputFile hout
    have hplain : g.content = String.ofList (Output.statementsText g.statements) := by
      rw [content_eq hsource hstatements]
      exact String.empty_append
    have hnamed : (g.renamed (emptyFile path).name (emptyFile path).source).content =
        sourceLine path ++ String.ofList (Output.statementsText g.statements) :=
      content_eq rfl hstatements
    simp only [Except.map, hplain, hnamed]

end

/-- Holds of the characters that end a line comment. -/
def isLineEnd (c : Char) : Bool :=
  c == '\n' || c == '\r' || c == '\u2028' || c == '\u2029'

/-- What the header line begins with. -/
def headerMark : String := "// @generated by enum_wrangler from "

/-- The name that the header shows: that of the schema file without its folders. -/
def shownName (path : Option String) : List Char :=
  Path.baseName (path.getD "").toList

/-- The code is the header line, which is one comment line, and then the rest. -/
def IsHeaded (code rest : String) : Prop :=
  ∃ line : String, headerMark.toList <+: line.toList ∧
    (∀ c ∈ line.toList, isLineEnd c = false) ∧ code = line ++ "\n" ++ rest

/-- What stands behind a line comment, if the text begins with one. -/
def behindLineComment : List Char → List Char
  | '/' :: '/' :: cs => (cs.dropWhile fun c => !isLineEnd c).drop 1
  | cs => cs

section

variable {path : Option String} {code plain : String} {name cs : List Char}

theorem any_isLineEnd_eq_false_iff :
    cs.any isLineEnd = false ↔ ∀ c ∈ cs, isLineEnd c = false := by
  simp

theorem sourceLine_eq (path : Option String) :
    sourceLine path =
      if shownName path = [] then "" else headerMark ++ String.ofList (shownName path) ++ "\n" := by
  cases path with
  | none => rfl
  | some path =>
    have hname : shownName (some path) = Path.baseName path.toList := rfl
    rw [sourceLine, hname, Option.map_some]
    by_cases hbase : Path.baseName path.toList = []
    · rw [hbase, if_pos rfl]
      rfl
    · have hfilled : Text.filled? (some (String.ofList (Path.baseName path.toList))) =
          some (String.ofList (Path.baseName path.toList)) := by
        simp [Text.filled?, hbase]
      rw [hfilled, if_neg hbase]
      rfl

theorem headerLines_of_ne_empty {name : String} (h : name ≠ "") :
    OutputFile.headerLines (some name) = [headerMark.toList ++ name.toList] := by
  have hfilled : Text.filled? (some name) = some name := by simp [Text.filled?, h]
  rw [OutputFile.headerLines, hfilled]
  rfl

/-- Behind the name, a line comment goes on to the first line end. -/
theorem behindLineComment_header (name cs : List Char) :
    behindLineComment (headerMark.toList ++ (name ++ '\n' :: cs)) =
      ((name ++ '\n' :: cs).dropWhile fun c => !isLineEnd c).drop 1 := by
  obtain ⟨front, hmark, hfront⟩ : ∃ front, headerMark.toList = '/' :: '/' :: front ∧
      ∀ c ∈ front, (!isLineEnd c) = true := ⟨_, rfl, List.all_eq_true.1 (by decide)⟩
  rw [hmark, List.cons_append, List.cons_append, behindLineComment,
    List.dropWhile_append_of_pos hfront]

/-- The comment ends in front of the rest, unless it ends inside the name. -/
theorem drop_dropWhile_name_iff :
    ((name ++ '\n' :: cs).dropWhile fun c => !isLineEnd c).drop 1 = cs ↔
      ∀ c ∈ name, isLineEnd c = false := by
  induction name with
  | nil => simp [isLineEnd]
  | cons c name ih =>
    rw [List.cons_append, List.forall_mem_cons]
    cases hc : isLineEnd c with
    | false =>
      rw [List.dropWhile_cons_of_pos (by simp [hc]), ih]
      simp
    | true =>
      rw [List.dropWhile_cons_of_neg (by simp [hc])]
      refine iff_of_false (fun heq => ?_) (by simp)
      have hlength := congrArg List.length heq
      simp only [List.drop_one, List.tail_cons, List.length_append, List.length_cons] at hlength
      omega

theorem isHeaded_iff (hshown : shownName path ≠ []) :
    IsHeaded (sourceLine path ++ plain) plain ↔ ∀ c ∈ shownName path, isLineEnd c = false := by
  have hmark : ∀ c ∈ headerMark.toList, isLineEnd c = false :=
    any_isLineEnd_eq_false_iff.1 (by decide)
  rw [sourceLine_eq, if_neg hshown]
  constructor
  · rintro ⟨line, -, hline, hcode⟩
    have htext := congrArg String.toList hcode
    simp only [String.toList_append, List.append_cancel_right_eq] at htext
    intro c hc
    apply hline
    rw [← htext, String.toList_ofList]
    exact List.mem_append_right _ hc
  · intro hname
    refine ⟨headerMark ++ String.ofList (shownName path), ?_, ?_, rfl⟩
    · rw [String.toList_append]
      exact List.prefix_append _ _
    · rw [String.toList_append, String.toList_ofList]
      exact List.forall_mem_append.2 ⟨hmark, hname⟩

end

/-- The path of the schema file decides only on the line in front of the output, which shows the
name without its folders if there is one. It is one comment line, and what stands behind the comment
is what is generated without a path, exactly if there is no line end in the name. -/
theorem generate_header (o : Options) (file : FileDescriptor) (hne : file.enums ≠ [])
    (path : Option String) :
    (generate o { file with file := path }).result =
      (generate o { file with file := none }).result.map (fun plain => sourceLine path ++ plain) ∧
    ∀ code, (generate o { file with file := path }).result = .ok code →
      ∃ plain, (generate o { file with file := none }).result = .ok plain ∧
        ((code = plain ∨ IsHeaded code plain) ↔ ∀ c ∈ shownName path, isLineEnd c = false) ∧
        (shownName path ≠ [] → (behindLineComment code.toList = plain.toList ↔
          ∀ c ∈ shownName path, isLineEnd c = false)) := by
  have hresult := result_generate_renamed o hne path
  refine ⟨hresult, fun code hcode => ?_⟩
  rw [hresult] at hcode
  cases hplain : (generate o { file with file := none }).result with
  | error e =>
    rw [hplain] at hcode
    cases hcode
  | ok plain =>
    rw [hplain] at hcode
    cases hcode
    refine ⟨plain, rfl, ?_, fun hshown => ?_⟩
    · by_cases hshown : shownName path = []
      · rw [sourceLine_eq, if_pos hshown]
        refine iff_of_true (.inl String.empty_append) ?_
        rw [hshown]
        simp
      · rw [← isHeaded_iff hshown]
        refine or_iff_right fun heq => ?_
        have hlength := congrArg String.length heq
        rw [sourceLine_eq, if_neg hshown] at hlength
        simp [String.length_append] at hlength
    · have htext : (sourceLine path ++ plain).toList =
          headerMark.toList ++ (shownName path ++ '\n' :: plain.toList) := by
        rw [sourceLine_eq, if_neg hshown]
        simp
      rw [htext, behindLineComment_header, drop_dropWhile_name_iff]

/-- A schema file with one enum, at the path. -/
def smallFile (path : Option String) : FileDescriptor where
  file := path
  enums := [{ name := some "E", values := [{ name := "A", number := 0 }] }]

/-- A path with a line of code in it. -/
def pathWithCode : String := "a\nexport const x = 1;"

theorem generate_header_smallFile :
    ∃ code codeOfPath plain,
      (generate {} (smallFile (some "schemas/e.proto"))).result = .ok code ∧
      (generate {} (smallFile (some pathWithCode))).result = .ok codeOfPath ∧
      (generate {} (smallFile none)).result = .ok plain ∧
      (code = plain ∨ IsHeaded code plain) ∧ behindLineComment code.toList = plain.toList ∧
      behindLineComment codeOfPath.toList ≠ plain.toList := by
  have hne : (smallFile none).enums ≠ [] := List.cons_ne_nil _ _
  obtain ⟨code, hcode⟩ : ∃ code,
      (generate {} (smallFile (some "schemas/e.proto"))).result = .ok code := ⟨_, rfl⟩
  obtain ⟨codeOfPath, hcodeOfPath⟩ : ∃ code,
      (generate {} (smallFile (some pathWithCode))).result = .ok code := ⟨_, rfl⟩
  obtain ⟨-, hfirst⟩ := generate_header {} (smallFile none) hne (some "schemas/e.proto")
  obtain ⟨-, hsecond⟩ := generate_header {} (smallFile none) hne (some pathWithCode)
  obtain ⟨plain, hplain, hheaded, hbehind⟩ := hfirst code hcode
  obtain ⟨plain', hplain', -, hbehind'⟩ := hsecond codeOfPath hcodeOfPath
  rw [hplain] at hplain'
  cases hplain'
  have hclean : ∀ c ∈ shownName (some "schemas/e.proto"), isLineEnd c = false :=
    any_isLineEnd_eq_false_iff.1 (by decide)
  have hbroken : ¬ ∀ c ∈ shownName (some pathWithCode), isLineEnd c = false :=
    mt any_isLineEnd_eq_false_iff.2 (by decide)
  exact ⟨code, codeOfPath, plain, hcode, hcodeOfPath, hplain, hheaded.2 hclean,
    (hbehind (by decide)).2 hclean, fun heq => hbroken ((hbehind' (by decide)).1 heq)⟩

/-- A line of code in the path stands in the output as one. -/
theorem generate_pathWithCode :
    ∃ code plain, (generate {} (smallFile (some pathWithCode))).result = .ok code ∧
      (generate {} (smallFile none)).result = .ok plain ∧ code ≠ plain ∧ ¬ IsHeaded code plain ∧
      code = "// @generated by enum_wrangler from a\nexport const x = 1;\n" ++ plain := by
  obtain ⟨plain, hplain⟩ : ∃ plain, (generate {} (smallFile none)).result = .ok plain := ⟨_, rfl⟩
  have hline : sourceLine (some pathWithCode) =
      "// @generated by enum_wrangler from a\nexport const x = 1;\n" := by decide
  have hcode : (generate {} (smallFile (some pathWithCode))).result =
      .ok (sourceLine (some pathWithCode) ++ plain) := by
    have hne : (smallFile none).enums ≠ [] := List.cons_ne_nil _ _
    refine (result_generate_renamed {} hne (some pathWithCode)).trans ?_
    rw [show ({ smallFile none with file := none } : FileDescriptor) = smallFile none from rfl,
      hplain]
    rfl
  refine ⟨_, plain, hcode, hplain, fun heq => ?_, ?_, by rw [hline]⟩
  · have hlength := congrArg String.length heq
    rw [hline, String.length_append] at hlength
    exact absurd hlength (by simp)
  · rw [isHeaded_iff (by decide), ← any_isLineEnd_eq_false_iff]
    decide

end Generator

end SchemaEnums
