import Mathlib.Tactic.SplitIfs
import SchemaEnums.CommandLine.Disk
import SchemaEnums.CommandLine.Program

namespace SchemaEnums.CommandLine

namespace Disk

variable {α β : Type} {d d' : Disk} {path : RawText} {bytes : List UInt8}

/-- Holds of the actions that leave all files as they are. -/
def KeepsFiles (action : StateM Disk α) : Prop :=
  ∀ d, (action d).2.files = d.files

theorem keepsFiles_pure (a : α) : KeepsFiles (pure a) := fun _ => rfl

theorem KeepsFiles.bind {x : StateM Disk α} {f : α → StateM Disk β} (hx : KeepsFiles x)
    (hf : ∀ a, KeepsFiles (f a)) : KeepsFiles (x >>= f) :=
  fun d => (hf (x d).1 (x d).2).trans (hx d)

theorem keepsFiles_isPresent (path : RawText) :
    KeepsFiles (MonadFiles.isPresent path : StateM Disk Bool) := fun _ => rfl

theorem keepsFiles_isFolder (path : RawText) :
    KeepsFiles (MonadFiles.isFolder path : StateM Disk Bool) := fun _ => rfl

theorem files_of_createFolder (h : d.createFolder path = .ok d') : d'.files = d.files := by
  unfold createFolder at h
  cases hfind : d.find path with
  | error e => rw [hfind] at h; cases h
  | ok target =>
    rw [hfind] at h
    cases target with
    | folder p => cases h
    | file p bytes => cases h
    | free p => cases h; rfl

theorem keepsFiles_createFolder (path : RawText) :
    KeepsFiles (MonadFiles.createFolder path : StateM Disk (Except FileError Unit)) := by
  intro d
  show (change (fun d => d.createFolder path) d).2.files = d.files
  simp only [change]
  split
  next h => exact files_of_createFolder h
  next => rfl

theorem keepsFiles_makeFolder (path : RawText) :
    KeepsFiles (makeFolder path : StateM Disk (Except FileError Unit)) := by
  refine (keepsFiles_createFolder path).bind fun made => ?_
  cases made with
  | ok u => exact keepsFiles_pure _
  | error e =>
    dsimp only
    split
    · exact keepsFiles_pure _
    · refine (keepsFiles_isFolder path).bind fun found => ?_
      cases found <;> exact keepsFiles_pure _

/-- A folder is made after the folders that it lies in, which have shorter paths. -/
theorem keepsFiles_makeFolders (path : RawText) :
    KeepsFiles (makeFolders path : StateM Disk (Except FileError Unit)) := by
  rw [makeFolders]
  split
  next => exact keepsFiles_makeFolder _
  next folder name hparent =>
    refine (keepsFiles_isPresent _).bind fun present => ?_
    split
    · exact keepsFiles_makeFolder _
    · refine (keepsFiles_makeFolders folder).bind fun made => ?_
      split
      iterate 2
        split
        · exact keepsFiles_pure _
        · exact keepsFiles_makeFolder _
      · exact keepsFiles_pure _
termination_by path.length
decreasing_by exact Path.length_lt_of_parent? ‹_›

/-- A path that led to a place leads there still once the place has a file, since only folders are
followed on the way. -/
theorem follow_putFile {here p : Place} {names : List (List UInt8)}
    (h : d.follow here names = .ok (.free p) ∨ ∃ old, d.follow here names = .ok (.file p old)) :
    (d.putFile p bytes).follow here names = .ok (.file p bytes) := by
  have hfolder (q : Place) : (d.putFile p bytes).hasFolder q = d.hasFolder q := rfl
  induction names generalizing here with
  | nil => simp [follow] at h
  | cons name rest ih =>
    simp only [follow, hfolder] at h ⊢
    split_ifs at h ⊢ with hdot htwo hlong hthere
    · exact ih h
    · exact ih h
    · simp at h
    · exact ih h
    · -- The last name is the only one that may lead to the place.
      cases hfile : d.file? (here ++ [name]) <;> cases rest <;>
        simp only [hfile, Except.ok.injEq, Target.free.injEq, Target.file.injEq, reduceCtorEq,
          false_or, or_false, exists_false, exists_eq_right'] at h
      all_goals
        subst h
        rw [file?_putFile, if_pos rfl]

theorem target_putFile {p : Place} {path : List UInt8}
    (h : d.target path = .ok (.free p) ∨ ∃ old, d.target path = .ok (.file p old)) :
    (d.putFile p bytes).target path = .ok (.file p bytes) := by
  have hworking : (d.putFile p bytes).working = d.working := rfl
  unfold target at h ⊢
  rw [hworking]
  split_ifs at h ⊢
  all_goals first | exact follow_putFile h | simp at h

theorem find_putFile {p : Place}
    (h : d.find path = .ok (.free p) ∨ ∃ old, d.find path = .ok (.file p old)) :
    (d.putFile p bytes).find path = .ok (.file p bytes) := by
  unfold find at h ⊢
  cases hpath : pathBytes path with
  | error e => simp [hpath, bind, Except.bind] at h
  | ok text =>
    rw [hpath] at h
    have htarget : d.target text = .ok (.free p) ∨ ∃ old, d.target text = .ok (.file p old) := by
      cases htarget : d.target text with
      | error o => simp [htarget, bind, Except.bind, Except.mapError] at h
      | ok target => simpa [htarget, bind, Except.bind, Except.mapError] using h
    show ((d.putFile p bytes).target text).mapError _ = _
    rw [target_putFile htarget]
    rfl

/-- The path leads to a place where a file can be written: it is empty at first, and then has what is
written. -/
structure Writable (d : Disk) (path : RawText) (p : Place) : Prop where
  clear : d.clear path = .ok (d.putFile p [])
  fill (bytes : List UInt8) :
    (d.putFile p []).fill path bytes = .ok ((d.putFile p []).putFile p bytes)
  find_clear : (d.putFile p []).find path = .ok (.file p [])
  find_fill (bytes : List UInt8) :
    ((d.putFile p []).putFile p bytes).find path = .ok (.file p bytes)

theorem exists_writable_of_clear (h : d.clear path = .ok d') : ∃ p, d.Writable path p := by
  have hplace : ∃ p, d' = d.putFile p [] ∧
      (d.find path = .ok (.free p) ∨ ∃ old, d.find path = .ok (.file p old)) := by
    rw [clear] at h
    cases hfind : d.find path with
    | error e => rw [hfind] at h; cases h
    | ok target =>
      rw [hfind] at h
      cases target with
      | folder p => cases h
      | file p old =>
        dsimp only [bind, Except.bind] at h
        split at h <;> cases h
        exact ⟨p, rfl, .inr ⟨old, rfl⟩⟩
      | free p =>
        dsimp only [bind, Except.bind] at h
        split at h <;> cases h
        exact ⟨p, rfl, .inl rfl⟩
  obtain ⟨p, rfl, hfind⟩ := hplace
  have hcleared : (d.putFile p []).find path = .ok (.file p []) := find_putFile hfind
  exact ⟨p,
    { clear := h
      fill := fun bytes => by rw [fill, hcleared]; rfl
      find_clear := hcleared
      find_fill := fun bytes => find_putFile (.inr ⟨[], hcleared⟩) }⟩

/-- What can be read is there. -/
theorem isPresent_of_read (h : d.read path = .ok bytes) : d.isPresent path = true := by
  unfold read at h
  unfold isPresent
  cases hfind : d.find path with
  | error e => rw [hfind] at h; cases h
  | ok target =>
    rw [hfind] at h
    cases target with
    | folder p => cases h
    | free p => cases h
    | file p old =>
      dsimp only [bind, Except.bind] at h
      split at h
      · cases h
      next hfolder => simpa using hfolder

end Disk

namespace Environment

/-- The path of the input file. -/
def inputPath (e : Environment) (a : Arguments) : RawText :=
  e.inputFile.getD a.input

/-- The path of the folder of the output file. -/
def folderPath (e : Environment) (a : Arguments) : RawText :=
  e.outputFolder.getD a.output

/-- The name of the output file: a given one, or that of the input without its extension. -/
def fileName (e : Environment) (a : Arguments) : RawText :=
  (e.outputName.or a.outputName).getD (Path.stem (Path.baseName (e.inputPath a)))

/-- The path of the output file. -/
def outputPath (e : Environment) (a : Arguments) : RawText :=
  Path.join (e.folderPath a) (e.fileName a ++ ".ts")

end Environment

/-- The program ends with the status, unless there is a line that cannot be printed. -/
inductive Outcome.Ends (prints : RawChar → Bool) (status : Nat) : Outcome → Prop
  | finished {report : Report} (h : ∀ line ∈ report.printed, line.all prints = true) :
      Ends prints status (.finished status report)
  | unprintable {line : RawText} {report : Report} (h : line.all prints = false) :
      Ends prints status (.broken (.unprintable line) report)

theorem Outcome.Ends.eq_finished {prints : RawChar → Bool} {status : Nat} {outcome : Outcome}
    (h : outcome.Ends prints status) (hprints : ∀ c, prints c = true) :
    ∃ report, outcome = .finished status report := by
  cases h with
  | finished hlines => exact ⟨_, rfl⟩
  | unprintable hline => simp [hprints] at hline

/-- What is to be generated. -/
def Arguments.options (a : Arguments) : Generator.Options :=
  { labelTables := !a.noTables
    keepPrefix := a.keepPrefix
    anonymousName := a.anonymousName.escaped }

/-- The code for the bytes of an input file, if they are UTF-8, can be loaded with their line ends
unified, and code can be generated from them. -/
def codeOfBytes? (o : Generator.Options) (input : RawText) (bytes : List UInt8) :
    Option String := do
  let cs ← (Text.Utf8.decode bytes).toOption
  let text := String.ofList (Text.unifyNewlines cs)
  let f ← (FileDescriptor.load input.escaped text).result.toOption
  (Generator.generate o f).result.toOption

/-- The code for an input file, if there is one. -/
def Disk.code? (d : Disk) (o : Generator.Options) (input : RawText) : Option String := do
  let bytes ← (d.read input).toOption
  codeOfBytes? o input bytes

/-- What becomes of code: its bytes with status 0, or no bytes with status 1 where the name of the input,
which the code shows, has a surrogate. -/
def writtenCode (input : RawText) (code : String) : Nat × List UInt8 :=
  if RawText.isText (Path.baseName input) then (0, Text.Utf8.encode code) else (1, [])

namespace Conversion

variable {c : Conversion} {d d' : Disk} {f : FileDescriptor} {bytes : List UInt8}
  {line : RawText} {notes : List String} {success : Bool}

theorem run_bind {α β : Type} (x : StateM Disk α) (f : α → StateM Disk β) (d : Disk) :
    (x >>= f) d = f (x d).1 (x d).2 := rfl

theorem load_of_absent (h : d.isPresent c.input = false) :
    ∃ line, (c.load : StateM Disk Step) d = (c.finishWith false line [], d) := by
  refine ⟨.concat ["Error: Input file '", c.input, "' does not exist."], ?_⟩
  have hpresent : (MonadFiles.isPresent c.input : StateM Disk Bool) d = (false, d) :=
    Prod.ext h rfl
  rw [load, run_bind, hpresent]
  rfl

theorem load_of_read (h : d.read c.input = .ok bytes) :
    (c.load : StateM Disk Step) d = (c.loadInput bytes, d) := by
  have hpresent : (MonadFiles.isPresent c.input : StateM Disk Bool) d = (true, d) :=
    Prod.ext (Disk.isPresent_of_read h) rfl
  have hread : (MonadFiles.read c.input : StateM Disk (Except FileError (List UInt8))) d =
      (.ok bytes, d) := Prod.ext h rfl
  rw [load, run_bind, hpresent]
  show (MonadFiles.read c.input >>= _ : StateM Disk Step) d = _
  rw [run_bind, hread]
  rfl

/-- Bytes are loaded, so that the code is what generation makes of the schema, or there is no code. -/
theorem loadInput_cases (c : Conversion) (bytes : List UInt8) :
    (∃ line notes, c.loadInput bytes = c.finishWith false line notes ∧
        codeOfBytes? c.options c.input bytes = none) ∨
      ∃ f notes, c.loadInput bytes = { c with loaded := some f }.finish true notes ∧
        codeOfBytes? c.options c.input bytes = (Generator.generate c.options f).result.toOption := by
  rw [loadInput, FileDescriptor.loadBytes, codeOfBytes?]
  cases Text.Utf8.decode bytes with
  | error fault => exact .inl ⟨_, _, rfl, rfl⟩
  | ok cs =>
    simp only [Noted.mapError, Except.toOption, Option.bind_eq_bind, Option.bind_some]
    cases (FileDescriptor.load c.input.escaped (String.ofList (Text.unifyNewlines cs))).result with
    | error e => exact .inl ⟨_, _, rfl, rfl⟩
    | ok f => exact .inr ⟨f, _, rfl, rfl⟩

/-- The file is open before the code is encoded, so that it is empty where that fails. -/
theorem writeOutput_eq {p : Place} (h : d.Writable c.outputPath p) (code : RawText)
    (notes : List String) :
    (c.writeOutput code notes : StateM Disk Step) d =
      match code.encode with
      | .ok bytes => (c.finishWith true (.concat ["Generated ", c.outputPath]) notes,
          (d.putFile p []).putFile p bytes)
      | .error u => (c.finishWith false (c.failureLine u.message) notes, d.putFile p []) := by
  have hclear : (MonadFiles.clear c.outputPath : StateM Disk (Except FileError Unit)) d =
      (.ok (), d.putFile p []) := by
    show Disk.change (fun d => d.clear c.outputPath) d = _
    simp only [Disk.change, h.clear]
  rw [writeOutput, run_bind, hclear]
  cases code.encode with
  | error u => rfl
  | ok bytes =>
    have hfill : (MonadFiles.fill c.outputPath bytes : StateM Disk (Except FileError Unit))
        (d.putFile p []) = (.ok (), (d.putFile p []).putFile p bytes) := by
      show Disk.change (fun d => d.fill c.outputPath bytes) (d.putFile p []) = _
      simp only [Disk.change, h.fill]
    show (MonadFiles.fill c.outputPath bytes >>= _ : StateM Disk Step) (d.putFile p []) = _
    rw [run_bind, hfill]
    rfl

/-- Where no code can be generated, the folder of the output file is all that is made. -/
theorem generate_of_error {e : Generator.Error} (hloaded : c.loaded = some f)
    (hfolders : (makeFolders c.outputFolder : StateM Disk _) d = (.ok (), d'))
    (h : (Generator.generate c.options f).result = .error e) :
    ∃ line notes, (c.generate : StateM Disk Step) d = (c.finishWith false line notes, d') := by
  refine ⟨c.failureLine e.message, (Generator.generate c.options f).notes, ?_⟩
  rw [generate, hloaded]
  show (makeFolders c.outputFolder >>= _ : StateM Disk Step) d = _
  rw [run_bind, hfolders]
  simp only [h]
  rfl

theorem generate_of_ok {code : String} (hloaded : c.loaded = some f)
    (hfolders : (makeFolders c.outputFolder : StateM Disk _) d = (.ok (), d'))
    (h : (Generator.generate c.options f).result = .ok code) :
    ∃ notes, (c.generate : StateM Disk Step) d =
      (c.writeOutput (c.rawCode code) notes : StateM Disk Step) d' := by
  refine ⟨(Generator.generate c.options f).notes, ?_⟩
  rw [generate, hloaded]
  show (makeFolders c.outputFolder >>= _ : StateM Disk Step) d = _
  rw [run_bind, hfolders]
  simp only [h]

/-- The code can be encoded exactly if the name that it shows has no surrogate. -/
theorem encode_rawCode (c : Conversion) (code : String) :
    if RawText.isText (Path.baseName c.input) then
      (c.rawCode code).encode = .ok (Text.Utf8.encode code)
    else ∃ u, (c.rawCode code).encode = .error u := by
  split
  next h => rw [rawCode, if_pos h, RawText.encode_ofString]
  next h =>
    rw [rawCode, if_neg h]
    refine RawText.exists_encode_error ?_
    rw [RawText.isText_concat, List.all_cons, List.all_cons, eq_false_of_ne_true h, Bool.false_and,
      Bool.and_false]

/-- Code that was generated is written, or the file is left empty. -/
theorem exists_step_of_writeOutput {p : Place} (h : d.Writable c.outputPath p) (code : String)
    (notes : List String) :
    ∃ success line after,
      (c.writeOutput (c.rawCode code) notes : StateM Disk Step) d =
        (c.finishWith success line notes, after) ∧
      (if success then 0 else 1) = (writtenCode c.input code).1 ∧
      after.find c.outputPath = .ok (.file p (writtenCode c.input code).2) ∧
      ∀ q, after.file? q = if q = p then some (writtenCode c.input code).2 else d.file? q := by
  have hencode := c.encode_rawCode code
  rw [writeOutput_eq h, writtenCode]
  split at hencode
  next htext =>
    rw [hencode, if_pos htext]
    refine ⟨true, _, _, rfl, rfl, h.find_fill _, fun q => ?_⟩
    rw [Disk.file?_putFile, Disk.file?_putFile]
    split <;> rfl
  next htext =>
    obtain ⟨u, hu⟩ := hencode
    rw [hu, if_neg htext]
    exact ⟨false, _, _, rfl, rfl, h.find_clear, fun q => Disk.file?_putFile d p q []⟩

/-- A step that comes to its end has printed its line, or is broken off by it. -/
theorem finishWith_cases (c : Conversion) (success : Bool) (line : RawText) (notes : List String) :
    (∃ report, c.finishWith success line notes = ⟨c, .ok success, report⟩ ∧
        ∀ line ∈ report.printed, c.takes line = true) ∨
      ∃ report, c.finishWith success line notes = ⟨c, .error (.unprintable line), report⟩ ∧
        c.takes line = false := by
  rw [finishWith]
  split
  next h =>
    refine .inl ⟨_, rfl, ?_⟩
    rw [Report.print, List.forall_mem_append, List.forall_mem_singleton]
    exact ⟨fun _ hline => absurd hline List.not_mem_nil, h⟩
  next h => exact .inr ⟨_, rfl, eq_false_of_ne_true h⟩

theorem ends_conclude {status : Nat} {report : Report} (line : RawText)
    (h : ∀ line ∈ report.printed, c.takes line = true) :
    (c.conclude status report line).Ends c.prints status := by
  rw [conclude]
  split
  next hline =>
    refine .finished ?_
    rw [Report.print, List.forall_mem_append, List.forall_mem_singleton]
    exact ⟨h, hline⟩
  next hline => exact .unprintable (eq_false_of_ne_true hline)

theorem run_of_unloaded
    (hload : (c.load : StateM Disk Step) d = (c.finishWith false line notes, d)) :
    ∃ outcome, (c.run : StateM Disk Outcome) d = (outcome, d) ∧ outcome.Ends c.prints 1 := by
  rw [run, run_bind, hload]
  obtain ⟨report, hfinish, hlines⟩ | ⟨report, hfinish, hline⟩ :=
    c.finishWith_cases false line notes
  · rw [hfinish]
    exact ⟨_, rfl, .finished hlines⟩
  · rw [hfinish]
    exact ⟨_, rfl, .unprintable hline⟩

theorem run_of_loaded {notes' : List String}
    (hload : (c.load : StateM Disk Step) d = ({ c with loaded := some f }.finish true notes, d))
    (hgenerate : ({ c with loaded := some f }.generate : StateM Disk Step) d =
      ({ c with loaded := some f }.finishWith success line notes', d')) :
    ∃ outcome, (c.run : StateM Disk Outcome) d = (outcome, d') ∧
      outcome.Ends c.prints (if success then 0 else 1) := by
  rw [run, run_bind, hload]
  show ∃ outcome, (({ c with loaded := some f }.generate : StateM Disk Step) >>= _ :
    StateM Disk Outcome) d = _ ∧ _
  rw [run_bind, hgenerate]
  obtain ⟨report, hfinish, hlines⟩ | ⟨report, hfinish, hline⟩ :=
    { c with loaded := some f }.finishWith_cases success line notes'
  · rw [hfinish]
    cases success with
    | false => exact ⟨_, rfl, ends_conclude _ hlines⟩
    | true => exact ⟨_, rfl, ends_conclude _ hlines⟩
  · rw [hfinish]
    exact ⟨_, rfl, .unprintable hline⟩

/-- What becomes of the files depends on the code only. -/
theorem run_spec {p : Place}
    (hinput : d.isPresent c.input = false ∨ ∃ bytes, d.read c.input = .ok bytes)
    (hfolders : (makeFolders c.outputFolder : StateM Disk _) d = (.ok (), d'))
    (houtput : d'.Writable c.outputPath p) :
    ∃ status outcome after,
      (c.run : StateM Disk Outcome) d = (outcome, after) ∧ outcome.Ends c.prints status ∧
      ((d.code? c.options c.input = none ∧ status = 1 ∧ (after = d ∨ after = d')) ∨
        ∃ code, d.code? c.options c.input = some code ∧ status = (writtenCode c.input code).1 ∧
          after.find c.outputPath = .ok (.file p (writtenCode c.input code).2) ∧
          ∀ q, after.file? q =
            if q = p then some (writtenCode c.input code).2 else d'.file? q) := by
  obtain habsent | ⟨bytes, hread⟩ := hinput
  · obtain ⟨line, hload⟩ := load_of_absent habsent
    obtain ⟨outcome, hrun, hends⟩ := run_of_unloaded hload
    refine ⟨1, outcome, d, hrun, hends, .inl ⟨?_, rfl, .inl rfl⟩⟩
    cases hread : d.read c.input with
    | error e => rw [Disk.code?, hread]; rfl
    | ok bytes => rw [Disk.isPresent_of_read hread] at habsent; cases habsent
  have hload := load_of_read hread
  have hcode : d.code? c.options c.input = codeOfBytes? c.options c.input bytes := by
    rw [Disk.code?, hread]
    rfl
  rw [hcode]
  obtain ⟨line, notes, hloaded, hnone⟩ | ⟨f, notes, hloaded, hsome⟩ := c.loadInput_cases bytes
  · obtain ⟨outcome, hrun, hends⟩ := run_of_unloaded (hloaded ▸ hload)
    exact ⟨1, outcome, d, hrun, hends, .inl ⟨hnone, rfl, .inl rfl⟩⟩
  rw [hloaded] at hload
  cases hgenerated : (Generator.generate c.options f).result with
  | error e =>
    obtain ⟨line, notes', hgenerate⟩ :=
      generate_of_error (c := { c with loaded := f }) rfl hfolders hgenerated
    obtain ⟨outcome, hrun, hends⟩ := run_of_loaded hload hgenerate
    exact ⟨1, outcome, d', hrun, hends, .inl ⟨by rw [hsome, hgenerated]; rfl, rfl, .inr rfl⟩⟩
  | ok code =>
    obtain ⟨notes', hgenerate⟩ :=
      generate_of_ok (c := { c with loaded := f }) rfl hfolders hgenerated
    obtain ⟨success, line, after, hwrite, hstatus, hfiles⟩ :=
      exists_step_of_writeOutput (c := { c with loaded := f }) houtput code notes'
    obtain ⟨outcome, hrun, hends⟩ := run_of_loaded hload (hgenerate.trans hwrite)
    exact ⟨_, outcome, after, hrun, hends,
      .inr ⟨code, by rw [hsome, hgenerated]; rfl, hstatus, hfiles⟩⟩

end Conversion

variable {argv : List RawText} {a : Arguments} {e : Environment} {d d' : Disk}

/-- What the program leaves behind where its input is absent or can be read, and its output file and
the folders around it can be made. The input has no code: no file has changed, and the status is 1. It
has code, and its name, which the code shows, has no surrogate: the file at one place has changed,
which the path of the output file leads to, and has the code; the status is 0. Its name has a
surrogate: that file is empty whatever it had, and the status is 1. The status is not reached if there
is a line that standard output does not take. -/
theorem files_of_run (hargs : Arguments.parse argv = .ok a)
    (hinput : d.isPresent (e.inputPath a) = false ∨ ∃ bytes, d.read (e.inputPath a) = .ok bytes)
    (hfolders : (makeFolders (e.folderPath a) : StateM Disk _) d = (.ok (), d'))
    (houtput : ∃ cleared, d'.clear (e.outputPath a) = .ok cleared) :
    ∃ status outcome after,
      (run argv e : StateM Disk Outcome) d = (outcome, after) ∧ outcome.Ends e.prints status ∧
      ((d.code? a.options (e.inputPath a) = none ∧ status = 1 ∧ ∀ q, after.file? q = d.file? q) ∨
        ∃ code p bytes, d.code? a.options (e.inputPath a) = some code ∧
          (status, bytes) = writtenCode (e.inputPath a) code ∧
          after.find (e.outputPath a) = .ok (.file p bytes) ∧
          ∀ q, after.file? q = if q = p then some bytes else d.file? q) := by
  have hrun : (run argv e : StateM Disk Outcome) = (Conversion.ofArguments a e).run := by
    rw [run, hargs]
  obtain ⟨cleared, hclear⟩ := houtput
  obtain ⟨p, hwritable⟩ := Disk.exists_writable_of_clear hclear
  have hsame (q : Place) : d'.file? q = d.file? q := by
    have hfiles := Disk.keepsFiles_makeFolders (e.folderPath a) d
    rw [hfolders] at hfiles
    exact congrArg (List.lookup q) hfiles
  rw [hrun]
  obtain ⟨status, outcome, after, hresult, hends, ⟨hnone, hstatus, hafter⟩ |
      ⟨code, hcode, hstatus, hfind, hfiles⟩⟩ :=
    Conversion.run_spec (c := .ofArguments a e) hinput hfolders hwritable
  · refine ⟨status, outcome, after, hresult, hends, .inl ⟨hnone, hstatus, fun q => ?_⟩⟩
    obtain rfl | rfl := hafter
    · rfl
    · exact hsame q
  · refine ⟨status, outcome, after, hresult, hends, .inr ⟨code, p, _, hcode, ?_, hfind, ?_⟩⟩
    · rw [hstatus]
      rfl
    · intro q
      rw [hfiles, hsame]

/-- The name `.proto` behind a byte that is not UTF-8. -/
def strayName : RawText := .surrogate 0x4FF :: RawText.ofString ".proto"

/-- A schema that can be converted, one that cannot, one under a name that is not UTF-8, and an output
from before. -/
def oldOutput : Disk :=
  { files := [([Text.Utf8.encode "e.proto"], Text.Utf8.encode "enum E { A = 0; }"),
              ([Text.Utf8.encode "f.proto"], Text.Utf8.encode "enum F { A = 0; A = 0; }"),
              ([0xFF :: Text.Utf8.encode ".proto"], Text.Utf8.encode "enum E { A = 0; }"),
              ([Text.Utf8.encode "out", Text.Utf8.encode "e.ts"], Text.Utf8.encode "old")]
    folders := [[Text.Utf8.encode "out"]] }

theorem makeFolders_oldOutput :
    (makeFolders (RawText.ofString "out") : StateM Disk _) oldOutput = (.ok (), oldOutput) := by
  rw [makeFolders]
  rfl

theorem files_of_run_oldOutput :
    (∃ report after p,
      (run ["-i", "e.proto", "-o", "out"] {} : StateM Disk Outcome) oldOutput =
        (.finished 0 report, after) ∧
      ∀ q ≠ p, after.file? q = oldOutput.file? q) ∧
    (∃ report after,
      (run ["-i", "e.proto", "-o", "out"] { inputFile := "f.proto", outputName := "e" } :
        StateM Disk Outcome) oldOutput = (.finished 1 report, after) ∧
      ∀ q, after.file? q = oldOutput.file? q) ∧
    ∃ report after p,
      (run ["-i", strayName, "-o", "out", "-n", "e"] {} : StateM Disk Outcome) oldOutput =
        (.finished 1 report, after) ∧ after.find "out/e.ts" = .ok (.file p []) := by
  have hargs : Arguments.parse ["-i", "e.proto", "-o", "out"] =
      .ok { input := "e.proto", output := "out" } := by rfl
  have hstray : Arguments.parse ["-i", strayName, "-o", "out", "-n", "e"] =
      .ok { input := strayName, output := "out", outputName := some "e" } := by rfl
  refine ⟨?_, ?_, ?_⟩
  · obtain ⟨status, outcome, after, hrun, hends, ⟨hnone, -⟩ | ⟨code, p, bytes, -, hwritten, -, hfiles⟩⟩ :=
      files_of_run (e := {}) (d := oldOutput) hargs
        (.inr ⟨Text.Utf8.encode "enum E { A = 0; }", by rfl⟩) makeFolders_oldOutput ⟨_, rfl⟩
    · exact absurd hnone (by decide +kernel)
    · cases hwritten
      obtain ⟨report, rfl⟩ := hends.eq_finished fun _ => rfl
      exact ⟨report, after, p, hrun, fun q hq => (hfiles q).trans (if_neg hq)⟩
  · obtain ⟨status, outcome, after, hrun, hends, ⟨-, rfl, hfiles⟩ | ⟨code, p, bytes, hsome, -⟩⟩ :=
      files_of_run (e := { inputFile := "f.proto", outputName := "e" }) (d := oldOutput) hargs
        (.inr ⟨Text.Utf8.encode "enum F { A = 0; A = 0; }", by rfl⟩) makeFolders_oldOutput
        ⟨_, rfl⟩
    · obtain ⟨report, rfl⟩ := hends.eq_finished fun _ => rfl
      exact ⟨report, after, hrun, hfiles⟩
    · exact absurd (hsome.symm.trans (by decide +kernel : _ = none)) (by simp)
  · obtain ⟨status, outcome, after, hrun, hends, ⟨hnone, -⟩ | ⟨code, p, bytes, -, hwritten, hfind, -⟩⟩ :=
      files_of_run (e := {}) (d := oldOutput) hstray
        (.inr ⟨Text.Utf8.encode "enum E { A = 0; }", by rfl⟩) makeFolders_oldOutput ⟨_, rfl⟩
    · exact absurd hnone (by decide +kernel)
    · cases hwritten
      obtain ⟨report, rfl⟩ := hends.eq_finished fun _ => rfl
      exact ⟨report, after, p, hrun, hfind⟩

/-- The output from before is lost in a run that fails, and the program is broken off where it cannot
print a name. -/
theorem run_empties_oldOutput :
    (∃ report after,
      (run ["-i", strayName, "-o", "out", "-n", "e"] {} : StateM Disk Outcome) oldOutput =
        (.finished 1 report, after) ∧
      oldOutput.file? [Text.Utf8.encode "out", Text.Utf8.encode "e.ts"] =
        some (Text.Utf8.encode "old") ∧
      after.file? [Text.Utf8.encode "out", Text.Utf8.encode "e.ts"] = some []) ∧
    ∃ line report,
      ((run ["-i", strayName, "-o", "out"] { prints := RawChar.isChar } : StateM Disk Outcome) {}).1 =
        .broken (.unprintable line) report := by
  refine ⟨?_, ⟨_, _, rfl⟩⟩
  have hrun : (run ["-i", strayName, "-o", "out", "-n", "e"] {} : StateM Disk Outcome) =
      (Conversion.ofArguments { input := strayName, output := "out", outputName := some "e" } {}).run :=
    rfl
  have hplace : oldOutput.Writable "out/e.ts"
      [Text.Utf8.encode "out", Text.Utf8.encode "e.ts"] :=
    { clear := rfl
      fill := fun _ => rfl
      find_clear := rfl
      find_fill := fun _ => rfl }
  obtain ⟨status, outcome, after, hresult, hends, ⟨hnone, -⟩ | ⟨code, hcode, rfl, -, hfiles⟩⟩ :=
    Conversion.run_spec (c := .ofArguments
      { input := strayName, output := "out", outputName := some "e" } {})
      (.inr ⟨Text.Utf8.encode "enum E { A = 0; }", rfl⟩) makeFolders_oldOutput hplace
  · exact absurd hnone (by decide +kernel)
  · obtain ⟨report, rfl⟩ := hends.eq_finished fun _ => rfl
    exact ⟨report, after, hrun ▸ hresult, rfl, (hfiles _).trans (if_pos rfl)⟩

end SchemaEnums.CommandLine
