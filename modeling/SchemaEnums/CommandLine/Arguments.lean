import SchemaEnums.CommandLine.Word

namespace SchemaEnums.CommandLine

structure Arguments where
  input : RawText
  output : RawText
  outputName : Option RawText := none
  noTables : Bool := false
  keepPrefix : Bool := false
  anonymousName : RawText := "AnonymousEnum"
  verbose : Bool := false
deriving DecidableEq, Repr

/-- Why the program does not start: it was called for help, or not as it should be. -/
inductive Stop where
  | help
  | usage (e : UsageError)
deriving DecidableEq, Repr

def Stop.status : Stop → Nat
  | help => 0
  | usage _ => 2

/-- The arguments as far as they are known. `stray` holds once a word was no option and no value. -/
structure Draft where
  input : Option RawText := none
  output : Option RawText := none
  outputName : Option RawText := none
  noTables : Bool := false
  keepPrefix : Bool := false
  anonymousName : RawText := "AnonymousEnum"
  verbose : Bool := false
  stray : Bool := false
deriving DecidableEq, Repr

namespace Draft

def setValue (d : Draft) (key : Key) (value : RawText) : Draft :=
  match key with
  | .input => { d with input := value }
  | .output => { d with output := value }
  | .outputName => { d with outputName := value }
  | .anonymousName => { d with anonymousName := value }
  | .help | .noTables | .keepPrefix | .verbose => d

def setFlag (d : Draft) (key : Key) : Except Stop Draft :=
  match key with
  | .help => .error .help
  | .noTables => .ok { d with noTables := true }
  | .keepPrefix => .ok { d with keepPrefix := true }
  | .verbose => .ok { d with verbose := true }
  | .input | .output | .outputName | .anonymousName => .ok d

/-- The arguments, if none is missing and no word is left over. -/
def complete (d : Draft) : Except Stop Arguments :=
  match d.input, d.output with
  | some input, some output =>
    if d.stray then .error (.usage .unknownWord)
    else
      .ok
        { input
          output
          outputName := d.outputName
          noTables := d.noTables
          keepPrefix := d.keepPrefix
          anonymousName := d.anonymousName
          verbose := d.verbose }
  | _, _ => .error (.usage .missingOption)

end Draft

/-- How a word with options ends: with the last flag, with an option and its value, with an option
whose value is the next word, or with letters that are no options. -/
inductive Ending where
  | flag
  | value (key : Key) (value : RawText)
  | pending (key : Key)
  | stray
deriving DecidableEq, Repr

/-- The flags of a word with options, and how the word ends. -/
structure Cluster where
  flags : List Key
  ending : Ending
deriving DecidableEq, Repr

namespace Cluster

def alone (key : Key) : Cluster :=
  if key.takesValue then { flags := [], ending := .pending key }
  else { flags := [key], ending := .flag }

def withValue (key : Key) (value : RawText) : Except UsageError Cluster :=
  if key.takesValue then .ok { flags := [], ending := .value key value }
  else .error (.unwantedValue key)

/-- The options of a word that begins with the short option `key`. -/
def ofShort (key : Key) : RawText → Except UsageError Cluster
  | [] => .ok (alone key)
  | c :: t =>
    if c = .char '=' then withValue key t
    else if key.takesValue then withValue key (c :: t)
    else if c = .char '-' then .error (.unwantedValue key)
    else
      match Key.ofLetter? c with
      | none => .ok { flags := [key], ending := .stray }
      | some next => do
        let rest ← ofShort next t
        return { rest with flags := key :: rest.flags }

def ofWord? : Word → Option (Except UsageError Cluster)
  | .long key none => some (.ok (alone key))
  | .long key (some value) => some (withValue key value)
  | .short key rest => some (ofShort key rest)
  | .unknown | .separator | .plain _ => none

end Cluster

def obey (d : Draft) : List Word → Except Stop Draft
  | [] => .ok d
  | word :: words =>
    match Cluster.ofWord? word with
    | none => obey { d with stray := true } words
    | some (.error e) => .error (.usage e)
    | some (.ok { flags, ending }) =>
      match ending with
      | .flag => do
        let d ← flags.foldlM Draft.setFlag d
        obey d words
      | .stray => do
        let d ← flags.foldlM Draft.setFlag d
        obey { d with stray := true } words
      | .value key value => do
        let d ← flags.foldlM Draft.setFlag d
        obey (d.setValue key value) words
      | .pending key =>
        match words with
        | .plain value :: words => do
          let d ← flags.foldlM Draft.setFlag d
          obey (d.setValue key value) words
        | _ => .error (.usage (.missingValue key))

def Arguments.parse (argv : List RawText) : Except Stop Arguments := do
  let words ← (Word.classifyAll argv).mapError .usage
  let d ← obey {} words
  d.complete

end SchemaEnums.CommandLine
