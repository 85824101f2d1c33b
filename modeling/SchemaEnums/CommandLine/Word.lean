import SchemaEnums.Text.DigitTable
import SchemaEnums.Text.Raw

namespace SchemaEnums.CommandLine

inductive Key where
  | help
  | input
  | output
  | outputName
  | noTables
  | keepPrefix
  | anonymousName
  | verbose
deriving DecidableEq, Repr

namespace Key

def takesValue : Key → Bool
  | input | output | outputName | anonymousName => true
  | help | noTables | keepPrefix | verbose => false

/-- The long options, without the dashes in front. -/
def long : List (String × Key) :=
  [("help", help), ("input", input), ("output", output), ("output-name", outputName),
    ("no-translation", noTables), ("keep-enum-prefix", keepPrefix),
    ("anonymous-enum-name", anonymousName), ("verbose", verbose)]

def ofLetter? : RawChar → Option Key
  | .char 'h' => some help
  | .char 'i' => some input
  | .char 'o' => some output
  | .char 'n' => some outputName
  | .char 'v' => some verbose
  | _ => none

def ofName? (name : RawText) : Option Key :=
  (long.find? fun (full, _) => RawText.ofString full == name).map (·.2)

def candidates (start : RawText) : List Key :=
  (long.filter fun (full, _) => start.isPrefixOf (RawText.ofString full)).map (·.2)

end Key

inductive UsageError where
  | ambiguous (word : RawText)
  | missingValue (key : Key)
  | unwantedValue (key : Key)
  | missingOption
  | unknownWord
deriving DecidableEq, Repr

def UsageError.message : UsageError → String
  | ambiguous word => s!"ambiguous option: {word.escaped}"
  | missingValue _ => "an option lacks its value"
  | unwantedValue _ => "an option has a value but takes none"
  | missingOption => "the options --input and --output are required"
  | unknownWord => "a word is neither an option nor the value of one"

/-- What a word is taken for. -/
inductive Word where
  /-- A long option, with the value behind its equals sign. -/
  | long (key : Key) (value : Option RawText)
  /-- A short option, with what follows it in the word. -/
  | short (key : Key) (rest : RawText)
  | unknown
  /-- The two dashes after which nothing is an option. -/
  | separator
  | plain (text : RawText)
deriving DecidableEq, Repr

/-- Holds of the digits of any script. -/
def isDigit : RawChar → Bool
  | .char c => Text.DigitTable.zeros.any fun z => z ≤ c.toNat && c.toNat < z + 10
  | .surrogate _ => false

/-- Holds of digits, and of a point with digits behind it and perhaps in front. -/
def isAmount (t : RawText) : Bool :=
  match t.dropWhile isDigit with
  | [] => !t.isEmpty
  | .char '.' :: decimals => !decimals.isEmpty && decimals.all isDigit
  | _ => false

/-- Holds of the words after a dash that make a negative number. One line feed at the end is let
pass. -/
def isNegative (t : RawText) : Bool :=
  isAmount t || (t.getLast? == some (.char '\n') && isAmount t.dropLast)

/-- Splits a text at its first equals sign. -/
def splitValue (t : RawText) : RawText × Option RawText :=
  match t.dropWhile (· != .char '=') with
  | [] => (t, none)
  | _ :: value => (t.takeWhile (· != .char '='), some value)

namespace Word

/-- What a word is taken for that begins with a dash, and is no option. -/
def stray (t : RawText) : Word :=
  if isNegative t || t.contains (.char ' ') then plain (.char '-' :: t) else unknown

/-- What a word is taken for that begins with two dashes, from what follows them. -/
def ofLong (t : RawText) : Except UsageError Word :=
  let (name, value) := splitValue t
  match Key.ofName? name with
  | some key => .ok (long key value)
  | none =>
    match Key.candidates name with
    | [] => .ok (stray (.char '-' :: t))
    | [key] => .ok (long key value)
    | _ => .error (.ambiguous (.char '-' :: .char '-' :: t))

def classify : RawText → Except UsageError Word
  | [.char '-', .char '-'] => .ok separator
  | .char '-' :: .char '-' :: t => ofLong t
  | .char '-' :: c :: t =>
    match Key.ofLetter? c with
    | some key => .ok (short key t)
    | none => .ok (stray (c :: t))
  | t => .ok (plain t)

/-- What words are taken for. After a separator every word is a value. -/
def classifyAll : List RawText → Except UsageError (List Word)
  | [] => .ok []
  | text :: texts => do
    match ← classify text with
    | separator => return separator :: texts.map plain
    | word => return word :: (← classifyAll texts)

end Word

end SchemaEnums.CommandLine
