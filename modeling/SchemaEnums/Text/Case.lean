import SchemaEnums.Text.CaseTable

namespace SchemaEnums.Text

def inRanges (rs : List (Nat × Nat)) (n : Nat) : Bool :=
  rs.any fun (first, last) => first ≤ n && n ≤ last

/-- The image of a code point under a table of runs. -/
def mapRun? (rs : List (Nat × Nat × Nat × Int)) (n : Nat) : Option Nat :=
  (rs.find? fun (first, last, step, _) => first ≤ n && n ≤ last && (n - first) % step == 0).map
    fun (_, _, _, offset) => (n + offset).toNat

/-- The image of a character under a table of sequences and a table of runs. -/
def mapCase (sequences : List (Nat × List Nat)) (runs : List (Nat × Nat × Nat × Int)) (c : Char) :
    List Char :=
  match sequences.lookup c.toNat with
  | some ns => ns.map Char.ofNat
  | none => [((mapRun? runs c.toNat).map Char.ofNat).getD c]

/-- The upper case of a character, which may be a sequence. -/
def upperChar (c : Char) : List Char :=
  if c.toNat < 0x80 then [c.toUpper]
  else mapCase CaseTable.upperSequences CaseTable.upperRuns c

def lowerChar (c : Char) : List Char :=
  if c.toNat < 0x80 then [c.toLower]
  else mapCase CaseTable.lowerSequences CaseTable.lowerRuns c

/-- Holds of the cased letters that decide the form of a sigma. -/
def isCased (c : Char) : Bool :=
  inRanges CaseTable.cased c.toNat

/-- Holds of the characters that stand between a sigma and the letter that decides its form. -/
def isCaseIgnorable (c : Char) : Bool :=
  inRanges CaseTable.caseIgnorable c.toNat

def startsCased (cs : List Char) : Bool :=
  match cs.dropWhile isCaseIgnorable with
  | [] => false
  | c :: _ => isCased c

/-- The lower case of a text whose preceding characters, the latest first, are `before`. -/
def lowerAfter (before : List Char) : List Char → List Char
  | [] => []
  | c :: cs =>
    if c = 'Σ' then
      (if startsCased before && !startsCased cs then 'ς' else 'σ') :: lowerAfter (c :: before) cs
    else lowerChar c ++ lowerAfter (c :: before) cs

/-- The lower case of a text. A capital sigma becomes a final one after a cased letter unless a
cased letter follows it. -/
def toLower (cs : List Char) : List Char :=
  lowerAfter [] cs

def toUpper (cs : List Char) : List Char :=
  cs.flatMap upperChar

end SchemaEnums.Text
