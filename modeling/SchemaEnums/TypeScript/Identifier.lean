namespace SchemaEnums.TypeScript

def isIdentifierStart (c : Char) : Bool :=
  c.isAlpha || c == '_' || c == '$'

def isIdentifierPart (c : Char) : Bool :=
  c.isAlphanum || c == '_' || c == '$'

/-- Holds of the texts that go on as an identifier does, up to one line feed at the end. -/
def isIdentifierTail : List Char → Bool
  | [] => true
  | ['\n'] => true
  | c :: cs => isIdentifierPart c && isIdentifierTail cs

/-- Holds of identifiers: ASCII letters, digits, underscores and dollar signs, not beginning with a
digit. One line feed at the end is let pass. -/
def isIdentifierChars : List Char → Bool
  | [] => false
  | c :: cs => isIdentifierStart c && isIdentifierTail cs

def isIdentifier (s : String) : Bool :=
  isIdentifierChars s.toList

structure Identifier where
  text : String
  isIdentifier_text : isIdentifier text = true
deriving DecidableEq, Repr

/-- A text that stands where an identifier has to stand. -/
structure InvalidIdentifier where
  text : String
deriving DecidableEq, Repr

def InvalidIdentifier.message (e : InvalidIdentifier) : String :=
  s!"'{e.text}' is not a valid TypeScript identifier."

namespace Identifier

def ofText (text : String) : Except InvalidIdentifier Identifier :=
  if h : isIdentifier text = true then .ok { text, isIdentifier_text := h } else .error { text }

theorem text_of_ofText {text : String} {i : Identifier} (h : ofText text = .ok i) :
    i.text = text := by
  unfold ofText at h
  split at h
  · cases h
    rfl
  · simp at h

end Identifier

end SchemaEnums.TypeScript
