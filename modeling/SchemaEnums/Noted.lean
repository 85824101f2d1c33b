namespace SchemaEnums

/-- The notes that were taken, and a value or the error that kept it from being found. What was
noted before an error is kept. -/
structure Noted (ε α : Type) where
  notes : List String
  result : Except ε α
deriving Repr

namespace Noted

variable {ε α β : Type}

def ofExcept (result : Except ε α) : Noted ε α :=
  { notes := [], result }

def note (text : String) : Noted ε Unit :=
  { notes := [text], result := .ok () }

protected def bind (x : Noted ε α) (f : α → Noted ε β) : Noted ε β :=
  match x.result with
  | .ok a => { notes := x.notes ++ (f a).notes, result := (f a).result }
  | .error e => { notes := x.notes, result := .error e }

instance : Monad (Noted ε) where
  pure a := { notes := [], result := .ok a }
  bind := Noted.bind

@[simp] theorem notes_pure (a : α) : (pure a : Noted ε α).notes = [] := rfl

@[simp] theorem result_pure (a : α) : (pure a : Noted ε α).result = .ok a := rfl

theorem result_bind (x : Noted ε α) (f : α → Noted ε β) :
    (x >>= f).result = x.result >>= fun a => (f a).result := by
  show (Noted.bind x f).result = _
  unfold Noted.bind
  cases x.result <;> rfl

def mapError {δ : Type} (f : ε → δ) (x : Noted ε α) : Noted δ α :=
  { notes := x.notes, result := x.result.mapError f }

def line (text : String) : String :=
  s!"[DEBUG] {text}\n"

def transcript (notes : List String) : String :=
  String.join (notes.map line)

end Noted

end SchemaEnums
