import SchemaEnums.Schema.Error
import SchemaEnums.Schema.Item

namespace SchemaEnums.Schema

section

variable {ν μ ε : Type}

def Constant.mapM (f : ν → Except ε μ) : Constant ν → Except ε (Constant μ)
  | .name n => pure (.name n)
  | .integer n => return .integer (← f n)
  | .float text => pure (.float text)
  | .string text => pure (.string text)

def Assignment.mapM (f : ν → Except ε μ) (a : Assignment ν) : Except ε (Assignment μ) :=
  return { name := a.name, value := ← a.value.mapM f }

def RangeEnd.mapM (f : ν → Except ε μ) : RangeEnd ν → Except ε (RangeEnd μ)
  | .same => pure .same
  | .number n => return .number (← f n)
  | .max => pure .max

def ReservedItem.mapM (f : ν → Except ε μ) : ReservedItem ν → Except ε (ReservedItem μ)
  | .range first last => return .range (← f first) (← last.mapM f)
  | .string text => pure (.string text)
  | .name text => pure (.name text)

def Statement.mapM (f : ν → Except ε μ) : Statement ν → Except ε (Statement μ)
  | .edition text => pure (.edition text)
  | .package name => pure (.package name)
  | .importFile modifier path => pure (.importFile modifier path)
  | .option a => return .option (← a.mapM f)
  | .field tokens number options =>
    return .field tokens (← f number) (← options.mapM (Assignment.mapM f))
  | .value name number options =>
    return .value name (← f number) (← options.mapM (Assignment.mapM f))
  | .reserved items => return .reserved (← items.mapM (ReservedItem.mapM f))
  | .extensions items options =>
    return .extensions (← items.mapM (ReservedItem.mapM f)) (← options.mapM (Assignment.mapM f))
  | .empty => pure .empty

mutual

/-- Gives every integer of an item a value, in the order of the text, so that the first bad literal
is the one reported. -/
def Item.mapM (f : ν → Except ε μ) : Item ν → Except ε (Item μ)
  | .statement span s => return .statement span (← s.mapM f)
  | .block span head items => return .block span head (← Item.mapList f items)

def Item.mapList (f : ν → Except ε μ) : List (Item ν) → Except ε (List (Item μ))
  | [] => pure []
  | item :: items => return (← item.mapM f) :: (← Item.mapList f items)

end

end

def literalValue (text : String) : Except Error Int :=
  (Numeral.parse text).mapError .badDigits

def evaluate (s : Schema String) : Except Error (Schema Int) :=
  return { items := ← Item.mapList literalValue s.items, comments := s.comments }

end SchemaEnums.Schema
