import SchemaEnums.CommandLine.Conversion

namespace SchemaEnums.CommandLine

/-- How the program ends: it does not start, it is broken off, or it goes through. -/
inductive Outcome where
  | stopped (s : Stop)
  | broken (b : Break) (report : Report)
  | finished (status : Nat) (report : Report)
deriving DecidableEq, Repr

namespace Conversion

/-- The end of a program with a status, after one more line. -/
def conclude (c : Conversion) (status : Nat) (report : Report) (line : RawText) : Outcome :=
  if c.takes line then .finished status (report.print line) else .broken (.unprintable line) report

variable {m : Type → Type} [Monad m] [MonadFiles m]

def run (c : Conversion) : m Outcome := do
  let loading ← c.load
  match loading.result with
  | .error b => return .broken b loading.report
  | .ok false => return .finished 1 loading.report
  | .ok true =>
    let generation ← loading.conversion.generate
    let report := loading.report.append generation.report
    match generation.result with
    | .error b => return .broken b report
    | .ok false => return c.conclude 1 report "Enum conversion completed with errors."
    | .ok true => return c.conclude 0 report "Enum conversion completed successfully."

end Conversion

variable {m : Type → Type} [Monad m] [MonadFiles m]

def run (argv : List RawText) (e : Environment) : m Outcome := do
  match Arguments.parse argv with
  | .error s => return .stopped s
  | .ok a => (Conversion.ofArguments a e).run

end SchemaEnums.CommandLine
