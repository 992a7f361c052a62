import LiveMarkup.Live.Run

/-!
Looking at values on their own: each function makes the written values in a world of their own and
answers together with that world, in which their nodes can be looked at.
-/
namespace LiveMarkup.Live

/-- The value that is written down. -/
def evaluate (l : Literal) : Except Halt (Value × World) :=
  runFrom nestingLimit .empty l.eval

/-- Two values that are written down, the first of which is made first. -/
def evaluateBoth (a b : Literal) : Except Halt ((Value × Value) × World) :=
  runFrom nestingLimit .empty do return (← a.eval, ← b.eval)

/-- What a match over a value yields. -/
structure Outcome where
  result : Option Snapshot
  log : List Note
  diagnostic : String

/-- Matches a value against cases. -/
def matchValue (v : Literal) (cases : List CaseSpec) (fallback : Option Formula) :
    Except Halt Outcome := do
  let ((result, diagnostic), w) ← runFrom nestingLimit .empty do
    let v ← v.eval
    let table ← Branch.tableOf cases
    let diagnostic := Branch.diagnostic (← get) table v
    return (← Branch.result table fallback v, diagnostic)
  return ⟨result.map w.snapshot, w.log.reverse, diagnostic⟩

end LiveMarkup.Live
