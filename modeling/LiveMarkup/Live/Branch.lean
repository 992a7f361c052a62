import LiveMarkup.Live.Derivation

/-!
Matches. Over a value, a match computes the handler of the deciding case. Over a signal it is a lazy
signal that does so for each value it is shown while it has subscribers. A fallback is computed for
the first of consecutive values that no case applies to, and its result stays until a case applies
again.
-/
namespace LiveMarkup.Live.Branch

/-- The case that is written down. -/
def caseOf (spec : CaseSpec) : Op (Case Value ValueType Formula) := do
  match spec.key with
  | .equal l => return .equal (← l.eval) spec.handler
  | .tagged tag => return .tagged tag spec.handler
  | .typed type => return .typed type spec.handler

/-- The table of the cases that are written down. -/
def tableOf (specs : List CaseSpec) : Op (CaseTable Value ValueType Formula) :=
  return .ofCases (← specs.mapM caseOf)

/-- Runs the handler of a case. -/
def handle (f : Formula) (v : Value) : Op Value := do
  note (.matched ((← get).snapshot v))
  (f v).run .nobody

/-- Runs a fallback. -/
def fallBack (f : Formula) (v : Value) : Op Value := do
  note (.fellBack ((← get).snapshot v))
  (f v).run .nobody

/-- The result of a match over a value. -/
def result (cases : CaseTable Value ValueType Formula) (fallback : Option Formula) (v : Value) :
    Op (Option Value) := do
  match cases.resolve (← get).facets v, fallback with
  | some f, _ => return some (← handle f v)
  | none, some f => return some (← fallBack f v)
  | none, none => return none

/-- A match over a value in diagnostics. -/
def diagnostic (w : World) (cases : CaseTable Value ValueType Formula) (v : Value) : String :=
  "Match \x7b value: " ++ w.diagnostic v ++ ", chunks: " ++ toString cases.length ++ " \x7d"

/-- A new match over a signal. -/
def create (source : SignalId) (cases : CaseTable Value ValueType Formula)
    (fallback : Option Formula) : Op SignalId := do
  let w ← get
  let b := w.branches.next
  let s := w.signals.next
  set { w with
    branches := w.branches.push ⟨source, s, cases, fallback⟩,
    signals := w.signals.push (.fresh none (some (.branch b))) }
  return s

/-- Starts a match: subscribes to the source, which shows its value at once. -/
def start (b : BranchId) : Op SubscriptionId := do
  let w ← get
  let a := w.activations.next
  set { w with activations := w.activations.push ⟨b, false⟩ }
  Signal.subscribe (w.branches.get b).source (.branch a) .immediate

/-- Notes whether the last value applied to no case. -/
def setInFallback (a : ActivationId) (inFallback : Bool) : Op Unit :=
  modify fun w => { w with activations := w.activations.modify a fun cell =>
    { cell with inFallback } }

/-- Keeps what a match did. -/
def record (d : Deed) : Op Unit :=
  modify fun w => { w with deeds := d :: w.deeds }

/-- Shows a value of the source to a match. The fallback is given the source's own value. -/
def offer (a : ActivationId) (v : Value) : Op Unit := do
  let w ← get
  let b := (w.activations.get a).branch
  let branch := w.branches.get b
  let deed := Deed.mk b a (w.signals.get branch.output).started w.facets v
  match branch.cases.resolve w.facets v with
  | some f =>
    setInFallback a false
    let result ← handle f v
    record (deed (.handled f result))
    Signal.put branch.output result
  | none =>
    match branch.fallback with
    | some f =>
      if (w.activations.get a).inFallback then
        record (deed .stayed)
      else
        let result ← fallBack f ((Signal.content w branch.source).getD .null)
        record (deed (.fellBack f result))
        Signal.put branch.output result
    | none =>
      record (deed .emptied)
      Signal.write branch.output none
    setInFallback a true

end LiveMarkup.Live.Branch
