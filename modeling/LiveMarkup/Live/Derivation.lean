import LiveMarkup.Live.Signal

/-!
Derived signals. While a derived signal has subscribers it is itself subscribed to every signal that
its computation was ever seen to read, once each, and computes its value anew when one of them
changes. Its first value is computed without any subscription.
-/
namespace LiveMarkup.Live

/-- Who watches a reading. -/
inductive Tracker where
  | nobody
  /-- Reads are let through unseen. -/
  | passing
  /-- Reads subscribe a derived signal. -/
  | recording (d : DerivationId)
deriving DecidableEq

/-- Whether reads are recorded; nothing where nobody watches. -/
def Tracker.mode : Tracker → Option Bool
  | .nobody => none
  | .passing => some false
  | .recording _ => some true

/-- Looks a name up, or halts. -/
def require {α : Type} (name : Name) (a : Option α) : Op α :=
  match a with
  | some a => return a
  | none => throw (.unknownName name)

/-- Names a node. -/
def nameNode (name : Name) (n : NodeId) : Op Unit :=
  modify fun w => { w with names := { w.names with nodes := w.names.nodes.insert name n } }

/-- The node of a name. -/
def nodeNamed (name : Name) : Op NodeId := do
  require name ((← get).names.nodes.get? name)

/-- The node of a name, or a new node under it. -/
def nodeOrCreate (name : Name) (content : Dom.Content) : Op NodeId := do
  match (← get).names.nodes.get? name with
  | some n => return n
  | none =>
    let n ← onNodes (·.create content)
    nameNode name n
    return n

/-- The value that is written down. -/
def Literal.eval : Literal → Op Value
  | .plain v => return v
  | .node name => return .node (← nodeNamed name)
  | .element tag name => return .node (← nodeOrCreate name (.element (.ofTag tag)))
  | .text data name => return .node (← nodeOrCreate name (.text data))

namespace Derivation

/-- Subscribes a derived signal to a signal. -/
def follow (d : DerivationId) (s : SignalId) : Op Unit := do
  let sub ← Signal.subscribe s (.refresh d) .normal
  modify fun w => { w with derivations := w.derivations.modify d fun cell =>
    { cell with subscriptions := cell.subscriptions ++ [sub] } }

/-- Subscribes a derived signal to a signal that is new to it, which is known before that. -/
def see (d : DerivationId) (s : SignalId) : Op Unit := do
  if ((← get).derivations.get d).tracked.contains s then return
  modify fun w => { w with derivations := w.derivations.modify d fun cell =>
    { cell with tracked := cell.tracked ++ [s] } }
  follow d s

/-- Shows a signal to a tracker. -/
def track (s : SignalId) : Tracker → Op Unit
  | .nobody | .passing => return
  | .recording d => do
    modify fun w => { w with derivations := w.derivations.modify d fun cell =>
      { cell with shown := s :: cell.shown } }
    see d s

end Derivation

/-- Computes a reading under a tracker. -/
def Reading.run (t : Tracker) : Reading → Op Value
  | .done v => return v
  | .get s next => do
    Derivation.track s t
    (next (Signal.content (← MonadState.get) s)).run t
  | .peek s next => do (next (Signal.content (← MonadState.get) s)).run t
  | .track s next => do
    Derivation.track s t
    next.run t
  | .mode next => (next t.mode).run t
  | .signal name next => do
    let (s, _) ← require name ((← MonadState.get).names.signals.get? name)
    (next s).run t
  | .literal l next => do (next (← l.eval)).run t
  | .text v next => do (next ((← MonadState.get).text v)).run t
  | .note n next => do
    Live.note n
    next.run t

namespace Derivation

/-- Computes a derived signal anew, recording what it reads. -/
def refresh (d : DerivationId) : Op Unit := do
  let cell := (← get).derivations.get d
  Signal.put cell.output (← cell.reading.run (.recording d))

/-- A new derived signal. -/
def create (r : Reading) : Op SignalId := do
  let initial ← r.run .passing
  let w ← get
  let d := w.derivations.next
  let s := w.signals.next
  set { w with
    derivations := w.derivations.push ⟨r, s, [], [], []⟩,
    signals := w.signals.push (.fresh (some initial) (some (.derivation d))) }
  return s

/-- Starts a derived signal: subscribes to the signals known from before, then computes. -/
def start (d : DerivationId) : Op SubscriptionId := do
  ((← get).derivations.get d).tracked.forM (follow d)
  refresh d
  Subscription.create (.release d)

/-- Drops the subscriptions of a derived signal. -/
def release (d : DerivationId) : Op Unit := do
  let subscriptions := ((← get).derivations.get d).subscriptions
  modify fun w => { w with derivations := w.derivations.modify d fun cell =>
    { cell with subscriptions := [] } }
  Subscription.cancel (← Subscription.create (.all subscriptions))

end Derivation

namespace SharedFormula

/-- A new computation with an identity. -/
def create (r : Reading) : Op FormulaId := do
  let w ← get
  set { w with formulas := w.formulas.push ⟨r, none⟩ }
  return w.formulas.next

/-- The derived signal of a computation, which is made at the first call. -/
def derived (fn : FormulaId) : Op SignalId := do
  let cell := (← get).formulas.get fn
  match cell.signal with
  | some s => return s
  | none =>
    let s ← Derivation.create cell.reading
    modify fun w => { w with formulas := w.formulas.modify fn fun cell =>
      { cell with signal := some s } }
    return s

end SharedFormula
end LiveMarkup.Live
