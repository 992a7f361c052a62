import LiveMarkup.Live.Session

/-!
Running: what each task does, and the runner that ties the knot. The fuel of a run bounds how deeply
callbacks may be nested, not how many there are; a run that needs more stops with
`Halt.outOfFuel`.
-/
namespace LiveMarkup.Live

/-- What a subscriber does with a value. -/
def Reaction.run (v : Option Value) : Reaction → Op Unit
  | .told name script => do
    note (.told name (v.map (← get).snapshot))
    v.forM fun v => script.run v
  | .followed name script => do
    note (.followed name (v.map (← get).snapshot))
    v.forM fun v => script.run v
  | .refresh d => Derivation.refresh d
  | .branch a => Branch.offer a (v.getD .null)
  | .effect node e => e.apply node (v.getD .null)

/-- What happens when a node is mounted or unmounted. -/
def Hook.run : Hook → Op Unit
  | .mounted name script => do
    note (.mounted name)
    script.run .null
  | .unmounted name script => do
    note (.unmounted name)
    script.run .null
  | .follow f => Lifecycle.startFollow f
  | .unfollow f => Lifecycle.endFollow f
  | .listen node event l => Events.listen node event l
  | .unlisten node event l => Events.unlisten node event l

/-- What a listener does with an event. -/
def Handler.run (event : String) (target : NodeId) : Handler → Op Unit
  | .script name steps => do
    note (.dispatched event ((← get).nodes.get target).name)
    note (.heard name)
    Script.run .null steps
  | .write s key => do
    match ((← get).nodes.get target).element? with
    | some e => Signal.put s (key.read e)
    | none => return

/-- What cancelling a subscription does. -/
def Cancel.run : Cancel → Op Unit
  | .nothing => return
  | .entry s e => Signal.leave s e
  | .all subscriptions => Subscription.cancelEach subscriptions
  | .release d => Derivation.release d
  | .stopped name script => do
    note (.stopped name)
    script.run .null

/-- What starts a lazy signal. The answer is the subscription to cancel when the signal stops. -/
def Producer.start (s : SignalId) : Producer → Op SubscriptionId
  | .derivation d => Derivation.start d
  | .branch b => Branch.start b
  | .script name start stop => do
    rename fun names => { names with emitters := names.emitters.insert name s }
    note (.started name)
    start.run .null
    Subscription.create (.stopped name stop)

/-- Starts a signal. It counts as started while its producer is at work. -/
def Signal.activate (s : SignalId) : Op Unit := do
  match ((← get).signals.get s).producer with
  | none => return
  | some producer =>
    modifySignal s fun signal => { signal with started := true }
    let teardown ← producer.start s
    modifySignal s fun signal => { signal with teardown := some teardown }

/-- What a task does. -/
def Task.run : Task → Op Unit
  | .react r v => r.run v
  | .hook h => h.run
  | .handle h event target => h.run event target
  | .cancel c => c.run
  | .start s => Signal.activate s
  | .connect n connected => Mount.connect n connected
  | .script steps current => Script.run current steps

/-- Runs a task with callbacks nested no more deeply than the fuel allows. -/
def exec : Nat → Runner
  | 0, _ => throw .outOfFuel
  | fuel + 1, t => t.run (exec fuel)

/-- Runs an operation from a world on. -/
def runFrom {α : Type} (fuel : Nat) (w : World) (x : Op α) : Except Halt (α × World) :=
  x (exec fuel) w

/-- How deeply callbacks of a session may be nested. -/
def nestingLimit : Nat := 100000

/-- Runs the steps of a session from a world on: for each its answer and the notes taken
meanwhile. -/
def runSteps (w : World) : Script → Except Halt (List (Answer × List Note))
  | [] => .ok []
  | step :: rest =>
    match runFrom nestingLimit { w with log := [] } (step.run .null) with
    | .error e => .error e
    | .ok (answer, w) => (runSteps w rest).map ((answer, w.log.reverse) :: ·)

/-- Runs a session. -/
def runSession (script : Script) : Except Halt (List (Answer × List Note)) :=
  runSteps .empty script

end LiveMarkup.Live
