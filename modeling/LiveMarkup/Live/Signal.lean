import LiveMarkup.Live.Subscription

/-!
Signals: values with subscribers. A write tells the subscribers in the order of subscription, before
it returns; a callback that writes again runs the inner round to its end first, and the outer round
then passes over those who have seen the newest version. A lazy signal is started by its first
subscriber and stopped when the last one leaves.
-/
namespace LiveMarkup.Live

/-- Whether writing the second content over the first goes unnoticed; an absent value always counts
as a change. -/
def sameContent : Option Value → Option Value → Bool
  | some a, some b => a.isSame b
  | _, _ => false

namespace Signal

/-- A signal as it is made. -/
def fresh (value : Option Value) (producer : Option Producer) : Signal :=
  ⟨value, 0, [], producer, false, none, [.made value]⟩

/-- The signal with a new version. -/
def bumped (signal : Signal) : Signal :=
  { signal with version := signal.version + 1, past := .changed signal.value :: signal.past }

/-- The signal with one more subscriber. -/
def joinedBy (e : EntryId) (mode : Mode) (signal : Signal) : Signal :=
  { signal with subscribers := signal.subscribers ++ [e], past := .joined e mode :: signal.past }

/-- The signal without a subscriber. -/
def leftBy (e : EntryId) (signal : Signal) : Signal :=
  { signal with subscribers := signal.subscribers.erase e, past := .left e :: signal.past }

/-- The signal after a call of a subscriber. -/
def showing (e : EntryId) (round : Option Nat) (signal : Signal) : Signal :=
  { signal with past := .told e round signal.version signal.value :: signal.past }

/-- A new signal. -/
def create (value : Option Value) (producer : Option Producer) : Op SignalId := do
  let w ← get
  set { w with signals := w.signals.push (fresh value producer) }
  return w.signals.next

/-- The content of a signal. -/
def content (w : World) (s : SignalId) : Option Value :=
  (w.signals.get s).value

/-- Shows the current value to an entry that has not seen the current version. -/
def tell (s : SignalId) (round : Nat) (e : EntryId) : Op Unit := do
  let w ← get
  let entry := w.entries.get e
  let signal := w.signals.get s
  if entry.active && entry.seen < signal.version then
    set { w with
      entries := w.entries.modify e fun entry => { entry with seen := signal.version },
      signals := w.signals.modify s (showing e (some round)) }
    invoke (.react entry.reaction signal.value)

/-- Counts a new version and tells those who are subscribed now. -/
def notify (s : SignalId) : Op Unit := do
  modifySignal s bumped
  let signal := (← get).signals.get s
  signal.subscribers.forM (tell s signal.version)

/-- Gives a signal a content and tells the subscribers. -/
def replace (s : SignalId) (value : Option Value) : Op Unit := do
  modifySignal s fun signal => { signal with value }
  notify s

/-- Writes a content, unless that would go unnoticed, and tells the subscribers. -/
def write (s : SignalId) (value : Option Value) : Op Unit := do
  if sameContent (content (← get) s) value then return
  replace s value

/-- Writes a value. -/
def put (s : SignalId) (v : Value) : Op Unit :=
  write s (some v)

/-- Writes a value and tells the subscribers in any case. -/
def change (s : SignalId) (v : Value) : Op Unit :=
  replace s (some v)

/-- Whether the next subscriber has to start the signal. -/
def isIdle (w : World) (s : SignalId) : Bool :=
  let signal := w.signals.get s
  signal.subscribers.isEmpty && !signal.started && signal.producer.isSome

/-- Starts a signal that is about to have its first subscriber. -/
def wake (s : SignalId) : Op Unit := do
  if isIdle (← get) s then invoke (.start s)

/-- Adds an entry that has seen the current version. -/
def enter (s : SignalId) (reaction : Reaction) (mode : Mode) : Op EntryId := do
  let w ← get
  let e := w.entries.next
  let version := (w.signals.get s).version
  set { w with
    entries := w.entries.push ⟨true, version, reaction⟩,
    signals := w.signals.modify s (joinedBy e mode) }
  return e

/-- Shows the current value to an entry as it joins. -/
def greet (s : SignalId) (e : EntryId) (reaction : Reaction) : Op Unit := do
  modifySignal s (showing e none)
  invoke (.react reaction (content (← get) s))

/-- Adds an entry, and shows it the current value if it is to hear at once. -/
def join (s : SignalId) (reaction : Reaction) (mode : Mode) : Op EntryId := do
  let e ← enter s reaction mode
  if mode = .immediate then greet s e reaction
  return e

/-- Subscribes to a signal. -/
def subscribe (s : SignalId) (reaction : Reaction) (mode : Mode) : Op SubscriptionId := do
  wake s
  Subscription.create (.entry s (← join s reaction mode))

/-- Stops a signal that has no subscribers left. -/
def stop (s : SignalId) : Op Unit := do
  let signal := (← get).signals.get s
  if signal.subscribers.isEmpty && signal.started then
    modifySignal s fun signal => { signal with started := false, teardown := none }
    match signal.teardown with
    | some t => Subscription.cancel t
    | none => return

/-- Takes an entry off the list of a signal. -/
def drop (s : SignalId) (e : EntryId) : Op Unit := do
  if ((← get).signals.get s).subscribers.contains e then
    modify fun w => { w with
      entries := w.entries.modify e fun entry => { entry with active := false } }
  modifySignal s (leftBy e)

/-- Takes an entry off a signal, which stops if no other is left. -/
def leave (s : SignalId) (e : EntryId) : Op Unit := do
  drop s e
  stop s

end Signal
end LiveMarkup.Live
