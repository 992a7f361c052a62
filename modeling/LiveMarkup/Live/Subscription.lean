import LiveMarkup.Live.World

/-!
Subscriptions: handles whose cancellation runs once. Handles may be shared, and cancelling one may
come back to it, so what is left to do is taken out before it is done.
-/
namespace LiveMarkup.Live.Subscription

/-- A new subscription with the work of cancelling it. -/
def create (c : Cancel) : Op SubscriptionId := do
  let w ← get
  set { w with subscriptions := w.subscriptions.push (some c) }
  return w.subscriptions.next

/-- Whether the subscription was not cancelled yet. -/
def isActive (w : World) (s : SubscriptionId) : Bool :=
  (w.subscriptions.get s).isSome

/-- Cancels a subscription; a second time does nothing. -/
def cancel (s : SubscriptionId) : Op Unit := do
  match (← get).subscriptions.get s with
  | none => return
  | some c =>
    modify fun w => { w with subscriptions := w.subscriptions.modify s fun _ => none }
    invoke (.cancel c)

/-- Cancels subscriptions in order. -/
def cancelEach (l : List SubscriptionId) : Op Unit :=
  l.forM cancel

end LiveMarkup.Live.Subscription
