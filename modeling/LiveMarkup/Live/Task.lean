import LiveMarkup.Live.Script
import LiveMarkup.Dom.Element

/-!
Tasks: everything that a world may be asked to call back. Callbacks are data here: each sort of
callback is a type whose values say what is to be done, and a task is a callback with its arguments.
-/
namespace LiveMarkup.Live

/-- A write to an element or a text node that shows a value. -/
inductive Effect where
  /-- Writes an attribute; null removes it. -/
  | attr (name : String)
  /-- Writes an attribute. -/
  | wholeAttr (name : String)
  | classes (name : String)
  | style (property : String)
  | form (key : Dom.BindingKey)
  /-- Writes the data of a text node; null is the empty text. -/
  | text
deriving DecidableEq, Repr

/-- What a subscriber does with a value. -/
inductive Reaction where
  /-- Reports the value and runs a script with it. -/
  | told (name : Name) (script : Script)
  | followed (name : Name) (script : Script)
  /-- Computes a derived signal anew. -/
  | refresh (d : DerivationId)
  /-- Looks the value up in the cases of a match. -/
  | branch (a : ActivationId)
  | effect (node : NodeId) (e : Effect)

/-- What happens when a node is mounted or unmounted. -/
inductive Hook where
  | mounted (name : Name) (script : Script)
  | unmounted (name : Name) (script : Script)
  /-- Subscribes to the signal that is followed. -/
  | follow (f : FollowId)
  | unfollow (f : FollowId)
  | listen (node : NodeId) (event : String) (l : ListenerId)
  | unlisten (node : NodeId) (event : String) (l : ListenerId)

/-- What a listener does with an event. -/
inductive Handler where
  | script (name : Name) (script : Script)
  /-- Writes the form state of the event's target to a signal. -/
  | write (s : SignalId) (key : Dom.BindingKey)

/-- What cancelling a subscription does. -/
inductive Cancel where
  | nothing
  /-- Takes an entry off a signal. -/
  | entry (s : SignalId) (e : EntryId)
  /-- Cancels other subscriptions, in order. -/
  | all (subscriptions : List SubscriptionId)
  /-- Drops the subscriptions of a derived signal. -/
  | release (d : DerivationId)
  | stopped (name : Name) (script : Script)

/-- What starts a lazy signal. -/
inductive Producer where
  | derivation (d : DerivationId)
  | branch (b : BranchId)
  | script (name : Name) (start stop : Script)

/-- A callback with its arguments. -/
inductive Task where
  | react (r : Reaction) (v : Option Value)
  | hook (h : Hook)
  | handle (h : Handler) (event : String) (target : NodeId)
  | cancel (c : Cancel)
  | start (s : SignalId)
  /-- Takes a subtree to be below a document body, or not to be. -/
  | connect (n : NodeId) (connected : Bool)
  | script (s : Script) (current : Value)

end LiveMarkup.Live
