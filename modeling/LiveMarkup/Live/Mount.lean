import LiveMarkup.Live.Branch

/-!
Changes of the node tree. A node that comes below a document body is mounted with everything in it,
parents before children, and one that leaves is unmounted, children before parents. The hooks that
run then may change the tree again.
-/
namespace LiveMarkup.Live

/-- Tasks for the hooks of a node, in the order of registration. -/
def hooksOf (n : NodeId) (hooks : List (NodeId × Hook)) : List Task :=
  hooks.filterMap fun (m, h) => if m = n then some (.hook h) else none

namespace Mount

/-- Takes a node with everything below it to be connected or not. Nothing happens to a node that is
taken so already. -/
def connect (n : NodeId) (connected : Bool) : Op Unit := do
  if ((← get).nodes.get n).connected = connected then return
  modifyNodes fun f => f.modify n fun node => { node with connected }
  if connected then invokeAll (hooksOf n (← get).mountHooks)
  invokeAll (((← get).nodes.get n).children.map fun c => .connect c connected)
  if !connected then invokeAll (hooksOf n (← get).unmountHooks)

/-- Whether a node is taken to be connected. -/
def isConnected (w : World) (n : NodeId) : Bool :=
  (w.nodes.get n).connected

/-- Makes a node that is no fragment the last child of another. -/
def appendOne (p n : NodeId) : Op Unit := do
  modifyNodes fun f => Dom.Forest.attach (f.detach n) p n
  connect n (isConnected (← get) p)

/-- Appends a node; a fragment gives its children. -/
def append (p n : NodeId) : Op Unit := do
  (← onNodes (·.takeForInsertion n)).forM (appendOne p)

/-- Appends nodes in order. -/
def appendEach (p : NodeId) (nodes : List NodeId) : Op Unit :=
  nodes.forM (append p)

/-- Takes a node out of its parent. -/
def remove (n : NodeId) : Op Unit := do
  if ((← get).nodes.get n).parent.isNone then return
  modifyNodes (·.detach n)
  connect n false

/-- Puts nodes in the place of a node, which leaves its parent. -/
def replace (n : NodeId) (replacements : List NodeId) : Op Unit := do
  match ← onNodes fun f => let (f, r) := f.splice n replacements; (r, f) with
  | none => return
  | some (p, incoming) =>
    connect n false
    let connected := isConnected (← get) p
    incoming.forM (connect · connected)

/-- Writes the data of a text or a comment. -/
def setData (n : NodeId) (text : String) : Op Unit :=
  modifyNodes fun f => f.modify n (·.withData text)

/-- Writes the text of a node. A text or a comment takes it as its data; any other node has its
children replaced by one text. -/
def setText (n : NodeId) (text : String) : Op Unit := do
  let node := (← get).nodes.get n
  match node.content with
  | .text _ | .comment _ => setData n text
  | .fragment | .element _ =>
    node.children.forM remove
    append n (← onNodes (·.create (.text text)))

/-- Changes the data of an element. -/
def changeElement (n : NodeId) (g : Dom.Element → Dom.Element) : Op Unit :=
  modifyNodes (·.mapElement n g)

/-- Changes the attributes of an element. -/
def changeAttributes (n : NodeId) (g : Markup.Attributes → Markup.Attributes) : Op Unit :=
  modifyNodes (·.mapAttributes n g)

end Mount

namespace Lifecycle

/-- Has a hook run at every mount of a node, and at once if the node is mounted now. -/
def onMount (n : NodeId) (h : Hook) : Op Unit := do
  modify fun w => { w with mountHooks := w.mountHooks ++ [(n, h)] }
  if Mount.isConnected (← get) n then invoke (.hook h)

/-- Has a hook run at every unmount of a node. -/
def onUnmount (n : NodeId) (h : Hook) : Op Unit :=
  modify fun w => { w with unmountHooks := w.unmountHooks ++ [(n, h)] }

/-- Has a reaction subscribed to a signal while a node is mounted. -/
def follow (n : NodeId) (s : SignalId) (reaction : Reaction) (mode : Mode) : Op Unit := do
  let w ← get
  let f := w.follows.next
  set { w with follows := w.follows.push ⟨s, reaction, mode, none⟩ }
  onMount n (.follow f)
  onUnmount n (.unfollow f)

/-- Writes the current subscription of a follow. -/
def setSlot (f : FollowId) (slot : Option SubscriptionId) : Op Unit :=
  modify fun w => { w with follows := w.follows.modify f fun cell => { cell with slot } }

/-- Subscribes a follow. The subscription of before, if there is one, is cancelled afterwards. -/
def startFollow (f : FollowId) : Op Unit := do
  let cell := (← get).follows.get f
  let sub ← Signal.subscribe cell.signal cell.reaction cell.mode
  let previous := ((← get).follows.get f).slot
  setSlot f (some sub)
  previous.forM Subscription.cancel

/-- Cancels the subscription of a follow. -/
def endFollow (f : FollowId) : Op Unit := do
  let slot := ((← get).follows.get f).slot
  setSlot f none
  slot.forM Subscription.cancel

end Lifecycle

namespace Events

/-- Registers a listener with an element; a second time does nothing. -/
def listen (n : NodeId) (event : String) (l : ListenerId) : Op Unit :=
  modify fun w =>
    if w.registrations.contains (n, event, l) then w
    else { w with registrations := w.registrations ++ [(n, event, l)] }

/-- Takes a listener off an element. -/
def unlisten (n : NodeId) (event : String) (l : ListenerId) : Op Unit :=
  modify fun w => { w with registrations := w.registrations.filter (· != (n, event, l)) }

/-- The listeners of an element for an event, in the order of registration. -/
def listenersOf (w : World) (n : NodeId) (event : String) : List ListenerId :=
  w.registrations.filterMap fun (m, e, l) => if m = n ∧ e = event then some l else none

/-- A new listener. -/
def create (h : Handler) : Op ListenerId := do
  let w ← get
  set { w with listeners := w.listeners.push h }
  return w.listeners.next

/-- Calls the listeners that an element has now for an event. -/
def dispatch (n : NodeId) (event : String) : Op Unit := do
  let w ← get
  invokeAll ((listenersOf w n event).map fun l => .handle (w.listeners.get l) event n)

/-- Has a listener registered while a node is mounted. -/
def listenWhileMounted (n : NodeId) (event : String) (l : ListenerId) : Op Unit := do
  Lifecycle.onMount n (.listen n event l)
  Lifecycle.onUnmount n (.unlisten n event l)

end Events
end LiveMarkup.Live
