import LiveMarkup.Live.Task
import LiveMarkup.Live.Moment
import LiveMarkup.Dom.Forest
import LiveMarkup.Dom.Registry
import LiveMarkup.Template.Descriptor

/-!
The world: the cells of everything that lives, and the monad of operations on it. An operation never
calls a callback itself. It hands the task to a runner that it is given, so that operations are
plain functions and only the runner, which is tied in `LiveMarkup.Live.Run`, recurses.
-/
namespace LiveMarkup.Live

/-- A signal. The value is absent only in the output of a match to which nothing applied. -/
structure Signal where
  value : Option Value
  /-- How often the value was replaced or changed. -/
  version : Nat
  /-- The entries, in the order of subscription. -/
  subscribers : List EntryId
  producer : Option Producer
  started : Bool
  teardown : Option SubscriptionId
  /-- What happened to it, last moment first. -/
  past : List Moment

/-- A registered subscriber. -/
structure Entry where
  active : Bool
  /-- The version that the subscriber has been shown. -/
  seen : Nat
  reaction : Reaction

/-- A derived signal's computation. The signals that it was ever seen to read stay known when the
subscriptions to them are dropped. -/
structure Derivation where
  reading : Reading
  output : SignalId
  tracked : List SignalId
  subscriptions : List SubscriptionId
  /-- What its recorded runs were shown, last read first, for the sake of those who reason about
  it. -/
  shown : List SignalId

/-- A computation with an identity, and the derived signal made for it. -/
structure SharedFormula where
  reading : Reading
  signal : Option SignalId

/-- The cases of a match over a signal. -/
structure Branch where
  source : SignalId
  output : SignalId
  cases : CaseTable Value ValueType Formula
  fallback : Option Formula

/-- A period in which a match has subscribers. -/
structure Activation where
  branch : BranchId
  /-- Whether the last value applied to no case. -/
  inFallback : Bool

/-- A subscription that lasts while a node is mounted. -/
structure Follow where
  signal : SignalId
  reaction : Reaction
  mode : Mode
  slot : Option SubscriptionId

/-- A template: compiled, or to be compiled when it is first needed. -/
structure CachedTemplate where
  chunks : List String
  config : Template.Config
  descriptor : Option Template.Descriptor

instance : Inhabited Signal := ⟨⟨none, 0, [], none, false, none, []⟩⟩
instance : Inhabited Entry := ⟨⟨false, 0, .told "" []⟩⟩
instance : Inhabited Derivation := ⟨⟨default, default, [], [], []⟩⟩
instance : Inhabited SharedFormula := ⟨⟨default, none⟩⟩
instance : Inhabited Branch := ⟨⟨default, default, [], none⟩⟩
instance : Inhabited Activation := ⟨⟨default, false⟩⟩
instance : Inhabited Follow := ⟨⟨default, .told "" [], .normal, none⟩⟩
instance : Inhabited CachedTemplate := ⟨⟨[], default, none⟩⟩
instance : Inhabited Handler := ⟨.script "" []⟩

/-- What may be done with a named signal. -/
inductive Role where
  | writable | readable
  /-- The signal is the output of a match. -/
  | branching
deriving DecidableEq, Repr

/-- What may be done with the readable half of a signal. -/
def Role.readOnly : Role → Role
  | .branching => .branching
  | _ => .readable

/-- The names of a session. -/
structure Names where
  signals : Ordered Name (SignalId × Role)
  emitters : Ordered Name SignalId
  subscriptions : Ordered Name SubscriptionId
  formulas : Ordered Name FormulaId
  nodes : Ordered Name NodeId
  documents : Ordered Name NodeId
  listeners : Ordered Name ListenerId
  registries : Ordered Name RegistryId
  definitions : Ordered String Dom.Definition
  templates : Ordered Name TemplateId
  renderings : Ordered Name (List NodeId)

/-- Nothing has a name. -/
def Names.empty : Names where
  signals := .empty
  emitters := .empty
  subscriptions := .empty
  formulas := .empty
  nodes := .empty
  documents := .empty
  listeners := .empty
  registries := .empty
  definitions := .empty
  templates := .empty
  renderings := .empty

/-- Everything that lives. -/
structure World where
  signals : Heap .signal Signal
  entries : Heap .entry Entry
  /-- What is left to do to cancel each subscription. -/
  subscriptions : Heap .subscription (Option Cancel)
  derivations : Heap .derivation Derivation
  formulas : Heap .formula SharedFormula
  branches : Heap .branch Branch
  activations : Heap .activation Activation
  /-- What matches did, last deed first. -/
  deeds : List Deed
  follows : Heap .follow Follow
  nodes : Dom.Forest
  mountHooks : List (NodeId × Hook)
  unmountHooks : List (NodeId × Hook)
  listeners : Heap .listener Handler
  /-- The listeners on elements, in the order of registration. -/
  registrations : List (NodeId × String × ListenerId)
  registries : Heap .registry Dom.Registry
  templates : Heap .template CachedTemplate
  nextRef : Nat
  names : Names
  /-- The notes, last one first. -/
  log : List Note

/-- The world in which nothing was made yet. -/
def World.empty : World where
  signals := .empty
  entries := .empty
  subscriptions := .empty
  derivations := .empty
  formulas := .empty
  branches := .empty
  activations := .empty
  deeds := []
  follows := .empty
  nodes := .empty
  mountHooks := []
  unmountHooks := []
  listeners := .empty
  registrations := []
  registries := .empty
  templates := .empty
  nextRef := Template.Ref.first
  names := .empty
  log := []

instance : Inhabited World := ⟨.empty⟩

/-- Why a run stops short. -/
inductive Halt where
  /-- Callbacks were nested more deeply than the run allows. -/
  | outOfFuel
  | unknownName (name : Name)
  | notWritable (name : Name)
  | noSuchChild
deriving DecidableEq, Repr

/-- Runs tasks. -/
abbrev Runner := Task → StateT World (Except Halt) Unit

/-- An operation on the world that may have callbacks run. -/
abbrev Op := ReaderT Runner (StateT World (Except Halt))

/-- Has a task run. -/
def invoke (t : Task) : Op Unit :=
  fun run => run t

/-- Has tasks run one after another. -/
def invokeAll (ts : List Task) : Op Unit :=
  ts.forM invoke

/-- Adds a note to the log. -/
def note (n : Note) : Op Unit :=
  modify fun w => { w with log := n :: w.log }

namespace World
variable (w : World)

/-- The text of a value. -/
def text (v : Value) : String :=
  v.text w.nodes.textContent

/-- The text of a value where null contributes nothing. -/
def textOrEmpty (v : Value) : String :=
  v.textOrEmpty w.nodes.textContent

/-- The value in diagnostics. -/
def diagnostic (v : Value) : String :=
  v.diagnostic fun n => (w.nodes.get n).name

/-- A node in diagnostics. -/
def nodeDiagnostic (n : NodeId) : String :=
  let node := w.nodes.get n
  "Node \x7b name: " ++ Text.quoted node.name ++ ", children: " ++
    toString node.children.length ++ ", connected: " ++ boolText node.connected ++ " \x7d"

/-- The value as it looks now. -/
def snapshot : Value → Snapshot
  | .null => .null
  | .bool b => .bool b
  | .number n => .number n
  | .string s => .string s
  | .date d => .date d
  | .node n => .node (w.nodes.get n).name (w.nodes.html n)
  | .object o => .object o.type

/-- What cases can test of values. -/
def facets : Facets Value ValueType :=
  ⟨Value.tag, Value.type? w.nodes.isElement⟩

end World

/-- Changes the nodes. -/
def modifyNodes (f : Dom.Forest → Dom.Forest) : Op Unit :=
  modify fun w => { w with nodes := f w.nodes }

/-- Changes the nodes and answers what the change yields. -/
def onNodes {α : Type} (f : Dom.Forest → α × Dom.Forest) : Op α := do
  let w ← get
  let (a, nodes) := f w.nodes
  set { w with nodes }
  return a

/-- Changes a signal. -/
def modifySignal (s : SignalId) (f : Signal → Signal) : Op Unit :=
  modify fun w => { w with signals := w.signals.modify s f }

end LiveMarkup.Live
