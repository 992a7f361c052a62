import LiveMarkup.Live.Render

/-!
Answers: what steps and queries report, and the queries themselves. A query is a function of the
world and changes nothing.
-/
namespace LiveMarkup.Live

/-- The facts about a node. -/
structure NodeInfo where
  name : String
  isElement : Bool
  isText : Bool
  isFragment : Bool
  connected : Bool
  childCount : Nat
  parent : Option String
deriving DecidableEq, Repr

/-- The form state of an element. -/
structure FormInfo where
  value : String
  number : Number
  date : Option Date
  checked : Bool
deriving DecidableEq

/-- What a step reports. -/
inductive Answer where
  | none
  | flag (b : Bool)
  | flags (a b : Bool)
  | count (n : Nat)
  | text (s : String)
  | optionalText (s : Option String)
  | texts (l : List String)
  | pairs (l : List (String × String))
  | value (v : Snapshot)
  /-- The content of a match's output. -/
  | content (v : Option Snapshot)
  /-- The number of subscribers, and whether the signal is started. -/
  | watch (subscribers : Nat) (started : Bool)
  /-- The nodes of a tree in document order, each with its depth. -/
  | outline (nodes : List (Nat × Dom.Content))
  | node (info : NodeInfo)
  | form (info : FormInfo)
  /-- Whether a tag is defined, and the markup of an element of it. -/
  | defined (b : Bool) (html : Option String)
  | descriptor (d : Template.Descriptor)
  | configError (e : Template.ConfigError)
  | markupError (e : Markup.Unfinished)
  | compileError (e : Template.CompileError)
  | registryError (e : Dom.RegistryError)
  | renderError (e : RenderError)
  | fitError (e : RenderFault)

namespace World
variable (w : World)

/-- The signal of a name, and what may be done with it. -/
def signalNamed (name : Name) : Except Halt (SignalId × Role) :=
  match w.names.signals.get? name with
  | some r => .ok r
  | none => .error (.unknownName name)

/-- The thing of a name in one of the tables. -/
def named {α : Type} (table : Names → Ordered Name α) (name : Name) : Except Halt α :=
  match (table w.names).get? name with
  | some a => .ok a
  | none => .error (.unknownName name)

/-- The node of a name. -/
def node (name : Name) : Except Halt NodeId :=
  w.named Names.nodes name

/-- The element data of the node of a name; of another node, that of an empty element. -/
def element (name : Name) : Except Halt Dom.Element :=
  (w.node name).map fun n => (w.nodes.get n).element?.getD (.ofTag "")

/-- The content of a signal in diagnostics; that of a match's output is optional. -/
def contentDebug (role : Role) (v : Option Value) : String :=
  match role, v with
  | .branching, some v => "Some(" ++ w.diagnostic v ++ ")"
  | .branching, none => "None"
  | _, v => w.diagnostic (v.getD .null)

/-- A signal in diagnostics; its number is not shown. -/
def signalDebug (s : SignalId) (role : Role) : String :=
  let signal := w.signals.get s
  (if role = .writable then "Signal" else "ReadSignal") ++ " \x7b id: N, value: " ++
    w.contentDebug role signal.value ++ ", subscriber_count: " ++
    toString signal.subscribers.length ++ " \x7d"

/-- A node in diagnostics, and an element also with its attributes. -/
def nodeDebug (n : NodeId) : List String :=
  w.nodeDiagnostic n ::
    match (w.nodes.get n).element? with
    | none => []
    | some e =>
      let attributes := e.attributes.entries.map fun (name, value) =>
        "(" ++ Text.quoted name ++ ", " ++ Text.quoted value ++ ")"
      ["Element \x7b tag: " ++ Text.quoted e.tag ++ ", attributes: [" ++
        ", ".intercalate attributes ++ "] \x7d"]

/-- The facts about a node. -/
def nodeInfo (n : NodeId) : NodeInfo :=
  let node := w.nodes.get n
  { name := node.name, isElement := node.element?.isSome, isText := node.isText,
    isFragment := node.isFragment, connected := node.connected,
    childCount := node.children.length,
    parent := node.parent.map fun p => (w.nodes.get p).name }

end World

/-- The answer to a query. -/
def Query.answer (w : World) : Query → Except Halt Answer
  | .value sig => do
    let (s, role) ← w.signalNamed sig
    let v := Signal.content w s
    if role = .branching then return .content (v.map w.snapshot)
    return .value (w.snapshot (v.getD .null))
  | .shown sig => do
    let (s, role) ← w.signalNamed sig
    let v := Signal.content w s
    if role = .branching then return .flag v.isSome
    return .text (w.text (v.getD .null))
  | .watch sig => do
    let (s, _) ← w.signalNamed sig
    let signal := w.signals.get s
    return .watch signal.subscribers.length signal.started
  | .sameSignal a b => do
    let (s, _) ← w.signalNamed a
    let (t, _) ← w.signalNamed b
    return .flags (s = t) (s = t)
  | .signalDebug sig => do
    let (s, role) ← w.signalNamed sig
    return .text (w.signalDebug s role)
  | .active sub => do
    return .flag (Subscription.isActive w (← w.named Names.subscriptions sub))
  | .sameSubscription a b => do
    return .flag ((← w.named Names.subscriptions a) = (← w.named Names.subscriptions b))
  | .subscriptionDebug sub => do
    let active := Subscription.isActive w (← w.named Names.subscriptions sub)
    return .text ("Subscription \x7b id: SubscriberId(N), active: " ++ boolText active ++ " \x7d")
  | .formulaHas fn => do
    return .flag (w.formulas.get (← w.named Names.formulas fn)).signal.isSome
  | .formulaSame a b => do
    return .flag ((← w.named Names.formulas a) = (← w.named Names.formulas b))
  | .formulaDebug fn => do
    return .text (TemplateValue.diagnostic w (.formula (← w.named Names.formulas fn)))
  | .html node => do return .text (w.nodes.html (← w.node node))
  | .inner node => do return .text (w.nodes.innerHtml (← w.node node))
  | .content node => do return .text (w.nodes.textContent (← w.node node))
  | .tree node => do return .outline (w.nodes.outline (← w.node node))
  | .nodeInfo node => do return .node (w.nodeInfo (← w.node node))
  | .sameNode a b => do return .flag ((← w.node a) = (← w.node b))
  | .parentIs node parent => do
    return .flag ((w.nodes.get (← w.node node)).parent = some (← w.node parent))
  | .nodeDebug node => do return .texts (w.nodeDebug (← w.node node))
  | .attr node name => do return .optionalText ((← w.element node).attributes.value? name)
  | .hasAttr node name => do return .flag ((← w.element node).attributes.has name)
  | .attrs node => do return .pairs (← w.element node).attributes.entries
  | .classes node => do return .texts (← w.element node).attributes.classes
  | .hasClass node name => do return .flag ((← w.element node).attributes.hasClass name)
  | .style node property => do
    return .optionalText ((← w.element node).attributes.style? property)
  | .form node => do
    let e ← w.element node
    return .form ⟨e.formValue, e.formNumber, e.formDate?, e.isChecked⟩
  | .listenerCount node event => do
    return .count (Events.listenersOf w (← w.node node) event).length
  | .defined registry tag => do
    let r := w.registries.get (← w.named Names.registries registry)
    let definition := r.get? tag
    let html := definition.map fun d =>
      let (n, f) := w.nodes.create (.element d.create)
      f.html n
    return .defined definition.isSome html
  | .isCompiled template => do
    return .flag (w.templates.get (← w.named Names.templates template)).descriptor.isSome

end LiveMarkup.Live
