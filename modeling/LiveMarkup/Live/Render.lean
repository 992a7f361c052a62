import LiveMarkup.Live.Mount

/-!
Rendering: a copy of a template's fragment with values put into its slots. Plain values are written
once. Signals are written at once and then followed while their element is mounted. The slots come
first, in order, and the programs of quoted attributes after them; signals that ask for an element
are written when all else has gone well.
-/
namespace LiveMarkup.Live

open Template (Slot DirectiveKind Part Descriptor Programs)

/-- Something that can stand in for an outlet. -/
inductive Component where
  | element (n : NodeId)
  /-- An element that reports what it is given and takes attributes under names of its own. -/
  | card (name : Name) (n : NodeId)

def Component.node : Component → NodeId
  | .element n | .card _ n => n

/-- A value for a slot. -/
inductive TemplateValue where
  | value (v : Value)
  | signal (s : SignalId)
  | writable (s : SignalId)
  | formula (fn : FormulaId)
  | listener (l : ListenerId)
  | component (c : Component)

/-- Why a template cannot be rendered. -/
inductive RenderFault where
  | missingReference (ref : Template.Ref)
  | slotCountMismatch (expected actual : Nat)
  | expectedComponent
  | expectedListener
  | expectedWritable
  | unknownBindingKey (name : String)
  | unrenderableValue
deriving DecidableEq, Repr

def RenderFault.message : RenderFault → String
  | .missingReference ref => "no element carries reference `" ++ ref.text ++ "`"
  | .slotCountMismatch expected actual =>
    "template has " ++ toString expected ++ " slots but " ++ toString actual ++
      " values were given"
  | .expectedComponent => "expected a component"
  | .expectedListener => "expected an event listener"
  | .expectedWritable => "expected a writable signal"
  | .unknownBindingKey name => "unknown binding key `" ++ name ++ "`"
  | .unrenderableValue => "value cannot be rendered as a node"

/-- A fault, and the slot at which it arose. -/
structure RenderFailure where
  fault : RenderFault
  index : Option Nat
deriving DecidableEq, Repr

/-- A failure with the values and the markup of the template. -/
structure RenderError where
  failure : RenderFailure
  values : String
  html : String
deriving DecidableEq, Repr

/-- An operation that may find a value unfit. -/
abbrev Fitting := ExceptT RenderFault Op

/-- An operation that may fail at a slot. -/
abbrev Rendering := ExceptT RenderFailure Op

/-- Names the slot at which a fault arises. -/
def Fitting.atSlot {α : Type} (index : Option Nat) (x : Fitting α) : Rendering α :=
  ExceptT.mk do
    match ← x.run with
    | .ok a => return .ok a
    | .error fault => return .error ⟨fault, index⟩

namespace TemplateValue

/-- The signal behind a value. For a computation that is its derived signal. -/
def signal? : TemplateValue → Op (Option SignalId)
  | .signal s | .writable s => return some s
  | .formula fn => return some (← SharedFormula.derived fn)
  | .value _ | .listener _ | .component _ => return none

/-- The value in diagnostics. -/
def diagnostic (w : World) : TemplateValue → String
  | .value v => w.diagnostic v
  | .signal s => "ReadSignal(" ++ w.diagnostic ((Signal.content w s).getD .null) ++ ")"
  | .writable s => "Signal(" ++ w.diagnostic ((Signal.content w s).getD .null) ++ ")"
  | .formula fn =>
    "DeriveFn \x7b function: PTR, has_signal: " ++
      boolText (w.formulas.get fn).signal.isSome ++ " \x7d"
  | .listener _ => "Listener(PTR)"
  | .component c => "Component(" ++ w.nodeDiagnostic c.node ++ ")"

/-- A list of values in diagnostics. -/
def diagnosticAll (w : World) (values : List TemplateValue) : String :=
  "[" ++ ", ".intercalate (values.map (diagnostic w)) ++ "]"

end TemplateValue

namespace Effect

/-- Shows a value through an effect. -/
def apply (node : NodeId) (v : Value) (e : Effect) : Op Unit := do
  let w ← get
  match e with
  | .attr name =>
    Mount.changeAttributes node fun a => if v.isNull then a.remove name else a.set name (w.text v)
  | .wholeAttr name => Mount.changeAttributes node (·.set name (w.text v))
  | .classes name => Mount.changeAttributes node (·.toggleClass name v.isTruthy)
  | .style property => Mount.changeAttributes node (·.setStyle property (w.text v))
  | .form key => Mount.changeElement node (key.write w.nodes.textContent · v)
  | .text => Mount.setData node (w.textOrEmpty v)

/-- Shows the current value of a signal, and follows the signal while the node is mounted. -/
def bind (node : NodeId) (s : SignalId) (e : Effect) : Op Unit := do
  e.apply node ((Signal.content (← get) s).getD .null)
  Lifecycle.follow node s (.effect node e) .immediate

/-- Shows a value of a slot, once or for as long as its signal lives. -/
def connect (node : NodeId) (value : TemplateValue) (e : Effect) : Fitting Unit := do
  match ← value.signal? with
  | some s => e.bind node s
  | none =>
    match value with
    | .value v => e.apply node v
    | .component c => e.apply node (.node c.node)
    | _ => throw .unrenderableValue

end Effect

namespace Render

/-- A text node that shows a signal. -/
def signalNode (s : SignalId) : Op NodeId := do
  let w ← get
  let n ← onNodes (·.create (.text (w.textOrEmpty ((Signal.content w s).getD .null))))
  Lifecycle.follow n s (.effect n .text) .immediate
  return n

/-- The node that takes the place of an outlet in text. -/
def nodeOf (value : TemplateValue) : Fitting NodeId := do
  match value with
  | .value (.node n) => return n
  | .value v =>
    let w ← getThe World
    (onNodes (·.create (.text (w.textOrEmpty v))) : Op NodeId)
  | .component c => return c.node
  | value =>
    match ← value.signal? with
    | some s => signalNode s
    | none => throw .unrenderableValue

/-- Gives nodes to a component. -/
def giveChildren (c : Component) (nodes : List NodeId) : Op Unit := do
  match c with
  | .element n => Mount.appendEach n nodes
  | .card name n =>
    let w ← get
    note (.cardChildren name (nodes.map fun m => (w.nodes.get m).name))
    Mount.appendEach n nodes

/-- Gives an attribute to a component. -/
def giveAttribute (c : Component) (name value : String) : Op Unit := do
  match c with
  | .element n => Mount.changeAttributes n (·.set name value)
  | .card own n =>
    note (.cardAttribute own name value)
    Mount.changeAttributes n (·.set ("c-" ++ name) value)

/-- Puts a component in the place of an outlet, with the outlet's children and attributes. -/
def placeComponent (outlet : NodeId) (c : Component) : Op Unit := do
  giveChildren c ((← get).nodes.get outlet).children
  ((← get).nodes.attributes outlet).entries.forM fun (name, value) => giveAttribute c name value
  Mount.replace outlet [c.node]

/-- Binds form state and a signal both ways. -/
def twoWay (element : NodeId) (s : SignalId) (key : Dom.BindingKey) : Op Unit := do
  let l ← Events.create (.write s key)
  Events.listenWhileMounted element "input" l
  Effect.bind element s (.form key)

/-- The signals that ask for an element, with their elements. -/
abbrev Asked := List (SignalId × NodeId)

/-- Puts a value into a directive. -/
def directive (element : NodeId) (kind : DirectiveKind) (name : String) (value : TemplateValue) :
    Fitting Asked := do
  match kind, value with
  | .classes, value =>
    Effect.connect element value (.classes name)
    return []
  | .style, value =>
    Effect.connect element value (.style name)
    return []
  | .on, .listener l =>
    Events.listenWhileMounted element name l
    return []
  | .on, _ => throw .expectedListener
  | .ref, .writable s => return [(s, element)]
  | .ref, _ => throw .expectedWritable
  | .bind, .writable s =>
    match Dom.BindingKey.ofName? name with
    | some key =>
      twoWay element s key
      return []
    | none => throw (.unknownBindingKey name)
  | .bind, _ => throw .expectedWritable

/-- The element that carries a reference. -/
def find (d : Descriptor) (fragment : NodeId) (r : Template.Ref) : Fitting NodeId := do
  match (← getThe World).nodes.findByAttribute fragment d.config.refAttribute r.text with
  | some n => return n
  | none => throw (.missingReference r)

/-- Puts a value into a slot of an element. Quoted attributes wait for their programs. -/
def fillElement (element : NodeId) (slot : Slot) (value : TemplateValue) : Fitting Asked := do
  match slot with
  | .node _ =>
    let n ← nodeOf value
    Mount.replace element [n]
    return []
  | .component _ =>
    match value with
    | .component c =>
      placeComponent element c
      return []
    | _ => throw .expectedComponent
  | .attr name quote _ =>
    if quote = .none then Effect.connect element value (.attr name)
    return []
  | .directive kind name _ => directive element kind name value

/-- Puts a value into a slot. -/
def fill (d : Descriptor) (fragment : NodeId) (slot : Slot) (value : TemplateValue) :
    Fitting Asked := do
  fillElement (← find d fragment slot.ref) slot value

/-- A part of an attribute value with its slot's value put in. -/
inductive Source where
  | literal (text : String)
  | value (v : Value)
  | signal (s : SignalId)

/-- What a slot's value contributes to an attribute. -/
def sourceOf (value : TemplateValue) : Fitting Source := do
  match ← value.signal? with
  | some s => return .signal s
  | none =>
    match value with
    | .value v => return .value v
    | .component c => return .value (.node c.node)
    | _ => throw .unrenderableValue

/-- The source of a part. -/
def sourceOfPart (values : List TemplateValue) : Part → Rendering Source
  | .literal text => return .literal text
  | .slot index =>
    match values[index]? with
    | some value => (sourceOf value).atSlot (some index)
    | none => throw ⟨.unrenderableValue, some index⟩

def Source.isSignal : Source → Bool
  | .signal _ => true
  | _ => false

/-- The reading of the text that sources make together; null contributes nothing. -/
def joined (soFar : String) : List Source → Reading
  | [] => .done (.string soFar)
  | .literal text :: rest => joined (soFar ++ text) rest
  | .value v :: rest => joinedValue v fun s => joined (soFar ++ s) rest
  | .signal s :: rest => .get s fun v =>
    joinedValue (v.getD .null) fun s => joined (soFar ++ s) rest
where
  joinedValue (v : Value) (next : String → Reading) : Reading :=
    if v.isNull then next "" else .text v next

/-- Puts an attribute together from its parts. A slot that is the whole value is written as an
unquoted one would be. -/
def fillProgram (values : List TemplateValue) (element : NodeId) (name : String)
    (parts : List Part) : Rendering Unit := do
  match parts with
  | [.slot index] =>
    match values[index]? with
    | some value => (Effect.connect element value (.attr name)).atSlot (some index)
    | none => throw ⟨.unrenderableValue, some index⟩
  | parts =>
    let sources ← parts.mapM (sourceOfPart values)
    let reading := joined "" sources
    if sources.any Source.isSignal then
      let s ← (Derivation.create reading : Op SignalId)
      Effect.bind element s (.wholeAttr name)
    else
      let v ← (reading.run .passing : Op Value)
      Effect.apply element v (.wholeAttr name)

/-- Puts together the attributes of an element. -/
def fillAttributes (values : List TemplateValue) (element : NodeId) (programs : Programs) :
    Rendering Unit :=
  programs.entries.forM fun (name, parts) => fillProgram values element name parts

/-- Puts together the attributes of the element of a reference. -/
def fillPrograms (d : Descriptor) (fragment : NodeId) (values : List TemplateValue)
    (r : Template.Ref) (programs : Programs) : Rendering Unit := do
  fillAttributes values (← (find d fragment r).atSlot none) programs

/-- Puts values into slots, the first of which has the given index. -/
def fillSlots (d : Descriptor) (fragment : NodeId) (index : Nat) :
    List (Slot × TemplateValue) → Rendering Asked
  | [] => return []
  | (slot, value) :: rest => do
    let asked ← (fill d fragment slot value).atSlot (some index)
    return asked ++ (← fillSlots d fragment (index + 1) rest)

/-- Puts all values into a fragment. -/
def fillAll (d : Descriptor) (fragment : NodeId) (values : List TemplateValue) :
    Rendering Asked := do
  if values.length ≠ d.slots.length then
    throw ⟨.slotCountMismatch d.slots.length values.length, none⟩
  let asked ← fillSlots d fragment 0 (d.slots.zip values)
  d.programs.entries.forM fun (r, programs) => fillPrograms d fragment values r programs
  return asked

/-- Renders a template, given how the values get into the copy. The answer is the list of its
topmost nodes, which have no parent. When a rendering fails, its copy is given up, and the nodes that
were there before leave it. -/
def renderBy (fillIn : NodeId → Rendering Asked) (d : Descriptor) (values : List TemplateValue) :
    Op (Except RenderError (List NodeId)) := do
  let limit := (← get).nodes.size
  let fragment ← onNodes (·.plantFragment d.fragment)
  match ← (fillIn fragment).run with
  | .ok asked =>
    asked.forM fun (s, n) => Signal.put s (.node n)
    return .ok (← onNodes (·.takeForInsertion fragment))
  | .error failure =>
    let error := ⟨failure, TemplateValue.diagnosticAll (← get) values, Text.trimmed d.html⟩
    modifyNodes fun f => (f.olderBelow limit fragment).foldl Dom.Forest.detach f
    return .error error

/-- Renders a template. -/
def render (d : Descriptor) (values : List TemplateValue) :
    Op (Except RenderError (List NodeId)) :=
  renderBy (fun fragment => fillAll d fragment values) d values

end Render
end LiveMarkup.Live
