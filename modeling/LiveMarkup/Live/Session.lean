import LiveMarkup.Live.Answer

/-!
Sessions: what each step of a script does. Every step looks its names up first and then calls on the
operations of the world.
-/
namespace LiveMarkup.Live

/-- The thing of a name in one of the tables. -/
def lookUp {α : Type} (table : Names → Ordered Name α) (name : Name) : Op α := do
  require name ((table (← get).names).get? name)

/-- Changes the names. -/
def rename (f : Names → Names) : Op Unit :=
  modify fun w => { w with names := f w.names }

def nameSignal (name : Name) (s : SignalId) (role : Role) : Op Unit :=
  rename fun names => { names with signals := names.signals.insert name (s, role) }

def nameSubscription (name : Name) (s : SubscriptionId) : Op Unit :=
  rename fun names => { names with subscriptions := names.subscriptions.insert name s }

def nameFormula (name : Name) (fn : FormulaId) : Op Unit :=
  rename fun names => { names with formulas := names.formulas.insert name fn }

def nameTemplate (name : Name) (t : CachedTemplate) : Op Unit :=
  modify fun w => { w with
    templates := w.templates.push t,
    names := { w.names with templates := w.names.templates.insert name w.templates.next } }

/-- The signal of a name, for reading. -/
def signalNamed (name : Name) : Op SignalId :=
  return (← lookUp Names.signals name).1

/-- The signal of a name, for writing. -/
def writableNamed (name : Name) : Op SignalId := do
  let (s, role) ← lookUp Names.signals name
  if role = .writable then return s
  throw (.notWritable name)

/-- Names a new node. -/
def nameNew (name : Name) (content : Dom.Content) : Op Answer := do
  nameNode name (← onNodes (·.create content))
  return .none

/-- The value that a slot source stands for. -/
def SlotSource.resolve : SlotSource → Op TemplateValue
  | .literal l => return .value (← l.eval)
  | .signal name => return .signal (← signalNamed name)
  | .writable name => return .writable (← writableNamed name)
  | .formula name => return .formula (← lookUp Names.formulas name)
  | .derive r => return .formula (← SharedFormula.create r)
  | .listener name => return .listener (← lookUp Names.listeners name)
  | .component name => return .component (.element (← nodeNamed name))
  | .card name => return .component (.card name (← nodeNamed name))

namespace Compile

/-- Takes the references that a compilation used. -/
def withRefs {α : Type} (f : Nat → α × Nat) : Op α := do
  let w ← get
  let (a, nextRef) := f w.nextRef
  set { w with nextRef }
  return a

/-- The descriptor of a template, which is compiled at the first call that succeeds. -/
def descriptorOf (t : TemplateId) : Op (Except Template.CompileError Template.Descriptor) := do
  let template := (← get).templates.get t
  match template.descriptor with
  | some d => return .ok d
  | none =>
    match ← withRefs fun nextRef =>
        Template.Descriptor.compile template.config nextRef template.chunks with
    | .error e => return .error e
    | .ok d =>
      modify fun w => { w with templates := w.templates.modify t fun cell =>
        { cell with descriptor := some d } }
      return .ok d

/-- Compiles chunks under a name. -/
def compile (name : Name) (config : Template.Config) (edits : List Template.Shape.Edit)
    (chunks : List String) : Op Answer := do
  match ← withRefs fun nextRef =>
      Template.Descriptor.compileEdited config nextRef edits chunks with
  | .error e => return .compileError e
  | .ok d =>
    nameTemplate name ⟨chunks, config, some d⟩
    return .text d.html

end Compile

/-- Names the topmost nodes of a rendering by their positions. -/
def nameRendering (name : Name) (nodes : List NodeId) : Op Unit := do
  rename fun names => { names with renderings := names.renderings.insert name nodes }
  nodes.zipIdx.forM fun (n, i) => nameNode (name ++ "." ++ toString i) n

/-- Renders a template under a name. -/
def renderStep (name template : Name) (sources : List SlotSource) : Op Answer := do
  let t ← lookUp Names.templates template
  let values ← sources.mapM SlotSource.resolve
  match ← Compile.descriptorOf t with
  | .error e => return .compileError e
  | .ok d =>
    match ← Render.render d values with
    | .error e => return .renderError e
    | .ok nodes =>
      nameRendering name nodes
      return .texts (nodes.map (← get).nodes.html)

namespace Step

/-- Runs one step, with the current value of the callback it stands in. -/
def run (current : Value) : Step → Op Answer
  | .ask q => do
    match q.answer (← get) with
    | .ok a => return a
    | .error e => throw e
  | .signal name v => do
    nameSignal name (← Signal.create (some (← v.eval)) none) .writable
    return .none
  | .constant name v => do
    nameSignal name (← Signal.create (some (← v.eval)) none) .readable
    return .none
  | .readOnly name sig => do
    let (s, role) ← lookUp Names.signals sig
    nameSignal name s role.readOnly
    return .none
  | .lazy name v start stop => do
    let s ← Signal.create (some (← v.eval)) (some (.script name start stop))
    nameSignal name s .readable
    return .none
  | .emit name v => do
    let v ← (v current).run .nobody
    match (← get).names.emitters.get? name with
    | some s => Signal.put s v
    | none => throw (.unknownName name)
    return .none
  | .orphanEmit v => do
    let _ ← (v current).run .nobody
    return .none
  | .derive name r => do
    nameSignal name (← Derivation.create r) .readable
    return .none
  | .branch name source cases fallback => do
    let s ← signalNamed source
    nameSignal name (← Branch.create s (← Branch.tableOf cases) fallback) .branching
    return .none
  | .formula name r => do
    nameFormula name (← SharedFormula.create r)
    return .none
  | .formulaClone name fn => do
    nameFormula name (← lookUp Names.formulas fn)
    return .none
  | .formulaCall fn => do
    let cell := (← get).formulas.get (← lookUp Names.formulas fn)
    let v ← cell.reading.run .passing
    return .value ((← get).snapshot v)
  | .formulaSignal name fn => do
    nameSignal name (← SharedFormula.derived (← lookUp Names.formulas fn)) .readable
    return .none
  | .set sig v => do
    let s ← writableNamed sig
    Signal.put s (← (v current).run .nobody)
    return .none
  | .update sig v => do
    let s ← writableNamed sig
    let old := (Signal.content (← get) s).getD .null
    Signal.put s (← (v old).run .nobody)
    return .none
  | .change sig suffix v => do
    let s ← writableNamed sig
    match Signal.content (← get) s, v with
    | some (.string old), _ => Signal.change s (.string (old ++ suffix))
    | _, some v => Signal.change s (← v.eval)
    | _, none => Signal.notify s
    return .none
  | .subscribe name sig mode script => do
    let s ← signalNamed sig
    nameSubscription name (← Signal.subscribe s (.told name script) mode)
    return .none
  | .unsubscribe sub => do
    Subscription.cancel (← lookUp Names.subscriptions sub)
    return .none
  | .subscribeAll name subs => do
    let members ← subs.mapM (lookUp Names.subscriptions)
    nameSubscription name (← Subscription.create (.all members))
    return .none
  | .subscribeNone name => do
    nameSubscription name (← Subscription.create .nothing)
    return .none
  | .subscriptionClone name sub => do
    nameSubscription name (← lookUp Names.subscriptions sub)
    return .none
  | .log v => do
    let v ← (v current).run .nobody
    note (.logged ((← get).snapshot v))
    return .none
  | .choose v yes no => do
    let v ← (v current).run .nobody
    invoke (.script (if v.isTruthy then yes else no) current)
    return .none
  | .document name => do
    let body ← onNodes (·.create (.element (.ofTag "body")))
    Mount.connect body true
    nameNode name body
    rename fun names => { names with documents := names.documents.insert name body }
    return .none
  | .mount doc nodes => do
    let body ← lookUp Names.documents doc
    Mount.appendEach body (← nodes.mapM nodeNamed)
    return .none
  | .element name tag attributes =>
    nameNew name (.element ((Dom.Element.ofTag tag).withAttributes attributes))
  | .text name data => nameNew name (.text data)
  | .comment name data => nameNew name (.comment data)
  | .fragment name => nameNew name .fragment
  | .parse name html => do
    match Markup.parse html with
    | .ok trees =>
      nameNode name (← onNodes (·.plantFragment trees))
      return .none
    | .error e => return .markupError e
  | .pick name node path => do
    match (← get).nodes.along (← nodeNamed node) path with
    | some n =>
      nameNode name n
      return .none
    | none => throw .noSuchChild
  | .first name node => do
    match ((← get).nodes.get (← nodeNamed node)).children with
    | n :: _ =>
      nameNode name n
      return .flag true
    | [] => return .flag false
  | .find name node attr value => do
    match (← get).nodes.findByAttribute (← nodeNamed node) attr value with
    | some n =>
      nameNode name n
      return .flag true
    | none => return .flag false
  | .append node nodes => do
    let p ← nodeNamed node
    Mount.appendEach p (← nodes.mapM nodeNamed)
    return .none
  | .remove node => do
    Mount.remove (← nodeNamed node)
    return .none
  | .replace node nodes => do
    let n ← nodeNamed node
    Mount.replace n (← nodes.mapM nodeNamed)
    return .none
  | .clone name node => do
    let n ← nodeNamed node
    nameNode name (← onNodes (·.deepClone n))
    return .none
  | .setText node data => do
    Mount.setText (← nodeNamed node) data
    return .none
  | .setAttr node attr value => do
    Mount.changeAttributes (← nodeNamed node) (·.set attr value)
    return .none
  | .removeAttr node attr => do
    Mount.changeAttributes (← nodeNamed node) (·.remove attr)
    return .none
  | .toggle node word on => do
    let n ← nodeNamed node
    Mount.changeAttributes n (·.toggleClass word on)
    return .optionalText (((← get).nodes.attributes n).value? "class")
  | .setStyle node property value => do
    let n ← nodeNamed node
    Mount.changeAttributes n (·.setStyle property value)
    return .optionalText (((← get).nodes.attributes n).value? "style")
  | .setValue node value => do
    Mount.changeElement (← nodeNamed node) (·.setFormValue value)
    return .none
  | .setNumber node v => do
    let n ← nodeNamed node
    let v ← v.eval
    Mount.changeElement n (·.setFormNumber (v.number?.getD .nan))
    return .none
  | .setDate node v => do
    let n ← nodeNamed node
    let v ← v.eval
    Mount.changeElement n (·.setFormDate v.date?)
    return .none
  | .setChecked node on => do
    Mount.changeElement (← nodeNamed node) (·.setChecked on)
    return .none
  | .listener name script => do
    let l ← Events.create (.script name script)
    rename fun names => { names with listeners := names.listeners.insert name l }
    return .none
  | .listen node event name => do
    let n ← nodeNamed node
    Events.listen n event (← lookUp Names.listeners name)
    return .none
  | .unlisten node event name => do
    let n ← nodeNamed node
    Events.unlisten n event (← lookUp Names.listeners name)
    return .none
  | .dispatch node event => do
    Events.dispatch (← nodeNamed node) event
    return .none
  | .dispatchAll node event => do
    let n ← nodeNamed node
    let nodes := (← get).nodes
    ((n :: nodes.descendants n).filter nodes.isElement).forM (Events.dispatch · event)
    return .none
  | .onMount node name script => do
    Lifecycle.onMount (← nodeNamed node) (.mounted name script)
    return .none
  | .onUnmount node name script => do
    Lifecycle.onUnmount (← nodeNamed node) (.unmounted name script)
    return .none
  | .follow node name sig mode script => do
    let n ← nodeNamed node
    Lifecycle.follow n (← signalNamed sig) (.followed name script) mode
    return .none
  | .registry name => do
    modify fun w => { w with
      registries := w.registries.push .empty,
      names := { w.names with registries := w.names.registries.insert name w.registries.next } }
    return .none
  | .define name tag base => do
    let r ← lookUp Names.registries name
    match Dom.Registry.define ((← get).registries.get r) tag base with
    | .error e => return .registryError e
    | .ok (table, definition) =>
      modify fun w => { w with
        registries := w.registries.modify r fun _ => table,
        names := { w.names with definitions := w.names.definitions.insert tag definition } }
      return .text definition.tag
  | .create name tag => do
    nameNew name (.element (← lookUp Names.definitions tag).create)
  | .compile name config edits chunks =>
    match config with
    | .ok config => Compile.compile name config edits chunks
    | .error e => return .configError e
  | .cached name config chunks =>
    match config with
    | .ok config => do
      nameTemplate name ⟨chunks, config, none⟩
      return .none
    | .error e => return .configError e
  | .descriptor template => do
    match ← Compile.descriptorOf (← lookUp Names.templates template) with
    | .ok d => return .descriptor d
    | .error e => return .compileError e
  | .render name template values => renderStep name template values
  | .mountRendered doc name => do
    let body ← lookUp Names.documents doc
    Mount.appendEach body (← lookUp Names.renderings name)
    return .none
  | .unmountRendered name => do
    (← lookUp Names.renderings name).forM Mount.remove
    return .none
  | .toNode name value => do
    match ← (Render.nodeOf (← value.resolve)).run with
    | .ok n =>
      nameNode name n
      return .none
    | .error e => return .fitError e

end Step

/-- Runs the steps of a script one after another; what they answer is dropped. -/
def Script.run (current : Value) (script : Script) : Op Unit :=
  script.forM fun step => do
    let _ ← step.run current

end LiveMarkup.Live
