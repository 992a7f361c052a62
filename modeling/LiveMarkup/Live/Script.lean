import LiveMarkup.Live.Reading
import LiveMarkup.Dispatch
import LiveMarkup.Template.Shape

/-!
Scripts: what the callbacks of a session do, as lists of steps. Steps speak of things by name and
look the names up when they run. Queries are the steps that only look.
-/
namespace LiveMarkup.Live

/-- When a new subscriber first hears from its signal. -/
inductive Mode where
  /-- At the next change. -/
  | normal
  /-- At once, with the current value. -/
  | immediate
deriving DecidableEq, Repr

/-- What a written case tests. -/
inductive CaseKey where
  | equal (l : Literal)
  | tagged (tag : TypeTag)
  | typed (type : ValueType)

/-- A case of a match: its test and its handler, a formula of the matched value. -/
structure CaseSpec where
  key : CaseKey
  handler : Formula

/-- A value for a template slot, as it is written down. -/
inductive SlotSource where
  | literal (l : Literal)
  | signal (name : Name)
  | writable (name : Name)
  | formula (name : Name)
  /-- A formula of its own, which no name leads to. -/
  | derive (r : Reading)
  | listener (name : Name)
  | component (name : Name)
  | card (name : Name)

/-- A question about the world. -/
inductive Query where
  | value (sig : Name)
  | shown (sig : Name)
  | watch (sig : Name)
  | sameSignal (a b : Name)
  | signalDebug (sig : Name)
  | active (sub : Name)
  | sameSubscription (a b : Name)
  | subscriptionDebug (sub : Name)
  | formulaHas (fn : Name)
  | formulaSame (a b : Name)
  | formulaDebug (fn : Name)
  | html (node : Name)
  | inner (node : Name)
  | content (node : Name)
  | tree (node : Name)
  | nodeInfo (node : Name)
  | sameNode (a b : Name)
  | parentIs (node parent : Name)
  | nodeDebug (node : Name)
  | attr (node : Name) (attr : String)
  | hasAttr (node : Name) (attr : String)
  | attrs (node : Name)
  | classes (node : Name)
  | hasClass (node : Name) (name : String)
  | style (node : Name) (property : String)
  | form (node : Name)
  | listenerCount (node : Name) (event : String)
  | defined (registry : Name) (tag : String)
  | isCompiled (template : Name)

/-- A step of a script. -/
inductive Step where
  | ask (q : Query)
  | signal (name : Name) (v : Literal)
  | constant (name : Name) (v : Literal)
  | readOnly (name sig : Name)
  | lazy (name : Name) (v : Literal) (start stop : List Step)
  | emit (name : Name) (v : Formula)
  | orphanEmit (v : Formula)
  | derive (name : Name) (r : Reading)
  | branch (name source : Name) (cases : List CaseSpec) (fallback : Option Formula)
  | formula (name : Name) (r : Reading)
  | formulaClone (name fn : Name)
  | formulaCall (fn : Name)
  | formulaSignal (name fn : Name)
  | set (sig : Name) (v : Formula)
  | update (sig : Name) (v : Formula)
  | change (sig : Name) (suffix : String) (v : Option Literal)
  | subscribe (name sig : Name) (mode : Mode) (script : List Step)
  | unsubscribe (sub : Name)
  | subscribeAll (name : Name) (subs : List Name)
  | subscribeNone (name : Name)
  | subscriptionClone (name sub : Name)
  | log (v : Formula)
  | choose (v : Formula) (yes no : List Step)
  | document (name : Name)
  | mount (doc : Name) (nodes : List Name)
  | element (name : Name) (tag : String) (attributes : List (String × String))
  | text (name : Name) (data : String)
  | comment (name : Name) (data : String)
  | fragment (name : Name)
  | parse (name : Name) (html : String)
  | pick (name node : Name) (path : List Nat)
  | first (name node : Name)
  | find (name node : Name) (attr value : String)
  | append (node : Name) (nodes : List Name)
  | remove (node : Name)
  | replace (node : Name) (nodes : List Name)
  | clone (name node : Name)
  | setText (node : Name) (data : String)
  | setAttr (node : Name) (attr value : String)
  | removeAttr (node : Name) (attr : String)
  | toggle (node : Name) (word : String) (on : Bool)
  | setStyle (node : Name) (property value : String)
  | setValue (node : Name) (value : String)
  | setNumber (node : Name) (v : Literal)
  | setDate (node : Name) (v : Literal)
  | setChecked (node : Name) (on : Bool)
  | listener (name : Name) (script : List Step)
  | listen (node : Name) (event : String) (listener : Name)
  | unlisten (node : Name) (event : String) (listener : Name)
  | dispatch (node : Name) (event : String)
  | dispatchAll (node : Name) (event : String)
  | onMount (node name : Name) (script : List Step)
  | onUnmount (node name : Name) (script : List Step)
  | follow (node name sig : Name) (mode : Mode) (script : List Step)
  | registry (name : Name)
  | define (registry : Name) (tag : String) (base : Option String)
  | create (name : Name) (tag : String)
  | compile (name : Name) (config : Except Template.ConfigError Template.Config)
      (edits : List Template.Shape.Edit) (chunks : List String)
  | cached (name : Name) (config : Except Template.ConfigError Template.Config)
      (chunks : List String)
  | descriptor (template : Name)
  | render (name template : Name) (values : List SlotSource)
  | mountRendered (doc name : Name)
  | unmountRendered (name : Name)
  | toNode (name : Name) (value : SlotSource)

/-- What a session runs, and what its callbacks run. -/
abbrev Script := List Step

end LiveMarkup.Live
