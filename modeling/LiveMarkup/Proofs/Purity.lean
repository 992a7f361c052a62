import LiveMarkup.Proofs.Runs

/-!
Pure computations: those whose value depends on the signals that they read, and on nothing else. A
computation that nobody records leaves signals, entries, subscriptions and derivations alone,
whether it is pure or not.
-/
namespace LiveMarkup

/-- The text of a value that is no node. -/
def Value.ownText (v : Value) : String :=
  v.text fun _ => ""

theorem Value.text_eq_ownText {v : Value} (plain : v.node? = none) (content : NodeId → String) :
    v.text content = v.ownText := by
  cases v with
  | node n => cases plain
  | _ => rfl

namespace Live

/-- What one table of names leads to, the other one leads to too. -/
def Extends (names names' : Ordered Name (SignalId × Role)) : Prop :=
  ∀ name p, names.get? name = some p → names'.get? name = some p

namespace Reading

/-- The computation is a function of the values of signals before a position. Which signals it reads
may depend on the values that it has read, and it may speak of them by name. -/
inductive Pure (names : Ordered Name (SignalId × Role)) (limit : Nat) : Reading → Prop
  | done (v : Value) : Pure names limit (.done v)
  | get {s : SignalId} {next : Option Value → Reading} (before : s.index < limit)
    (rest : ∀ v, Pure names limit (next v)) : Pure names limit (.get s next)
  | signal {name : Name} {s : SignalId} {role : Role} {next : SignalId → Reading}
    (named : names.get? name = some (s, role)) (rest : Pure names limit (next s)) :
    Pure names limit (.signal name next)
  | literal {v : Value} {next : Value → Reading} (rest : Pure names limit (next v)) :
    Pure names limit (.literal (.plain v) next)

/-- The computation gets values of signals before a position, and texts of values; it looks at nothing
else. -/
inductive Grounded (names : Ordered Name (SignalId × Role)) (limit : Nat) : Reading → Prop
  | done (v : Value) : Grounded names limit (.done v)
  | get {s : SignalId} {next : Option Value → Reading} (before : s.index < limit)
    (rest : ∀ v, Grounded names limit (next v)) : Grounded names limit (.get s next)
  | signal {name : Name} {s : SignalId} {role : Role} {next : SignalId → Reading}
    (named : names.get? name = some (s, role)) (rest : Grounded names limit (next s)) :
    Grounded names limit (.signal name next)
  | literal {v : Value} {next : Value → Reading} (rest : Grounded names limit (next v)) :
    Grounded names limit (.literal (.plain v) next)
  | text {v : Value} {next : String → Reading} (rest : ∀ t, Grounded names limit (next t)) :
    Grounded names limit (.text v next)

/-- What a computation makes of the values that the signals hold now, and the signals that it reads for
that. The text of a node may be any text, for nodes are not looked at here. -/
inductive Gives (w : World) : Reading → List SignalId → Value → Prop
  | done (v : Value) : Gives w (.done v) [] v
  | get {s : SignalId} {next : Option Value → Reading} {l : List SignalId} {v : Value}
    (rest : Gives w (next (Signal.content w s)) l v) : Gives w (.get s next) (s :: l) v
  | signal {name : Name} {s : SignalId} {role : Role} {next : SignalId → Reading}
    {l : List SignalId} {v : Value} (named : w.names.signals.get? name = some (s, role))
    (rest : Gives w (next s) l v) : Gives w (.signal name next) l v
  | literal {u v : Value} {next : Value → Reading} {l : List SignalId}
    (rest : Gives w (next u) l v) : Gives w (.literal (.plain u) next) l v
  | text {u v : Value} {t : String} {next : String → Reading} {l : List SignalId}
    (own : u.node? = none → t = u.ownText) (rest : Gives w (next t) l v) :
    Gives w (.text u next) l v

/-- What a pure computation makes of the values that the signals hold now. -/
def value (w : World) : Reading → Value
  | .done v => v
  | .get s next => (next (Signal.content w s)).value w
  | .signal name next =>
    match w.names.signals.get? name with
    | some (s, _) => (next s).value w
    | none => .null
  | .literal (.plain v) next => (next v).value w
  | _ => .null

variable {names names' : Ordered Name (SignalId × Role)} {limit : Nat} {r : Reading} {w w' : World}
  {l : List SignalId} {v : Value}

theorem Pure.mono {limit' : Nat} (h : r.Pure names limit) (ext : Extends names names')
    (more : limit ≤ limit') : r.Pure names' limit' := by
  induction h with
  | done v => exact .done v
  | get before _ ih => exact .get (Nat.lt_of_lt_of_le before more) ih
  | signal named _ ih => exact .signal (ext _ _ named) ih
  | literal _ ih => exact .literal ih

theorem Pure.grounded (h : r.Pure names limit) : r.Grounded names limit := by
  induction h with
  | done v => exact .done v
  | get before _ ih => exact .get before ih
  | signal named _ ih => exact .signal named ih
  | literal _ ih => exact .literal ih

theorem Grounded.mono (h : r.Grounded names limit) (ext : Extends names names') :
    r.Grounded names' limit := by
  induction h with
  | done v => exact .done v
  | get before _ ih => exact .get before ih
  | signal named _ ih => exact .signal (ext _ _ named) ih
  | literal _ ih => exact .literal ih
  | text _ ih => exact .text ih

theorem Gives.reads_lt (h : r.Gives w l v) (grounded : r.Grounded w.names.signals limit) :
    ∀ s ∈ l, s.index < limit := by
  induction h with
  | done v => simp
  | get _ ih =>
    cases grounded with
    | get before rest =>
      intro s hs
      rcases List.mem_cons.1 hs with rfl | hs
      · exact before
      · exact ih (rest _) s hs
  | signal named _ ih =>
    cases grounded with
    | signal named' rest =>
      rw [named] at named'
      cases named'
      exact ih rest
  | literal _ ih =>
    cases grounded with
    | literal rest => exact ih rest
  | text _ _ ih =>
    cases grounded with
    | text rest => exact ih (rest _)

/-- Only the values that are read matter. -/
theorem Gives.congr (h : r.Gives w l v) (ext : Extends w.names.signals w'.names.signals)
    (same : ∀ s ∈ l, Signal.content w' s = Signal.content w s) : r.Gives w' l v := by
  induction h with
  | done v => exact .done v
  | get _ ih =>
    simp only [List.mem_cons, forall_eq_or_imp] at same
    obtain ⟨here, rest⟩ := same
    refine .get ?_
    rw [here]
    exact ih rest
  | signal named _ ih => exact .signal (ext _ _ named) (ih same)
  | literal _ ih => exact .literal (ih same)
  | text own _ ih => exact .text own (ih same)

theorem Gives.eq_value (h : r.Gives w l v) (pure : r.Pure w.names.signals limit) :
    v = r.value w := by
  induction h with
  | done v => rfl
  | get _ ih =>
    cases pure with
    | get _ rest => exact ih (rest _)
  | signal named _ ih =>
    cases pure with
    | signal named' rest =>
      rw [named] at named'
      cases named'
      simp only [value, named]
      exact ih rest
  | literal _ ih =>
    cases pure with
    | literal rest => exact ih rest
  | text _ _ _ => cases pure

/-- Computing a pure computation unrecorded yields its value and changes nothing. -/
theorem Pure.run_nobody (h : r.Pure w.names.signals limit) (run : Runner) :
    r.run .nobody run w = .ok (r.value w, w) := by
  induction h with
  | done v => rfl
  | get _ _ ih => exact ih _
  | @signal name s role next named _ ih =>
    have read : (Reading.signal name next).run .nobody run w =
        (require name (w.names.signals.get? name) >>= fun p => (next p.1).run .nobody) run w := rfl
    rw [read]
    simp only [value, named]
    exact ih
  | literal _ ih => exact ih

end Reading

/-- A relation that holds where notes are taken, and where nodes are made and named. -/
class Idle (R : World → World → Prop) : Prop extends Lasting R where
  log : ∀ (w : World) log, R w { w with log := log }
  make : ∀ (w : World) content names, R w { w with
    nodes := (w.nodes.create content).2, names := { w.names with nodes := names } }

namespace Idle
variable {R : World → World → Prop} [Idle R] {run : Runner}

theorem note (n : Note) : Keeps R run (note n) := by
  intro w
  simp only [Live.note, ensures_modify]
  exact Idle.log w (n :: w.log)

theorem nodeOrCreate (name : Name) (content : Dom.Content) :
    Keeps R run (nodeOrCreate name content) := by
  refine keeps_bind keeps_get fun w => ?_
  split
  · exact keeps_pure _
  · intro w₁
    simp only [onNodes, nameNode, ensures_bind, ensures_get, ensures_set, ensures_modify,
      ensures_pure]
    exact Idle.make w₁ content (w₁.names.nodes.insert name (w₁.nodes.create content).1)

theorem literal (l : Literal) : Keeps R run l.eval := by
  cases l with
  | plain v => exact keeps_pure v
  | node name => exact keeps_bind (keeps_bind keeps_get fun w => keeps_require name _) fun n => keeps_pure _
  | element tag name => exact keeps_bind (nodeOrCreate name _) fun n => keeps_pure _
  | text data name => exact keeps_bind (nodeOrCreate name _) fun n => keeps_pure _

theorem tableOf (specs : List CaseSpec) : Keeps R run (Branch.tableOf specs) := by
  refine keeps_bind (keeps_mapM fun spec => ?_) fun _ => keeps_pure _
  unfold Branch.caseOf
  split
  · exact keeps_bind (literal _) fun _ => keeps_pure _
  · exact keeps_pure _
  · exact keeps_pure _

/-- By induction on the reading. -/
theorem tracked {t : Tracker} (track : ∀ s, Keeps R run (Derivation.track s t)) (r : Reading) :
    Keeps R run (r.run t) := by
  induction r with
  | done v => exact keeps_pure v
  | get s next ih => exact keeps_bind (track s) fun _ => keeps_bind keeps_get fun w => ih _
  | peek s next ih => exact keeps_bind keeps_get fun w => ih _
  | track s next ih => exact keeps_bind (track s) fun _ => ih
  | mode next ih => exact ih _
  | signal name next ih =>
    exact keeps_bind keeps_get fun w => keeps_bind (keeps_require name _) fun p => ih _
  | literal l next ih => exact keeps_bind (literal l) fun v => ih v
  | text v next ih => exact keeps_bind keeps_get fun w => ih _
  | note n next ih => exact keeps_bind (note n) fun _ => ih

/-- Without a record, showing a signal to the tracker does nothing. -/
theorem reading {t : Tracker} (unrecorded : ∀ d, t ≠ .recording d) (r : Reading) :
    Keeps R run (r.run t) := by
  refine tracked (fun s => ?_) r
  cases t with
  | nobody => exact keeps_pure ()
  | passing => exact keeps_pure ()
  | recording d => exact absurd rfl (unrecorded d)

theorem handle (f : Formula) (v : Value) : Keeps R run (Branch.handle f v) :=
  keeps_bind keeps_get fun _ => keeps_bind (note _) fun _ => reading (fun _ => Tracker.noConfusion) _

theorem fallBack (f : Formula) (v : Value) : Keeps R run (Branch.fallBack f v) :=
  keeps_bind keeps_get fun _ => keeps_bind (note _) fun _ => reading (fun _ => Tracker.noConfusion) _

end Idle

/-- Two worlds have the same signals, entries, subscriptions and derivations. -/
structure Aside (w w' : World) : Prop where
  signals : w'.signals = w.signals
  entries : w'.entries = w.entries
  subscriptions : w'.subscriptions = w.subscriptions
  derivations : w'.derivations = w.derivations
  signalNames : w'.names.signals = w.names.signals
  subscriptionNames : w'.names.subscriptions = w.names.subscriptions

namespace Aside
variable {w w₁ w₂ : World}

theorem refl (w : World) : Aside w w := ⟨rfl, rfl, rfl, rfl, rfl, rfl⟩

theorem trans (h : Aside w w₁) (h' : Aside w₁ w₂) : Aside w w₂ :=
  ⟨h'.signals.trans h.signals, h'.entries.trans h.entries,
    h'.subscriptions.trans h.subscriptions, h'.derivations.trans h.derivations,
    h'.signalNames.trans h.signalNames, h'.subscriptionNames.trans h.subscriptionNames⟩

instance : Idle Aside where
  refl := refl
  trans := trans
  log _ _ := ⟨rfl, rfl, rfl, rfl, rfl, rfl⟩
  make _ _ _ := ⟨rfl, rfl, rfl, rfl, rfl, rfl⟩

end Aside

/-- Beyond that, two worlds have the same matches; whether a match is in its fallback may differ. -/
structure Beside (w w' : World) : Prop extends Aside w w' where
  branches : w'.branches = w.branches
  activations : w'.activations.size = w.activations.size
  matched : ∀ a, (w'.activations.get a).branch = (w.activations.get a).branch

namespace Beside

theorem refl (w : World) : Beside w w := ⟨.refl w, rfl, rfl, fun _ => rfl⟩

instance : Idle Beside where
  refl := refl
  trans h h' := ⟨h.toAside.trans h'.toAside, h'.branches.trans h.branches,
    h'.activations.trans h.activations, fun a => (h'.matched a).trans (h.matched a)⟩
  log _ _ := ⟨⟨rfl, rfl, rfl, rfl, rfl, rfl⟩, rfl, rfl, fun _ => rfl⟩
  make _ _ _ := ⟨⟨rfl, rfl, rfl, rfl, rfl, rfl⟩, rfl, rfl, fun _ => rfl⟩

end Beside

/-- Effects write to nodes only. -/
theorem apply_keeps {R : World → World → Prop} [Lasting R]
    (nodes : ∀ (w : World) nodes, R w { w with nodes := nodes }) (e : Effect) (node : NodeId)
    (v : Value) {run : Runner} : Keeps R run (e.apply node v) := by
  have modified : ∀ f, Keeps R run (modifyNodes f) := fun f w => (ensures_modify ..).2 (nodes w _)
  refine keeps_bind keeps_get fun w => ?_
  cases e with
  | attr name => exact modified _
  | wholeAttr name => exact modified _
  | classes name => exact modified _
  | style property => exact modified _
  | form key => exact modified _
  | text => exact modified _

theorem apply_beside (e : Effect) (node : NodeId) (v : Value) {run : Runner} :
    Keeps Beside run (e.apply node v) :=
  apply_keeps (fun _ _ => ⟨⟨rfl, rfl, rfl, rfl, rfl, rfl⟩, rfl, rfl, fun _ => rfl⟩) e node v

/-- Beyond that, there may be more notes, and new nodes. -/
structure Idling (w w' : World) : Prop extends Beside w w' where
  size : w.nodes.size ≤ w'.nodes.size
  cell : ∀ n, n.index < w.nodes.size → w'.nodes.get n = w.nodes.get n
  follows : w'.follows = w.follows
  formulas : w'.formulas = w.formulas
  mountHooks : w'.mountHooks = w.mountHooks
  unmountHooks : w'.unmountHooks = w.unmountHooks
  registrations : w'.registrations = w.registrations
  periods : w'.activations = w.activations
  deeds : w'.deeds = w.deeds

instance : Idle Idling where
  refl w := ⟨.refl w, Nat.le_refl _, fun _ _ => rfl, rfl, rfl, rfl, rfl, rfl, rfl, rfl⟩
  trans h h' := ⟨Lasting.trans h.toBeside h'.toBeside, Nat.le_trans h.size h'.size,
    fun n hn => (h'.cell n (Nat.lt_of_lt_of_le hn h.size)).trans (h.cell n hn),
    h'.follows.trans h.follows, h'.formulas.trans h.formulas, h'.mountHooks.trans h.mountHooks,
    h'.unmountHooks.trans h.unmountHooks, h'.registrations.trans h.registrations,
    h'.periods.trans h.periods, h'.deeds.trans h.deeds⟩
  log w log := ⟨Idle.log w log, Nat.le_refl _, fun _ _ => rfl, rfl, rfl, rfl, rfl, rfl, rfl, rfl⟩
  make w content names := by
    refine ⟨Idle.make w content names, ?_, fun n hn => Heap.get_push_of_lt _ _ _ hn, rfl, rfl, rfl,
      rfl, rfl, rfl, rfl⟩
    exact Nat.le_trans (Nat.le_succ _) (Nat.le_of_eq (Heap.size_push ..).symm)

end Live
end LiveMarkup
