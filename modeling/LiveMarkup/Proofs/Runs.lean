import LiveMarkup.Live.Run

/-!
What runs keep. A relation between worlds that the few operations on signals keep, and that changes
of anything else keep, is kept by every step, every callback and every run.
-/
namespace LiveMarkup.Live

/-- Whatever an operation yields from a world satisfies a condition. -/
def Ensures {α : Type} (run : Runner) (x : Op α) (w : World) (Q : α → World → Prop) : Prop :=
  ∀ a w', x run w = .ok (a, w') → Q a w'

section
variable {α β : Type} {run : Runner} {w : World}

@[simp] theorem ensures_pure (a : α) (Q : α → World → Prop) :
    Ensures run (pure a) w Q ↔ Q a w := by
  constructor
  · intro h
    exact h a w rfl
  · rintro h _ _ ⟨⟩
    exact h

@[simp] theorem ensures_bind (x : Op α) (f : α → Op β) (Q : β → World → Prop) :
    Ensures run (x >>= f) w Q ↔ Ensures run x w fun a w' => Ensures run (f a) w' Q := by
  have bound : (x >>= f) run w = (x run w).bind fun p => f p.1 run p.2 := rfl
  unfold Ensures
  rw [bound]
  constructor
  · intro h a w₁ hx b w₂ hf
    exact h b w₂ (by rw [hx]; exact hf)
  · intro h b w₂ hxf
    cases hx : x run w with
    | error e => rw [hx] at hxf; cases hxf
    | ok p =>
      rw [hx] at hxf
      exact h p.1 p.2 hx b w₂ hxf

@[simp] theorem ensures_map (x : Op α) (f : α → β) (Q : β → World → Prop) :
    Ensures run (f <$> x) w Q ↔ Ensures run x w fun a w' => Q (f a) w' := by
  rw [map_eq_pure_bind, ensures_bind]
  simp only [ensures_pure]

@[simp] theorem ensures_get (Q : World → World → Prop) :
    Ensures run (get : Op World) w Q ↔ Q w w := by
  constructor
  · intro h
    exact h w w rfl
  · rintro h _ _ ⟨⟩
    exact h

@[simp] theorem ensures_set (w₁ : World) (Q : PUnit → World → Prop) :
    Ensures run (set w₁ : Op PUnit) w Q ↔ Q ⟨⟩ w₁ := by
  constructor
  · intro h
    exact h ⟨⟩ w₁ rfl
  · rintro h _ _ ⟨⟩
    exact h

@[simp] theorem ensures_modify (f : World → World) (Q : PUnit → World → Prop) :
    Ensures run (modify f : Op PUnit) w Q ↔ Q ⟨⟩ (f w) := by
  constructor
  · intro h
    exact h ⟨⟩ (f w) rfl
  · rintro h _ _ ⟨⟩
    exact h

@[simp] theorem ensures_throw (e : Halt) (Q : α → World → Prop) :
    Ensures run (throw e : Op α) w Q ↔ True := by
  constructor
  · intro _
    trivial
  · rintro _ _ _ ⟨⟩

theorem ensures_invoke (t : Task) (Q : Unit → World → Prop) :
    Ensures run (invoke t) w Q ↔ ∀ w', run t w = .ok ((), w') → Q () w' := by
  constructor
  · intro h w' hw
    exact h () w' hw
  · intro h _ w' hw
    exact h w' hw

theorem ensures_run_pure {ε : Type} (a : α) (Q : Except ε α → World → Prop) :
    Ensures run (pure a : ExceptT ε Op α).run w Q ↔ Q (.ok a) w :=
  ensures_pure _ Q

theorem ensures_run_throw {ε : Type} (e : ε) (Q : Except ε α → World → Prop) :
    Ensures run (throw e : ExceptT ε Op α).run w Q ↔ Q (.error e) w :=
  ensures_pure _ Q

theorem ensures_run_bind {ε : Type} (x : ExceptT ε Op α) (f : α → ExceptT ε Op β)
    (Q : Except ε β → World → Prop) :
    Ensures run (x >>= f).run w Q ↔ Ensures run x.run w fun r w' =>
      (∀ a, r = .ok a → Ensures run (f a).run w' Q) ∧ ∀ e, r = .error e → Q (.error e) w' := by
  rw [ExceptT.run_bind, ensures_bind]
  refine iff_of_eq (congrArg _ (funext fun r => funext fun w' => ?_))
  cases r with
  | ok a => simp
  | error e => simp

theorem run_liftM {ε : Type} (x : Op α) :
    (liftM x : ExceptT ε Op α).run = x >>= fun a => pure (.ok a) :=
  map_eq_pure_bind Except.ok x

theorem run_liftM_bind {ε : Type} (x : Op α) (f : α → ExceptT ε Op β) :
    ((liftM x : ExceptT ε Op α) >>= f).run = x >>= fun a => (f a).run := by
  rw [ExceptT.run_bind, run_liftM, bind_assoc]
  rfl

theorem ensures_run_lift_bind {ε : Type} (x : Op α) (f : α → ExceptT ε Op β)
    (Q : Except ε β → World → Prop) :
    Ensures run ((liftM x : ExceptT ε Op α) >>= f).run w Q ↔
      Ensures run x w fun a w' => Ensures run (f a).run w' Q := by
  rw [run_liftM_bind, ensures_bind]

/-- What is supposed of the start may be supposed on the way. -/
theorem ensures_of_imp {x : Op α} {P : Prop} {Q : α → World → Prop}
    (h : P → Ensures run x w Q) : Ensures run x w fun a w' => P → Q a w' :=
  fun a w' hx hp => h hp a w' hx

theorem Ensures.mono {x : Op α} {Q Q' : α → World → Prop} (h : Ensures run x w Q)
    (imp : ∀ a w', Q a w' → Q' a w') : Ensures run x w Q' :=
  fun a w' hx => imp a w' (h a w' hx)

/-- What comes after an operation whose outcome is known. -/
theorem bind_of_ok {x : Op α} {f : α → Op β} {a : α} {w' : World} (h : x run w = .ok (a, w')) :
    (x >>= f) run w = f a run w' := by
  have bound : (x >>= f) run w = (x run w).bind fun p => f p.1 run p.2 := rfl
  rw [bound, h]
  rfl

/-- Nothing comes after an operation that fails. -/
theorem bind_of_error {x : Op α} {f : α → Op β} {e : Halt} (h : x run w = .error e) :
    (x >>= f) run w = .error e := by
  have bound : (x >>= f) run w = (x run w).bind fun p => f p.1 run p.2 := rfl
  rw [bound, h]
  rfl

/-- Operations one after another succeed if each does. -/
theorem ok_of_bind {x : Op α} {f : α → Op β} {b : β} {w₂ : World}
    (ran : (x >>= f) run w = .ok (b, w₂)) :
    ∃ a w₁, x run w = .ok (a, w₁) ∧ f a run w₁ = .ok (b, w₂) := by
  have bound : (x >>= f) run w = (x run w).bind fun p => f p.1 run p.2 := rfl
  rw [bound] at ran
  cases first : x run w with
  | error e =>
    rw [first] at ran
    cases ran
  | ok p =>
    rw [first] at ran
    exact ⟨p.1, p.2, rfl, ran⟩

/-- A loop whose steps do nothing. -/
theorem forM_of_ok {l : List α} {f : α → Op PUnit} (h : ∀ a ∈ l, f a run w = .ok (⟨⟩, w)) :
    l.forM f run w = .ok (⟨⟩, w) := by
  induction l with
  | nil => rfl
  | cons a l ih =>
    obtain ⟨here, rest⟩ := List.forall_mem_cons.1 h
    exact (bind_of_ok here).trans (ih rest)

end

/-! What mounting comes to. -/

namespace Mount

/-- A node that is taken to be mounted or not. -/
def flagged (n : NodeId) (connected : Bool) (w : World) : World :=
  { w with nodes := w.nodes.modify n fun node => { node with connected } }

variable {w : World} {n : NodeId}

/-- Nothing happens to a node that is taken to be as it is. -/
theorem connect_same {connected : Bool} (same : (w.nodes.get n).connected = connected)
    (run : Runner) : connect n connected run w = .ok ((), w) := by
  have read : connect n connected run w =
      (if (w.nodes.get n).connected = connected then pure () else do
        modifyNodes fun f => f.modify n fun node => { node with connected }
        if connected then invokeAll (hooksOf n (← get).mountHooks)
        invokeAll (((← get).nodes.get n).children.map fun c => .connect c connected)
        if !connected then invokeAll (hooksOf n (← get).unmountHooks) : Op Unit) run w := rfl
  rw [read, if_pos same]
  rfl

/-- At a mount the hooks of a node run before its children are mounted. -/
theorem connect_true (other : (w.nodes.get n).connected ≠ true) (run : Runner) :
    connect n true run w = (do
      invokeAll (hooksOf n (← get).mountHooks)
      invokeAll (((← get).nodes.get n).children.map fun c => .connect c true) : Op Unit)
      run (flagged n true w) := by
  have read : connect n true run w =
      (if (w.nodes.get n).connected = true then pure () else do
        modifyNodes fun f => f.modify n fun node => { node with connected := true }
        invokeAll (hooksOf n (← get).mountHooks)
        invokeAll (((← get).nodes.get n).children.map fun c => .connect c true)
        pure () : Op Unit) run w := rfl
  rw [read, if_neg other]
  simp only [bind_pure_unit]
  rfl

/-- At an unmount they run after that. -/
theorem connect_false (other : (w.nodes.get n).connected ≠ false) (run : Runner) :
    connect n false run w = (do
      invokeAll (((← get).nodes.get n).children.map fun c => .connect c false)
      invokeAll (hooksOf n (← get).unmountHooks) : Op Unit) run (flagged n false w) := by
  have read : connect n false run w =
      (if (w.nodes.get n).connected = false then pure () else do
        modifyNodes fun f => f.modify n fun node => { node with connected := false }
        invokeAll (((← get).nodes.get n).children.map fun c => .connect c false)
        invokeAll (hooksOf n (← get).unmountHooks) : Op Unit) run w := rfl
  rw [read, if_neg other]
  rfl

end Mount

/-- An operation leads from every world to one that stands in a relation to it. -/
def Keeps {α : Type} (R : World → World → Prop) (run : Runner) (x : Op α) : Prop :=
  ∀ w, Ensures run x w fun _ w' => R w w'

/-- A runner that keeps a relation whatever the task. -/
class KeptBy (R : World → World → Prop) (run : Runner) : Prop where
  task : ∀ t w w', run t w = .ok ((), w') → R w w'

/-- A relation that operations one after another keep if each does. -/
class Lasting (R : World → World → Prop) : Prop where
  refl : ∀ w, R w w
  trans : ∀ {w₁ w₂ w₃}, R w₁ w₂ → R w₂ w₃ → R w₁ w₃

/-- Every template that is compiled stays as it is. -/
def World.Stores (w w' : World) : Prop :=
  ∀ t d, (w.templates.get t).descriptor = some d → w'.templates.get t = w.templates.get t

theorem World.Stores.of_eq {w w' : World} (templates : w'.templates = w.templates) : w.Stores w' :=
  fun _ _ _ => by rw [templates]

/-- A relation that the operations on signals keep, given a runner that keeps it. Signals, entries
and compiled templates are all that it looks at. -/
class Steady (R : World → World → Prop) : Prop extends Lasting R where
  apart : ∀ {w w'}, w'.signals = w.signals → w'.entries = w.entries → w.Stores w' → R w w'
  make : ∀ {w w'} value producer, w'.signals = w.signals.push (.fresh value producer) →
    w'.entries = w.entries → w'.templates = w.templates → R w w'
  /-- Whether a signal is started, and what is to be cancelled when it stops. -/
  flags : ∀ {w} s (started : Signal → Bool) (teardown : Signal → Option SubscriptionId),
    R w { w with signals := w.signals.modify s fun signal =>
      { signal with started := started signal, teardown := teardown signal } }
  replace : ∀ (run : Runner) [KeptBy R run] s value, Keeps R run (Signal.replace s value)
  notify : ∀ (run : Runner) [KeptBy R run] s, Keeps R run (Signal.notify s)
  join : ∀ (run : Runner) [KeptBy R run] s reaction mode, Keeps R run (Signal.join s reaction mode)
  drop : ∀ (run : Runner) s e, Keeps R run (Signal.drop s e)

section
variable {α β : Type} {R : World → World → Prop} {run : Runner}

@[grind ←] theorem keeps_map {x : Op α} {f : α → β} (hx : Keeps R run x) : Keeps R run (f <$> x) := by
  intro w
  rw [ensures_map]
  exact hx w

@[grind ←] theorem keeps_throw (e : Halt) : Keeps R run (throw e : Op α) := by
  intro w
  rw [ensures_throw]
  trivial

theorem keeps_ite {c : Prop} [Decidable c] {x y : Op α} (hx : Keeps R run x)
    (hy : Keeps R run y) : Keeps R run (if c then x else y) := by
  split
  · exact hx
  · exact hy

variable [Lasting R]

@[grind ←] theorem keeps_pure (a : α) : Keeps R run (pure a) := by
  intro w
  rw [ensures_pure]
  exact Lasting.refl w

@[grind ←] theorem keeps_bind {x : Op α} {f : α → Op β} (hx : Keeps R run x)
    (hf : ∀ a, Keeps R run (f a)) : Keeps R run (x >>= f) := by
  intro w
  rw [ensures_bind]
  refine (hx w).mono fun a w₁ h₁ => ?_
  exact (hf a w₁).mono fun _ _ h₂ => Lasting.trans h₁ h₂

@[grind ←] theorem keeps_get : Keeps R run (get : Op World) := by
  intro w
  rw [ensures_get]
  exact Lasting.refl w

theorem keeps_forM_mem {l : List β} {f : β → Op PUnit} (hf : ∀ b ∈ l, Keeps R run (f b)) :
    Keeps R run (l.forM f) := by
  induction l with
  | nil => exact keeps_pure PUnit.unit
  | cons b l ih =>
    obtain ⟨here, rest⟩ := List.forall_mem_cons.1 hf
    exact keeps_bind here fun _ => ih rest

@[grind ←] theorem keeps_forM {l : List β} {f : β → Op PUnit} (hf : ∀ b, Keeps R run (f b)) :
    Keeps R run (l.forM f) :=
  keeps_forM_mem fun b _ => hf b

@[grind ←] theorem keeps_optionForM {o : Option β} {f : β → Op PUnit} (hf : ∀ b, Keeps R run (f b)) :
    Keeps R run (o.forM f) := by
  cases o with
  | none => exact keeps_pure PUnit.unit
  | some b => exact hf b

@[grind ←] theorem keeps_mapM {l : List β} {f : β → Op α} (hf : ∀ b, Keeps R run (f b)) :
    Keeps R run (l.mapM f) := by
  induction l with
  | nil => exact keeps_pure []
  | cons b l ih =>
    rw [List.mapM_cons]
    exact keeps_bind (hf b) fun _ => keeps_bind ih fun _ => keeps_pure _

@[grind ←] theorem keeps_require (name : Name) (a : Option α) : Keeps R run (require name a) := by
  unfold require
  grind

@[grind ←] theorem keeps_lookUp (table : Names → Ordered Name α) (name : Name) :
    Keeps R run (lookUp table name) := by
  unfold lookUp
  grind

@[grind ←] theorem keeps_nodeNamed (name : Name) : Keeps R run (nodeNamed name) := by
  unfold nodeNamed
  grind

@[grind ←] theorem keeps_signalNamed (name : Name) : Keeps R run (signalNamed name) := by
  unfold signalNamed
  grind

@[grind ←] theorem keeps_writableNamed (name : Name) : Keeps R run (writableNamed name) := by
  unfold writableNamed
  grind

variable {ε : Type}

@[grind ←] theorem keeps_run_pure (a : α) : Keeps R run (pure a : ExceptT ε Op α).run :=
  keeps_pure _

@[grind ←] theorem keeps_run_throw (e : ε) : Keeps R run (throw e : ExceptT ε Op α).run :=
  keeps_pure _

@[grind ←] theorem keeps_run_bind {x : ExceptT ε Op α} {f : α → ExceptT ε Op β}
    (hx : Keeps R run x.run) (hf : ∀ a, Keeps R run (f a).run) : Keeps R run (x >>= f).run := by
  rw [ExceptT.run_bind]
  refine keeps_bind hx fun r => ?_
  cases r with
  | ok a => exact hf a
  | error e => exact keeps_pure _

omit [Lasting R] in
@[grind ←] theorem keeps_run_lift {x : Op α} (hx : Keeps R run x) :
    Keeps R run (liftM x : ExceptT ε Op α).run :=
  keeps_map hx

@[grind ←] theorem keeps_run_get : Keeps R run (getThe World : ExceptT ε Op World).run :=
  keeps_map keeps_get

theorem keeps_run_forM_mem {l : List β} {f : β → ExceptT ε Op PUnit}
    (hf : ∀ b ∈ l, Keeps R run (f b).run) : Keeps R run (l.forM f).run := by
  induction l with
  | nil => exact keeps_run_pure PUnit.unit
  | cons b l ih =>
    obtain ⟨here, rest⟩ := List.forall_mem_cons.1 hf
    exact keeps_run_bind here fun _ => ih rest

@[grind ←] theorem keeps_run_forM {l : List β} {f : β → ExceptT ε Op PUnit}
    (hf : ∀ b, Keeps R run (f b).run) : Keeps R run (l.forM f).run :=
  keeps_run_forM_mem fun b _ => hf b

@[grind ←] theorem keeps_run_mapM {l : List β} {f : β → ExceptT ε Op α}
    (hf : ∀ b, Keeps R run (f b).run) : Keeps R run (l.mapM f).run := by
  induction l with
  | nil => exact keeps_run_pure []
  | cons b l ih =>
    rw [List.mapM_cons]
    exact keeps_run_bind (hf b) fun _ => keeps_run_bind ih fun _ => keeps_run_pure _

@[grind ←] theorem keeps_find (d : Template.Descriptor) (fragment : NodeId) (r : Template.Ref) :
    Keeps R run (Render.find d fragment r).run := by
  unfold Render.find
  grind

@[grind ←] theorem keeps_atSlot {x : Fitting α} (index : Option Nat) (hx : Keeps R run x.run) :
    Keeps R run (x.atSlot index).run := by
  refine keeps_bind hx fun r => ?_
  cases r with
  | ok a => exact keeps_pure _
  | error e => exact keeps_pure _

end

section
variable {α β ε : Type} {R : World → World → Prop} {run : Runner} [Steady R]

@[grind ←] theorem keeps_modify {f : World → World} (signals : (fun w => (f w).signals) = World.signals)
    (entries : (fun w => (f w).entries) = World.entries)
    (templates : (fun w => (f w).templates) = World.templates) :
    Keeps R run (modify f : Op PUnit) := by
  intro w
  rw [ensures_modify]
  exact Steady.apart (congrFun signals w) (congrFun entries w) (.of_eq (congrFun templates w))

/-- Changing the world that was just read. -/
theorem keeps_get_set {f : World → World} {g : World → PUnit → Op α}
    (signals : ∀ w, (f w).signals = w.signals) (entries : ∀ w, (f w).entries = w.entries)
    (templates : ∀ w, (f w).templates = w.templates) (hg : ∀ w u, Keeps R run (g w u)) :
    Keeps R run (get >>= fun w => set (f w) >>= g w) := by
  intro w
  simp only [ensures_bind, ensures_get, ensures_set]
  have h : R w (f w) := Steady.apart (signals w) (entries w) (.of_eq (templates w))
  exact (hg w ⟨⟩ (f w)).mono fun _ _ h' => Lasting.trans h h'

theorem keeps_get_set_map {f : World → World} {g : World → PUnit → α}
    (signals : ∀ w, (f w).signals = w.signals) (entries : ∀ w, (f w).entries = w.entries)
    (templates : ∀ w, (f w).templates = w.templates) :
    Keeps R run (get >>= fun w => g w <$> (set (f w) : Op PUnit)) := by
  simp only [map_eq_pure_bind]
  exact keeps_get_set signals entries templates fun w u => keeps_pure (g w u)

@[grind ←] theorem keeps_onNodes (f : Dom.Forest → α × Dom.Forest) : Keeps R run (onNodes f) :=
  keeps_get_set (fun _ => rfl) (fun _ => rfl) (fun _ => rfl) fun _ _ => keeps_pure _

@[grind ←] theorem keeps_modifyNodes (f : Dom.Forest → Dom.Forest) :
    Keeps R run (modifyNodes f) :=
  keeps_modify rfl rfl rfl

@[grind ←] theorem keeps_note (n : Note) : Keeps R run (note n) :=
  keeps_modify rfl rfl rfl

@[grind ←] theorem keeps_rename (f : Names → Names) : Keeps R run (rename f) :=
  keeps_modify rfl rfl rfl

@[grind ←] theorem keeps_nameNode (name : Name) (n : NodeId) : Keeps R run (nameNode name n) :=
  keeps_modify rfl rfl rfl

@[grind ←] theorem keeps_nodeOrCreate (name : Name) (content : Dom.Content) :
    Keeps R run (nodeOrCreate name content) := by
  unfold nodeOrCreate
  grind

@[grind ←] theorem keeps_literal (l : Literal) : Keeps R run l.eval := by
  unfold Literal.eval
  grind

@[grind ←] theorem keeps_createSignal (value : Option Value) (producer : Option Producer) :
    Keeps R run (Signal.create value producer) := by
  intro w
  simp only [Signal.create, ensures_bind, ensures_get, ensures_set, ensures_pure]
  exact Steady.make value producer rfl rfl rfl

@[grind ←] theorem keeps_createSubscription (c : Cancel) : Keeps R run (Subscription.create c) :=
  keeps_get_set (fun _ => rfl) (fun _ => rfl) (fun _ => rfl) fun _ _ => keeps_pure _

theorem keeps_flags (s : SignalId) (started : Signal → Bool)
    (teardown : Signal → Option SubscriptionId) :
    Keeps R run (modifySignal s fun signal =>
      { signal with started := started signal, teardown := teardown signal }) := by
  intro w
  simp only [modifySignal, ensures_modify]
  exact Steady.flags s started teardown

@[grind ←] theorem keeps_drop (s : SignalId) (e : EntryId) : Keeps R run (Signal.drop s e) :=
  Steady.drop run s e

@[grind ←] theorem keeps_createFormula (r : Reading) : Keeps R run (SharedFormula.create r) :=
  keeps_get_set (fun _ => rfl) (fun _ => rfl) (fun _ => rfl) fun _ _ => keeps_pure _

@[grind ←] theorem keeps_caseOf (spec : CaseSpec) : Keeps R run (Branch.caseOf spec) := by
  unfold Branch.caseOf
  grind

@[grind ←] theorem keeps_tableOf (specs : List CaseSpec) :
    Keeps R run (Branch.tableOf specs) := by
  unfold Branch.tableOf
  grind

@[grind ←] theorem keeps_createBranch (source : SignalId)
    (cases : CaseTable Value ValueType Formula) (fallback : Option Formula) :
    Keeps R run (Branch.create source cases fallback) := by
  intro w
  simp only [Branch.create, ensures_bind, ensures_get, ensures_set, ensures_pure]
  exact Steady.make none (some (.branch w.branches.next)) rfl rfl rfl

@[grind ←] theorem keeps_setInFallback (a : ActivationId) (inFallback : Bool) :
    Keeps R run (Branch.setInFallback a inFallback) :=
  keeps_modify rfl rfl rfl

@[grind ←] theorem keeps_record (d : Deed) : Keeps R run (Branch.record d) :=
  keeps_modify rfl rfl rfl

@[grind ←] theorem keeps_setData (n : NodeId) (text : String) : Keeps R run (Mount.setData n text) :=
  keeps_modifyNodes _

@[grind ←] theorem keeps_changeElement (n : NodeId) (g : Dom.Element → Dom.Element) :
    Keeps R run (Mount.changeElement n g) := by
  unfold Mount.changeElement
  grind

@[grind ←] theorem keeps_changeAttributes (n : NodeId) (g : Markup.Attributes → Markup.Attributes) :
    Keeps R run (Mount.changeAttributes n g) := by
  unfold Mount.changeAttributes
  grind

@[grind ←] theorem keeps_onUnmount (n : NodeId) (h : Hook) :
    Keeps R run (Lifecycle.onUnmount n h) := by
  unfold Lifecycle.onUnmount
  grind

@[grind ←] theorem keeps_setSlot (f : FollowId) (slot : Option SubscriptionId) :
    Keeps R run (Lifecycle.setSlot f slot) := by
  unfold Lifecycle.setSlot
  grind

@[grind ←] theorem keeps_listen (n : NodeId) (event : String) (l : ListenerId) :
    Keeps R run (Events.listen n event l) := by
  refine keeps_modify ?_ ?_ ?_
  all_goals
    funext w
    split
    · rfl
    · rfl

@[grind ←] theorem keeps_unlisten (n : NodeId) (event : String) (l : ListenerId) :
    Keeps R run (Events.unlisten n event l) := by
  unfold Events.unlisten
  grind

@[grind ←] theorem keeps_createListener (h : Handler) : Keeps R run (Events.create h) :=
  keeps_get_set (fun _ => rfl) (fun _ => rfl) (fun _ => rfl) fun _ _ => keeps_pure _

@[grind ←] theorem keeps_nameNew (name : Name) (content : Dom.Content) :
    Keeps R run (nameNew name content) := by
  unfold nameNew
  grind

@[grind ←] theorem keeps_nameSignal (name : Name) (s : SignalId) (role : Role) :
    Keeps R run (nameSignal name s role) := by
  unfold nameSignal
  grind

@[grind ←] theorem keeps_nameSubscription (name : Name) (s : SubscriptionId) :
    Keeps R run (nameSubscription name s) := by
  unfold nameSubscription
  grind

@[grind ←] theorem keeps_nameFormula (name : Name) (fn : FormulaId) :
    Keeps R run (nameFormula name fn) := by
  unfold nameFormula
  grind

@[grind ←] theorem keeps_nameTemplate (name : Name) (t : CachedTemplate) :
    Keeps R run (nameTemplate name t) := by
  intro w
  simp only [nameTemplate, ensures_modify]
  refine Steady.apart rfl rfl fun t d compiled => Heap.get_push_of_ne _ _ _ ?_
  rintro rfl
  rw [Heap.get_next] at compiled
  cases compiled

@[grind ←] theorem keeps_withRefs (f : Nat → α × Nat) : Keeps R run (Compile.withRefs f) :=
  keeps_get_set (fun _ => rfl) (fun _ => rfl) (fun _ => rfl) fun _ _ => keeps_pure _

@[grind ←] theorem keeps_nameRendering (name : Name) (nodes : List NodeId) :
    Keeps R run (nameRendering name nodes) := by
  unfold nameRendering
  grind

@[grind ←] theorem keeps_giveAttribute (c : Component) (name value : String) :
    Keeps R run (Render.giveAttribute c name value) := by
  unfold Render.giveAttribute
  grind

@[grind ←] theorem keeps_resolve (source : SlotSource) : Keeps R run (source.resolve) := by
  cases source <;> (simp only [SlotSource.resolve, signalNamed, writableNamed]; grind)

@[grind ←] theorem keeps_descriptorOf (t : TemplateId) :
    Keeps R run (Compile.descriptorOf t) := by
  intro w
  unfold Compile.descriptorOf
  simp only [ensures_bind, ensures_get]
  cases compiled : (w.templates.get t).descriptor with
  | some d => exact keeps_pure _ w
  | none =>
    simp only [Compile.withRefs, ensures_bind, ensures_get, ensures_set, ensures_pure]
    split
    · rw [ensures_pure]
      exact Steady.apart rfl rfl (.of_eq rfl)
    · simp only [ensures_bind, ensures_modify, ensures_pure]
      refine Steady.apart rfl rfl fun u d stored => Heap.get_modify_of_ne _ _ _ _ ?_
      rintro rfl
      rw [compiled] at stored
      cases stored

@[grind ←] theorem keeps_compile (name : Name) (config : Template.Config)
    (edits : List Template.Shape.Edit) (chunks : List String) :
    Keeps R run (Compile.compile name config edits chunks) := by
  unfold Compile.compile
  grind

variable [KeptBy R run]

omit [Steady R] in
@[grind ←] theorem keeps_invoke (t : Task) : Keeps R run (invoke t) := by
  intro w
  rw [ensures_invoke]
  exact fun w' h => KeptBy.task t w w' h

@[grind ←] theorem keeps_invokeAll (ts : List Task) : Keeps R run (invokeAll ts) :=
  keeps_forM keeps_invoke

@[grind ←] theorem keeps_cancel (s : SubscriptionId) : Keeps R run (Subscription.cancel s) := by
  unfold Subscription.cancel
  grind

@[grind ←] theorem keeps_cancelEach (l : List SubscriptionId) :
    Keeps R run (Subscription.cancelEach l) :=
  keeps_forM keeps_cancel

@[grind ←] theorem keeps_replace (s : SignalId) (value : Option Value) :
    Keeps R run (Signal.replace s value) :=
  Steady.replace run s value

@[grind ←] theorem keeps_notify (s : SignalId) : Keeps R run (Signal.notify s) :=
  Steady.notify run s

@[grind ←] theorem keeps_join (s : SignalId) (reaction : Reaction) (mode : Mode) :
    Keeps R run (Signal.join s reaction mode) :=
  Steady.join run s reaction mode

@[grind ←] theorem keeps_write (s : SignalId) (value : Option Value) :
    Keeps R run (Signal.write s value) := by
  unfold Signal.write
  grind

@[grind ←] theorem keeps_put (s : SignalId) (v : Value) : Keeps R run (Signal.put s v) :=
  keeps_write s v

@[grind ←] theorem keeps_change (s : SignalId) (v : Value) : Keeps R run (Signal.change s v) :=
  keeps_replace s v

@[grind ←] theorem keeps_wake (s : SignalId) : Keeps R run (Signal.wake s) := by
  unfold Signal.wake
  grind

@[grind ←] theorem keeps_subscribe (s : SignalId) (reaction : Reaction) (mode : Mode) :
    Keeps R run (Signal.subscribe s reaction mode) := by
  unfold Signal.subscribe
  grind

@[grind ←] theorem keeps_stop (s : SignalId) : Keeps R run (Signal.stop s) := by
  refine keeps_bind keeps_get fun w => keeps_ite (keeps_bind (keeps_flags s _ _) fun _ => ?_) ?_
  · grind
  · grind

@[grind ←] theorem keeps_leave (s : SignalId) (e : EntryId) : Keeps R run (Signal.leave s e) := by
  unfold Signal.leave
  grind

/-! Derived signals and matches. -/

@[grind ←] theorem keeps_followSignal (d : DerivationId) (s : SignalId) :
    Keeps R run (Derivation.follow d s) := by
  unfold Derivation.follow
  grind

@[grind ←] theorem keeps_see (d : DerivationId) (s : SignalId) :
    Keeps R run (Derivation.see d s) := by
  unfold Derivation.see
  grind

@[grind ←] theorem keeps_track (s : SignalId) (t : Tracker) :
    Keeps R run (Derivation.track s t) := by
  unfold Derivation.track
  grind

/-- By induction on the reading; every question is answered from the world of the moment. -/
@[grind ←] theorem keeps_reading (t : Tracker) (r : Reading) : Keeps R run (r.run t) := by
  induction r with
  | done v => exact keeps_pure v
  | get s next ih =>
    exact keeps_bind (keeps_track s t) fun _ => keeps_bind keeps_get fun w => ih _
  | peek s next ih => exact keeps_bind keeps_get fun w => ih _
  | track s next ih => exact keeps_bind (keeps_track s t) fun _ => ih
  | mode next ih => exact ih _
  | signal name next ih =>
    exact keeps_bind keeps_get fun w => keeps_bind (keeps_require name _) fun p => ih _
  | literal l next ih => exact keeps_bind (keeps_literal l) fun v => ih v
  | text v next ih => exact keeps_bind keeps_get fun w => ih _
  | note n next ih => exact keeps_bind (keeps_note n) fun _ => ih

@[grind ←] theorem keeps_refresh (d : DerivationId) : Keeps R run (Derivation.refresh d) := by
  unfold Derivation.refresh
  grind

@[grind ←] theorem keeps_createDerivation (r : Reading) : Keeps R run (Derivation.create r) := by
  refine keeps_bind (keeps_reading _ r) fun initial => ?_
  intro w
  simp only [ensures_bind, ensures_get, ensures_set, ensures_pure]
  exact Steady.make (some initial) (some (.derivation w.derivations.next)) rfl rfl rfl

@[grind ←] theorem keeps_startDerivation (d : DerivationId) : Keeps R run (Derivation.start d) := by
  unfold Derivation.start
  grind

@[grind ←] theorem keeps_release (d : DerivationId) : Keeps R run (Derivation.release d) := by
  unfold Derivation.release
  grind

@[grind ←] theorem keeps_derived (fn : FormulaId) : Keeps R run (SharedFormula.derived fn) := by
  unfold SharedFormula.derived
  grind

@[grind ←] theorem keeps_handleCase (f : Formula) (v : Value) :
    Keeps R run (Branch.handle f v) := by
  unfold Branch.handle
  grind

@[grind ←] theorem keeps_fallBack (f : Formula) (v : Value) :
    Keeps R run (Branch.fallBack f v) := by
  unfold Branch.fallBack
  grind

@[grind ←] theorem keeps_startBranch (b : BranchId) : Keeps R run (Branch.start b) :=
  keeps_get_set (fun _ => rfl) (fun _ => rfl) (fun _ => rfl) fun _ _ => keeps_subscribe _ _ _

@[grind ←] theorem keeps_offer (a : ActivationId) (v : Value) :
    Keeps R run (Branch.offer a v) := by
  unfold Branch.offer
  grind

/-! The node tree. -/

@[grind ←] theorem keeps_connect (n : NodeId) (connected : Bool) :
    Keeps R run (Mount.connect n connected) := by
  unfold Mount.connect
  grind

@[grind ←] theorem keeps_appendOne (p n : NodeId) : Keeps R run (Mount.appendOne p n) := by
  unfold Mount.appendOne
  grind

@[grind ←] theorem keeps_append (p n : NodeId) : Keeps R run (Mount.append p n) := by
  unfold Mount.append
  grind

@[grind ←] theorem keeps_appendEach (p : NodeId) (nodes : List NodeId) :
    Keeps R run (Mount.appendEach p nodes) := by
  unfold Mount.appendEach
  grind

@[grind ←] theorem keeps_remove (n : NodeId) : Keeps R run (Mount.remove n) := by
  unfold Mount.remove
  grind

@[grind ←] theorem keeps_replaceNode (n : NodeId) (replacements : List NodeId) :
    Keeps R run (Mount.replace n replacements) := by
  unfold Mount.replace
  grind

@[grind ←] theorem keeps_setText (n : NodeId) (text : String) :
    Keeps R run (Mount.setText n text) := by
  unfold Mount.setText
  grind

@[grind ←] theorem keeps_onMount (n : NodeId) (h : Hook) :
    Keeps R run (Lifecycle.onMount n h) := by
  unfold Lifecycle.onMount
  grind

@[grind ←] theorem keeps_follow (n : NodeId) (s : SignalId) (reaction : Reaction) (mode : Mode) :
    Keeps R run (Lifecycle.follow n s reaction mode) := by
  refine keeps_get_set (fun _ => rfl) (fun _ => rfl) (fun _ => rfl) fun w _ => ?_
  grind

@[grind ←] theorem keeps_startFollow (f : FollowId) : Keeps R run (Lifecycle.startFollow f) := by
  unfold Lifecycle.startFollow
  grind

@[grind ←] theorem keeps_endFollow (f : FollowId) : Keeps R run (Lifecycle.endFollow f) := by
  unfold Lifecycle.endFollow
  grind

@[grind ←] theorem keeps_dispatch (n : NodeId) (event : String) :
    Keeps R run (Events.dispatch n event) := by
  unfold Events.dispatch
  grind

@[grind ←] theorem keeps_listenWhileMounted (n : NodeId) (event : String) (l : ListenerId) :
    Keeps R run (Events.listenWhileMounted n event l) := by
  unfold Events.listenWhileMounted
  grind

@[grind ←] theorem keeps_signal? (value : TemplateValue) : Keeps R run value.signal? := by
  unfold TemplateValue.signal?
  grind

omit [KeptBy R run] in
@[grind ←] theorem keeps_apply (node : NodeId) (v : Value) (e : Effect) :
    Keeps R run (e.apply node v) := by
  unfold Effect.apply
  grind

@[grind ←] theorem keeps_bindEffect (node : NodeId) (s : SignalId) (e : Effect) :
    Keeps R run (e.bind node s) := by
  unfold Effect.bind
  grind

@[grind ←] theorem keeps_connectEffect (node : NodeId) (value : TemplateValue) (e : Effect) :
    Keeps R run (e.connect node value).run := by
  unfold Effect.connect
  grind

@[grind ←] theorem keeps_signalNode (s : SignalId) : Keeps R run (Render.signalNode s) := by
  unfold Render.signalNode
  grind

@[grind ←] theorem keeps_nodeOf (value : TemplateValue) :
    Keeps R run (Render.nodeOf value).run := by
  unfold Render.nodeOf
  grind

@[grind ←] theorem keeps_giveChildren (c : Component) (nodes : List NodeId) :
    Keeps R run (Render.giveChildren c nodes) := by
  unfold Render.giveChildren
  grind

@[grind ←] theorem keeps_placeComponent (outlet : NodeId) (c : Component) :
    Keeps R run (Render.placeComponent outlet c) := by
  unfold Render.placeComponent
  grind

@[grind ←] theorem keeps_twoWay (element : NodeId) (s : SignalId) (key : Dom.BindingKey) :
    Keeps R run (Render.twoWay element s key) := by
  unfold Render.twoWay
  grind

@[grind ←] theorem keeps_directive (element : NodeId) (kind : Template.DirectiveKind) (name : String)
    (value : TemplateValue) :
    Keeps R run (Render.directive element kind name value).run := by
  unfold Render.directive
  grind

@[grind ←] theorem keeps_fill (d : Template.Descriptor) (fragment : NodeId) (slot : Template.Slot)
    (value : TemplateValue) :
    Keeps R run (Render.fill d fragment slot value).run := by
  refine keeps_run_bind (keeps_find d fragment slot.ref) fun element => ?_
  unfold Render.fillElement
  cases slot with
  | node ref => grind
  | component ref => cases value <;> grind
  | attr name quote ref => grind
  | directive kind name ref => grind

@[grind ←] theorem keeps_sourceOf (value : TemplateValue) :
    Keeps R run (Render.sourceOf value).run := by
  unfold Render.sourceOf
  grind

@[grind ←] theorem keeps_sourceOfPart (values : List TemplateValue) (part : Template.Part) :
    Keeps R run (Render.sourceOfPart values part).run := by
  unfold Render.sourceOfPart
  grind

@[grind ←] theorem keeps_fillProgram (values : List TemplateValue) (element : NodeId) (name : String)
    (parts : List Template.Part) :
    Keeps R run (Render.fillProgram values element name parts).run := by
  unfold Render.fillProgram
  grind

@[grind ←] theorem keeps_fillPrograms (d : Template.Descriptor) (fragment : NodeId)
    (values : List TemplateValue) (r : Template.Ref) (programs : Template.Programs) :
    Keeps R run (Render.fillPrograms d fragment values r programs).run := by
  unfold Render.fillPrograms Render.fillAttributes
  grind

@[grind ←] theorem keeps_fillSlots (d : Template.Descriptor) (fragment : NodeId) (index : Nat)
    (l : List (Template.Slot × TemplateValue)) :
    Keeps R run (Render.fillSlots d fragment index l).run := by
  induction l generalizing index with
  | nil => exact keeps_run_pure []
  | cons p l ih =>
    unfold Render.fillSlots
    grind

@[grind ←] theorem keeps_fillAll (d : Template.Descriptor) (fragment : NodeId)
    (values : List TemplateValue) :
    Keeps R run (Render.fillAll d fragment values).run := by
  unfold Render.fillAll
  grind

@[grind ←] theorem keeps_render (d : Template.Descriptor) (values : List TemplateValue) :
    Keeps R run (Render.render d values) := by
  refine keeps_bind keeps_get fun w => keeps_bind (keeps_onNodes _) fun fragment => ?_
  refine keeps_bind (keeps_fillAll d fragment values) fun filled => ?_
  cases filled with
  | ok asked => grind
  | error failure => grind

/-! Steps, callbacks and runs. -/

@[grind ←] theorem keeps_renderStep (name template : Name) (sources : List SlotSource) :
    Keeps R run (renderStep name template sources) := by
  refine keeps_bind (keeps_lookUp _ template) fun t => ?_
  refine keeps_bind (keeps_mapM keeps_resolve) fun values => ?_
  refine keeps_bind (keeps_descriptorOf t) fun compiled => ?_
  cases compiled with
  | error e => exact keeps_pure _
  | ok d =>
    refine keeps_bind (keeps_render d values) fun rendered => ?_
    cases rendered with
    | error e => exact keeps_pure _
    | ok nodes => grind

@[grind ←] theorem keeps_step (current : Value) (step : Step) :
    Keeps R run (step.run current) := by
  cases step <;> unfold Step.run
  all_goals grind

@[grind ←] theorem keeps_script (current : Value) (script : Script) :
    Keeps R run (script.run current) := by
  unfold Script.run
  grind

@[grind ←] theorem keeps_reaction (v : Option Value) (r : Reaction) : Keeps R run (r.run v) := by
  unfold Reaction.run
  grind

@[grind ←] theorem keeps_hook (h : Hook) : Keeps R run (h.run) := by
  unfold Hook.run
  grind

@[grind ←] theorem keeps_handler (event : String) (target : NodeId) (h : Handler) :
    Keeps R run (h.run event target) := by
  unfold Handler.run
  grind

@[grind ←] theorem keeps_cancelRun (c : Cancel) : Keeps R run (c.run) := by
  unfold Cancel.run
  grind

@[grind ←] theorem keeps_start (s : SignalId) (p : Producer) : Keeps R run (p.start s) := by
  unfold Producer.start
  grind

@[grind ←] theorem keeps_activate (s : SignalId) : Keeps R run (Signal.activate s) := by
  refine keeps_bind keeps_get fun w => ?_
  split
  · exact keeps_pure _
  · refine keeps_bind (keeps_flags s _ _) fun _ => keeps_bind (keeps_start s _) fun t => ?_
    exact keeps_flags s _ _

@[grind ←] theorem keeps_task (t : Task) : Keeps R run (t.run) := by
  unfold Task.run
  grind

end

section
variable {R : World → World → Prop} [Steady R]

/-- A run keeps every steady relation, however deeply its callbacks are nested. -/
instance keptBy_exec (fuel : Nat) : KeptBy R (exec fuel) := by
  induction fuel with
  | zero => exact ⟨fun _ _ _ h => by cases h⟩
  | succ fuel ih => exact ⟨fun t w w' h => keeps_task t w () w' h⟩

end

/-- The world after an operation, if it succeeds. -/
def afterwards (w : World) (x : Op Unit) : World :=
  match runFrom 10 w x with
  | .ok (_, w') => w'
  | .error _ => w

theorem runFrom_afterwards (w : World) (x : Op Unit) (ok : (runFrom 10 w x).isOk = true) :
    runFrom 10 w x = .ok ((), afterwards w x) := by
  unfold afterwards
  cases h : runFrom 10 w x with
  | error e =>
    rw [h] at ok
    cases ok
  | ok r => rfl

end LiveMarkup.Live
