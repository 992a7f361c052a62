import LiveMarkup.Proofs.Workshops
import LiveMarkup.Proofs.Steps

/-!
Overseeing: what the operations on signals and subscriptions make of a workshop. Nothing is objected to
but that the last subscriber leaves while the producer starts; every other operation is fair to the
signal of the producer, if the callbacks are.
-/
namespace LiveMarkup.Live

/-- The last subscriber of the signal whose producer has a name leaves while the producer starts. -/
def interrupts (own : Name) : Objection
  | .cancel (.entry s e), w =>
    let signal := w.signals.get s
    signal.producer.any (·.hasName own) && signal.started && signal.teardown.isNone &&
      (signal.subscribers.erase e).isEmpty
  | _, _ => false

/-- What an operation makes of a workshop, under watch and without. -/
def Watched (own : Name) (o : Option SignalId) (run watched : Runner) {α : Type} (x : Op α)
    (w : World) (Q : α → World → Prop) : Prop :=
  Heeds run watched (Fair own o) (Foul own o) x w fun a w' =>
    Workshop own o w' ∧ Spared own w w' ∧ Q a w'

/-- The world in which a note is taken. -/
def noting (n : Note) (w : World) : World :=
  { w with log := n :: w.log }

/-- A runner that minds how its callbacks work, and the same under watch. -/
class Overseen (own : Name) (o : Option SignalId) (run watched : Runner) : Prop where
  react : ∀ {w} r v, Workshop own o w → r.Plays own →
    Watched own o run watched (invoke (.react r v)) w fun _ _ => True
  script : ∀ {w} script current, Workshop own o w → script.Plays own →
    Watched own o run watched (invoke (.script script current)) w fun _ _ => True
  cancel : ∀ {w c}, Workshop own o w → c.Plays own w → (∀ script, c ≠ .stopped own script) →
    Watched own o run watched (invoke (.cancel c)) w fun _ _ => True
  /-- Stopping the producer counts from when a note of it is taken. -/
  stop : ∀ {w script}, Workshop own o w → script.Plays own →
    Heeds run watched (fun _ => Fair own o (noting (.stopped own) w))
      (fun _ => Foul own o (noting (.stopped own) w)) (invoke (.cancel (.stopped own script))) w
      fun _ w' => Workshop own o w' ∧ Spared own w w'
  startOther : ∀ {w s}, Workshop own o w → Signal.isIdle w s = true → s ∉ o →
    Watched own o run watched (invoke (.start s)) w fun _ _ => True
  /-- A signal that is off has started, for a subscriber who is about to join. -/
  start : ∀ {w s}, Workshop own o w → Signal.isIdle w s = true → s ∈ o →
    Heeds run watched
      (fun w w' => w'.stray own o = w.stray own o ∧ ((w.engine s).Off → (w'.engine s).Ready))
      (Foul own o) (invoke (.start s)) w fun _ w' => Workshop own o w' ∧ Spared own w w'

section
variable {α β : Type} {own : Name} {o : Option SignalId} {run watched : Runner} {w : World}

/-! One operation after another. -/

theorem watched_of_unaffected {x : Op α} {Q : α → World → Prop} (h : Workshop own o w)
    (hx : Unaided x w fun a w' => Unaffected own w w' ∧ Q a w') : Watched own o run watched x w Q :=
  heeds_of_unaided (hx.mono fun _ _ ⟨u, q⟩ => ⟨u.fair, h.unaffected u, .of_eq u.subscriptions, q⟩)

theorem watched_bind {x : Op α} {f : α → Op β} {P : α → World → Prop} {Q : β → World → Prop}
    (hx : Watched own o run watched x w P)
    (hf : ∀ a w₁, Workshop own o w₁ → Spared own w w₁ → P a w₁ →
      Watched own o run watched (f a) w₁ Q) :
    Watched own o run watched (x >>= f) w Q := by
  refine heeds_bind hx fun a w₁ ⟨h₁, retains, p⟩ => (hf a w₁ h₁ retains p).weaken ?_
  rintro b w₂ ⟨h₂, retains', q⟩
  exact ⟨h₂, Lasting.trans retains retains', q⟩

theorem Watched.weaken {x : Op α} {Q Q' : α → World → Prop} (hx : Watched own o run watched x w Q)
    (imp : ∀ a w', Q a w' → Q' a w') : Watched own o run watched x w Q' :=
  Heeds.weaken hx fun a w' ⟨h, retains, q⟩ => ⟨h, retains, imp a w' q⟩

theorem Watched.trivially {x : Op α} {Q : α → World → Prop} (hx : Watched own o run watched x w Q) :
    Watched own o run watched x w fun _ _ => True :=
  hx.weaken fun _ _ _ => trivial

/-- Going on from another world, if getting there was fair. -/
theorem watched_from {x y : Op α} {w₁ : World} {Q : α → World → Prop}
    (eq : ∀ run, y run w = x run w₁) (fair : Fair own o w w₁) (retains : Spared own w w₁)
    (hx : Watched own o run watched x w₁ Q) : Watched own o run watched y w Q := by
  refine heeds_from eq (Heeds.weaken hx ?_) (fun _ => Lasting.trans fair) fun _ => Graded.late fair
  rintro a w' ⟨h, retains', q⟩
  exact ⟨h, Lasting.trans retains retains', q⟩

theorem watched_pure {a : α} {Q : α → World → Prop} (h : Workshop own o w) (q : Q a w) :
    Watched own o run watched (pure a) w Q :=
  heeds_pure ⟨h, Lasting.refl w, q⟩

theorem watched_throw (e : Halt) (Q : α → World → Prop) :
    Watched own o run watched (throw e : Op α) w Q :=
  heeds_throw e _

/-- Nothing but an answer comes after. -/
theorem watched_answer {x : Op Unit} {a : β} {Q : Unit → World → Prop}
    (hx : Watched own o run watched x w Q) :
    Watched own o run watched (do x; return a) w fun _ _ => True :=
  watched_bind hx fun _ _ h _ _ => watched_pure h trivial

/-- A loop, by induction on the list. -/
theorem watched_forM {l : List β} {f : β → Op PUnit} {I : World → Prop}
    (kept : ∀ w w', Spared own w w' → I w → I w') (hw : I w) (h : Workshop own o w)
    (hf : ∀ b ∈ l, ∀ w, Workshop own o w → I w →
      Watched own o run watched (f b) w fun _ _ => True) :
    Watched own o run watched (l.forM f) w fun _ _ => True := by
  induction l generalizing w with
  | nil => exact watched_pure h trivial
  | cons b l ih =>
    obtain ⟨here, rest⟩ := List.forall_mem_cons.1 hf
    exact watched_bind (here w h hw) fun _ w₁ h₁ retains _ => ih (kept w w₁ retains hw) h₁ rest

theorem watched_modify {f : World → World} (h : Workshop own o w) (u : Unaffected own w (f w)) :
    Watched own o run watched (modify f : Op PUnit) w fun _ w' => w' = f w :=
  watched_of_unaffected h (.modify ⟨u, rfl⟩)

theorem watched_note {n : Note} (h : Workshop own o w) (started : n ≠ .started own)
    (stopped : n ≠ .stopped own) : Watched own o run watched (note n) w fun _ _ => True :=
  (watched_modify h (.noted started stopped w)).trivially

theorem watched_require {name : Name} {a : Option α} {Q : α → World → Prop} (h : Workshop own o w)
    (q : ∀ b, a = some b → Q b w) : Watched own o run watched (require name a) w Q := by
  cases a with
  | none => exact watched_throw _ _
  | some b => exact watched_pure h (q b rfl)

/-- Looking first. -/
theorem watched_get {f : World → Op α} {Q : α → World → Prop}
    (hf : Watched own o run watched (f w) w Q) : Watched own o run watched (get >>= f) w Q :=
  heeds_get hf

theorem watched_lookUp (h : Workshop own o w) (table : Names → Ordered Name α) (name : Name) :
    Watched own o run watched (lookUp table name) w fun a w' => w' = w ∧
      (table w.names).get? name = some a :=
  watched_get (watched_require h fun _ found => ⟨rfl, found⟩)

theorem watched_signalNamed (h : Workshop own o w) (name : Name) :
    Watched own o run watched (signalNamed name) w fun _ _ => True :=
  watched_bind (watched_lookUp h _ _) fun _ _ h₁ _ _ => watched_pure h₁ trivial

theorem watched_writableNamed (h : Workshop own o w) (name : Name) :
    Watched own o run watched (writableNamed name) w fun _ _ => True := by
  refine watched_bind (watched_lookUp h _ _) fun p _ h₁ _ _ => ?_
  change Watched _ _ _ _ (if p.2 = Role.writable then pure p.1 else throw (.notWritable name)) _ _
  split
  · exact watched_pure h₁ trivial
  · exact watched_throw _ _

/-! Computations. -/

/-- An operation that calls nothing back leaves the engines alone. -/
def Inert (own : Name) {α : Type} (x : Op α) : Prop :=
  ∀ w, Unaided x w fun _ w' => Unaffected own w w'

theorem inert_pure (a : α) : Inert own (pure a) :=
  fun w => .pure (Lasting.refl w)

theorem inert_throw (e : Halt) : Inert own (throw e : Op α) :=
  fun _ => .throw e

theorem inert_bind {x : Op α} {f : α → Op β} (hx : Inert own x) (hf : ∀ a, Inert own (f a)) :
    Inert own (x >>= f) :=
  fun w => (hx w).bind fun a w₁ u => (hf a w₁).mono fun _ _ => Lasting.trans u

/-- Looking first. -/
theorem inert_get {f : World → Op β} (hf : ∀ w, Inert own (f w)) : Inert own (get >>= f) :=
  fun w => .get_bind (hf w w)

theorem inert_modify {f : World → World} (u : ∀ w, Unaffected own w (f w)) :
    Inert own (modify f : Op PUnit) :=
  fun w => .modify (u w)

theorem inert_require (name : Name) (a : Option α) : Inert own (require name a) := by
  cases a with
  | none => exact inert_throw _
  | some a => exact inert_pure a

theorem inert_note {n : Note} (started : n ≠ .started own) (stopped : n ≠ .stopped own) :
    Inert own (note n) :=
  inert_modify fun w => .noted started stopped w

theorem inert_nodeOrCreate (name : Name) (content : Dom.Content) :
    Inert own (nodeOrCreate name content) := by
  refine inert_get fun w => ?_
  split
  · exact inert_pure _
  · have create : Inert own (onNodes (·.create content)) :=
      fun w => .of_eq (fun _ => rfl) (.of_eq rfl rfl rfl rfl rfl)
    refine inert_bind create fun n => inert_bind (inert_modify fun _ => ?_) fun _ => inert_pure n
    exact .of_eq rfl rfl rfl rfl rfl

theorem inert_literal (l : Literal) : Inert own l.eval := by
  cases l with
  | plain v => exact inert_pure v
  | node name => exact inert_bind (inert_get fun w => inert_require name _) fun n => inert_pure _
  | element tag name => exact inert_bind (inert_nodeOrCreate name _) fun n => inert_pure _
  | text data name => exact inert_bind (inert_nodeOrCreate name _) fun n => inert_pure _

/-- By induction on the reading. -/
theorem inert_reading {r : Reading} (sober : r.Sober) : Inert own (r.run .nobody) := by
  have track : ∀ s, Inert own (Derivation.track s .nobody) := fun _ => inert_pure ()
  induction sober with
  | done v => exact inert_pure v
  | get _ ih => exact inert_bind (track _) fun _ => inert_get fun w => ih _
  | peek _ ih => exact inert_get fun w => ih _
  | track _ ih => exact inert_bind (track _) fun _ => ih
  | mode _ ih => exact ih _
  | signal _ ih => exact inert_get fun w => inert_bind (inert_require _ _) fun p => ih _
  | literal _ ih => exact inert_bind (inert_literal _) fun v => ih v
  | text _ ih => exact inert_get fun w => ih _
  | note other _ ih =>
    exact inert_bind (inert_note (other own).1 (other own).2) fun _ => ih

theorem watched_inert {x : Op α} (h : Workshop own o w) (hx : Inert own x) :
    Watched own o run watched x w fun _ _ => True :=
  watched_of_unaffected h ((hx w).mono fun _ _ u => ⟨u, trivial⟩)

variable [Overseen own o run watched] {s : SignalId} {e : EntryId}

/-! Writing. -/

theorem watched_tell (h : Workshop own o w) (round : Nat) :
    Watched own o run watched (Signal.tell s round e) w fun _ _ => True := by
  by_cases due : ((w.entries.get e).active &&
    (w.entries.get e).seen < (w.signals.get s).version) = true
  · have u : Unaffected own w (Signal.marked s round e w) := .marked s round e w
    refine watched_from (fun run => (tell_eq round e).trans (if_pos due)) u.fair (.of_eq rfl) ?_
    exact Overseen.react _ _ (h.unaffected u) (h.reactions e)
  · refine watched_from (x := pure ()) (fun run => (tell_eq round e).trans (if_neg due))
      (Lasting.refl w) (Lasting.refl w) ?_
    exact watched_pure h trivial

theorem watched_replace (h : Workshop own o w) (value : Option Value) :
    Watched own o run watched (Signal.replace s value) w fun _ _ => True := by
  have u : Unaffected own w (Signal.changed s value w) := .changed s value w
  refine watched_from (fun run => replace_eq s value) u.fair (.of_eq rfl) ?_
  exact watched_forM (I := fun _ => True) (fun _ _ _ => id) trivial (h.unaffected u)
    fun e _ w h _ => watched_tell h _

theorem watched_put (h : Workshop own o w) (v : Value) :
    Watched own o run watched (Signal.put s v) w fun _ _ => True := by
  by_cases same : sameContent (Signal.content w s) (some v) = true
  · refine watched_from (x := pure ()) (fun run => (put_eq s v run w).trans (if_pos same))
      (Lasting.refl w) (Lasting.refl w) ?_
    exact watched_pure h trivial
  · refine watched_from (fun run => (put_eq s v run w).trans (if_neg same)) (Lasting.refl w)
      (Lasting.refl w) ?_
    exact watched_replace h _

theorem watched_notify (h : Workshop own o w) :
    Watched own o run watched (Signal.notify s) w fun _ _ => True := by
  refine watched_from (fun run => ?_) (Lasting.refl w) (Lasting.refl w)
    (watched_replace (s := s) h (w.signals.get s).value)
  rw [notify_eq, replace_eq]

/-! Subscribing. -/

theorem stray_of_mem (hs : s ∈ o) :
    w.stray own o = w.surplus own - ((w.engine s).started.toNat : Int) := by
  cases hs
  rfl

theorem Workshop.idle_iff (h : Workshop own o w) (hs : s ∈ o) :
    Signal.isIdle w s = true ↔ (w.engine s).subscribers = [] ∧ (w.engine s).started = false := by
  obtain ⟨start, stop, made⟩ := h.made s hs
  have some : (w.signals.get s).producer = some (.script own start stop) := made
  simp [Signal.isIdle, some, World.engine, Signal.engine]

/-- What comes of the signal when somebody is about to join. -/
structure Wakes (own : Name) (s : SignalId) (w w' : World) : Prop where
  stray : w'.stray own (some s) = w.stray own (some s)
  ready : (w.engine s).AtRest → (w'.engine s).Ready
  waking : (w.engine s).Waking → (w'.engine s).Waking

/-- What comes of it when somebody joins. -/
structure Seats (own : Name) (s : SignalId) (w w' : World) : Prop where
  stray : w'.stray own (some s) = w.stray own (some s)
  rest : (w.engine s).Ready → (w'.engine s).AtRest
  waking : (w.engine s).Waking → (w'.engine s).Waking

theorem wake_heeds [Overseen own (some s) run watched] (h : Workshop own (some s) w) :
    Heeds run watched (Wakes own s) (Foul own (some s)) (Signal.wake s) w
      fun _ w' => Workshop own (some s) w' ∧ Spared own w w' := by
  have idle_iff := h.idle_iff rfl
  have read : ∀ run, Signal.wake s run w =
      (if Signal.isIdle w s then invoke (.start s) else pure () : Op Unit) run w := fun _ => rfl
  by_cases idle : Signal.isIdle w s = true
  · rw [if_pos idle] at read
    refine Heeds.congr ((Overseen.start h idle rfl).mono (fun _ _ => id) ?_ fun _ _ _ => id) read
    rintro _ w' - ⟨stray, started⟩
    refine ⟨stray, fun rest => ?_, fun waking => ?_⟩
    · rcases rest with off | on
      · exact started off
      · exact absurd (idle_iff.1 idle).1 on.2.2
    · exact absurd waking.1 (by simp [(idle_iff.1 idle).2])
  · rw [if_neg idle] at read
    have still : Wakes own s w w := by
      refine ⟨rfl, fun rest => ?_, id⟩
      rcases rest with off | on
      · exact absurd (idle_iff.2 ⟨off.2.2, off.1⟩) idle
      · exact on.ready
    exact Heeds.congr (heeds_of_unaided (.pure ⟨still, h, Lasting.refl w⟩)) read

theorem entered_joins (h : Workshop own (some s) w) (reaction : Reaction) (mode : Mode) :
    w.stray own (some s) = (Signal.entered s reaction mode w).stray own (some s) ∧
      ((w.engine s).Ready → ((Signal.entered s reaction mode w).engine s).On) ∧
      ((w.engine s).Waking → ((Signal.entered s reaction mode w).engine s).Waking) := by
  have engine : (Signal.entered s reaction mode w).engine s =
      { w.engine s with subscribers := (w.engine s).subscribers ++ [w.entries.next] } :=
    engine_modify (h.valid rfl) _
  refine ⟨?_, fun ready => ?_, fun waking => ?_⟩
  · rw [stray_of_mem rfl, stray_of_mem rfl, engine]
    rfl
  · rw [engine]
    exact ⟨ready.1, ready.2, List.append_ne_nil_of_right_ne_nil _ (List.cons_ne_nil _ _)⟩
  · rw [engine]
    exact waking

omit [Overseen own o run watched] in
theorem watched_create {c : Cancel} (h : Workshop own o w) (plays : c.Plays own w)
    (other : ∀ script, c ≠ .stopped own script) :
    Watched own o run watched (Subscription.create c) w fun sub w' => Foreign own sub w' := by
  refine heeds_of_unaided (.of_eq (fun _ => rfl) ⟨.of_engine (fun _ _ => rfl) rfl, ?_⟩)
  exact ⟨h.subscription_made plays, fun sub hs => hs.next (made_evolves c w), foreign_made other⟩

theorem watched_greet (h : Workshop own o w) {reaction : Reaction} (plays : reaction.Plays own) :
    Watched own o run watched (Signal.greet s e reaction) w fun _ _ => True :=
  watched_bind (watched_modify h (.of_modify (f := Signal.showing e none) s (fun _ => rfl) w))
    fun _ _ h₁ _ _ => watched_get (Overseen.react _ _ h₁ plays)

/-- What is left to do for somebody who has been added. -/
def Signal.welcome (s : SignalId) (e : EntryId) (reaction : Reaction) (mode : Mode) :
    Op EntryId := do
  if mode = .immediate then greet s e reaction
  return e

theorem join_eq (s : SignalId) (reaction : Reaction) (mode : Mode) (w : World) (run : Runner) :
    Signal.join s reaction mode run w =
      Signal.welcome s w.entries.next reaction mode run (Signal.entered s reaction mode w) :=
  rfl

theorem watched_welcome (h : Workshop own o w) {reaction : Reaction} (plays : reaction.Plays own)
    (mode : Mode) :
    Watched own o run watched (Signal.welcome s e reaction mode) w fun _ _ => True := by
  unfold Signal.welcome
  split
  · exact watched_bind (watched_greet h plays) fun _ _ h₁ _ _ => watched_pure h₁ trivial
  · exact watched_pure h trivial

theorem watched_join (h : Workshop own o w) {reaction : Reaction} (plays : reaction.Plays own)
    (mode : Mode) (other : s ∉ o) :
    Watched own o run watched (Signal.join s reaction mode) w fun _ _ => True :=
  watched_from (join_eq s reaction mode w) (.of_modify other rfl rfl) (.of_eq rfl)
    (watched_welcome (h.entered s mode plays) plays mode)

theorem join_heeds [Overseen own (some s) run watched] (h : Workshop own (some s) w)
    {reaction : Reaction} (plays : reaction.Plays own) (mode : Mode) :
    Heeds run watched (Seats own s) (Foul own (some s)) (Signal.join s reaction mode) w
      fun _ w' => Workshop own (some s) w' ∧ Spared own w w' := by
  obtain ⟨stray, on, waking⟩ := entered_joins h reaction mode
  have welcome : Watched own (some s) run watched
      (Signal.welcome s w.entries.next reaction mode) (Signal.entered s reaction mode w)
      fun _ _ => True := watched_welcome (h.entered s mode plays) plays mode
  refine heeds_from (join_eq s reaction mode w) (Heeds.weaken welcome ?_) ?_ ?_
  · rintro _ w' ⟨h', retains, -⟩
    exact ⟨h', retains⟩
  · intro w' fair
    refine ⟨fair.stray.trans stray.symm, fun ready => ?_, fun wakes => ?_⟩
    · exact fair.rest (fun _ hs => Option.mem_some.1 hs ▸ .inr (on ready)) s rfl
    · exact fair.waking (fun _ hs => Option.mem_some.1 hs ▸ waking wakes) s rfl
  · intro w' foul
    unfold Foul at *
    omega

/-- Whoever joins finds the signal started. -/
theorem joined_heeds [Overseen own (some s) run watched] (h : Workshop own (some s) w)
    {reaction : Reaction} (plays : reaction.Plays own) (mode : Mode) :
    Watched own (some s) run watched (do
      Signal.wake s
      Signal.join s reaction mode) w fun _ _ => True := by
  have join : ∀ w₁, Workshop own (some s) w₁ ∧ Spared own w w₁ → Heeds run watched (Seats own s)
      (Foul own (some s)) (Signal.join s reaction mode) w₁
      fun _ w₂ => Workshop own (some s) w₂ ∧ Spared own w w₂ ∧ True := by
    rintro w₁ ⟨h₁, retains⟩
    refine (join_heeds h₁ plays mode).weaken ?_
    rintro _ w₂ ⟨h₂, retains'⟩
    exact ⟨h₂, Lasting.trans retains retains', trivial⟩
  refine heeds_bind_of (wake_heeds h) (fun _ => join) ?_ ?_ ?_
  · intro w₁ w₂ wakes joins
    refine ⟨joins.stray.trans wakes.stray, ?_, ?_⟩
    · rintro rest _ ⟨⟩
      exact joins.rest (wakes.ready (rest s rfl))
    · rintro waking _ ⟨⟩
      exact joins.waking (wakes.waking (waking s rfl))
  · rintro w₁ w₂ here (joins | there)
    · have same := joins.stray
      unfold Foul at *
      omega
    · exact Int.lt_trans here there
  · intro w₁ w₂ wakes there
    have same := wakes.stray
    unfold Foul at *
    omega

theorem watched_subscribe (h : Workshop own o w) {reaction : Reaction}
    (plays : reaction.Plays own) (mode : Mode) :
    Watched own o run watched (Signal.subscribe s reaction mode) w
      fun sub w' => Foreign own sub w' := by
  have joined : Watched own o run watched (do
      Signal.wake s
      Signal.join s reaction mode) w fun _ _ => True := by
    by_cases hs : s ∈ o
    · obtain rfl := Option.mem_def.1 hs
      exact joined_heeds h plays mode
    · refine watched_bind (P := fun _ _ => True) (watched_get ?_) fun _ _ h₁ _ _ =>
        watched_join h₁ plays mode hs
      split
      case isTrue idle => exact Overseen.startOther h idle hs
      case isFalse => exact watched_pure h trivial
  have same : Signal.subscribe s reaction mode = (do
      Signal.wake s
      Signal.join s reaction mode) >>= fun e => Subscription.create (.entry s e) :=
    (bind_assoc ..).symm
  rw [same]
  exact watched_bind joined fun e _ h₁ _ _ => watched_create h₁ trivial fun _ => nofun

/-! Unsubscribing. -/

omit [Overseen own o run watched] in
theorem drop_eq (s : SignalId) (e : EntryId) (w : World) (run : Runner) :
    Signal.drop s e run w = .ok ((), Signal.dropped s e w) := by
  have read : Signal.drop s e run w = (do
      if (w.signals.get s).subscribers.contains e then
        modify fun w => { w with
          entries := w.entries.modify e fun entry => { entry with active := false } }
      modifySignal s (Signal.leftBy e) : Op Unit) run w := rfl
  rw [read, Signal.dropped]
  by_cases he : e ∈ (w.signals.get s).subscribers
  · rw [if_pos (List.contains_iff_mem.2 he), if_pos he]
    rfl
  · rw [if_neg fun hc => he (List.contains_iff_mem.1 hc), if_neg he]
    rfl

/-- Whatever a foreign subscription has left to do, it is done. -/
theorem watched_cancel {sub : SubscriptionId} (h : Workshop own o w) (foreign : Foreign own sub w) :
    Watched own o run watched (Subscription.cancel sub) w fun _ _ => True := by
  cases active : w.subscriptions.get sub with
  | none =>
    exact watched_from (x := pure ()) (cancel_of_ended active) (Lasting.refl w) (Lasting.refl w)
      (watched_pure h trivial)
  | some c =>
    have ev := spent_evolves sub w
    refine watched_from (x := invoke (.cancel c)) (cancel_of_active active)
      (.of_engine (fun _ _ => rfl) rfl) (fun _ hs => hs.next ev) ?_
    refine Overseen.cancel (h.subscription_spent (h.unused foreign))
      ((h.cancels sub c active).next ev) ?_
    rintro script rfl
    exact foreign.2 script active

/-- What stops the producer is done. -/
theorem cancel_heeds {sub : SubscriptionId} {stop : Script} (h : Workshop own o w)
    (active : w.subscriptions.get sub = some (.stopped own stop))
    (unused : ∀ s ∈ o, (w.engine s).teardown ≠ some sub) :
    Heeds run watched (fun _ => Fair own o (noting (.stopped own) w))
      (fun _ => Foul own o (noting (.stopped own) w)) (Subscription.cancel sub) w
      fun _ w' => Workshop own o w' ∧ Spared own w w' := by
  have ev := spent_evolves sub w
  have spent : Fair own o (noting (.stopped own) w)
      (noting (.stopped own) (Subscription.spent sub w)) := .of_engine (fun _ _ => rfl) rfl
  have stops : Heeds run watched
      (fun _ => Fair own o (noting (.stopped own) (Subscription.spent sub w)))
      (fun _ => Foul own o (noting (.stopped own) (Subscription.spent sub w)))
      (invoke (.cancel (.stopped own stop))) (Subscription.spent sub w)
      fun _ w' => Workshop own o w' ∧ Spared own (Subscription.spent sub w) w' :=
    Overseen.stop (h.subscription_spent unused) (h.cancels sub _ active)
  refine heeds_from (cancel_of_active active) (stops.weaken ?_) (fun _ => Lasting.trans spent)
    fun _ => Graded.late spent
  rintro _ w' ⟨h', retains⟩
  exact ⟨h', Lasting.trans (fun _ hs => hs.next ev) retains⟩

omit [Overseen own o run watched] in
theorem stop_eq (s : SignalId) (w : World) (run : Runner) :
    Signal.stop s run w =
      if (w.engine s).subscribers.isEmpty && (w.engine s).started then
        ((w.engine s).teardown.forM Subscription.cancel : Op Unit) run (Signal.stopped s w)
      else .ok ((), w) := by
  have looked : (get : Op World) run w = .ok (w, w) := rfl
  rw [Signal.stop, bind_of_ok looked]
  unfold World.engine Signal.engine
  by_cases ends : ((w.signals.get s).subscribers.isEmpty && (w.signals.get s).started) = true
  · simp only [if_pos ends]
    cases (w.signals.get s).teardown with
    | none => rfl
    | some t => rfl
  · simp only [if_neg ends]
    rfl

/-- What there is to cancel when another signal stops. -/
theorem watched_stop (h : Workshop own o w) (other : s ∉ o) :
    Watched own o run watched (Signal.stop s) w fun _ _ => True := by
  by_cases ends : ((w.engine s).subscribers.isEmpty && (w.engine s).started) = true
  case neg =>
    exact watched_from (x := pure ()) (fun run => (stop_eq s w run).trans (if_neg ends))
      (Lasting.refl w) (Lasting.refl w) (watched_pure h trivial)
  refine watched_from (fun run => (stop_eq s w run).trans (if_pos ends))
    (.of_modify other rfl rfl) (.of_eq rfl) ?_
  cases ht : (w.engine s).teardown with
  | none => exact watched_pure (h.stopped s) trivial
  | some t => exact watched_cancel (h.stopped s) (h.teardowns s t ht other)

omit [Overseen own o run watched] in
theorem dropped_engine (h : Workshop own o w) (hs : s ∈ o) (e : EntryId) :
    (Signal.dropped s e w).engine s =
      { w.engine s with subscribers := (w.engine s).subscribers.erase e } :=
  engine_modify (h.valid hs) _

omit [Overseen own o run watched] in
theorem stopped_engine (h : Workshop own o w) (hs : s ∈ o) :
    (Signal.stopped s w).engine s = { w.engine s with started := false, teardown := none } :=
  engine_modify (h.valid hs) _

omit [Overseen own o run watched] in
theorem surplus_stopped (w : World) :
    (noting (.stopped own) w).surplus own = w.surplus own - 1 := by
  simp only [World.surplus, noting, List.count_cons_self,
    List.count_cons_of_ne (show Note.stopped own ≠ Note.started own from Note.noConfusion)]
  omega

/-- When the signal stops, what stops the producer is done. -/
theorem stop_heeds [Overseen own (some s) run watched] {t : SubscriptionId}
    (h : Workshop own (some s) w) (empty : (w.engine s).subscribers = [])
    (started : (w.engine s).started = true) (ht : (w.engine s).teardown = some t) :
    Heeds run watched
      (fun w w' => w'.stray own (some s) = w.stray own (some s) ∧ (w'.engine s).AtRest)
      (Foul own (some s)) (Signal.stop s) w
      fun _ w' => Workshop own (some s) w' ∧ Spared own w w' := by
  have h₁ := h.stopped s
  have engine := stopped_engine h rfl
  obtain ⟨stop, active⟩ := h.teardown s rfl t ht
  have off : ((noting (.stopped own) (Signal.stopped s w)).engine s).AtRest := by
    change ((Signal.stopped s w).engine s).AtRest
    rw [engine]
    exact .inl ⟨rfl, rfl, empty⟩
  have stray : (noting (.stopped own) (Signal.stopped s w)).stray own (some s) =
      w.stray own (some s) := by
    have idle : ((noting (.stopped own) (Signal.stopped s w)).engine s).started = false :=
      congrArg Engine.started engine
    have same : (Signal.stopped s w).surplus own = w.surplus own := rfl
    rw [stray_of_mem rfl, stray_of_mem rfl, surplus_stopped, idle, started, same, Bool.toNat_false,
      Bool.toNat_true]
    omega
  have unused : ∀ s' ∈ some s, ((Signal.stopped s w).engine s').teardown ≠ some t := by
    rintro _ ⟨⟩ known
    rw [engine] at known
    cases known
  have cancels : ∀ run, Signal.stop s run w = Subscription.cancel t run (Signal.stopped s w) := by
    intro run
    rw [stop_eq, empty, started, ht]
    rfl
  refine heeds_from cancels (cancel_heeds h₁ active unused) (fun w' fair => ?_) fun w' foul => ?_
  · exact ⟨fair.stray.trans stray, fair.rest (fun _ hs => Option.mem_some.1 hs ▸ off) s rfl⟩
  · unfold Foul at *
    omega

omit [Overseen own o run watched] in
theorem stop_foul (h : Workshop own (some s) w) (empty : (w.engine s).subscribers = [])
    (started : (w.engine s).started = true) (ht : (w.engine s).teardown = none) (run : Runner) :
    Signal.stop s run w = .ok ((), Signal.stopped s w) ∧
      Foul own (some s) w (Signal.stopped s w) := by
  have idle : ((Signal.stopped s w).engine s).started = false :=
    congrArg Engine.started (stopped_engine h rfl)
  have same : (Signal.stopped s w).surplus own = w.surplus own := rfl
  refine ⟨?_, ?_⟩
  · rw [stop_eq, empty, started, ht]
    rfl
  · rw [Foul, stray_of_mem rfl, stray_of_mem rfl, idle, started, same, Bool.toNat_false,
      Bool.toNat_true]
    omega

omit [Overseen own o run watched] in
theorem Workshop.hasName_iff (h : Workshop own o w) :
    (w.engine s).producer.any (·.hasName own) = true ↔ s ∈ o := by
  constructor
  · intro named
    cases hp : (w.engine s).producer with
    | none =>
      rw [hp] at named
      cases named
    | some p =>
      rw [hp] at named
      exact (h.producers s p hp).2 named
  · intro hs
    obtain ⟨start, stop, made⟩ := h.made s hs
    rw [made]
    exact decide_eq_true rfl

omit [Overseen own o run watched] in
theorem interrupts_iff (h : Workshop own o w) :
    interrupts own (.cancel (.entry s e)) w = true ↔ s ∈ o ∧ (w.engine s).started = true ∧
      (w.engine s).teardown = none ∧ (w.engine s).subscribers.erase e = [] := by
  have read : interrupts own (.cancel (.entry s e)) w =
      ((w.engine s).producer.any (·.hasName own) && (w.engine s).started &&
        (w.engine s).teardown.isNone && ((w.engine s).subscribers.erase e).isEmpty) := rfl
  rw [read, Bool.and_eq_true, Bool.and_eq_true, Bool.and_eq_true, h.hasName_iff,
    Option.isNone_iff_eq_none, List.isEmpty_iff, and_assoc, and_assoc]

/-- Somebody leaves, and not while the producer starts. -/
theorem watched_leave (h : Workshop own o w)
    (timely : interrupts own (.cancel (.entry s e)) w = false) :
    Watched own o run watched (Signal.leave s e) w fun _ _ => True := by
  have dropped : ∀ run, Signal.leave s e run w = Signal.stop s run (Signal.dropped s e w) :=
    fun run => bind_of_ok (drop_eq s e w run)
  have h₁ := h.dropped s e
  by_cases mine : s ∉ o
  · exact watched_from dropped (.of_modify mine rfl rfl) (.of_eq rfl) (watched_stop h₁ mine)
  obtain rfl := Option.mem_def.1 (not_not.1 mine)
  have engine := dropped_engine h rfl e
  have stray : (Signal.dropped s e w).stray own (some s) = w.stray own (some s) := by
    have same : (Signal.dropped s e w).surplus own = w.surplus own := rfl
    rw [stray_of_mem rfl, stray_of_mem rfl, same, engine]
  by_cases ends : (w.engine s).subscribers.erase e = [] ∧ (w.engine s).started = true
  · obtain ⟨t, ht⟩ : ∃ t, (w.engine s).teardown = some t := by
      refine Option.ne_none_iff_exists'.1 fun none => ?_
      have untimely := (interrupts_iff h).2 ⟨rfl, ends.2, none, ends.1⟩
      rw [timely] at untimely
      cases untimely
    refine heeds_from dropped ((stop_heeds h₁ ((congrArg _ engine).trans ends.1)
      ((congrArg _ engine).trans ends.2) ((congrArg _ engine).trans ht)).weaken ?_)
      (fun w' fair => ⟨fair.1.trans stray, ?_, ?_⟩) fun w' foul => ?_
    · rintro _ w' ⟨h', retains⟩
      exact ⟨h', retains, trivial⟩
    · rintro - _ ⟨⟩
      exact fair.2
    · intro waking
      have unknown := (waking s rfl).2
      rw [ht] at unknown
      cases unknown
    · unfold Foul at *
      omega
  · have stays : ∀ run, Signal.leave s e run w =
        (pure () : Op Unit) run (Signal.dropped s e w) := by
      intro run
      rw [dropped, stop_eq, engine, if_neg]
      · rfl
      · simpa using ends
    refine watched_from stays ⟨stray, ?_, ?_⟩ (.of_eq rfl) (watched_pure h₁ trivial)
    · rintro rest _ ⟨⟩
      rw [engine]
      rcases rest s rfl with off | on
      · exact .inl ⟨off.1, off.2.1, by rw [off.2.2]; rfl⟩
      · exact .inr ⟨on.1, on.2.1, fun empty => ends ⟨empty, on.1⟩⟩
    · rintro waking _ ⟨⟩
      rw [engine]
      exact waking s rfl

omit [Overseen own o run watched] in
/-- The last one leaves while the producer starts: that run will not be stopped. -/
theorem leave_foul (h : Workshop own o w)
    (untimely : interrupts own (.cancel (.entry s e)) w = true) (run : Runner) :
    ∃ w', Signal.leave s e run w = .ok ((), w') ∧ Workshop own o w' ∧ Spared own w w' ∧
      Foul own o w w' := by
  obtain ⟨hs, started, unknown, empty⟩ := (interrupts_iff h).1 untimely
  obtain rfl := Option.mem_def.1 hs
  have h₁ := h.dropped s e
  have engine := dropped_engine h rfl e
  obtain ⟨stops, foul⟩ := stop_foul h₁ ((congrArg _ engine).trans empty)
    ((congrArg _ engine).trans started) ((congrArg _ engine).trans unknown) run
  refine ⟨_, (bind_of_ok (drop_eq s e w run)).trans stops, h₁.stopped s, .of_eq rfl, ?_⟩
  have same : (Signal.dropped s e w).surplus own = w.surplus own := rfl
  have stray : (Signal.dropped s e w).stray own (some s) = w.stray own (some s) := by
    rw [stray_of_mem rfl, stray_of_mem rfl, same, engine]
  unfold Foul at *
  omega

end
end LiveMarkup.Live
