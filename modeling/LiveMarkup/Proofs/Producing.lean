import LiveMarkup.Proofs.Overseeing

/-!
Producing: when a lazy signal is at work. Its producer is started as often as it is stopped, and
once more while somebody is subscribed, unless the last subscriber leaves before the start function is
over: then what it returns is not there yet to be cancelled, and is never cancelled later.

Main statement: `paired_iff_timely`.
-/
namespace LiveMarkup.Live

section
variable {α β : Type} {own : Name} {o : Option SignalId} {run watched : Runner} {w : World}
  [Overseen own o run watched] {s : SignalId}

/-! Steps. -/

omit [Overseen own o run watched] in
theorem watched_formula {f : Value → Op β} {Q : β → World → Prop} {v : Formula}
    (h : Workshop own o w) (sober : ∀ u, (v u).Sober) (u : Value)
    (hf : ∀ a w₁, Workshop own o w₁ → Spared own w w₁ → Watched own o run watched (f a) w₁ Q) :
    Watched own o run watched ((v u).run .nobody >>= f) w Q :=
  watched_bind (watched_inert h (inert_reading (sober u)))
    fun a w₁ h₁ retains _ => hf a w₁ h₁ retains

omit [Overseen own o run watched] in
theorem watched_nameSignal (h : Workshop own o w) (name : Name) (s : SignalId) (role : Role) :
    Watched own o run watched (nameSignal name s role) w fun _ _ => True :=
  (watched_modify h (.of_eq rfl rfl rfl rfl rfl)).trivially

omit [Overseen own o run watched] in
theorem watched_nameSubscription {sub : SubscriptionId} (h : Workshop own o w)
    (foreign : Foreign own sub w) (name : Name) :
    Watched own o run watched (nameSubscription name sub) w fun _ _ => True :=
  heeds_of_unaided (.modify ⟨.of_engine (fun _ _ => rfl) rfl, h.subscription_named foreign name,
    .of_eq rfl, trivial⟩)

omit [Overseen own o run watched] in
/-- The members of an aggregate that have names are foreign. -/
theorem watched_members (h : Workshop own o w) (subs : List Name) :
    Watched own o run watched (subs.mapM (lookUp Names.subscriptions)) w
      fun members w' => w' = w ∧ ∀ sub ∈ members, Foreign own sub w := by
  induction subs with
  | nil => exact watched_pure h ⟨rfl, nofun⟩
  | cons name subs ih =>
    rw [List.mapM_cons]
    refine watched_bind (watched_lookUp h _ _) ?_
    rintro sub _ - - ⟨rfl, found⟩
    refine watched_bind ih ?_
    rintro members _ h₁ - ⟨rfl, foreign⟩
    exact watched_pure h₁ ⟨rfl, List.forall_mem_cons.2 ⟨h.named name sub found, foreign⟩⟩

omit [Overseen own o run watched] in
/-- A new signal without a producer. -/
theorem watched_newSignal (h : Workshop own o w) (name : Name) (v : Literal) (role : Role) :
    Watched own o run watched (do
      nameSignal name (← Signal.create (some (← v.eval)) none) role
      return Answer.none) w fun _ _ => True := by
  refine watched_bind (watched_inert h (inert_literal v)) fun v w₁ h₁ _ _ => ?_
  refine watched_bind (P := fun _ _ => True) ?_ fun s _ h₂ _ _ =>
    watched_answer (watched_nameSignal h₂ _ _ _)
  exact watched_of_unaffected h₁ (.of_eq (fun _ => rfl) ⟨.added (some v) w₁, trivial⟩)

theorem watched_change (h : Workshop own o w) (current : Value) (sig : Name) (suffix : String)
    (v : Option Literal) :
    Watched own o run watched ((Step.change sig suffix v).run current) w fun _ _ => True := by
  refine watched_bind (watched_writableNamed h sig) fun s w₁ h₁ _ _ => watched_get ?_
  split
  · exact watched_answer (watched_replace h₁ _)
  · exact watched_bind (watched_inert h₁ (inert_literal _)) fun _ _ h₂ _ _ =>
      watched_answer (watched_replace h₂ _)
  · exact watched_answer (watched_notify h₁)

/-- By cases on the step. -/
theorem watched_step {step : Step} (h : Workshop own o w) (current : Value)
    (plays : step.Plays own) :
    Watched own o run watched (step.run current) w fun _ _ => True := by
  cases plays with
  | ask q =>
    refine watched_get ?_
    split
    · exact watched_pure h trivial
    · exact watched_throw _ _
  | signal name v => exact watched_newSignal h name v _
  | constant name v => exact watched_newSignal h name v _
  | readOnly name sig =>
    exact watched_bind (watched_lookUp h _ _) fun _ _ h₁ _ _ =>
      watched_answer (watched_nameSignal h₁ _ _ _)
  | @lazy name v start stop other starts stops =>
    refine watched_bind (watched_inert h (inert_literal v)) fun v w₁ h₁ _ _ => ?_
    refine watched_bind (P := fun _ _ => True) ?_ fun s _ h₂ _ _ =>
      watched_answer (watched_nameSignal h₂ _ _ _)
    have plays : (Producer.script name start stop).Plays own := ⟨starts, stops⟩
    exact heeds_of_unaided (.of_eq (fun _ => rfl) ⟨h₁.added_fair _ _,
      h₁.added (some v) plays (decide_eq_false other), .of_eq rfl, trivial⟩)
  | emit sober =>
    refine watched_formula h sober _ fun v w₁ h₁ _ => watched_get ?_
    split
    · exact watched_answer (watched_put h₁ v)
    · exact watched_bind (watched_throw _ fun _ _ => True) fun _ _ h₂ _ _ => watched_pure h₂ trivial
  | orphanEmit sober => exact watched_formula h sober _ fun _ _ h₁ _ => watched_pure h₁ trivial
  | set sober =>
    exact watched_bind (watched_writableNamed h _) fun _ _ h₁ _ _ =>
      watched_formula h₁ sober _ fun v _ h₂ _ => watched_answer (watched_put h₂ v)
  | update sober =>
    exact watched_bind (watched_writableNamed h _) fun _ _ h₁ _ _ => watched_get <|
      watched_formula h₁ sober _ fun v _ h₂ _ => watched_answer (watched_put h₂ v)
  | change sig suffix v => exact watched_change h current sig suffix v
  | @subscribe name sig mode script steps =>
    have plays : (Reaction.told name script).Plays own := steps
    exact watched_bind (watched_signalNamed h _) fun s _ h₁ _ _ =>
      watched_bind (watched_subscribe h₁ plays mode) fun sub _ h₂ _ foreign =>
        watched_answer (watched_nameSubscription h₂ foreign _)
  | unsubscribe sub =>
    refine watched_bind (watched_lookUp h _ _) ?_
    rintro handle _ h₁ - ⟨rfl, found⟩
    exact watched_answer (watched_cancel h₁ (h₁.named _ _ found))
  | subscribeAll name subs =>
    refine watched_bind (watched_members h subs) ?_
    rintro members _ h₁ - ⟨rfl, foreign⟩
    exact watched_bind (watched_create (c := .all members) h₁ foreign fun _ => nofun)
      fun _ _ h₂ _ foreign => watched_answer (watched_nameSubscription h₂ foreign _)
  | subscribeNone name =>
    exact watched_bind (watched_create (c := .nothing) h trivial fun _ => nofun)
      fun _ _ h₁ _ foreign => watched_answer (watched_nameSubscription h₁ foreign _)
  | subscriptionClone name sub =>
    refine watched_bind (watched_lookUp h _ _) ?_
    rintro handle _ h₁ - ⟨rfl, found⟩
    exact watched_answer (watched_nameSubscription h₁ (h₁.named _ _ found) _)
  | log sober =>
    exact watched_formula h sober _ fun v _ h₁ _ => watched_get <|
      watched_answer (watched_note h₁ nofun nofun)
  | choose sober yesSteps noSteps =>
    refine watched_formula h sober _ fun v _ h₁ _ => watched_answer (Overseen.script _ _ h₁ ?_)
    split
    · exact yesSteps
    · exact noSteps

/-- One step after another. -/
theorem watched_script {script : Script} (h : Workshop own o w) (current : Value)
    (plays : script.Plays own) :
    Watched own o run watched (script.run current) w fun _ _ => True :=
  watched_forM (I := fun _ => True) (fun _ _ _ => id) trivial h fun step hs _ h _ =>
    watched_bind (watched_step h current (plays step hs)) fun _ _ h₁ _ _ => watched_pure h₁ trivial

theorem watched_reaction {reaction : Reaction} (h : Workshop own o w) (v : Option Value)
    (plays : reaction.Plays own) :
    Watched own o run watched (reaction.run v) w fun _ _ => True := by
  cases reaction with
  | told name script =>
    refine watched_get (watched_bind (watched_note h nofun nofun) fun _ _ h₁ _ _ => ?_)
    cases v with
    | none => exact watched_pure h₁ trivial
    | some v => exact watched_script h₁ v plays
  | _ => exact plays.elim

/-! Starting. -/

/-- A signal counts as started, and the producer has taken a note of that. -/
def Signal.announced (name : Name) (s : SignalId) (w : World) : World :=
  noting (.started name)
    { begun s w with names := { w.names with emitters := w.names.emitters.insert name s } }

omit [Overseen own o run watched] in
theorem activate_eq {name : Name} {start stop : Script}
    (made : (w.engine s).producer = some (.script name start stop)) (run : Runner) :
    Signal.activate s run w = (do
      start.run .null
      let t ← Subscription.create (.stopped name stop)
      modifySignal s fun signal => { signal with teardown := some t } : Op Unit)
        run (Signal.announced name s w) := by
  have looked : (get : Op World) run w = .ok (w, w) := rfl
  have producer : (w.signals.get s).producer = some (.script name start stop) := made
  have start_eq : Producer.start s (.script name start stop) = (do
      rename fun names => { names with emitters := names.emitters.insert name s }
      note (.started name)
      start.run .null
      Subscription.create (.stopped name stop)) := rfl
  rw [Signal.activate, bind_of_ok looked, producer]
  simp only [start_eq, bind_assoc]
  rfl

omit [Overseen own o run watched] in
/-- What stops the signal is stored. -/
theorem tended_workshop {name : Name} {stop : Script} (h : Workshop own o w)
    (stops : stop.Plays own) (mine : name = own ↔ s ∈ o) :
    Workshop own o (Signal.tended s w.subscriptions.next
      (Subscription.made (.stopped name stop) w)) := by
  have h₁ := h.subscription_made (c := .stopped name stop) stops
  refine h₁.tended (fun hs => ⟨stop, ?_⟩) fun hs => ?_
  · rw [Subscription.made, Heap.get_push_next, mine.2 hs]
  · refine foreign_made ?_
    rintro script ⟨⟩
    exact hs (mine.1 rfl)

omit [Overseen own o run watched] in
theorem Workshop.script_of_idle (h : Workshop own o w) (idle : Signal.isIdle w s = true) :
    (w.engine s).started = false ∧ ∃ name start stop,
      (w.engine s).producer = some (.script name start stop) ∧ start.Plays own ∧ stop.Plays own ∧
        (name = own ↔ s ∈ o) := by
  have parts : ((w.engine s).subscribers.isEmpty && !(w.engine s).started &&
      (w.engine s).producer.isSome) = true := idle
  simp only [Bool.and_eq_true, Bool.not_eq_true', Option.isSome_iff_exists] at parts
  obtain ⟨⟨-, off⟩, p, hp⟩ := parts
  refine ⟨off, ?_⟩
  obtain ⟨plays, mine⟩ := h.producers s p hp
  cases p with
  | script name start stop =>
    refine ⟨name, start, stop, hp, plays.1, plays.2, fun same => mine (decide_eq_true same), ?_⟩
    intro hs
    obtain ⟨start', stop', made⟩ := h.made s hs
    cases hp.symm.trans made
    rfl
  | _ => exact plays.elim

omit [Overseen own o run watched] in
theorem Workshop.announced (h : Workshop own o w) (name : Name) (s : SignalId) :
    Workshop own o (Signal.announced name s w) :=
  (h.begun s).next (fun _ => rfl) (fun _ _ => id) (h.begun s).reactions rfl rfl

omit [Overseen own o run watched] in
/-- What stops the signal is made, and stored. -/
theorem tended_of_ran {name : Name} {stop : Script} (h : Workshop own o w)
    (stops : stop.Plays own) (mine : name = own ↔ s ∈ o) :
    Unaided (do
      let t ← Subscription.create (.stopped name stop)
      modifySignal s fun signal => { signal with teardown := some t } : Op Unit) w fun _ w' =>
        w' = Signal.tended s w.subscriptions.next (Subscription.made (.stopped name stop) w) ∧
          Workshop own o w' ∧ Spared own w w' := by
  have made : Spared own w (Subscription.made (.stopped name stop) w) :=
    fun sub hs => hs.next (made_evolves _ w)
  exact .of_eq (fun _ => rfl) ⟨rfl, tended_workshop h stops mine, Lasting.trans made (.of_eq rfl)⟩

theorem watched_activate (h : Workshop own o w) (idle : Signal.isIdle w s = true) (other : s ∉ o) :
    Watched own o run watched (Signal.activate s) w fun _ _ => True := by
  obtain ⟨-, name, start, stop, made, starts, stops, mine⟩ := h.script_of_idle idle
  have ne : name ≠ own := fun same => other (mine.1 same)
  have begun : Fair own o w (Signal.begun s w) := .of_modify other rfl rfl
  have announced : Fair own o (Signal.begun s w) (Signal.announced name s w) := by
    refine .of_engine (fun _ _ => rfl) (Unaffected.noted ?_ ?_ (Signal.begun s w)).surplus
    · simpa using ne
    · exact Note.noConfusion
  refine watched_from (activate_eq made) (Lasting.trans begun announced) (.of_eq rfl) ?_
  refine watched_bind (watched_script (h.announced name s) .null starts) fun _ w₁ h₁ _ _ => ?_
  refine heeds_of_unaided ((tended_of_ran h₁ stops mine).mono ?_)
  rintro _ _ ⟨rfl, h₂, retains⟩
  have made : Fair own o w₁ (Subscription.made (.stopped name stop) w₁) :=
    .of_engine (fun _ _ => rfl) rfl
  exact ⟨Lasting.trans made (.of_modify other rfl rfl), h₂, retains, trivial⟩

/-- The start function runs, and what stops the signal is made and stored. -/
theorem setup_heeds [Overseen own (some s) run watched] {start stop : Script}
    (h : Workshop own (some s) w) (starts : start.Plays own) (stops : stop.Plays own) :
    Heeds run watched
      (fun w w' => w'.stray own (some s) = w.stray own (some s) ∧
        ((w.engine s).Waking → (w'.engine s).Ready))
      (Foul own (some s)) (do
        start.run .null
        let t ← Subscription.create (.stopped own stop)
        modifySignal s fun signal => { signal with teardown := some t } : Op Unit) w
      fun _ w' => Workshop own (some s) w' ∧ Spared own w w' := by
  have stored : ∀ w₁, Workshop own (some s) w₁ ∧ Spared own w w₁ ∧ True → Heeds run watched
      (fun w₁ w₂ => w₂.stray own (some s) = w₁.stray own (some s) ∧
        ((w₁.engine s).Waking → (w₂.engine s).Ready))
      (Foul own (some s)) (do
        let t ← Subscription.create (.stopped own stop)
        modifySignal s fun signal => { signal with teardown := some t } : Op Unit) w₁
      fun _ w₂ => Workshop own (some s) w₂ ∧ Spared own w w₂ := by
    rintro w₁ ⟨h₁, retains, -⟩
    refine heeds_of_unaided ((tended_of_ran h₁ stops (iff_of_true rfl rfl)).mono ?_)
    rintro _ _ ⟨rfl, h₂, retains'⟩
    have engine : (Signal.tended s w₁.subscriptions.next
        (Subscription.made (.stopped own stop) w₁)).engine s =
          { w₁.engine s with teardown := some w₁.subscriptions.next } :=
      engine_modify (h₁.valid rfl) _
    have surplus : (Signal.tended s w₁.subscriptions.next
        (Subscription.made (.stopped own stop) w₁)).surplus own = w₁.surplus own := rfl
    refine ⟨⟨?_, fun waking => ?_⟩, h₂, Lasting.trans retains retains'⟩
    · rw [stray_of_mem rfl, stray_of_mem rfl, surplus, engine]
    · rw [engine]
      exact ⟨waking.1, Option.some_ne_none _⟩
  refine heeds_bind_of (watched_script h .null starts) (fun _ => stored) ?_ ?_ ?_
  · intro w₁ w₂ fair here
    refine ⟨here.1.trans fair.stray, fun waking => here.2 ?_⟩
    exact fair.waking (fun _ hs => Option.mem_some.1 hs ▸ waking) s rfl
  · rintro w₁ w₂ foul (here | there)
    · have same := here.1
      unfold Foul at *
      omega
    · exact Int.lt_trans foul there
  · exact fun w₁ w₂ fair => Graded.late fair

/-- A signal that is off is started. -/
theorem activate_heeds [Overseen own (some s) run watched] (h : Workshop own (some s) w)
    (idle : Signal.isIdle w s = true) :
    Heeds run watched
      (fun w w' => w'.stray own (some s) = w.stray own (some s) ∧
        ((w.engine s).Off → (w'.engine s).Ready))
      (Foul own (some s)) (Signal.activate s) w
      fun _ w' => Workshop own (some s) w' ∧ Spared own w w' := by
  obtain ⟨off, name, start, stop, made, starts, stops, mine⟩ := h.script_of_idle idle
  obtain rfl : name = own := mine.2 rfl
  have engine : (Signal.announced name s w).engine s = { w.engine s with started := true } :=
    engine_modify (h.valid rfl) _
  have surplus : (Signal.announced name s w).surplus name = w.surplus name + 1 := by
    simp only [World.surplus, Signal.announced, noting, Signal.begun, List.count_cons_self,
      List.count_cons_of_ne (show Note.started name ≠ Note.stopped name from Note.noConfusion)]
    omega
  have stray : (Signal.announced name s w).stray name (some s) = w.stray name (some s) := by
    rw [stray_of_mem rfl, stray_of_mem rfl, surplus, engine, off, Bool.toNat_false, Bool.toNat_true]
    omega
  refine heeds_from (activate_eq made) (setup_heeds (h.announced name s) starts stops)
    (fun w' set => ⟨set.1.trans stray, fun idle => set.2 (engine ▸ ⟨rfl, idle.2.1⟩)⟩)
    fun w' foul => ?_
  unfold Foul at *
  omega

end

/-! Runs. -/

variable {own : Name} {o : Option SignalId} {w w' : World}

/-- What is done for a subscription that is foreign. -/
theorem watched_cancelRun {run watched : Runner} [Overseen own o run watched] {c : Cancel}
    (h : Workshop own o w) (plays : c.Plays own w) (foreign : ∀ script, c ≠ .stopped own script)
    (timely : interrupts own (.cancel c) w = false) :
    Watched own o run watched c.run w fun _ _ => True := by
  cases c with
  | nothing => exact watched_pure h trivial
  | entry s e => exact watched_leave h timely
  | all members =>
    refine watched_forM (I := fun w => ∀ sub ∈ members, Foreign own sub w)
      (fun _ _ retains known sub hs => retains sub (known sub hs)) plays h ?_
    exact fun sub hs _ h known => watched_cancel h (known sub hs)
  | release d => exact plays.elim
  | stopped name script =>
    have ne : name ≠ own := fun same => foreign script (same ▸ rfl)
    refine watched_bind (watched_note h nofun ?_) fun _ _ h₁ _ _ => watched_script h₁ .null plays
    simpa using ne

/-- By induction on how deeply callbacks may be nested. -/
instance overseen_exec (own : Name) (o : Option SignalId) (fuel : Nat) :
    Overseen own o (exec fuel) (execUnless (interrupts own) fuel) := by
  induction fuel with
  | zero =>
    exact ⟨fun _ _ _ _ => heeds_exec_zero _ _ _, fun _ _ _ _ => heeds_exec_zero _ _ _,
      fun _ _ _ => heeds_exec_zero _ _ _, fun _ _ => heeds_exec_zero _ _ _,
      fun _ _ _ => heeds_exec_zero _ _ _, fun _ _ _ => heeds_exec_zero _ _ _⟩
  | succ fuel ih =>
    constructor
    case react =>
      intro w r v h plays
      exact heeds_exec_succ rfl (watched_reaction h v plays)
    case script =>
      intro w script current h plays
      exact heeds_exec_succ rfl (watched_script h current plays)
    case cancel =>
      intro w c h plays foreign
      cases objected : interrupts own (.cancel c) w with
      | false => exact heeds_exec_succ objected (watched_cancelRun h plays foreign objected)
      | true =>
        cases c with
        | entry s e =>
          obtain ⟨w', ran, h', retains, foul⟩ := leave_foul h objected (exec fuel)
          exact heeds_exec_objected objected ran ⟨h', retains, trivial⟩ foul
        | _ => cases objected
    case stop =>
      intro w script h plays
      have h₁ : Workshop own o (noting (.stopped own) w) :=
        h.next (fun _ => rfl) (fun _ _ => id) h.reactions rfl rfl
      have runs : Watched own o (exec fuel) (execUnless (interrupts own) fuel)
          (Script.run .null script) (noting (.stopped own) w) fun _ _ => True :=
        watched_script h₁ .null plays
      refine heeds_exec_succ rfl (heeds_from (x := Script.run .null script) (fun _ => rfl)
        (Heeds.weaken runs ?_) (fun _ => id) fun _ => id)
      rintro _ w' ⟨h', retains, -⟩
      exact ⟨h', retains⟩
    case startOther =>
      intro w s h idle other
      exact heeds_exec_succ rfl (watched_activate h idle other)
    case start =>
      intro w s h idle hs
      obtain rfl := Option.mem_def.1 hs
      exact heeds_exec_succ rfl (activate_heeds h idle)

/-- The signal is started if and only if somebody is subscribed, and its producer was started as
often as it was stopped, and once more while the signal is started. -/
def InPairs (own : Name) (s : SignalId) (w : World) : Prop :=
  ((w.engine s).started = true ↔ (w.engine s).subscribers ≠ []) ∧
    w.log.count (.started own) =
      w.log.count (.stopped own) + if (w.engine s).started then 1 else 0

instance (own : Name) (s : SignalId) (w : World) : Decidable (InPairs own s w) :=
  inferInstanceAs (Decidable (_ ∧ _))

theorem paired_iff {s : SignalId} : InPairs own s w ↔
    ((w.engine s).started = true ↔ (w.engine s).subscribers ≠ []) ∧ w.stray own (some s) = 0 := by
  refine and_congr_right fun _ => ?_
  rw [stray_of_mem rfl, World.surplus]
  cases (w.engine s).started with
  | false =>
    rw [if_neg Bool.false_ne_true, Bool.toNat_false]
    omega
  | true =>
    rw [if_pos rfl, Bool.toNat_true]
    omega

theorem paired_of_rest {s : SignalId} (rest : (w.engine s).AtRest)
    (even : w.stray own (some s) = 0) : InPairs own s w := by
  refine paired_iff.2 ⟨?_, even⟩
  rcases rest with off | on
  · exact iff_of_false (by simp [off.1]) (not_not.2 off.2.2)
  · exact iff_of_true on.1 on.2.2

/-- A session in which a lazy signal is made starts with nothing. -/
theorem Workshop.empty (own : Name) : Workshop own none .empty :=
  ⟨nofun, nofun, fun _ => (nofun : ∀ step ∈ [], _), nofun, nofun, nofun, nofun⟩

/-- The step that makes the signal. -/
theorem lazy_opens (h : Workshop own none w) (v : Literal) {start stop : Script}
    (starts : start.Plays own) (stops : stop.Plays own) (current : Value) :
    Unaided ((Step.lazy own v start stop).run current) w fun _ w' => ∃ s,
      Workshop own (some s) w' ∧ (w'.engine s).Off ∧ w'.stray own (some s) = w.stray own none := by
  have literal : Inert own v.eval := inert_literal v
  refine (literal w).bind fun v w₁ u => ?_
  have made : Workshop own (some w₁.signals.next)
      (Signal.added (some v) (some (.script own start stop)) w₁) :=
    (h.unaffected u).opened (some v) starts stops
  let w₂ := Signal.called own w₁.signals.next .readable
    (Signal.added (some v) (some (.script own start stop)) w₁)
  have opened : Workshop own (some w₁.signals.next) w₂ :=
    made.unaffected (.of_eq rfl rfl rfl rfl rfl)
  have engine : w₂.engine w₁.signals.next = ⟨some (.script own start stop), false, none, []⟩ :=
    (added_engine (some v) _ _).trans (if_pos rfl)
  have surplus : w₂.surplus own = w.surplus own := u.surplus
  have stray : w₂.stray own (some w₁.signals.next) = w.stray own none := by
    rw [stray_of_mem rfl, engine, surplus]
    rfl
  exact .of_eq (fun _ => rfl) ⟨_, opened, engine ▸ ⟨rfl, rfl, rfl⟩, stray⟩

theorem script_append (a b : Script) (current : Value) :
    Script.run current (a ++ b) = Script.run current a >>= fun _ => Script.run current b :=
  List.forM_append ..

theorem script_cons (step : Step) (script : Script) (current : Value) :
    Script.run current (step :: script) =
      step.run current >>= fun _ => Script.run current script := by
  have unfolded : Script.run current (step :: script) =
      (step.run current >>= fun _ => pure ()) >>= fun _ => Script.run current script := rfl
  rw [unfolded, bind_assoc]
  simp only [pure_bind]

/-- In a session of signals and subscriptions the producer of a lazy signal is started and stopped
in pairs if and only if the last subscriber never leaves while the start function is running. -/
theorem paired_iff_timely {before after : Script} {v : Literal} {start stop : Script} {fuel : Nat}
    {s : SignalId} (befores : before.Plays own) (starts : start.Plays own) (stops : stop.Plays own)
    (afters : after.Plays own)
    (ran : runFrom fuel .empty (Script.run .null (before ++ .lazy own v start stop :: after)) =
      .ok ((), w'))
    (made : (w'.engine s).producer.any (·.hasName own) = true) :
    InPairs own s w' ↔ Script.run .null (before ++ .lazy own v start stop :: after)
      (execUnless (interrupts own) fuel) .empty = .ok ((), w') := by
  unfold runFrom at ran
  rw [script_append, script_cons] at ran ⊢
  obtain ⟨_, w₁, ran₁, ran⟩ := ok_of_bind ran
  obtain ⟨_, w₂, ran₂, ran₃⟩ := ok_of_bind ran
  have first : Watched own none (exec fuel) (execUnless (interrupts own) fuel)
      (Script.run .null before) .empty fun _ _ => True := watched_script (.empty own) .null befores
  obtain ⟨⟨h₁, -⟩, graded₁⟩ := first _ _ ran₁
  have opens := lazy_opens h₁ v starts stops .null
  obtain ⟨s', h₂, off, stray⟩ := opens.ensures _ _ _ ran₂
  have last : Watched own (some s') (exec fuel) (execUnless (interrupts own) fuel)
      (Script.run .null after) w₂ fun _ _ => True := watched_script h₂ .null afters
  obtain ⟨⟨h₃, -⟩, graded₃⟩ := last _ _ ran₃
  obtain rfl : s' = s := Option.some.inj (h₃.hasName_iff.1 made)
  have none : World.empty.stray own none = 0 := rfl
  have lost : 0 < w'.stray own (some s') → ¬ InPairs own s' w' :=
    fun more paired => Int.lt_irrefl 0 ((paired_iff.1 paired).2 ▸ more)
  rw [opens.same _ (execUnless (interrupts own) fuel)] at ran₂
  rcases graded₁ with ⟨same₁, fair₁⟩ | ⟨⟨e, stopped⟩, foul₁⟩
  · rw [bind_of_ok same₁, bind_of_ok ran₂]
    rcases graded₃ with ⟨same₃, fair₃⟩ | ⟨⟨e, stopped⟩, foul₃⟩
    · refine iff_of_true (paired_of_rest ?_ ?_) same₃
      · exact fair₃.rest (fun _ hs => Option.mem_some.1 hs ▸ .inl off) s' rfl
      · rw [fair₃.stray, stray, fair₁.stray, none]
    · refine iff_of_false (lost ?_) fun same => nomatch stopped.symm.trans same
      have even := fair₁.stray
      unfold Foul at foul₃
      omega
  · have more : 0 < w'.stray own (some s') := by
      unfold Foul at foul₁
      rcases graded₃ with ⟨-, fair₃⟩ | ⟨-, foul₃⟩
      · have even := fair₃.stray
        omega
      · unfold Foul at foul₃
        omega
    exact iff_of_false (lost more) fun same => nomatch (bind_of_error stopped).symm.trans same

/-- A start function that emits, with a subscriber of its own meanwhile. -/
def greeting : Script :=
  [.subscribe "echo" "feed" .normal [], .emit "feed" fun _ => .done (.string "ready")]

/-- A lazy signal to which somebody subscribes, and is gone again. -/
def visited (start : Script) : Script :=
  [.signal "other" (.plain .null)] ++ .lazy "feed" (.plain .null) start [] ::
    [.subscribe "visit" "feed" .immediate [], .unsubscribe "visit"]

theorem paired_iff_timely_greeting :
    InPairs "feed" ⟨1⟩ (afterwards .empty (Script.run .null (visited greeting))) ↔
      Script.run .null (visited greeting) (execUnless (interrupts "feed") 10) .empty =
        .ok ((), afterwards .empty (Script.run .null (visited greeting))) := by
  have greets : Script.Plays "feed" greeting := by
    rintro step (_ | ⟨_, _ | ⟨_, ⟨⟩⟩⟩)
    · exact .subscribe nofun
    · exact .emit fun _ => .done _
  have befores : Script.Plays "feed" [.signal "other" (.plain .null)] := by
    rintro step (_ | ⟨_, ⟨⟩⟩)
    exact .signal _ _
  have afters : Script.Plays "feed"
      [.subscribe "visit" "feed" .immediate [], .unsubscribe "visit"] := by
    rintro step (_ | ⟨_, _ | ⟨_, ⟨⟩⟩⟩)
    · exact .subscribe nofun
    · exact .unsubscribe _
  have ran : runFrom 10 .empty (Script.run .null (visited greeting)) =
      .ok ((), afterwards .empty (Script.run .null (visited greeting))) :=
    runFrom_afterwards _ _ (by decide +kernel)
  have made : ((afterwards .empty (Script.run .null (visited greeting))).engine ⟨1⟩).producer.any
      (·.hasName "feed") = true := by decide +kernel
  exact paired_iff_timely befores greets nofun afters ran made

/-- A start function that takes its own subscriber off again. -/
def fleeting : Script :=
  [.subscribe "in" "feed" .normal [], .unsubscribe "in"]

/-- The start function has run once, and what it returned is never cancelled. -/
theorem unpaired_of_fleeting :
    ∃ w', runFrom 10 .empty (Script.run .null (visited fleeting)) = .ok ((), w') ∧
      ¬ InPairs "feed" ⟨1⟩ w' := by
  refine ⟨_, runFrom_afterwards _ _ (by decide +kernel), ?_⟩
  decide +kernel

end LiveMarkup.Live
