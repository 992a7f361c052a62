import LiveMarkup.Proofs.Stopping
import LiveMarkup.Proofs.Steps

/-!
Networks: whatever is done to a network of derived signals and matches leaves it balanced. A round may
be under way meanwhile, for those whom it has still to tell are looked at one at a time.
-/
namespace LiveMarkup.Live

instance : Lasting Develops := ⟨.refl, .trans⟩

section
variable {run : Runner} [Balances run] {w : World} {s : SignalId} {d : DerivationId}

/-! Rounds. -/

omit [Balances run] in
theorem marked_poised {n : Nat} {e : EntryId} (h : Poised NoNode NoNode w) (c : Callable s n e w)
    (active : (w.entries.get e).active = true)
    (unseen : (w.entries.get e).seen < (w.signals.get s).version) :
    Poised NoNode NoNode (Signal.marked s n e w) :=
  ⟨(marked_same s n e w).balanced h.toBalanced fun _ _ hn => .inl hn,
    (marked_called h.faithful c active unseen).faithful⟩

theorem tell_balances [KeptBy Delivers run] {n : Nat} {e : EntryId} (h : Poised NoNode NoNode w)
    (c : Callable s n e w) :
    Ensures run (Signal.tell s n e) w fun _ w' => Balanced NoNode NoNode w' ∧ Develops w w' := by
  intro _ w' hw'
  rw [tell_eq] at hw'
  split at hw'
  case isFalse =>
    cases hw'
    exact ⟨h.toBalanced, .refl w⟩
  case isTrue due =>
    simp only [Bool.and_eq_true, decide_eq_true_eq] at due
    have same := marked_same s n e w
    have h₁ : Poised NoNode NoNode (Signal.marked s n e w) := marked_poised h c due.1 due.2
    have after : ∀ {w'}, Balanced NoNode NoNode w' ∧ Develops (Signal.marked s n e w) w' →
        Balanced NoNode NoNode w' ∧ Develops w w' :=
      fun ⟨balanced, dev⟩ => ⟨balanced, same.toDevelops.trans dev⟩
    have proper := h.reactions e
    cases hr : (w.entries.get e).reaction with
    | told name script =>
      rw [hr] at hw' proper
      exact after (Balances.told proper h₁ hw')
    | refresh d =>
      rw [hr] at hw' proper
      have link : e ∈ links w (w.derivations.get d).output s := by
        refine mem_links.2 ⟨((h.faithful.signals s).active e c.joined).1 due.1, ?_⟩
        rw [hr]
        rfl
      have started := (h.toBalanced.started_of_link id link).1
      rw [← same.started _ id, ← same.output] at started
      exact after (Balances.refresh h₁ (same.real.2 proper) started hw')
    | branch a =>
      rw [hr] at hw'
      exact after (Balances.branch h₁ hw')
    | followed name script =>
      rw [hr] at proper
      exact proper.elim
    | effect node e =>
      rw [hr] at hw'
      have beside : Beside (Signal.marked s n _ w) w' := Balances.effect hw'
      exact after ⟨beside.balanced h₁.toBalanced, beside.same.toDevelops⟩

theorem replace_balances [KeptBy Delivers run] (h : Poised NoNode NoNode w) (value : Option Value) :
    Ensures run (Signal.replace s value) w fun _ w' =>
      Balanced NoNode NoNode w' ∧ Develops w w' := by
  intro a w' hw'
  rw [replace_eq] at hw'
  let I : World → Prop := fun w' => Balanced NoNode NoNode w' ∧ Develops w w'
  have keeps : ∀ n e w₁, Faithful w₁ → Callable s n e w₁ → I w₁ →
      Ensures run (Signal.tell s n e) w₁ fun _ w₂ => I w₂ := by
    rintro n e w₁ faithful₁ c ⟨balanced₁, dev₁⟩
    refine (tell_balances ⟨balanced₁, faithful₁⟩ c).mono ?_
    rintro _ w₂ ⟨balanced₂, dev₂⟩
    exact ⟨balanced₂, dev₁.trans dev₂⟩
  have same := changed_same s value w
  have changed : I (Signal.changed s value w) :=
    ⟨same.balanced h.toBalanced fun _ _ hn => .inl hn, same.toDevelops⟩
  exact (tellAll_calls value keeps h.faithful changed a w' hw').2

theorem write_balances [KeptBy Delivers run] (h : Poised NoNode NoNode w) (value : Option Value) :
    Ensures run (Signal.write s value) w fun _ w' =>
      Balanced NoNode NoNode w' ∧ Develops w w' := by
  refine (ensures_bind ..).2 ((ensures_get _).2 ?_)
  split
  case isTrue => exact (ensures_pure ..).2 ⟨h.toBalanced, .refl w⟩
  case isFalse => exact replace_balances h value

/-! Nodes that are told of a change. -/

omit [Balances run] in
/-- A derived signal that is started is bound to what it depends on. -/
theorem Balanced.bound {D P : SignalId → Prop} (h : Balanced D P w) (real : Real d w)
    (out : ¬ D (w.derivations.get d).output)
    (started : (w.signals.get (w.derivations.get d).output).started = true) :
    Bound d (w.derivations.get d).tracked w := by
  constructor
  · intro t
    rw [h.linked _ out]
    simp only [started, needs_of_derivation h.toLaid real, true_and]
  · obtain ⟨t, c, ht, hc, takes⟩ := h.tended _ out started
    rcases (h.teardown _ t ht).2 c hc with ⟨d', rfl, hd⟩ | ⟨s, e, b, rfl, -, -, hb⟩
    · unfold Real at real
      rw [real] at hd
      cases hd
      exact takes
    · unfold Real at real
      rw [real] at hb
      cases hb

omit [Balances run] in
/-- A derived signal is done refreshing when it is bound to what it depends on. -/
theorem Bound.settles {D : SignalId → Prop}
    (bound : Bound d (w.derivations.get d).tracked w)
    (h : Balanced (fun m => D m ∨ m = (w.derivations.get d).output) NoNode w) (real : Real d w)
    (observed : (w.signals.get (w.derivations.get d).output).subscribers ≠ [])
    (started : (w.signals.get (w.derivations.get d).output).started = true)
    {t : SubscriptionId} (teardown : (w.signals.get (w.derivations.get d).output).teardown = some t)
    (handle : w.subscriptions.get t = some (.release d)) : Balanced D NoNode w := by
  refine h.settle (fun _ _ => observed) (fun _ hm => hm) (fun s => ?_) fun _ =>
    ⟨t, .release d, teardown, handle, bound.held⟩
  rw [bound.count]
  simp only [started, needs_of_derivation h.toLaid real, true_and]

omit [Balances run] in
theorem Poised.atWork (h : Poised NoNode NoNode w) (real : Real d w) :
    AtWork (fun m => NoNode m ∨ m = (w.derivations.get d).output) d w := by
  refine ⟨⟨h.toBalanced.mono (fun _ => .inl) fun _ hm => hm.elim, h.faithful⟩, .inr rfl, real, ?_⟩
  rintro _ (no | rfl)
  · exact no.elim
  · exact Nat.le_refl _

/-- A derived signal that computes anew subscribes to what is new among its sources. -/
theorem recompute_balances [KeptBy Delivers run] (h : Poised NoNode NoNode w) (real : Real d w)
    (started : (w.signals.get (w.derivations.get d).output).started = true) :
    Ensures run ((w.derivations.get d).reading.run (.recording d)) w fun _ w' =>
      Poised NoNode NoNode w' ∧ Develops w w' := by
  let n := (w.derivations.get d).output
  obtain ⟨t, c, ht, hc, -⟩ := h.tended n id started
  have release : c = .release d := by
    rcases (h.teardown n t ht).2 c hc with ⟨d', rfl, hd⟩ | ⟨_, _, b, -, -, -, hb⟩
    · cases hd.symm.trans real
      rfl
    · cases hb.symm.trans real
  have bound := h.toBalanced.bound real id started
  have pure := (h.producers _ _ real).2.2.1
  intro v w₁ hw₁
  obtain ⟨balanced₁, rises₁, bound₁⟩ := reading_balances pure rfl (h.atWork real) rfl bound _ _ hw₁
  have same : w₁.signals.get n = w.signals.get n := rises₁.above n (Nat.le_refl _)
  have output : (w₁.derivations.get d).output = n := rises₁.output d
  refine ⟨h.next (keeps_reading _ _ w _ _ hw₁) ?_, rises₁.toDevelops⟩
  refine bound₁.settles (by rwa [output]) (rises₁.real.2 real) ?_ ?_ (t := t) ?_ ?_
  · rw [output, same]
    exact h.observed n id id started
  · rw [output, same]
    exact started
  · rw [output, same]
    exact ht
  · rw [rises₁.handle t (h.teardown n t ht).1, hc, release]

/-- A derived signal that is told of a change computes anew, and tells its own subscribers. -/
theorem refresh_balances [KeptBy Delivers run] (h : Poised NoNode NoNode w) (real : Real d w)
    (started : (w.signals.get (w.derivations.get d).output).started = true) :
    Ensures run (Derivation.refresh d) w fun _ w' =>
      Balanced NoNode NoNode w' ∧ Develops w w' := by
  refine (ensures_bind ..).2 ((ensures_get _).2 ((ensures_bind ..).2 ?_))
  refine (recompute_balances h real started).mono fun v w₁ ⟨h₁, dev₁⟩ => ?_
  refine (write_balances h₁ (some v)).mono ?_
  rintro _ w₂ ⟨balanced₂, dev₂⟩
  exact ⟨balanced₂, dev₁.trans dev₂⟩

/-- A match that is shown a value computes what it makes of it, and tells its own subscribers. -/
theorem offer_balances [KeptBy Delivers run] (h : Poised NoNode NoNode w) (a : ActivationId)
    (v : Value) :
    Ensures run (Branch.offer a v) w fun _ w' => Balanced NoNode NoNode w' ∧ Develops w w' := by
  let I : World → Prop := fun w' => Poised NoNode NoNode w' ∧ Develops w w'
  have offered : Ensures run (Branch.offer a v) w fun _ w' => I w' :=
    offer_ensures (I := I) rfl ?_ ?_ ⟨h, .refl w⟩ v
  · exact offered.mono fun _ _ ⟨h', dev⟩ => ⟨h'.toBalanced, dev⟩
  · rintro w₁ w₂ ⟨h₁, dev₁⟩ beside
    exact ⟨h₁.next (.apart beside.signals beside.entries) (beside.balanced h₁.toBalanced),
      dev₁.trans beside.same.toDevelops⟩
  · rintro w₁ value ⟨h₁, dev₁⟩ _ w₂ hw₂
    obtain ⟨balanced₂, dev₂⟩ := write_balances h₁ value _ _ hw₂
    exact ⟨h₁.next (keeps_write _ _ w₁ _ _ hw₂) balanced₂, dev₁.trans dev₂⟩

/-! Steps. -/

omit [Balances run] in
/-- What keeps a network balanced keeps its signals recorded, too. -/
theorem Poised.ensures {α : Type} {x : Op α} (h : Poised NoNode NoNode w)
    (keeps : Keeps Delivers run x)
    (balances : Ensures run x w fun _ w' => Balanced NoNode NoNode w' ∧ Develops w w') :
    Ensures run x w fun _ w' => Poised NoNode NoNode w' ∧ Develops w w' := by
  intro a w' hw'
  obtain ⟨balanced, dev⟩ := balances a w' hw'
  exact ⟨h.next (keeps w a w' hw') balanced, dev⟩

omit [Balances run] in
/-- A subscriber that runs a script may be called as it joins. -/
theorem greeted_poised (h : Poised NoNode (· = s) w) {name : Name} {script : Script}
    (steps : ∀ step ∈ script, step.Operates)
    (running : (w.signals.get s).producer ≠ none → (w.signals.get s).started = true) :
    Poised NoNode NoNode (Signal.greeted s w.entries.next
      (Signal.entered s (.told name script) .immediate w)) := by
  have proper : Reaction.Proper w (.told name script) := steps
  have entered := entered_balanced h.faithful h.toBalanced .immediate proper nofun running
  have delivers : Delivers w (Signal.greeted s w.entries.next
      (Signal.entered s (.told name script) .immediate w)) :=
    joined_delivers s (.told name script) .immediate (Heap.modify_modify ..) rfl
  exact h.next delivers ((greeted_same s _ _).balanced entered fun _ _ hn => .inl hn)

/-- A subscriber that runs a script joins, and runs it at once if it asked for that. -/
theorem joinScript_balances (h : Poised NoNode (· = s) w) {name : Name} {script : Script}
    (steps : ∀ step ∈ script, step.Operates)
    (running : (w.signals.get s).producer ≠ none → (w.signals.get s).started = true) (mode : Mode) :
    Ensures run (Signal.join s (.told name script) mode) w fun e w' =>
      Balanced NoNode NoNode w' ∧ Develops w w' ∧ e.index < w'.entries.size ∧
        (w'.entries.get e).reaction = .told name script := by
  have proper : Reaction.Proper w (.told name script) := steps
  have balanced₁ (mode : Mode) :
      Balanced NoNode NoNode (Signal.entered s (.told name script) mode w) :=
    entered_balanced h.faithful h.toBalanced mode proper nofun running
  have known (mode : Mode) :
      w.entries.next.index < (Signal.entered s (.told name script) mode w).entries.size := by
    simp [Signal.entered, Heap.next]
  cases mode with
  | normal =>
    refine (join_ensures s _).mono ?_
    rintro _ _ ⟨rfl, rfl⟩
    exact ⟨balanced₁ .normal, entered_develops s _ .normal w, known .normal, entered_reaction s _ .normal⟩
  | immediate =>
    let w₁ := Signal.entered s (.told name script) .immediate w
    let w₂ := Signal.greeted s w.entries.next w₁
    have same₂ : Same w₁ w₂ := greeted_same s w.entries.next w₁
    have h₂ : Poised NoNode NoNode w₂ := greeted_poised h steps running
    simp only [Signal.join, Signal.enter, Signal.greet, modifySignal, ensures_bind, ensures_get,
      ensures_set, ensures_pure, if_true, ensures_modify, ensures_invoke]
    intro w₃ hw₃
    obtain ⟨balanced₃, dev₃⟩ := Balances.told steps h₂ hw₃
    have dev := same₂.toDevelops.trans dev₃
    exact ⟨balanced₃, (entered_develops s _ .immediate w).trans dev,
      Nat.lt_of_lt_of_le (known .immediate) dev.entries,
      (dev.reaction _ (known .immediate)).trans (entered_reaction s _ .immediate)⟩

theorem subscribeScript_balances [KeptBy Delivers run] (h : Poised NoNode NoNode w) {name : Name}
    {script : Script} (steps : ∀ step ∈ script, step.Operates) (mode : Mode) :
    Ensures run (Signal.subscribe s (.told name script) mode) w fun sub w' =>
      Balanced NoNode NoNode w' ∧ Develops w w' ∧ Leads (OfScript w') sub w' := by
  refine (ensures_bind ..).2 fun _ w₁ hw₁ => ?_
  obtain ⟨balanced₁, rises₁, running⟩ := wake_balances h id (fun _ hd => hd.elim) _ _ hw₁
  have h₁ : Poised NoNode (· = s) w₁ := h.next (keeps_wake s w _ _ hw₁) balanced₁
  refine (ensures_bind ..).2 ((joinScript_balances h₁ steps running mode).mono ?_)
  rintro e w₂ ⟨balanced₂, dev₂, known, reaction⟩
  simp only [Subscription.create, ensures_bind, ensures_get, ensures_set, ensures_pure]
  have same₃ := made_same (.entry s e) w₂
  exact ⟨same₃.balanced balanced₂ fun _ _ hn => .inl hn,
    (rises₁.toDevelops.trans dev₂).trans same₃.toDevelops,
    made_leads _ ⟨s, e, name, script, rfl, known, reaction⟩⟩

omit [Balances run] in
/-- A subscription that gets a name. -/
theorem named_balanced (h : Balanced NoNode NoNode w) (name : Name) {sub : SubscriptionId}
    (leads : Leads (OfScript w) sub w) :
    let w' := { w with names :=
      { w.names with subscriptions := w.names.subscriptions.insert name sub } }
    Balanced NoNode NoNode w' ∧ Develops w w' := by
  intro w'
  have ev : Evolves w w' :=
    ⟨rfl, fun _ => rfl, rfl, fun _ => rfl, fun _ => rfl, rfl, Nat.le_refl _, fun _ _ => rfl,
      Nat.le_refl _, fun _ _ => .inl rfl⟩
  have same : Same w w' := .of_signals ev rfl rfl rfl (fun _ => rfl) (fun _ => rfl) (fun _ => rfl)
    (fun _ => rfl) fun _ _ => rfl
  refine ⟨same.balanced h fun other sub' hn => ?_, same.toDevelops⟩
  by_cases ho : other = name
  · subst ho
    simp only [w', Ordered.get?_insert_self, Option.some.injEq] at hn
    exact .inr (hn ▸ leads)
  · simp only [w', Ordered.get?_insert_of_ne _ ho] at hn
    exact .inl hn

omit [Balances run] in
/-- A subscription that has a name takes off a subscriber that runs a script. -/
theorem Laid.permits (h : Laid w) {name : Name} {sub : SubscriptionId}
    (named : w.names.subscriptions.get? name = some sub) : Leads (Permits NoNode w) sub w := by
  obtain ⟨made, imp⟩ := h.named name sub named
  refine ⟨made, fun c hc => .entry ?_⟩
  obtain ⟨s, e, name, script, rfl, known, reaction⟩ := imp c hc
  refine ⟨s, e, rfl, known, ?_⟩
  rw [reaction]
  exact nofun

theorem upkeep_balances [KeptBy Delivers run] : Upkeep run (Poised NoNode NoNode) Develops where
  idling h idling :=
    ⟨h.next (.apart idling.signals idling.entries) (idling.toBeside.balanced h.toBalanced),
      idling.toBeside.same.toDevelops⟩
  replace value h _ := h.ensures (keeps_replace _ _) (replace_balances h value)
  subscribe mode h operates := by
    refine h.ensures (keeps_bind (keeps_subscribe _ _ _) fun _ => keeps_nameSubscription _ _) ?_
    refine (ensures_bind ..).2 ((subscribeScript_balances h operates mode).mono ?_)
    rintro sub w₁ ⟨balanced₁, dev₁, leads⟩
    refine (ensures_modify ..).2 ?_
    obtain ⟨balanced₂, dev₂⟩ := named_balanced balanced₁ _ leads
    exact ⟨balanced₂, dev₁.trans dev₂⟩
  cancel h named := by
    refine h.ensures (keeps_cancel _) ((cancel_balances h (h.toLaid.permits named)).mono ?_)
    exact fun _ _ ⟨balanced, sheds, _⟩ => ⟨balanced, sheds.toDevelops⟩
  script current h operates := by
    refine h.ensures (keeps_invoke _) ((ensures_invoke ..).2 fun w' hw' => ?_)
    exact Balances.script operates h hw'

end

/-- By induction on the fuel. -/
instance balances_exec (fuel : Nat) : Balances (exec fuel) := by
  induction fuel with
  | zero => constructor <;> intros <;> contradiction
  | succ fuel ih =>
    constructor
    · intro steps current w w' operates h run
      obtain ⟨h', dev⟩ := upkeep_balances.steps h current operates _ _ run
      exact ⟨h'.toBalanced, dev⟩
    · intro name steps v w w' operates h run
      obtain ⟨h', dev⟩ := upkeep_balances.told h name v operates _ _ run
      exact ⟨h'.toBalanced, dev⟩
    · exact fun h real started run => refresh_balances h real started _ _ run
    · exact fun h run => offer_balances h _ _ _ _ run
    · exact fun {n e v w w'} run => apply_beside e n _ w () w' run
    · exact fun output nobody run => offer_hushed output nobody _ _ _ run
    · exact fun h out produced nobody idle before run =>
        activate_balances h out produced nobody idle before _ _ run
    · exact fun h permits run => cancelRun_balances h permits _ _ run

end LiveMarkup.Live
