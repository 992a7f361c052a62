import LiveMarkup.Proofs.Reckoning

/-!
Bookkeeping: whatever goes on in a network keeps the accounts of a match. In a round on the source the
match is offered the new value once; stops and other rounds pass it by, or write its output only through
deeds.
-/
namespace LiveMarkup.Live

section
variable (b : BranchId) {run : Runner} [Reckons b run] [Balances run] [KeptBy Delivers run]
  {D : SignalId → Prop} {w : World} {s n : SignalId} {d : DerivationId} {e : EntryId} {c : Cancel}

/-! Stopping. -/

omit [Balances run] [KeptBy Delivers run] in
theorem cancel_accounts (sealed : Sealed w) (h : Poised D NoNode w) {sub : SubscriptionId}
    (leads : Leads (Permits D w) sub w) :
    Ensures run (Subscription.cancel sub) w fun _ w' => Accounts b 1 w w' := by
  refine (ensures_bind ..).2 ((ensures_get _).2 ?_)
  cases hc : w.subscriptions.get sub with
  | none => exact (ensures_pure ..).2 (Lasting.refl w)
  | some c =>
    refine (ensures_bind ..).2 ((ensures_modify ..).2 ((ensures_invoke ..).2 fun w' hw' => ?_))
    obtain ⟨h₁, permits₁⟩ := spent_poised h hc (leads.2 c hc)
    have spent : Accounts b 1 w (Subscription.spent sub w) := (spent_passes sub).accounts
    exact Lasting.trans spent (Reckons.cancel (sealed.next spent.toDevelops) h₁ permits₁ hw')

/-- By induction on the handles. -/
theorem cancelEach_accounts {l : List SubscriptionId} (sealed : Sealed w) (h : Poised D NoNode w)
    (leads : ∀ sub ∈ l, Leads (Unneeded D w) sub w) :
    Ensures run (Subscription.cancelEach l) w fun _ w' => Accounts b 1 w w' := by
  induction l generalizing w with
  | nil => exact (ensures_pure ..).2 (Lasting.refl w)
  | cons sub l ih =>
    refine (ensures_bind ..).2 fun _ w₁ hw₁ => ?_
    obtain ⟨made, imp⟩ := leads sub List.mem_cons_self
    have permits : Leads (Permits D w) sub w := ⟨made, fun c hc => .entry (imp c hc)⟩
    obtain ⟨balanced₁, sheds₁, -⟩ := cancel_balances h permits _ _ hw₁
    have cancelled : Accounts b 1 w w₁ := cancel_accounts b sealed h permits _ _ hw₁
    have h₁ : Poised D NoNode w₁ := h.next (keeps_cancel sub w _ _ hw₁) balanced₁
    refine (ih (sealed.next cancelled.toDevelops) h₁ fun sub' hs => ?_).mono
      fun _ w₂ others => Lasting.trans cancelled others
    exact sheds₁.leads (leads sub' (List.mem_cons_of_mem _ hs)) fun _ hc =>
      hc.next h.toLaid sheds₁.toDevelops

omit [Balances run] [KeptBy Delivers run] in
theorem stop_accounts (sealed : Sealed w) (h : Poised D (· = s) w) :
    Ensures run (Signal.stop s) w fun _ w' => Accounts b 1 w w' := by
  refine (ensures_bind ..).2 ((ensures_get _).2 ?_)
  by_cases ends : ((w.signals.get s).subscribers.isEmpty && (w.signals.get s).started) = true
  case neg =>
    rw [if_neg ends]
    exact (ensures_pure ..).2 (Lasting.refl w)
  rw [if_pos ends]
  simp only [Bool.and_eq_true, List.isEmpty_iff] at ends
  refine (ensures_bind ..).2 ((ensures_modify ..).2 ?_)
  have stopped : Accounts b 1 w (Signal.stopped s w) :=
    (flags_passes s (fun _ => false) fun _ => none).accounts
  cases ht : (w.signals.get s).teardown with
  | none => exact (ensures_pure ..).2 stopped
  | some t =>
    refine (cancel_accounts b (sealed.next stopped.toDevelops) (stopped_poised h ends.1)
      (stopped_leads h ht)).mono ?_
    exact fun _ w₂ cancelled => Lasting.trans stopped cancelled

omit [Balances run] [KeptBy Delivers run] in
theorem leave_accounts (sealed : Sealed w) (h : Poised D NoNode w)
    (outside : ∀ n, (w.entries.get e).reaction.node? w = some n → D n) :
    Ensures run (Signal.leave s e) w fun _ w' => Accounts b 1 w w' := by
  refine (ensures_bind ..).2 fun _ w₁ hw₁ => ?_
  have delivers : Delivers w w₁ := keeps_drop s e w _ _ hw₁
  cases drop_ensures s e run w _ _ hw₁
  have balanced₁ := dropped_balanced h.toBalanced s outside
  have dropped : Accounts b 1 w (Signal.dropped s e w) := (dropped_passes s e).accounts
  refine (stop_accounts b (sealed.next dropped.toDevelops) (h.next delivers balanced₁)).mono ?_
  exact fun _ w₂ stopped => Lasting.trans dropped stopped

omit [Balances run] [KeptBy Delivers run] in
theorem release_accounts (sealed : Sealed w) (h : Poised D NoNode w)
    (hd : D (w.derivations.get d).output) :
    Ensures run (Derivation.release d) w fun _ w' => Accounts b 1 w w' := by
  refine (ensures_bind ..).2 ((ensures_get _).2 ((ensures_bind ..).2 ((ensures_modify ..).2 ?_)))
  simp only [Subscription.create, ensures_bind, ensures_get, ensures_set, ensures_pure]
  obtain ⟨h₂, -, leads⟩ := released_poised h hd
  have held : Accounts b 1 w (Derivation.holding d (fun _ => []) w) :=
    (cell_passes d (fun cell => { cell with subscriptions := [] }) (fun _ => rfl) fun _ => rfl).accounts
  have released := Lasting.trans held (made_passes (.all (w.derivations.get d).subscriptions)).accounts
  refine (cancel_accounts b (sealed.next released.toDevelops) h₂ leads).mono ?_
  exact fun _ w₃ cancelled => Lasting.trans released cancelled

/-- By cases on what is cancelled. -/
theorem cancelRun_accounts (sealed : Sealed w) (h : Poised D NoNode w) (permits : Permits D w c) :
    Ensures run c.run w fun _ w' => Accounts b 1 w w' := by
  cases permits with
  | entry unneeded =>
    obtain ⟨s, e, rfl, -, outside⟩ := unneeded
    exact leave_accounts b sealed h outside
  | all leads => exact cancelEach_accounts b sealed h leads
  | release _ hd => exact release_accounts b sealed h hd

/-! Rounds. -/

/-- Whoever offers values to a match is the only one of its subscribers to do so, and listens to the
source of the match while that is started. -/
theorem Balanced.serving {b : BranchId} {a : ActivationId} (h : Balanced NoNode NoNode w)
    (sealed : Sealed w) (member : e ∈ (w.signals.get s).subscribers) (serves : Serves w b a e) :
    s = (w.branches.get b).source ∧ b.index < w.branches.size ∧ (w.outputOf b).started = true ∧
      ∀ e' ∈ (w.signals.get s).subscribers, ∀ a', Serves w b a' e' → a' = a := by
  have link : ∀ {e' a'}, e' ∈ (w.signals.get s).subscribers → Serves w b a' e' →
      e' ∈ links w (w.branches.get b).output s := by
    intro e' a' member serves
    refine mem_links.2 ⟨member, ?_⟩
    rw [serves.1, Reaction.node?, serves.2]
  have made : b.index < w.branches.size := by
    have proper := h.reactions e
    rw [serves.1] at proper
    rw [← serves.2]
    exact (h.producers _ _ proper.2).1
  obtain ⟨started, needed⟩ := h.started_of_link id (link member serves)
  have length := h.linked (w.branches.get b).output id s
  rw [if_pos ⟨started, needed⟩] at length
  obtain ⟨e₀, only⟩ := List.length_eq_one_iff.1 length
  have eq : ∀ {e' a'}, e' ∈ (w.signals.get s).subscribers → Serves w b a' e' → e' = e₀ := by
    intro e' a' member serves
    have mem := link member serves
    rw [only] at mem
    exact List.mem_singleton.1 mem
  rw [needs_of_branch (sealed.outputs b made), List.mem_singleton] at needed
  refine ⟨needed, made, started, fun e' member' a' serves' => ?_⟩
  have same := serves'.1.symm.trans
    ((congrArg (fun e => (w.entries.get e).reaction) ((eq member' serves').trans
      (eq member serves).symm)).trans serves.1)
  exact Reaction.branch.inj same

omit [KeptBy Delivers run] in
/-- The match is told of a new value. -/
theorem tellOwn_accounts {k : Nat} {a : ActivationId} (sealed : Sealed w)
    (h : Poised NoNode NoNode w) (called : Callable s k e w)
    (active : (w.entries.get e).active = true)
    (unseen : (w.entries.get e).seen < (w.signals.get s).version) (serves : Serves w b a e) {w' : World}
    (ran : run (.react (.branch a) (w.signals.get s).value) (Signal.marked s k e w) = .ok ((), w')) :
    s = (w.branches.get b).source ∧ Accounts b 0 w w' := by
  have member := ((h.faithful.signals s).active e called.joined).1 active
  obtain ⟨rfl, made, started, alone⟩ := h.serving sealed member serves
  have same := marked_same (w.branches.get b).source k e w
  have h₁ := marked_poised h called active unseen
  obtain ⟨-, dev⟩ := Balances.branch h₁ ran
  have responds : Responds b a ((w.sourceOf b).value.getD .null)
      (Signal.marked (w.branches.get b).source k e w) w' :=
    Reckons.own (sealed.next same.toDevelops) h₁ serves.2 ran
  have version : ((Signal.marked (w.branches.get b).source k e w).sourceOf b).version =
      (w.sourceOf b).version := Heap.get_modify_same _ _ _ _ Signal.version fun _ => rfl
  have le := responds.version
  refine ⟨rfl, same.toDevelops.trans dev, by omega, fun unmade => absurd made (Nat.not_lt_of_le unmade),
    fun X accounted told once => ?_⟩
  have offered : Offered b e w (Signal.marked (w.branches.get b).source k e w) := marked_offered k
  have eligible : Eligible X b a e w :=
    accounted.eligible told (h.faithful.signals _) serves member unseen alone started
      (sealed.earlier h.toLaid made)
  refine offered.continued eligible (responds.kept X (offered.pending eligible) (fun a' ha => ?_) ?_)
  · exact offered.toldNow eligible (told a' ha)
  · rcases once with same | ⟨-, few⟩
    · omega
    · omega

omit [KeptBy Delivers run] in
/-- Telling anybody else passes the match by. -/
theorem tell_accounts {k m : Nat} (sealed : Sealed w) (h : Poised NoNode NoNode w)
    (called : Callable s k e w) (few : m ≤ 1) (mine : s = (w.branches.get b).source → m = 0) :
    Ensures run (Signal.tell s k e) w fun _ w' => Accounts b m w w' := by
  intro _ w' hw'
  rw [tell_eq] at hw'
  split at hw'
  case isFalse =>
    cases hw'
    exact Lasting.refl w
  case isTrue due =>
    simp only [Bool.and_eq_true, decide_eq_true_eq] at due
    have same := marked_same s k e w
    have sealed₁ := sealed.next same.toDevelops
    have h₁ := marked_poised h called due.1 due.2
    have known := (h.faithful.signals s).known e called.joined
    have after : (∀ a, ¬ Serves w b a e) → Accounts b 1 (Signal.marked s k e w) w' →
        Accounts b m w w' := by
      intro stranger accounts
      exact Lasting.trans (marked_passes known fun _ => stranger).accounts (accounts.mono few)
    have proper := h.reactions e
    have of_reaction : ∀ {r}, (w.entries.get e).reaction = r → (∀ a, r ≠ .branch a) →
        ∀ a, ¬ Serves w b a e := fun reaction other a serves => other a (reaction.symm.trans serves.1)
    cases hr : (w.entries.get e).reaction with
    | told name script =>
      rw [hr] at hw' proper
      exact after (of_reaction hr fun _ => Reaction.noConfusion) (Reckons.told sealed₁ proper h₁ hw')
    | refresh d =>
      rw [hr] at hw' proper
      have link : e ∈ links w (w.derivations.get d).output s := by
        refine mem_links.2 ⟨((h.faithful.signals s).active e called.joined).1 due.1, ?_⟩
        rw [hr]
        rfl
      have started := (h.toBalanced.started_of_link id link).1
      rw [← same.started _ id, ← same.output] at started
      exact after (of_reaction hr fun _ => Reaction.noConfusion)
        (Reckons.refresh sealed₁ h₁ (same.real.2 proper) started hw')
    | branch a =>
      rw [hr] at hw' proper
      by_cases own : (w.activations.get a).branch = b
      · obtain ⟨source, accounts⟩ := tellOwn_accounts b sealed h called due.1 due.2 ⟨hr, own⟩ hw'
        exact mine source ▸ accounts
      · refine after (fun a' serves => own ?_)
          (Reckons.branch sealed₁ h₁ (same.proper proper) own hw')
        have here := hr.symm.trans serves.1
        cases here
        exact serves.2
    | followed name script =>
      rw [hr] at proper
      exact proper.elim
    | effect node e =>
      rw [hr] at hw'
      exact after (of_reaction hr fun _ => Reaction.noConfusion) (Reckons.effect hw')

/-- A round, from the world in which the content has changed. -/
theorem tellAll_accounts {m : Nat} (sealed : Sealed w) (h : Poised NoNode NoNode w)
    (value : Option Value) (few : m ≤ 1) (mine : s = (w.branches.get b).source → m = 0) :
    let w₁ := Signal.changed s value w
    Ensures run (Signal.tellAll s w₁) w₁ fun _ w' => Accounts b m w₁ w' := by
  intro w₁ a w' hw'
  let I : World → Prop := fun w₂ => Balanced NoNode NoNode w₂ ∧ Accounts b m w₁ w₂
  have same := changed_same s value w
  have sealed₁ := sealed.next same.toDevelops
  have keeps : ∀ k e w₂, Faithful w₂ → Callable s k e w₂ → I w₂ →
      Ensures run (Signal.tell s k e) w₂ fun _ w₃ => I w₃ := by
    rintro k e w₂ faithful₂ called ⟨balanced₂, accounts₂⟩ _ w₃ hw₃
    have h₂ : Poised NoNode NoNode w₂ := ⟨balanced₂, faithful₂⟩
    obtain ⟨balanced₃, -⟩ := tell_balances h₂ called _ _ hw₃
    refine ⟨balanced₃, Lasting.trans accounts₂ ?_⟩
    refine tell_accounts b (sealed₁.next accounts₂.toDevelops) h₂ called few ?_ _ _ hw₃
    rw [accounts₂.branches]
    exact mine
  have changed : I w₁ :=
    ⟨same.balanced h.toBalanced fun _ _ hn => .inl hn, Lasting.refl w₁⟩
  exact (tellAll_calls value keeps h.faithful changed a w' hw').2.2

omit [Reckons b run] [Balances run] [KeptBy Delivers run] in
/-- The source changes once before a round on it. -/
theorem Accounts.after_change {b : BranchId} {w' : World} (sealed : Sealed w) (laid : Laid w)
    (value : Option Value)
    (rest : Accounts b 0 (Signal.changed (w.branches.get b).source value w) w') : Accounts b 1 w w' := by
  have earlier : b.index < w.branches.size → (w.branches.get b).source.index <
      (w.branches.get b).output.index := sealed.earlier laid
  have changed : Accounts b 1 w (Signal.changed (w.branches.get b).source value w) :=
    changed_accounts value fun made same => Nat.lt_irrefl _ (same ▸ earlier made)
  refine ⟨changed.toDevelops.trans rest.toDevelops, Nat.le_trans changed.version rest.version,
    fun unmade => ?_, fun X accounted told once => ?_⟩
  · refine (rest.unmade ?_).trans (changed.unmade unmade)
    rw [changed.branches]
    exact unmade
  · have made := accounted.made
    have valid : (w.branches.get b).source.index < w.signals.size := by
      refine Nat.lt_trans (earlier made) (index_lt_of_ne Signal.producer fun none => ?_)
      exact nomatch (sealed.outputs b made).symm.trans none
    have version : ((Signal.changed (w.branches.get b).source value w).sourceOf b).version =
        (w.sourceOf b).version + 1 := changed_version valid value
    have le := rest.version
    have nobody : ∀ a, ¬ X a := by
      rcases once with same | ⟨nobody, -⟩
      · omega
      · exact nobody
    have first := changed.kept X accounted told (.inr ⟨nobody, by omega⟩)
    refine first.trans (rest.kept X first.accounted (fun a ha => absurd ha (nobody a)) (.inl ?_))
      changed.version le
    rcases once with same | ⟨-, few⟩
    · omega
    · omega

theorem replace_accounts (sealed : Sealed w) (h : Poised NoNode NoNode w) (value : Option Value)
    (other : b.index < w.branches.size → s ≠ (w.branches.get b).output) :
    Ensures run (Signal.replace s value) w fun _ w' => Accounts b 1 w w' := by
  intro a w' hw'
  rw [replace_eq] at hw'
  by_cases here : s = (w.branches.get b).source
  · subst here
    refine .after_change sealed h.toLaid value ?_
    exact tellAll_accounts b sealed h value (Nat.zero_le 1) (fun _ => rfl) a w' hw'
  · refine Lasting.trans (changed_accounts value other) ?_
    exact tellAll_accounts b sealed h value (Nat.le_refl 1) (fun same => absurd same here) a w' hw'

theorem write_accounts (sealed : Sealed w) (h : Poised NoNode NoNode w) (value : Option Value)
    (other : b.index < w.branches.size → s ≠ (w.branches.get b).output) :
    Ensures run (Signal.write s value) w fun _ w' => Accounts b 1 w w' := by
  refine (ensures_bind ..).2 ((ensures_get _).2 ?_)
  split
  case isTrue => exact (ensures_pure ..).2 (Lasting.refl w)
  case isFalse => exact replace_accounts b sealed h value other

/-! Nodes that are told of a change. -/

theorem refresh_accounts (sealed : Sealed w) (h : Poised NoNode NoNode w) (real : Real d w)
    (started : (w.signals.get (w.derivations.get d).output).started = true) :
    Ensures run (Derivation.refresh d) w fun _ w' => Accounts b 1 w w' := by
  refine (ensures_bind ..).2 ((ensures_get _).2 ((ensures_bind ..).2 fun v w₁ hw₁ => ?_))
  obtain ⟨h₁, dev₁⟩ := recompute_balances h real started _ _ hw₁
  have computed : Accounts b 1 w w₁ :=
    reading_accounts b sealed (h.producers _ _ real).2.2.1 rfl (h.atWork real) rfl
      (h.toBalanced.bound real id started) _ _ hw₁
  refine (write_accounts b (sealed.next dev₁) h₁ (some v) fun made => ?_).mono
    fun _ w₂ written => Lasting.trans computed written
  rw [dev₁.branches] at made ⊢
  exact sealed.ne_of_real made real

omit [Reckons b run] [Balances run] [KeptBy Delivers run] in
/-- Another match is offered a value. -/
theorem offerOther_keeps {I : World → Prop} {a : ActivationId} (sealed : Sealed w)
    (proper : Reaction.Proper w (.branch a)) (other : (w.activations.get a).branch ≠ b)
    (beside : ∀ w₁ w₂, I w₁ → Beside w₁ w₂ → I w₂)
    (write : ∀ w₁ value, Sealed w₁ → I w₁ →
      (b.index < w₁.branches.size →
        (w.branches.get (w.activations.get a).branch).output ≠ (w₁.branches.get b).output) →
      Ensures run (Signal.write (w.branches.get (w.activations.get a).branch).output value) w₁
        fun _ w₂ => I w₂ ∧ Accounts b 1 w₁ w₂)
    (h : I w) (v : Value) : Ensures run (Branch.offer a v) w fun _ w' => Accounts b 1 w w' := by
  let J : World → Prop := fun w' => I w' ∧ Accounts b 1 w w'
  have offered : Ensures run (Branch.offer a v) w fun _ w' => J w' := by
    refine offer_keeps rfl ?_ ?_ ?_ ?_ ⟨h, Lasting.refl w⟩ v
    · rintro w₁ w₂ ⟨h₁, accounts₁⟩ idling
      exact ⟨beside _ _ h₁ idling.toBeside, Lasting.trans accounts₁ (Passes.of_idling idling).accounts⟩
    · rintro w₁ inFallback ⟨h₁, accounts₁⟩ _ w₂ hw₂
      refine ⟨beside _ _ h₁ (setInFallback_beside a inFallback run w₁ _ _ hw₂),
        Lasting.trans accounts₁ (setInFallback_passes inFallback ?_ _ _ hw₂).accounts⟩
      rw [accounts₁.matched a proper.1]
      exact other
    · rintro w₁ d own ⟨h₁, accounts₁⟩ _ w₂ hw₂
      exact ⟨beside _ _ h₁ (record_beside d run w₁ _ _ hw₂),
        Lasting.trans accounts₁ (record_passes d (own ▸ other) _ _ hw₂).accounts⟩
    · rintro w₁ value ⟨h₁, accounts₁⟩ _ w₂ hw₂
      have apart : b.index < w₁.branches.size →
          (w.branches.get (w.activations.get a).branch).output ≠ (w₁.branches.get b).output := by
        rw [accounts₁.branches]
        exact fun made => sealed.ne_of_proper made proper other
      obtain ⟨h₂, written⟩ := write w₁ value (sealed.next accounts₁.toDevelops) h₁ apart _ _ hw₂
      exact ⟨h₂, Lasting.trans accounts₁ written⟩
  exact offered.mono fun _ _ hJ => hJ.2

theorem offerOther_accounts {a : ActivationId} (sealed : Sealed w) (h : Poised NoNode NoNode w)
    (proper : Reaction.Proper w (.branch a)) (other : (w.activations.get a).branch ≠ b) (v : Value) :
    Ensures run (Branch.offer a v) w fun _ w' => Accounts b 1 w w' := by
  refine offerOther_keeps b (I := Poised NoNode NoNode) sealed proper other ?_ ?_ h v
  · intro w₁ w₂ h₁ beside
    exact h₁.next (.apart beside.signals beside.entries) (beside.balanced h₁.toBalanced)
  · intro w₁ value sealed₁ h₁ apart _ w₂ hw₂
    obtain ⟨balanced₂, -⟩ := write_balances h₁ value _ _ hw₂
    exact ⟨h₁.next (keeps_write _ _ w₁ _ _ hw₂) balanced₂,
      write_accounts b sealed₁ h₁ value apart _ _ hw₂⟩

omit [Reckons b run] [Balances run] [KeptBy Delivers run] in
theorem offerUnheard_accounts {a : ActivationId} (sealed : Sealed w)
    (proper : Reaction.Proper w (.branch a)) (other : (w.activations.get a).branch ≠ b)
    (nobody : (w.outputOf (w.activations.get a).branch).subscribers = []) (v : Value) :
    Ensures run (Branch.offer a v) w fun _ w' => Accounts b 1 w w' := by
  let n := (w.branches.get (w.activations.get a).branch).output
  refine offerOther_keeps b (I := fun w₁ => (w₁.signals.get n).subscribers = []) sealed proper other
    ?_ ?_ nobody v
  · intro w₁ w₂ alone beside
    rw [beside.signals]
    exact alone
  · intro w₁ value _ alone apart _ w₂ hw₂
    have hushed := write_hushed alone value _ _ hw₂
    exact ⟨(hushed.subscribers n).trans alone,
      write_accounts_of_nobody b alone apart value _ _ hw₂⟩

/-- The match is offered a value while its output may be listened to. -/
theorem offerOwn_responds {a : ActivationId} (sealed : Sealed w) (h : Poised NoNode NoNode w)
    (own : (w.activations.get a).branch = b) (v : Value) :
    Ensures run (Branch.offer a v) w fun _ w' => Responds b a v w w' := by
  refine offer_responds own (fun value w₁ beside _ w' hw' => ?_) v
  have h₁ : Poised NoNode NoNode w₁ :=
    h.next (.apart beside.signals beside.entries) (beside.balanced h.toBalanced)
  have accounts := tellAll_accounts b (sealed.next beside.same.toDevelops) h₁ value (Nat.zero_le 1)
    (fun _ => rfl) _ w' hw'
  refine ⟨accounts, fun _ abreast => ?_⟩
  have delivers : Delivers w₁ w' := round_delivers value _ w' hw'
  unfold Abreast World.outputOf
  rw [accounts.branches]
  exact delivers.reposed h₁.faithful _ abreast

omit [Reckons b run] [Balances run] [KeptBy Delivers run] in
theorem offerUnheard_responds {a : ActivationId} (own : (w.activations.get a).branch = b)
    (nobody : (w.outputOf b).subscribers = []) (v : Value) :
    Ensures run (Branch.offer a v) w fun _ w' => Responds b a v w w' := by
  refine offer_responds own (fun value w₁ beside => roundAccounts_of_nobody ?_ value) v
  rw [beside.outputOf]
  exact nobody

/-! Scripts. -/

omit [Balances run] [KeptBy Delivers run] in
theorem joinScript_accounts (sealed : Sealed w) (h : Poised NoNode (· = s) w) {name : Name}
    {script : Script} (steps : ∀ step ∈ script, step.Operates)
    (running : (w.signals.get s).producer ≠ none → (w.signals.get s).started = true) (mode : Mode) :
    Ensures run (Signal.join s (.told name script) mode) w fun _ w' => Accounts b 1 w w' := by
  have entered (mode : Mode) : Accounts b 1 w (Signal.entered s (.told name script) mode w) :=
    (entered_passes s mode fun _ => Reaction.noConfusion).accounts
  cases mode with
  | normal =>
    refine (join_ensures s _).mono ?_
    rintro _ _ ⟨rfl, rfl⟩
    exact entered .normal
  | immediate =>
    let w₁ := Signal.entered s (.told name script) .immediate w
    let w₂ := Signal.greeted s w.entries.next w₁
    have h₂ : Poised NoNode NoNode w₂ := greeted_poised h steps running
    have known : w.entries.next.index < w₁.entries.size := by
      simp [w₁, Signal.entered, Heap.next]
    have greeted : Accounts b 1 w₁ w₂ := by
      refine (greeted_passes known fun a serves => ?_).accounts
      have told := entered_reaction (w := w) s (.told name script) .immediate
      cases told.symm.trans serves.1
    have shown := Lasting.trans (entered .immediate) greeted
    simp only [Signal.join, Signal.enter, Signal.greet, modifySignal, ensures_bind, ensures_get,
      ensures_set, ensures_pure, if_true, ensures_modify, ensures_invoke]
    intro w₃ hw₃
    exact Lasting.trans shown (Reckons.told (sealed.next shown.toDevelops) steps h₂ hw₃)

theorem subscribeScript_accounts (sealed : Sealed w) (h : Poised NoNode NoNode w) {name : Name}
    {script : Script} (steps : ∀ step ∈ script, step.Operates) (mode : Mode) :
    Ensures run (Signal.subscribe s (.told name script) mode) w fun _ w' => Accounts b 1 w w' := by
  refine (ensures_bind ..).2 fun _ w₁ hw₁ => ?_
  obtain ⟨balanced₁, -, running⟩ := wake_balances h id (fun _ hd => hd.elim) _ _ hw₁
  have woken : Accounts b 1 w w₁ := wake_accounts b sealed h id (fun _ hd => hd.elim) _ _ hw₁
  have h₁ : Poised NoNode (· = s) w₁ := h.next (keeps_wake s w _ _ hw₁) balanced₁
  refine (ensures_bind ..).2 ((joinScript_accounts b (sealed.next woken.toDevelops) h₁ steps running
    mode).mono fun e w₂ joined => ?_)
  simp only [Subscription.create, ensures_bind, ensures_get, ensures_set, ensures_pure]
  exact Lasting.trans woken (Lasting.trans joined (made_passes _).accounts)

theorem subscribeNamed_accounts (sealed : Sealed w) (h : Poised NoNode NoNode w) (name : Name)
    {script : Script} (steps : ∀ step ∈ script, step.Operates) (mode : Mode) :
    Ensures run (Signal.subscribe s (.told name script) mode >>= nameSubscription name) w
      fun _ w' => Accounts b 1 w w' := by
  refine (ensures_bind ..).2 ((subscribeScript_accounts b sealed h steps mode).mono ?_)
  exact fun sub _ subscribed =>
    (ensures_modify ..).2 (Lasting.trans subscribed (named_passes name sub).accounts)

/-- What holds between the steps of a script, and what they keep. -/
theorem upkeep_accounts :
    Upkeep run (fun w => Poised NoNode NoNode w ∧ Sealed w) (Accounts b 1) where
  idling h idling := by
    have kept : Upkeep run (Poised NoNode NoNode) Develops := upkeep_balances
    obtain ⟨h₁, -⟩ := kept.idling h.1 idling
    have passes : Accounts b 1 _ _ := (Passes.of_idling idling).accounts
    exact ⟨⟨h₁, h.2.next passes.toDevelops⟩, passes⟩
  replace value h named := by
    intro _ w' hw'
    obtain ⟨h₁, dev⟩ := upkeep_balances.replace value h.1 named _ _ hw'
    exact ⟨⟨h₁, h.2.next dev⟩, replace_accounts b h.2 h.1 value
      (fun made => h.2.ne_of_writable made named) _ _ hw'⟩
  subscribe mode h operates := by
    intro _ w' hw'
    obtain ⟨h₁, dev⟩ := upkeep_balances.subscribe mode h.1 operates _ _ hw'
    exact ⟨⟨h₁, h.2.next dev⟩, subscribeNamed_accounts b h.2 h.1 _ operates mode _ _ hw'⟩
  cancel h named := by
    intro _ w' hw'
    obtain ⟨h₁, dev⟩ := upkeep_balances.cancel h.1 named _ _ hw'
    exact ⟨⟨h₁, h.2.next dev⟩, cancel_accounts b h.2 h.1 (h.1.toLaid.permits named) _ _ hw'⟩
  script current h operates := by
    intro _ w' hw'
    obtain ⟨h₁, dev⟩ := upkeep_balances.script current h.1 operates _ _ hw'
    exact ⟨⟨h₁, h.2.next dev⟩, Reckons.script h.2 operates h.1 hw'⟩

end

/-- By induction on the fuel. -/
instance reckons_exec (b : BranchId) (fuel : Nat) : Reckons b (exec fuel) := by
  induction fuel with
  | zero => constructor <;> intros <;> contradiction
  | succ fuel ih =>
    constructor
    · intro steps current w w' sealed operates h run
      exact ((upkeep_accounts b).steps ⟨h, sealed⟩ current operates _ _ run).2
    · intro name steps v w w' sealed operates h run
      exact ((upkeep_accounts b).told ⟨h, sealed⟩ name v operates _ _ run).2
    · exact fun sealed h real started run => refresh_accounts b sealed h real started _ _ run
    · exact fun sealed h proper other run => offerOther_accounts b sealed h proper other _ _ _ run
    · exact fun sealed h own run => offerOwn_responds b sealed h own _ _ _ run
    · exact fun sealed proper other nobody run =>
        offerUnheard_accounts b sealed proper other nobody _ _ _ run
    · exact fun own nobody run => offerUnheard_responds b own nobody _ _ _ run
    · intro n e v w w' run
      refine apply_keeps (R := Accounts b 1) (fun w nodes => ?_) e n _ w () w' run
      have beside : Beside w { w with nodes } :=
        ⟨⟨rfl, rfl, rfl, rfl, rfl, rfl⟩, rfl, rfl, fun _ => rfl⟩
      exact (Passes.of_eq beside.same.toDevelops rfl (fun _ _ _ => rfl) rfl rfl).accounts
    · exact fun sealed h out produced nobody idle before run =>
        activate_accounts b sealed h out produced nobody idle before _ _ run
    · exact fun sealed h permits run => cancelRun_accounts b sealed h permits _ _ run

end LiveMarkup.Live
