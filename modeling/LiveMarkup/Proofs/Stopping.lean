import LiveMarkup.Proofs.Starting

/-!
Stopping: a node that has lost its last subscriber leaves each signal that it was subscribed to, and
those among them that nobody is subscribed to any more stop in turn.
-/
namespace LiveMarkup.Live

section
variable {D : SignalId → Prop} {w w₁ w₂ : World} {s : SignalId} {e : EntryId} {c : Cancel}

theorem Unneeded.next (h : Unneeded D w c) (laid : Laid w) (dev : Develops w w₁) :
    Unneeded D w₁ c := by
  obtain ⟨s, e, rfl, known, outside⟩ := h
  refine ⟨s, e, rfl, Nat.lt_of_lt_of_le known dev.entries, fun n hn => ?_⟩
  rw [dev.reaction e known, dev.node? (laid.reactions e)] at hn
  exact outside n hn

theorem Permits.next (h : Permits D w c) (laid : Laid w) (dev : Develops w w₁) :
    Permits D w₁ c := by
  cases h with
  | entry h => exact .entry (h.next laid dev)
  | all h => exact .all fun sub hs => dev.leads (h sub hs) fun _ hc => hc.next laid dev
  | release real h => exact .release (dev.real.2 real) ((dev.output _).symm ▸ h)

/-- What is left to do for a node that is excepted may be done. -/
theorem OfNode.permits (h : OfNode s w c) (laid : Laid w) (hs : D s) : Permits D w c := by
  rcases h with ⟨d, rfl, hd⟩ | ⟨s', e, b, rfl, known, node, -⟩
  · obtain ⟨real, output⟩ := laid.real_of_producer hd
    exact .release real (output.symm ▸ hs)
  · refine .entry ⟨s', e, rfl, known, fun n hn => ?_⟩
    rw [node] at hn
    cases hn
    exact hs

theorem OfDerivation.unneeded {d : DerivationId} (h : OfDerivation d w c)
    (hd : D (w.derivations.get d).output) : Unneeded D w c := by
  obtain ⟨s, e, rfl, known, reaction⟩ := h
  refine ⟨s, e, rfl, known, fun n hn => ?_⟩
  rw [reaction] at hn
  cases hn
  exact hd

/-- A handle for which something is left to do was made. -/
theorem made_of_some {sub : SubscriptionId} (h : w.subscriptions.get sub = some c) :
    sub.index < w.subscriptions.size := by
  refine Nat.lt_of_not_le fun invalid => ?_
  rw [Heap.get_of_size_le _ _ invalid] at h
  cases h

namespace Sheds

/-- No handle is spent. -/
theorem of_handle (dev : Develops w w₁)
    (started : ∀ s, (w₁.signals.get s).started = true → (w.signals.get s).started = true)
    (subscribers : ∀ s, (w₁.signals.get s).subscribers ⊆ (w.signals.get s).subscribers)
    (handle : ∀ sub, sub.index < w.subscriptions.size →
      w₁.subscriptions.get sub = w.subscriptions.get sub) : Sheds w w₁ :=
  ⟨dev, started, subscribers, fun sub _ _ h => .inl ((handle sub (made_of_some h)).trans h)⟩

theorem refl (w : World) : Sheds w w :=
  .of_handle (.refl w) (fun _ hs => hs) (fun _ => List.Subset.refl _) fun _ _ => rfl

theorem trans (h : Sheds w w₁) (h' : Sheds w₁ w₂) : Sheds w w₂ where
  toDevelops := h.toDevelops.trans h'.toDevelops
  started s hs := h.started s (h'.started s hs)
  subscribers s := List.Subset.trans (h'.subscribers s) (h.subscribers s)
  spent sub s e hc := by
    rcases h.spent sub s e hc with same | gone
    · exact h'.spent sub s e same
    · exact .inr fun he => gone (h'.subscribers s he)

/-- The links that are left were there before. -/
theorem links_subset (h : Sheds w w₁) (faithful : Faithful w) (laid : Laid w) (n s : SignalId) :
    links w₁ n s ⊆ links w n s := by
  intro e he
  obtain ⟨here, node⟩ := mem_links.1 he
  have recorded := faithful.signals s
  have before := h.subscribers s here
  have known := recorded.known e (recorded.joined before)
  rw [h.reaction e known, h.node? (laid.reactions e)] at node
  exact mem_links.2 ⟨before, node⟩

end Sheds

/-- Spending a handle does not change what its cancellation takes off. -/
theorem Takes.spent {sub : SubscriptionId} (takes : Takes w s e c)
    (hc : w.subscriptions.get sub = some c) : Takes (Subscription.spent sub w) s e c := by
  have other : ∀ sub', w.subscriptions.get sub' = some (.entry s e) → c ≠ .entry s e →
      (Subscription.spent sub w).subscriptions.get sub' = some (.entry s e) := by
    intro sub' hs ne
    refine (Heap.get_modify_of_ne _ _ _ _ ?_).trans hs
    rintro rfl
    rw [hc] at hs
    exact ne (Option.some.inj hs)
  cases c with
  | entry s' e' => exact takes
  | all subscriptions =>
    obtain ⟨sub', mem, hs⟩ := takes
    exact ⟨sub', mem, other sub' hs nofun⟩
  | release d =>
    obtain ⟨sub', mem, hs⟩ := takes
    exact ⟨sub', mem, other sub' hs nofun⟩
  | nothing => exact takes
  | stopped name script => exact takes

end

section
variable {run : Runner} [Balances run] {D : SignalId → Prop} {w : World} {s : SignalId} {e : EntryId}

omit [Balances run] in
/-- A handle that is cancelled is spent before anything else happens. -/
theorem spent_poised (h : Poised D NoNode w) {sub : SubscriptionId} {c : Cancel}
    (hc : w.subscriptions.get sub = some c) (permits : Permits D w c) :
    Poised D NoNode (Subscription.spent sub w) ∧ Permits D (Subscription.spent sub w) c := by
  have dev : Develops w (Subscription.spent sub w) := (spent_evolves sub w).develops rfl rfl
  have balanced : Balanced D NoNode (Subscription.spent sub w) := by
    refine spent_balanced h.toBalanced fun c' hc' => ?_
    rw [hc] at hc'
    cases hc'
    refine ⟨?_, ?_⟩
    · rintro d rfl
      cases permits with
      | release _ hd => exact hd
      | entry h => exact nomatch h
    · rintro s e rfl
      cases permits with
      | entry h =>
        obtain ⟨_, _, ⟨⟩, -, outside⟩ := h
        exact outside
  exact ⟨h.next (.apart rfl rfl) balanced, permits.next h.toLaid dev⟩

theorem cancel_balances [KeptBy Delivers run] (h : Poised D NoNode w) {sub : SubscriptionId}
    (leads : Leads (Permits D w) sub w) :
    Ensures run (Subscription.cancel sub) w fun _ w' =>
      Balanced D NoNode w' ∧ Sheds w w' ∧ ∀ c, w.subscriptions.get sub = some c →
        ∀ s e, Takes w s e c → e ∉ (w'.signals.get s).subscribers := by
  refine (ensures_bind ..).2 ((ensures_get _).2 ?_)
  cases hc : w.subscriptions.get sub with
  | none => exact (ensures_pure ..).2 ⟨h.toBalanced, .refl w, nofun⟩
  | some c =>
    refine (ensures_bind ..).2 ((ensures_modify ..).2 ((ensures_invoke ..).2 fun w' hw' => ?_))
    have dev₁ : Develops w (Subscription.spent sub w) := (spent_evolves sub w).develops rfl rfl
    obtain ⟨h₁, permits₁⟩ := spent_poised h hc (leads.2 c hc)
    obtain ⟨balanced, sheds, gone⟩ := Balances.cancel h₁ permits₁ hw'
    refine ⟨balanced, ⟨dev₁.trans sheds.toDevelops, sheds.started, sheds.subscribers, ?_⟩, ?_⟩
    · intro sub' s e hs
      by_cases heq : sub = sub'
      · subst heq
        rw [hc] at hs
        cases hs
        exact .inr (gone s e ⟨rfl, rfl⟩)
      · exact sheds.spent sub' s e ((Heap.get_modify_of_ne _ _ _ _ heq).trans hs)
    · rintro _ ⟨⟩ s e takes
      exact gone s e (takes.spent hc)

/-- By induction on the handles. -/
theorem cancelEach_balances [KeptBy Delivers run] {l : List SubscriptionId} (h : Poised D NoNode w)
    (leads : ∀ sub ∈ l, Leads (Unneeded D w) sub w) :
    Ensures run (Subscription.cancelEach l) w fun _ w' =>
      Balanced D NoNode w' ∧ Sheds w w' ∧
        ∀ s e, Takes w s e (.all l) → e ∉ (w'.signals.get s).subscribers := by
  induction l generalizing w with
  | nil => exact (ensures_pure ..).2 ⟨h.toBalanced, .refl w, fun _ _ ⟨_, hs, _⟩ => nomatch hs⟩
  | cons sub l ih =>
    refine (ensures_bind ..).2 fun _ w₁ hw₁ => ?_
    obtain ⟨made, imp⟩ := leads sub List.mem_cons_self
    obtain ⟨balanced₁, sheds₁, gone₁⟩ :=
      cancel_balances h ⟨made, fun c hc => .entry (imp c hc)⟩ _ _ hw₁
    have h₁ : Poised D NoNode w₁ := h.next (keeps_cancel sub w _ _ hw₁) balanced₁
    have leads₁ : ∀ sub' ∈ l, Leads (Unneeded D w₁) sub' w₁ := fun sub' hs =>
      sheds₁.leads (leads sub' (List.mem_cons_of_mem _ hs)) fun _ hc =>
        hc.next h.toLaid sheds₁.toDevelops
    refine (ih h₁ leads₁).mono ?_
    rintro _ w₂ ⟨balanced₂, sheds₂, gone₂⟩
    refine ⟨balanced₂, sheds₁.trans sheds₂, ?_⟩
    rintro s e ⟨sub', hs, hc⟩ he
    rcases List.mem_cons.1 hs with rfl | hs
    · exact gone₁ _ hc s e ⟨rfl, rfl⟩ (sheds₂.subscribers s he)
    · rcases sheds₁.spent sub' s e hc with same | gone
      · exact gone₂ s e ⟨sub', hs, same⟩ he
      · exact gone (sheds₂.subscribers s he)

omit [Balances run] in
/-- A node that was stopped and has no links left is done. -/
theorem Balanced.rest (h : Balanced (fun m => D m ∨ m = s) NoNode w)
    (stopped : (w.signals.get s).started = false) (unlinked : ¬ D s → ∀ t, links w s t = []) :
    Balanced D NoNode w := by
  by_cases hs : D s
  · exact h.mono (fun n hn => hn.elim id fun heq => heq ▸ hs) fun _ hn => hn.elim
  · have idle : ∀ {P : Prop}, (w.signals.get s).started = true → P := by
      intro P started
      rw [stopped] at started
      cases started
    refine h.settle (fun _ => idle) (fun _ hn => hn) (fun t => ?_) idle
    rw [unlinked hs, if_neg fun both => idle both.1]
    rfl

omit [Balances run] in
/-- A signal that nobody listens to counts as stopped before it leaves its sources. -/
theorem stopped_poised (h : Poised D (· = s) w) (nobody : (w.signals.get s).subscribers = []) :
    Poised (fun m => D m ∨ m = s) NoNode (Signal.stopped s w) := by
  have more : Balanced (fun m => D m ∨ m = s) NoNode w :=
    h.toBalanced.mono (fun _ => .inl) fun _ hn => .inl (.inr hn)
  refine h.next (flags_delivers s (fun _ => false) fun _ => none) ?_
  exact flags_balanced more (.inr rfl) (fun _ => false) (fun _ => none)
    (fun ne => absurd nobody ne) (fun _ => rfl) fun _ ht => by cases ht

omit [Balances run] in
/-- It may leave them then. -/
theorem stopped_leads (h : Poised D (· = s) w) {t : SubscriptionId}
    (ht : (w.signals.get s).teardown = some t) :
    Leads (Permits (fun m => D m ∨ m = s) (Signal.stopped s w)) t (Signal.stopped s w) := by
  have dev := (flags_evolves s (fun _ => false) (fun _ => none) w).develops rfl rfl
  exact dev.leads (h.teardown s t ht) fun _ hc => (hc.permits h.toLaid (.inr rfl)).next h.toLaid dev

/-- A signal that has lost its last subscriber stops. -/
theorem stop_balances [KeptBy Delivers run] (h : Poised D (· = s) w) :
    Ensures run (Signal.stop s) w fun _ w' => Balanced D NoNode w' ∧ Sheds w w' := by
  refine (ensures_bind ..).2 ((ensures_get _).2 ?_)
  by_cases ends : ((w.signals.get s).subscribers.isEmpty && (w.signals.get s).started) = true
  case neg =>
    rw [if_neg ends]
    refine (ensures_pure ..).2 ⟨⟨h.toLaid, h.started, h.idle, fun n hD _ hs => ?_, h.linked, h.tended⟩,
      .refl w⟩
    by_cases hn : n = s
    · subst hn
      intro nobody
      simp [nobody, hs] at ends
    · exact h.observed n hD hn hs
  rw [if_pos ends]
  simp only [Bool.and_eq_true, List.isEmpty_iff] at ends
  obtain ⟨nobody, started⟩ := ends
  refine (ensures_bind ..).2 ((ensures_modify ..).2 ?_)
  let D' : SignalId → Prop := fun m => D m ∨ m = s
  let w₁ := Signal.stopped s w
  have valid : s.index < w.signals.size :=
    index_lt_of_ne Signal.started fun heq => Bool.noConfusion (started.symm.trans heq)
  have h₁ : Poised D' NoNode w₁ := stopped_poised h nobody
  have balanced₁ : Balanced D' NoNode w₁ := h₁.toBalanced
  have stopped₁ : (w₁.signals.get s).started = false :=
    congrArg Signal.started (Heap.get_modify_self _ _ _ valid)
  have sheds₁ : Sheds w w₁ := by
    refine .of_handle ((flags_evolves s (fun _ => false) (fun _ => none) w).develops rfl rfl)
      (fun t ht => ?_) (fun t => ?_) fun _ _ => rfl
    · by_cases hst : s = t
      · subst hst
        exact started
      · have same : w₁.signals.get t = w.signals.get t := Heap.get_modify_of_ne _ _ _ _ hst
        rwa [same] at ht
    · have same : (w₁.signals.get t).subscribers = (w.signals.get t).subscribers :=
        Heap.get_modify_same _ s t _ Signal.subscribers fun _ => rfl
      rw [same]
      exact List.Subset.refl _
  cases ht : (w.signals.get s).teardown with
  | none =>
    refine (ensures_pure ..).2 ⟨balanced₁.rest stopped₁ fun hs => ?_, sheds₁⟩
    obtain ⟨t, c, ht', -⟩ := h.tended s hs started
    rw [ht] at ht'
    cases ht'
  | some t =>
    have leads : Leads (Permits D' w₁) t w₁ := stopped_leads h ht
    refine (cancel_balances h₁ leads).mono ?_
    rintro _ w₂ ⟨balanced₂, sheds₂, gone⟩
    have stopped₂ : (w₂.signals.get s).started = false := by
      cases hs : (w₂.signals.get s).started with
      | false => rfl
      | true => exact (sheds₂.started s hs).symm.trans stopped₁
    have sheds := sheds₁.trans sheds₂
    refine ⟨balanced₂.rest stopped₂ fun hs u => List.eq_nil_iff_forall_not_mem.2 fun e he => ?_,
      sheds⟩
    obtain ⟨t', c, ht', hc, takes⟩ := h.tended s hs started
    rw [ht] at ht'
    cases ht'
    exact gone c hc u e (takes u e (sheds.links_subset h.faithful h.toLaid s u he))
      (mem_links.1 he).1

/-- A subscriber that is not needed leaves. -/
theorem leave_balances [KeptBy Delivers run] (h : Poised D NoNode w)
    (outside : ∀ n, (w.entries.get e).reaction.node? w = some n → D n) :
    Ensures run (Signal.leave s e) w fun _ w' =>
      Balanced D NoNode w' ∧ Sheds w w' ∧ e ∉ (w'.signals.get s).subscribers := by
  refine (ensures_bind ..).2 fun _ w₁ hw₁ => ?_
  have delivers : Delivers w w₁ := keeps_drop s e w _ _ hw₁
  cases drop_ensures s e run w _ _ hw₁
  have balanced₁ := dropped_balanced h.toBalanced s outside
  have sheds₁ : Sheds w (Signal.dropped s e w) := by
    refine .of_handle (dropped_develops s e w) (fun t ht => ?_) (dropped_subset s e) fun _ _ => rfl
    have same := Heap.get_modify_same w.signals s t (Signal.leftBy e) Signal.started fun _ => rfl
    exact same.symm.trans ht
  refine (stop_balances (h.next delivers balanced₁)).mono ?_
  rintro _ w₂ ⟨balanced₂, sheds₂⟩
  exact ⟨balanced₂, sheds₁.trans sheds₂,
    fun he => not_mem_dropped h.faithful s e (sheds₂.subscribers s he)⟩

omit [Balances run] in
/-- A derived signal that is being stopped holds a handle to all its subscriptions. -/
theorem released_poised {d : DerivationId} (h : Poised D NoNode w)
    (hd : D (w.derivations.get d).output) :
    let l := (w.derivations.get d).subscriptions
    let w₁ := Derivation.holding d (fun _ => []) w
    let w₂ := Subscription.made (.all l) w₁
    Poised D NoNode w₂ ∧ Sheds w w₂ ∧ Leads (Permits D w₂) w₁.subscriptions.next w₂ := by
  intro l w₁ w₂
  have balanced₁ : Balanced D NoNode w₁ :=
    cell_balanced h.toBalanced hd (fun cell => { cell with subscriptions := [] }) (fun _ => rfl)
      (fun _ => rfl) (fun _ ht => .inl ht) (h.seen d) fun _ hs => absurd hs List.not_mem_nil
  have same₂ : Same w₁ w₂ := made_same (.all l) w₁
  have balanced₂ : Balanced D NoNode w₂ := same₂.balanced balanced₁ fun _ _ hn => .inl hn
  have dev₁ : Develops w w₁ := (cell_evolves d (fun cell => { cell with subscriptions := [] })
    (fun _ => rfl) (fun _ => rfl) w).develops rfl rfl
  have sheds₂ : Sheds w w₂ := .of_handle (dev₁.trans same₂.toDevelops) (fun _ hs => hs)
    (fun _ => List.Subset.refl _) fun _ hs => Heap.get_push_of_lt _ _ _ hs
  refine ⟨h.next (.apart rfl rfl) balanced₂, sheds₂, made_leads _ (.all fun sub hs => ?_)⟩
  exact sheds₂.leads (h.held d sub hs) fun _ hc => (hc.unneeded hd).next h.toLaid sheds₂.toDevelops

/-- A derived signal that is being stopped leaves all its sources. -/
theorem release_balances [KeptBy Delivers run] {d : DerivationId} (h : Poised D NoNode w)
    (hd : D (w.derivations.get d).output) :
    Ensures run (Derivation.release d) w fun _ w' =>
      Balanced D NoNode w' ∧ Sheds w w' ∧
        ∀ s e, Takes w s e (.release d) → e ∉ (w'.signals.get s).subscribers := by
  refine (ensures_bind ..).2 ((ensures_get _).2 ((ensures_bind ..).2 ((ensures_modify ..).2 ?_)))
  simp only [Subscription.create, ensures_bind, ensures_get, ensures_set, ensures_pure]
  obtain ⟨h₂, sheds₂, leads⟩ := released_poised h hd
  refine (cancel_balances h₂ leads).mono ?_
  rintro _ w₃ ⟨balanced₃, sheds₃, gone⟩
  refine ⟨balanced₃, sheds₂.trans sheds₃, ?_⟩
  rintro s e ⟨sub, hs, hc⟩
  refine gone (.all (w.derivations.get d).subscriptions) (Heap.get_push_next ..) s e ⟨sub, hs, ?_⟩
  exact (Heap.get_push_of_lt _ _ _ (made_of_some hc)).trans hc

/-- By cases on what is cancelled. -/
theorem cancelRun_balances [KeptBy Delivers run] {c : Cancel} (h : Poised D NoNode w)
    (permits : Permits D w c) :
    Ensures run c.run w fun _ w' =>
      Balanced D NoNode w' ∧ Sheds w w' ∧
        ∀ s e, Takes w s e c → e ∉ (w'.signals.get s).subscribers := by
  cases permits with
  | entry unneeded =>
    obtain ⟨s, e, rfl, -, outside⟩ := unneeded
    refine (leave_balances h outside).mono ?_
    rintro _ w' ⟨balanced, sheds, gone⟩
    refine ⟨balanced, sheds, ?_⟩
    rintro _ _ ⟨rfl, rfl⟩
    exact gone
  | all leads => exact cancelEach_balances h leads
  | release _ hd => exact release_balances h hd

end

end LiveMarkup.Live
