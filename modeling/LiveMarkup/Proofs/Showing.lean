import LiveMarkup.Proofs.Painting

/-!
Showing: whatever signals and subscriptions, and the mounts of nodes, do to a canvas leaves one
behind, however deeply callbacks are nested. A round ends with every effect having written what it
was called for; a subscriber that joins is shown the value before anything else happens.
-/
namespace LiveMarkup.Live

/-- From a canvas to a canvas, and nothing is written off the board. -/
def Keeping (B : Board) (w w' : World) : Prop :=
  Finished B w → Finished B w' ∧ Spares B w w'

instance (B : Board) : Idle (Keeping B) where
  refl w h := ⟨h, .refl w⟩
  trans first next h := by
    obtain ⟨h₁, spares₁⟩ := first h
    obtain ⟨h₂, spares₂⟩ := next h₁
    exact ⟨h₂, spares₁.trans spares₂⟩
  log w log h := h.idling (Idle.log w log)
  make w content names h := h.idling (Idle.make w content names)

/-- A subscriber that may join a signal: an effect is on the board, and is to be called at once. -/
def Board.Joins (B : Board) (s : SignalId) (reaction : Reaction) (mode : Mode) : Prop :=
  reaction.Tame ∧ ∀ n e, reaction = .effect n e → mode = .immediate ∧ B n e s

/-- The hook of a follow whose effect is on a board. -/
def Board.Hangs (B : Board) (w : World) (h : Hook) : Prop :=
  ∃ f b, h = Hook.turning f b ∧ B.Bears w f

/-- What may be run on a canvas, writes to nodes apart. -/
def Board.Admits (B : Board) (w : World) : Task → Prop
  | .react (.told _ script) _ => ∀ step ∈ script, step.Operates
  | .react (.refresh _) _ => True
  | .react _ _ => False
  | .start _ => True
  | .script steps _ => ∀ step ∈ steps, step.Operates
  | .hook h => B.Hangs w h
  | .connect _ _ => ∀ b n h, (n, h) ∈ w.hooks b → B.Hangs w h
  | .cancel _ | .handle _ _ _ => False

/-- Takes a subscriber off a signal. -/
def Cancel.Takes (c : Cancel) (s : SignalId) (e : EntryId) : Prop :=
  c = .entry s e

/-- A runner of tasks that leaves a canvas behind. -/
class Paints (run : Runner) : Prop where
  task : ∀ B t w w', B.Admits w t → run t w = .ok ((), w') → Keeping B w w'
  /-- What is about to be taken off needs no owner. -/
  cancel : ∀ B (c : Cancel) w w', c.Silent → Canvas B Nobody c.Takes w →
    run (.cancel c) w = .ok ((), w') → Finished B w' ∧ Spares B w w'
  effect : ∀ n (e : Effect) v w w', run (.react (.effect n e) v) w = .ok ((), w') →
    ∃ run', e.apply n (v.getD .null) run' w = .ok ((), w')

section
variable {α : Type} {run : Runner} {B : Board} {w w' w₁ : World} {s : SignalId} {e : EntryId}

/-! Single changes. -/

theorem keeping_modify {f : World → World} (signals : ∀ w, (f w).signals = w.signals)
    (entries : ∀ w, (f w).entries = w.entries) (nodes : ∀ w, (f w).nodes = w.nodes)
    (subscriptions : ∀ w, (f w).subscriptions = w.subscriptions)
    (follows : ∀ w, (f w).follows = w.follows) (formulas : ∀ w, (f w).formulas = w.formulas)
    (hooks : ∀ w, (f w).mountHooks = w.mountHooks ∧ (f w).unmountHooks = w.unmountHooks) :
    Keeps (Keeping B) run (modify f : Op PUnit) := by
  refine fun w => (ensures_modify ..).2 fun h => ⟨?_, ?_⟩
  · exact h.of_rest (signals w) (entries w) (nodes w) (subscriptions w) (follows w)
  · exact .of_same (nodes w) (formulas w) (hooks w).1 (hooks w).2 (follows w)

theorem keeping_derivation (d : DerivationId) (f : Derivation → Derivation) :
    Keeps (Keeping B) run
      (modify fun w => { w with derivations := w.derivations.modify d f } : Op PUnit) :=
  keeping_modify (fun _ => rfl) (fun _ => rfl) (fun _ => rfl) (fun _ => rfl) (fun _ => rfl)
    (fun _ => rfl) fun _ => ⟨rfl, rfl⟩

theorem keeping_flags (s : SignalId) (started : Signal → Bool)
    (teardown : Signal → Option SubscriptionId) :
    Keeps (Keeping B) run (modifySignal s fun signal =>
      { signal with started := started signal, teardown := teardown signal }) := by
  refine fun w => (ensures_modify ..).2 fun h => ⟨?_, .of_same rfl rfl rfl rfl rfl⟩
  have field : ∀ {β : Type} (g : Signal → β), (∀ a, g { a with
      started := started a, teardown := teardown a } = g a) →
        ∀ t, g ((w.signals.modify s fun a =>
          { a with started := started a, teardown := teardown a }).get t) = g (w.signals.get t) :=
    fun g same t => Heap.get_modify_same w.signals s t _ g same
  have subscribers := field Signal.subscribers fun _ => rfl
  have versions := field Signal.version fun _ => rfl
  refine h.of_signals rfl rfl rfl (flags_delivers s started teardown h.faithful).faithful
    (field Signal.producer fun _ => rfl) (fun _ => rfl) (fun t => ?_) fun t e he hv => ?_
  · rw [subscribers]
    exact List.Subset.refl _
  · rw [versions] at hv
    exact ⟨hv, field Signal.value (fun _ => rfl) t⟩

/-- The subscriptions that there are stay as they are. -/
theorem made_paints {P : EntryId → Prop} {L : SignalId → EntryId → Prop} (h : Canvas B P L w)
    {c : Cancel} (silent : c.Silent) : Canvas B P L (Subscription.made c w) := by
  refine h.of_same rfl rfl rfl (fun sub c' hc => ?_) fun s e => Or.imp_right ?_
  · by_cases hs : sub = w.subscriptions.next
    · subst hs
      have new : (Subscription.made c w).subscriptions.get w.subscriptions.next = some c :=
        Heap.get_push_next ..
      rw [new] at hc
      cases hc
      exact silent
    · have old : (Subscription.made c w).subscriptions.get sub = w.subscriptions.get sub :=
        Heap.get_push_of_ne _ _ _ hs
      exact h.cancels sub c' (old ▸ hc)
  · rintro ⟨f, sub, slot, takes⟩
    have ne : sub ≠ w.subscriptions.next := by
      rintro rfl
      rw [Heap.get_next] at takes
      cases takes
    have old : (Subscription.made c w).subscriptions.get sub = w.subscriptions.get sub :=
      Heap.get_push_of_ne _ _ _ ne
    exact ⟨f, sub, slot, old.trans takes⟩

theorem keeping_create {c : Cancel} (silent : c.Silent) :
    Keeps (Keeping B) run (Subscription.create c) := by
  intro w
  simp only [Subscription.create, ensures_bind, ensures_get, ensures_set, ensures_pure]
  exact fun h => ⟨made_paints h silent, .of_same rfl rfl rfl rfl rfl⟩

theorem keeping_createSignal (value : Option Value) {producer : Option Producer}
    (derives : ∀ p, producer = some p → ∃ d, p = .derivation d) :
    Keeps (Keeping B) run (Signal.create value producer) := by
  intro w
  simp only [Signal.create, ensures_bind, ensures_get, ensures_set, ensures_pure]
  exact fun h => ⟨h.added value derives, .of_same rfl rfl rfl rfl rfl⟩

theorem keeping_createDerivation (r : Reading) : Keeps (Keeping B) run (Derivation.create r) := by
  refine keeps_bind (Idle.reading (fun _ => Tracker.noConfusion) r) fun v w => ?_
  simp only [ensures_bind, ensures_get, ensures_set, ensures_pure]
  intro h
  let w₁ : World := { w with
    derivations := w.derivations.push ⟨r, w.signals.next, [], [], []⟩ }
  have h₁ : Finished B w₁ := h.of_rest rfl rfl rfl rfl rfl
  refine ⟨h₁.added (some v) ?_, .of_same rfl rfl rfl rfl rfl⟩
  rintro _ ⟨⟩
  exact ⟨_, rfl⟩

theorem keeping_nameSignal (name : Name) (s : SignalId) (role : Role) :
    Keeps (Keeping B) run (nameSignal name s role) :=
  keeping_modify (fun _ => rfl) (fun _ => rfl) (fun _ => rfl) (fun _ => rfl) (fun _ => rfl)
    (fun _ => rfl) fun _ => ⟨rfl, rfl⟩

/-- A subscriber that leaves shows nothing any more, and needs no owner. -/
theorem drop_paints (h : Canvas B Nobody (Cancel.entry s e).Takes w) :
    Ensures run (Signal.drop s e) w fun _ w' => Finished B w' ∧ Spares B w w' := by
  intro _ w' hw'
  have faithful : Faithful w' := (drop_delivers s e w _ _ hw' h.faithful).faithful
  cases drop_ensures s e run w _ _ hw'
  have reactions : ∀ e', ((Signal.dropped s e w).entries.get e').reaction =
      (w.entries.get e').reaction := dropped_entry Entry.reaction (fun _ => rfl) s e
  have seen : ∀ e', ((Signal.dropped s e w).entries.get e').seen = (w.entries.get e').seen :=
    dropped_entry Entry.seen (fun _ => rfl) s e
  have field : ∀ {β : Type} (g : Signal → β), (∀ a, g (Signal.leftBy e a) = g a) →
      ∀ t, g ((Signal.dropped s e w).signals.get t) = g (w.signals.get t) :=
    fun g same t => Heap.get_modify_same w.signals s t _ g same
  have left : ∀ t, ((Signal.dropped s e w).signals.get t).subscribers ⊆
      (w.signals.get t).subscribers ∧
        (t = s → e ∉ ((Signal.dropped s e w).signals.get t).subscribers) := by
    intro t
    by_cases hts : t = s
    · subst hts
      rcases Nat.lt_or_ge t.index w.signals.size with known | unknown
      · have cell : (Signal.dropped t e w).signals.get t = _ :=
          Heap.get_modify_self w.signals t (Signal.leftBy e) known
        rw [cell]
        exact ⟨List.erase_subset, fun _ => (h.faithful.signals t).nodup.not_mem_erase⟩
      · have cells : (Signal.dropped t e w).signals = _ :=
          Heap.modify_of_size_le w.signals t (Signal.leftBy e) unknown
        rw [cells, Heap.get_of_size_le _ _ unknown]
        exact ⟨List.Subset.refl _, fun _ => List.not_mem_nil⟩
    · have cell : (Signal.dropped s e w).signals.get t = _ :=
        Heap.get_modify_of_ne w.signals s t (Signal.leftBy e) (Ne.symm hts)
      rw [cell]
      exact ⟨List.Subset.refl _, fun eq => absurd eq hts⟩
  have canvas : Canvas B Nobody (Cancel.entry s e).Takes (Signal.dropped s e w) := by
    refine h.of_signals rfl rfl rfl faithful (field Signal.producer fun _ => rfl) reactions
      (fun t => (left t).1) fun t e' he hv => ?_
    rw [seen, field Signal.version fun _ => rfl] at hv
    exact ⟨hv, field Signal.value (fun _ => rfl) t⟩
  refine ⟨{ canvas with owned := fun t e' he _ n effect hr => canvas.owned t e' he ?_ n effect hr },
    .of_same rfl rfl rfl rfl rfl⟩
  intro taken
  cases (taken : Cancel.entry s e = .entry t e')
  exact (left s).2 rfl he

variable [Paints run]

theorem keeping_invoke {t : Task} (admits : ∀ w, B.Admits w t) :
    Keeps (Keeping B) run (invoke t) :=
  fun w => (ensures_invoke ..).2 fun w' hw' => Paints.task B t w w' (admits w) hw'

/-! Subscriptions and rounds. -/

/-- Cancelling a subscription, on which those who need no owner hang. -/
theorem cancel_paints {L : SignalId → EntryId → Prop} {sub : SubscriptionId}
    (h : Canvas B Nobody L w)
    (only : ∀ s e, L s e → w.subscriptions.get sub = some (.entry s e)) :
    Ensures run (Subscription.cancel sub) w fun _ w' => Finished B w' ∧ Spares B w w' := by
  refine (ensures_bind ..).2 ((ensures_get _).2 ?_)
  cases hc : w.subscriptions.get sub with
  | none =>
    refine (ensures_pure ..).2 ⟨?_, .refl w⟩
    refine h.of_same rfl rfl rfl h.cancels fun s e => ?_
    rintro (loose | owned)
    · exact nomatch hc.symm.trans (only s e loose)
    · exact .inr owned
  | some c =>
    refine (ensures_bind ..).2 ((ensures_modify ..).2 ((ensures_invoke ..).2 fun w' hw' => ?_))
    have known : sub.index < w.subscriptions.size := by
      rcases Nat.lt_or_ge sub.index w.subscriptions.size with known | unknown
      · exact known
      · rw [Heap.get_of_size_le _ _ unknown] at hc
        cases hc
    have other : ∀ sub', sub' ≠ sub →
        (Subscription.spent sub w).subscriptions.get sub' = w.subscriptions.get sub' :=
      fun sub' ne => Heap.get_modify_of_ne _ _ _ _ (Ne.symm ne)
    have spent : Canvas B Nobody c.Takes (Subscription.spent sub w) := by
      refine h.of_same rfl rfl rfl (fun sub' c' hc' => ?_) fun s e => ?_
      · by_cases hs : sub' = sub
        · have none : (Subscription.spent sub w).subscriptions.get sub = none :=
            Heap.get_modify_self _ _ _ known
          rw [hs, none] at hc'
          cases hc'
        · rw [other sub' hs] at hc'
          exact h.cancels sub' c' hc'
      · rintro (loose | ⟨f, sub', slot, takes⟩)
        · exact .inl (Option.some.inj (hc.symm.trans (only s e loose)))
        · by_cases hs : sub' = sub
          · subst hs
            exact .inl (Option.some.inj (hc.symm.trans takes))
          · exact .inr ⟨f, sub', slot, (other sub' hs).trans takes⟩
    have spares : Spares B w (Subscription.spent sub w) := .of_same rfl rfl rfl rfl rfl
    obtain ⟨h', spares'⟩ := Paints.cancel B c _ w' (h.cancels sub c hc) spent hw'
    exact ⟨h', spares.trans spares'⟩

theorem keeping_cancel (sub : SubscriptionId) :
    Keeps (Keeping B) run (Subscription.cancel sub) :=
  fun _ => ensures_of_imp fun h => cancel_paints h fun _ _ loose => loose.elim

/-- Being called at once. -/
theorem react_paints {P : EntryId → Prop} {L : SignalId → EntryId → Prop} {reaction : Reaction}
    (h : Canvas B P L w) (tame : reaction.Tame)
    (loose : ∀ s e, L s e → ∃ n effect, reaction = .effect n effect)
    (late : ∀ e, P e → (w.entries.get e).reaction = reaction ∧ ∃ n effect, reaction = .effect n effect)
    (placed : ∀ n effect, reaction = .effect n effect → B n effect s)
    (ran : run (.react reaction (Signal.content w s)) w = .ok ((), w')) :
    Canvas B Nobody L w' ∧ Spares B w w' := by
  have settled : (∀ n effect, reaction ≠ .effect n effect) → Finished B w := by
    refine fun other => (h.mono fun e he => ?_).of_same rfl rfl rfl h.cancels fun s e => ?_
    · obtain ⟨-, n, effect, eq⟩ := late e he
      exact other n effect eq
    · rintro (hL | owned)
      · obtain ⟨n, effect, eq⟩ := loose s e hL
        exact (other n effect eq).elim
      · exact .inr owned
  have finished : Finished B w' ∧ Spares B w w' → Canvas B Nobody L w' ∧ Spares B w w' :=
    fun ⟨h', spares⟩ => ⟨h'.of_same rfl rfl rfl h'.cancels fun s e =>
      Or.imp_left fun none => none.elim, spares⟩
  cases reaction with
  | told name script =>
    have admits : B.Admits w (.react (.told name script) (Signal.content w s)) := tame
    exact finished (Paints.task B _ w w' admits ran (settled nofun))
  | refresh d =>
    have admits : B.Admits w (.react (.refresh d) (Signal.content w s)) := trivial
    exact finished (Paints.task B _ w w' admits ran (settled nofun))
  | effect n effect =>
    obtain ⟨run', applied⟩ := Paints.effect n effect _ w w' ran
    exact h.paint (placed n effect rfl) (fun e he => (late e he).1) applied
  | followed name script => exact tame.elim
  | branch a => exact tame.elim

/-- By whether the call is due: what is marked is excepted until the call is over. -/
theorem tell_paints (h : Finished B w) {n : Nat} (c : Callable s n e w) :
    Ensures run (Signal.tell s n e) w fun _ w' => Finished B w' ∧ Spares B w w' := by
  intro _ w' hw'
  rw [tell_eq] at hw'
  split at hw'
  case isFalse =>
    cases hw'
    exact ⟨h, .refl w⟩
  case isTrue due =>
    simp only [Bool.and_eq_true, decide_eq_true_eq] at due
    have member := ((h.faithful.signals s).active e c.joined).1 due.1
    have marked := h.marked c due.1 due.2
    have content : Signal.content (Signal.marked s n e w) s = (w.signals.get s).value :=
      Heap.get_modify_same w.signals s s (Signal.showing e (some n)) Signal.value fun _ => rfl
    have reaction : ((Signal.marked s n e w).entries.get e).reaction =
        (w.entries.get e).reaction :=
      Heap.get_modify_same _ e e _ Entry.reaction fun _ => rfl
    rw [← content] at hw'
    have spares : Spares B w (Signal.marked s n e w) := .of_same rfl rfl rfl rfl rfl
    obtain ⟨h', spares'⟩ := react_paints marked (h.reactions e) (fun _ _ none => none.elim)
      (fun e' late => ⟨late.1 ▸ reaction, late.2⟩) (h.placed s e member) hw'
    exact ⟨h', spares.trans spares'⟩

variable [KeptBy Delivers run]

theorem tellAll_paints (h : Finished B w) (s : SignalId) (value : Option Value) :
    let w₁ := Signal.changed s value w
    Ensures run (Signal.tellAll s w₁) w₁ fun _ w' => Finished B w' ∧ Spares B w w' := by
  intro w₁ a w' hw'
  let I : World → Prop := fun w' => Finished B w' ∧ Spares B w w'
  have keeps : ∀ n e w₁, Faithful w₁ → Callable s n e w₁ → I w₁ →
      Ensures run (Signal.tell s n e) w₁ fun _ w₂ => I w₂ := by
    rintro n e w₁ - c ⟨h₁, spares₁⟩
    refine (tell_paints h₁ c).mono ?_
    rintro _ w₂ ⟨h₂, spares₂⟩
    exact ⟨h₂, spares₁.trans spares₂⟩
  exact (tellAll_calls value keeps h.faithful ⟨h.changed s value, .of_same rfl rfl rfl rfl rfl⟩ a w' hw').2

theorem keeping_replace (s : SignalId) (value : Option Value) :
    Keeps (Keeping B) run (Signal.replace s value) := by
  intro w a w' hw' h
  rw [replace_eq] at hw'
  exact tellAll_paints h s value a w' hw'

theorem keeping_put (s : SignalId) (v : Value) : Keeps (Keeping B) run (Signal.put s v) :=
  keeps_bind keeps_get fun _ => keeps_ite (keeps_pure ()) (keeping_replace s _)

omit [KeptBy Delivers run] in
theorem keeping_wake (s : SignalId) : Keeps (Keeping B) run (Signal.wake s) :=
  keeps_bind keeps_get fun _ => keeps_ite (keeping_invoke fun _ => trivial) (keeps_pure ())

omit [KeptBy Delivers run] in
/-- Whoever joins is without an owner at first. -/
theorem join_paints (h : Finished B w) {reaction : Reaction} {mode : Mode}
    (joins : B.Joins s reaction mode) :
    Ensures run (Signal.join s reaction mode) w fun e w' =>
      Canvas B Nobody (fun t e' => t = s ∧ e' = e ∧ ∃ n effect, reaction = .effect n effect) w' ∧
        Spares B w w' := by
  obtain ⟨tame, placed⟩ := joins
  simp only [Signal.join, Signal.enter, Signal.greet, modifySignal, ensures_bind, ensures_get,
    ensures_set, ensures_pure]
  cases mode with
  | normal =>
    rw [if_neg Mode.noConfusion]
    simp only [ensures_pure]
    have plain : ∀ n effect, reaction ≠ .effect n effect := fun n effect eq =>
      Mode.noConfusion (placed n effect eq).1
    refine ⟨?_, .of_same rfl rfl rfl rfl rfl⟩
    have entered : Canvas B _ _ (Signal.entered s reaction .normal w) :=
      h.joined s tame .normal (fun n effect eq => absurd eq (plain n effect)) rfl rfl rfl rfl rfl
    exact entered.mono fun e late => let ⟨n, effect, eq⟩ := late.2; plain n effect eq
  | immediate =>
    simp only [if_true, ensures_bind, ensures_modify, ensures_get, ensures_invoke, ensures_pure]
    intro w' hw'
    let w₁ := Signal.greeted s w.entries.next (Signal.entered s reaction .immediate w)
    have entered : Canvas B _ _ w₁ :=
      h.joined s tame .immediate (fun n effect eq => (placed n effect eq).2)
        (Heap.modify_modify ..) rfl rfl rfl rfl
    have new : (w₁.entries.get w.entries.next).reaction = reaction :=
      congrArg Entry.reaction (Heap.get_push_next ..)
    have spares : Spares B w w₁ := .of_same rfl rfl rfl rfl rfl
    obtain ⟨h', spares'⟩ := react_paints entered tame (fun _ _ loose => loose.2.2)
      (fun e late => ⟨late.1 ▸ new, late.2⟩) (fun n effect eq => (placed n effect eq).2) hw'
    exact ⟨h', spares.trans spares'⟩

omit [KeptBy Delivers run] in
/-- The subscription that is made takes off the one who has no owner yet. -/
theorem subscribe_paints (h : Finished B w) {reaction : Reaction} {mode : Mode}
    (joins : B.Joins s reaction mode) :
    Ensures run (Signal.subscribe s reaction mode) w fun sub w' =>
      Canvas B Nobody (fun s' e => w'.subscriptions.get sub = some (.entry s' e) ∧
        ∃ n effect, reaction = .effect n effect) w' ∧ Spares B w w' := by
  refine (ensures_bind ..).2 fun _ w₁ hw₁ => ?_
  obtain ⟨h₁, spares₁⟩ := keeping_wake s w () w₁ hw₁ h
  refine (ensures_bind ..).2 ((join_paints h₁ joins).mono ?_)
  rintro e w₂ ⟨h₂, spares₂⟩
  simp only [Subscription.create, ensures_bind, ensures_get, ensures_set, ensures_pure]
  have made : Canvas B Nobody _ (Subscription.made (.entry s e) w₂) := made_paints h₂ trivial
  have takes : (Subscription.made (.entry s e) w₂).subscriptions.get w₂.subscriptions.next =
      some (.entry s e) := Heap.get_push_next ..
  refine ⟨made.of_same rfl rfl rfl made.cancels fun t e' => Or.imp_left ?_,
    (spares₁.trans spares₂).trans (.of_same rfl rfl rfl rfl rfl)⟩
  rintro ⟨rfl, rfl, effect⟩
  exact ⟨takes, effect⟩

omit [KeptBy Delivers run] in
theorem keeping_subscribe {reaction : Reaction} {mode : Mode} (joins : B.Joins s reaction mode)
    (plain : ∀ n effect, reaction ≠ .effect n effect) :
    Keeps (Keeping B) run (Signal.subscribe s reaction mode) := by
  refine fun w => ensures_of_imp fun h => (subscribe_paints h joins).mono fun sub w' both => ?_
  obtain ⟨h', spares⟩ := both
  refine ⟨h'.of_same rfl rfl rfl h'.cancels fun t e => Or.imp_left ?_, spares⟩
  rintro ⟨-, n, effect, eq⟩
  exact plain n effect eq

omit [KeptBy Delivers run] in
theorem keeping_stop (s : SignalId) : Keeps (Keeping B) run (Signal.stop s) := by
  refine keeps_bind keeps_get fun w => keeps_ite ?_ (keeps_pure ())
  refine keeps_bind (keeping_flags s (fun _ => false) fun _ => none) fun _ => ?_
  cases (w.signals.get s).teardown with
  | none => exact keeps_pure ()
  | some t => exact keeping_cancel t

/-! Derived signals. -/

omit [KeptBy Delivers run] in
theorem keeping_follow (d : DerivationId) (s : SignalId) :
    Keeps (Keeping B) run (Derivation.follow d s) :=
  keeps_bind (keeping_subscribe ⟨trivial, nofun⟩ nofun) fun _ => keeping_derivation d _

omit [KeptBy Delivers run] in
theorem keeping_track (s : SignalId) (d : DerivationId) :
    Keeps (Keeping B) run (Derivation.track s (.recording d)) := by
  refine keeps_bind (keeping_derivation d _) fun _ => keeps_bind keeps_get fun _ => ?_
  refine keeps_ite (keeps_pure ()) (keeps_bind (keeping_derivation d _) fun _ => keeping_follow d s)

theorem keeping_refresh (d : DerivationId) : Keeps (Keeping B) run (Derivation.refresh d) :=
  keeps_bind keeps_get fun _ => keeps_bind (Idle.tracked (fun s => keeping_track s d) _) fun v =>
    keeping_put _ v

theorem keeping_startDerivation (d : DerivationId) :
    Keeps (Keeping B) run (Derivation.start d) :=
  keeps_bind keeps_get fun _ => keeps_bind (keeps_forM fun s => keeping_follow d s) fun _ =>
    keeps_bind (keeping_refresh d) fun _ => keeping_create trivial

omit [KeptBy Delivers run] in
theorem keeping_release (d : DerivationId) : Keeps (Keeping B) run (Derivation.release d) :=
  keeps_bind keeps_get fun _ => keeps_bind (keeping_derivation d _) fun _ =>
    keeps_bind (keeping_create trivial) fun sub => keeping_cancel sub

theorem keeping_activate (s : SignalId) : Keeps (Keeping B) run (Signal.activate s) := by
  refine fun w => ensures_of_imp fun h => (ensures_bind ..).2 ((ensures_get _).2 ?_)
  cases hp : (w.signals.get s).producer with
  | none => exact (ensures_pure ..).2 ⟨h, .refl w⟩
  | some p =>
    obtain ⟨d, rfl⟩ := h.producers s p hp
    have started : Keeps (Keeping B) run (do
        modifySignal s fun signal => { signal with started := true }
        let teardown ← Producer.start s (.derivation d)
        modifySignal s fun signal => { signal with teardown := some teardown }) :=
      keeps_bind (keeping_flags s (fun _ => true) Signal.teardown) fun _ =>
        keeps_bind (keeping_startDerivation d) fun t =>
          keeping_flags s Signal.started fun _ => some t
    exact (started w).mono fun _ _ keeping => keeping h

omit [KeptBy Delivers run] in
theorem cancelRun_paints {c : Cancel} (silent : c.Silent) (h : Canvas B Nobody c.Takes w) :
    Ensures run c.run w fun _ w' => Finished B w' ∧ Spares B w w' := by
  have finished : (∀ s e, ¬ c.Takes s e) → Finished B w := fun none =>
    h.of_same rfl rfl rfl h.cancels fun s e => Or.imp_left (none s e)
  cases c with
  | nothing => exact (ensures_pure ..).2 ⟨finished nofun, .refl w⟩
  | entry s e =>
    refine (ensures_bind ..).2 ((drop_paints h).mono ?_)
    rintro _ w₁ ⟨h₁, spares₁⟩
    have stops : Keeps (Keeping B) run (Signal.stop s) := keeping_stop s
    refine (stops w₁).mono fun _ w₂ keeping => ?_
    obtain ⟨h₂, spares₂⟩ := keeping h₁
    exact ⟨h₂, spares₁.trans spares₂⟩
  | all l =>
    have all : Keeps (Keeping B) run (Subscription.cancelEach l) :=
      keeps_forM fun sub => keeping_cancel sub
    exact (all w).mono fun _ _ keeping => keeping (finished nofun)
  | release d =>
    have releases : Keeps (Keeping B) run (Derivation.release d) := keeping_release d
    exact (releases w).mono fun _ _ keeping => keeping (finished nofun)
  | stopped name script => exact silent.elim

/-! Steps. -/

theorem upkeep_paints : Upkeep run (Finished B) (Spares B) where
  idling h idling := h.idling idling
  replace value h _ := (keeping_replace _ value _).mono fun _ _ keeping => keeping h
  subscribe := fun {_ s name script} mode h operates => by
    have joins : B.Joins s (.told name script) mode := ⟨operates, nofun⟩
    have named : ∀ sub, Keeps (Keeping B) run (nameSubscription name sub) := fun sub =>
      keeping_modify (fun _ => rfl) (fun _ => rfl) (fun _ => rfl) (fun _ => rfl) (fun _ => rfl)
        (fun _ => rfl) fun _ => ⟨rfl, rfl⟩
    exact (keeps_bind (keeping_subscribe joins nofun) named _).mono fun _ _ keeping => keeping h
  cancel h _ := (keeping_cancel _ _).mono fun _ _ keeping => keeping h
  script := fun {steps w} current h operates => by
    have admits : ∀ w, B.Admits w (.script steps current) := fun _ => operates
    exact (keeping_invoke admits w).mono fun _ _ keeping => keeping h

instance : Lasting (Spares B) := ⟨.refl, .trans⟩

/-! Mounting. -/

omit [Paints run] [KeptBy Delivers run] in
/-- A follow that is given a subscription owns the subscriber that it takes off; the one of before
is without an owner. -/
theorem slotted_paints {L : SignalId → EntryId → Prop} (h : Canvas B Nobody L w) (f : FollowId)
    (slot : Option SubscriptionId)
    (gains : ∀ s e, L s e → f.index < w.follows.size ∧
      ∃ sub, slot = some sub ∧ w.subscriptions.get sub = some (.entry s e)) :
    let w' := Lifecycle.slotted f slot w
    Canvas B Nobody (fun s e => ∃ sub, (w.follows.get f).slot = some sub ∧
      w.subscriptions.get sub = some (.entry s e)) w' ∧ Spares B w w' := by
  intro w'
  have unmoved : Unmoved (· = f) w w' := slotted_unmoved slot
  refine ⟨h.of_same rfl rfl rfl h.cancels fun s e => ?_, ?_⟩
  · rintro (loose | ⟨g, sub, held, takes⟩)
    · obtain ⟨known, sub, eq, takes⟩ := gains s e loose
      exact .inr ⟨f, sub, (slotted_self known slot).trans eq, takes⟩
    · by_cases hg : g = f
      · exact .inl ⟨sub, hg ▸ held, takes⟩
      · exact .inr ⟨g, sub, (unmoved.slot g hg).trans held, takes⟩
  · have same : Spares B w { w' with follows := w.follows } := .of_same rfl rfl rfl rfl rfl
    exact { same with follows := unmoved.followCount, follow := unmoved.cell }

omit [KeptBy Delivers run] in
theorem vacate_paints {L : SignalId → EntryId → Prop} (h : Canvas B Nobody L w)
    {slot : Option SubscriptionId}
    (only : ∀ s e, L s e → ∃ sub, slot = some sub ∧ w.subscriptions.get sub = some (.entry s e)) :
    Ensures run (slot.forM Subscription.cancel) w fun _ w' => Finished B w' ∧ Spares B w w' := by
  cases slot with
  | none =>
    refine (ensures_pure ..).2 ⟨h.of_same rfl rfl rfl h.cancels fun s e => Or.imp_left fun loose => ?_,
      .refl w⟩
    obtain ⟨sub, none, -⟩ := only s e loose
    cases none
  | some sub =>
    refine cancel_paints h fun s e loose => ?_
    obtain ⟨sub', eq, takes⟩ := only s e loose
    cases eq
    exact takes

omit [KeptBy Delivers run] in
theorem turn_paints (h : Finished B w) {f : FollowId} (bears : B.Bears w f) (b : Bool) :
    Ensures run (Hook.turning f b).run w fun _ w' => Finished B w' ∧ Spares B w w' := by
  cases b with
  | true =>
    obtain ⟨known, mode, n, effect, reaction, shows⟩ := bears
    have joins : B.Joins (w.follows.get f).signal (w.follows.get f).reaction
        (w.follows.get f).mode := by
      rw [reaction]
      refine ⟨trivial, ?_⟩
      rintro _ _ ⟨⟩
      exact ⟨mode, shows⟩
    have starts : Ensures run (Lifecycle.startFollow f) w fun _ w' =>
        Finished B w' ∧ Spares B w w' := by
      simp only [Lifecycle.startFollow, Lifecycle.setSlot, ensures_bind, ensures_get,
        ensures_modify]
      refine (subscribe_paints h joins).mono ?_
      rintro sub w₁ ⟨h₁, spares₁⟩
      obtain ⟨h₂, spares₂⟩ := slotted_paints h₁ f (some sub)
        fun s e loose => ⟨spares₁.follows ▸ known, sub, rfl, loose.1⟩
      refine (vacate_paints h₂ fun s e loose => loose).mono ?_
      rintro _ w₃ ⟨h₃, spares₃⟩
      exact ⟨h₃, (spares₁.trans spares₂).trans spares₃⟩
    exact starts
  | false =>
    have ends : Ensures run (Lifecycle.endFollow f) w fun _ w' =>
        Finished B w' ∧ Spares B w w' := by
      simp only [Lifecycle.endFollow, Lifecycle.setSlot, ensures_bind, ensures_get, ensures_modify]
      obtain ⟨h₁, spares₁⟩ := slotted_paints h f none
        fun s e none => none.elim
      refine (vacate_paints h₁ fun s e loose => loose).mono ?_
      rintro _ w₂ ⟨h₂, spares₂⟩
      exact ⟨h₂, spares₁.trans spares₂⟩
    exact ends

theorem Board.Hangs.spared {h : Hook} (hangs : B.Hangs w h) (spares : Spares B w w') :
    B.Hangs w' h := by
  obtain ⟨f, b, eq, bears⟩ := hangs
  exact ⟨f, b, eq, spares.bears.2 bears⟩

/-- All hooks are those of follows whose effects are on a board. -/
def Board.HangsAll (B : Board) (w : World) : Prop :=
  ∀ b n h, (n, h) ∈ w.hooks b → B.Hangs w h

theorem Board.HangsAll.spared (hangs : B.HangsAll w) (spares : Spares B w w') : B.HangsAll w' := by
  have hooks : ∀ b, w'.hooks b = w.hooks b := by
    intro b
    cases b with
    | true => exact spares.mountHooks
    | false => exact spares.unmountHooks
  intro b n h mem
  rw [hooks] at mem
  exact (hangs b n h mem).spared spares

omit [KeptBy Delivers run] in
/-- Tasks one after another. By induction on their list. -/
theorem invokeAll_paints (h : Finished B w) (hangs : B.HangsAll w) {tasks : List Task}
    (admits : ∀ t ∈ tasks, ∀ w', Spares B w w' → B.HangsAll w' → B.Admits w' t) :
    Ensures run (invokeAll tasks) w fun _ w' => Finished B w' ∧ Spares B w w' := by
  induction tasks generalizing w with
  | nil => exact (ensures_pure ..).2 ⟨h, .refl w⟩
  | cons t tasks ih =>
    obtain ⟨first, rest⟩ := List.forall_mem_cons.1 admits
    refine (ensures_bind ..).2 ((ensures_invoke ..).2 fun w₁ hw₁ => ?_)
    obtain ⟨h₁, spares₁⟩ := Paints.task B t w w₁ (first w (.refl w) hangs) hw₁ h
    refine (ih h₁ (hangs.spared spares₁) fun t ht w₂ spares₂ hangs₂ => ?_).mono ?_
    · exact rest t ht w₂ (spares₁.trans spares₂) hangs₂
    · rintro _ w₂ ⟨h₂, spares₂⟩
      exact ⟨h₂, spares₁.trans spares₂⟩

theorem flagged_paints (h : Finished B w) (n : NodeId) (b : Bool) :
    Finished B (Mount.flagged n b w) ∧ Spares B w (Mount.flagged n b w) := by
  have same : ∀ m, ((Mount.flagged n b w).nodes.get m).content = (w.nodes.get m).content :=
    fun m => Heap.get_modify_same w.nodes n m _ Dom.Node.content fun _ => rfl
  have size : (Mount.flagged n b w).nodes.size = w.nodes.size := Heap.size_modify ..
  refine ⟨h.of_nodes (fun m e s shows => ?_) fun m e _ _ => Effect.look_congr (same m), ?_⟩
  · obtain ⟨known, suits⟩ := h.suits m e s shows
    exact ⟨size ▸ known, (Effect.suits_congr (same m)).2 suits⟩
  · exact ⟨Nat.le_of_eq size.symm, fun m _ e _ => Effect.look_congr (same m), fun m _ _ => same m,
      fun m _ e => Effect.suits_congr (same m), rfl, rfl, rfl, rfl, fun _ => ⟨rfl, rfl, rfl⟩⟩

omit [KeptBy Delivers run] in
theorem connect_paints (h : Finished B w) (hangs : B.HangsAll w) (n : NodeId) (b : Bool) :
    Ensures run (Mount.connect n b) w fun _ w' => Finished B w' ∧ Spares B w w' := by
  by_cases same : (w.nodes.get n).connected = b
  · intro _ w' hw'
    rw [Mount.connect_same same] at hw'
    cases hw'
    exact ⟨h, .refl w⟩
  obtain ⟨h₁, spares₁⟩ := flagged_paints h n b
  have hangs₁ := hangs.spared spares₁
  have hooks : ∀ {w₂ w₃ : World} {b : Bool}, B.HangsAll w₂ → ∀ t ∈ hooksOf n (w₂.hooks b), Spares B w₂ w₃ →
      B.Admits w₃ t := by
    intro w₂ w₃ b hangs₂ t ht spares
    obtain ⟨hook, rfl, mem⟩ := mem_hooksOf.1 ht
    exact (hangs₂ b n hook mem).spared spares
  have below : ∀ {w₂ : World} {l : List NodeId}, Finished B w₂ → B.HangsAll w₂ →
      Ensures run (invokeAll (l.map fun c => .connect c b)) w₂ fun _ w₃ =>
        Finished B w₃ ∧ Spares B w₂ w₃ := by
    intro w₂ l h₂ hangs₂
    refine invokeAll_paints h₂ hangs₂ fun t ht w₃ _ hangs₃ => ?_
    obtain ⟨c, -, rfl⟩ := List.mem_map.1 ht
    exact hangs₃
  cases b with
  | true =>
    intro _ w' hw'
    rw [Mount.connect_true same] at hw'
    revert hw'
    suffices ensured : Ensures run (do
        invokeAll (hooksOf n (← get).mountHooks)
        invokeAll (((← get).nodes.get n).children.map fun c => .connect c true) : Op Unit)
        (Mount.flagged n true w) fun _ w' => Finished B w' ∧ Spares B w w' from
      ensured () w'
    simp only [ensures_bind, ensures_get]
    refine (invokeAll_paints h₁ hangs₁ fun t ht w₂ spares _ =>
      hooks (b := true) hangs₁ t ht spares).mono ?_
    rintro _ w₂ ⟨h₂, spares₂⟩
    refine (below h₂ (hangs₁.spared spares₂)).mono ?_
    rintro _ w₃ ⟨h₃, spares₃⟩
    exact ⟨h₃, (spares₁.trans spares₂).trans spares₃⟩
  | false =>
    intro _ w' hw'
    rw [Mount.connect_false same] at hw'
    revert hw'
    suffices ensured : Ensures run (do
        invokeAll (((← get).nodes.get n).children.map fun c => .connect c false)
        invokeAll (hooksOf n (← get).unmountHooks) : Op Unit)
        (Mount.flagged n false w) fun _ w' => Finished B w' ∧ Spares B w w' from
      ensured () w'
    simp only [ensures_bind, ensures_get]
    refine (below h₁ hangs₁).mono ?_
    rintro _ w₂ ⟨h₂, spares₂⟩
    have hangs₂ := hangs₁.spared spares₂
    refine (invokeAll_paints h₂ hangs₂ fun t ht w₃ spares _ =>
      hooks (b := false) hangs₂ t ht spares).mono ?_
    rintro _ w₃ ⟨h₃, spares₃⟩
    exact ⟨h₃, (spares₁.trans spares₂).trans spares₃⟩

/-! Runs. -/

/-- By cases on the task. -/
theorem task_paints {t : Task} (admits : B.Admits w t) :
    Ensures run t.run w fun _ w' => Keeping B w w' := by
  cases t with
  | react reaction v =>
    cases reaction with
    | told name script => exact ensures_of_imp fun h => upkeep_paints.told h name v admits
    | refresh d => exact keeping_refresh d w
    | _ => exact admits.elim
  | start s => exact keeping_activate s w
  | script steps current => exact ensures_of_imp fun h => upkeep_paints.steps h current admits
  | hook hook =>
    obtain ⟨f, b, rfl, bears⟩ := admits
    exact ensures_of_imp fun h => turn_paints h bears b
  | connect n b => exact ensures_of_imp fun h => connect_paints h admits n b
  | cancel c => exact admits.elim
  | handle handler event target => exact admits.elim

end

/-- However deeply callbacks are nested. -/
instance paints_exec (fuel : Nat) : Paints (exec fuel) := by
  induction fuel with
  | zero => constructor <;> intros <;> contradiction
  | succ fuel ih =>
    exact ⟨fun B t w w' admits hx => task_paints admits () w' hx,
      fun B c w w' silent h hx => cancelRun_paints silent h () w' hx,
      fun n e v w w' hx => ⟨exec fuel, hx⟩⟩

end LiveMarkup.Live
