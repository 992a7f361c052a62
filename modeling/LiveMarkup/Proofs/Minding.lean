import LiveMarkup.Proofs.Aloof

/-!
What aloof callbacks and steps do to wards, operation by operation, and from it what runs do, however
deeply their callbacks are nested.
-/
namespace LiveMarkup.Live
namespace Ward

/-- Cancels nothing that is in the ward. -/
def Harmless (g : Ward) : Cancel → Prop
  | .nothing | .release _ => True
  | .entry _ e => ¬ g.entries e
  | .all subscriptions => ∀ sub ∈ subscriptions, ¬ g.handles sub
  | .stopped _ script => ∀ step ∈ script, step.Aloof

/-- A task that leaves the tree alone, and the ward. -/
def Admits (g : Ward) : Task → Prop
  | .react r _ => r.Aloof
  | .hook h => h.Aloof
  | .cancel c => g.Harmless c
  | .start _ => True
  | .script steps _ => ∀ step ∈ steps, step.Aloof
  | .handle _ _ _ | .connect _ _ => False

/-- The ward with one more subscriber. -/
def withEntry (g : Ward) (e : EntryId) : Ward :=
  ⟨g.handles, fun e' => g.entries e' ∨ e' = e⟩

/-- The ward with one more subscription, and the subscriber that it takes off. -/
def holding (g : Ward) (sub : SubscriptionId) (e : EntryId) : Ward :=
  ⟨fun sub' => g.handles sub' ∨ sub' = sub, fun e' => g.entries e' ∨ e' = e⟩

end Ward

/-- A runner of tasks that minds every ward. -/
class Discreet (run : Runner) : Prop where
  task : ∀ (g : Ward) t w w', g.Admits t → run t w = .ok ((), w') → g.Minds w w'

/-- An entry that was made for a subscriber is in use. -/
structure Joined (s : SignalId) (reaction : Reaction) (e : EntryId) (w : World) : Prop where
  subscriber : e ∈ (w.signals.get s).subscribers
  active : (w.entries.get e).active = true
  reaction : (w.entries.get e).reaction = reaction

theorem Joined.kept {g : Ward} {w w' : World} {s : SignalId} {reaction : Reaction} {e : EntryId}
    (h : Joined s reaction e w) (kept : g.Kept w w') (he : g.entries e) : Joined s reaction e w' :=
  ⟨kept.subscriber e he s h.subscriber, (kept.entry e he).1.trans h.active,
    (kept.entry e he).2.trans h.reaction⟩

namespace Ward
variable {α β : Type} {g : Ward} {run : Runner} {w w₁ w' : World} {s : SignalId} {e : EntryId}
  {sub : SubscriptionId} {reaction : Reaction} {d : DerivationId}

/-- What is done before goes with what is done after. -/
theorem Minds.after {x : Op α} (first : g.Minds w w₁)
    (rest : Ensures run x w₁ fun _ w' => g.Minds w₁ w') : Ensures run x w₁ fun _ w' => g.Minds w w' :=
  rest.mono fun _ _ => Lasting.trans first

/-- Looking at a world that is sound. -/
theorem minds_get {f : World → Op α}
    (h : ∀ w, g.Sound w → Ensures run (f w) w fun _ w' => g.Minds w w') :
    Keeps g.Minds run (get >>= f) := by
  intro w a w' hx sound
  exact h w sound a w' hx sound

theorem minds_modify {f : World → World} (h : ∀ w, g.Sound w → g.Kept w (f w)) :
    Keeps g.Minds run (modify f : Op PUnit) := by
  intro w
  rw [ensures_modify]
  exact h w

theorem minds_get_set {f : World → World} {k : World → PUnit → Op α}
    (h : ∀ w, g.Sound w → g.Kept w (f w)) (rest : ∀ w u, Keeps g.Minds run (k w u)) :
    Keeps g.Minds run (get >>= fun w => set (f w) >>= k w) := by
  intro w
  simp only [ensures_bind, ensures_get, ensures_set]
  exact Minds.after (h w) (rest w _ (f w))

/-- What does not show in a ward. -/
theorem minds_rename {f : Names → Names} (same : ∀ names, (f names).subscriptions = names.subscriptions) :
    Keeps g.Minds run (rename f) := by
  refine minds_modify fun w _ => { Kept.refl w with named := fun name sub hs => .inl ?_ }
  rwa [← same]

theorem minds_signal (s : SignalId) {f : Signal → Signal}
    (producer : ∀ a, (f a).producer = a.producer)
    (teardown : ∀ a t, (f a).teardown = some t → a.teardown = some t)
    (subscribers : ∀ a, ∀ e ∈ a.subscribers, g.entries e → e ∈ (f a).subscribers) :
    Keeps g.Minds run (modifySignal s f) :=
  minds_modify fun _ _ => .signals producer (fun a t ht => .inl (teardown a t ht)) subscribers

/-- A new subscription is free. -/
theorem create_free (sound : g.Sound w) {c : Cancel} (allows : g.Allows w w.subscriptions.next c) :
    Ensures run (Subscription.create c) w fun sub w' => g.Kept w w' ∧ g.Free w' sub := by
  simp only [Subscription.create, ensures_bind, ensures_get, ensures_set, ensures_pure]
  have kept : g.Kept w { w with subscriptions := w.subscriptions.push (some c) } :=
    .subscriptionMade w sound.handles allows
  refine ⟨kept, ?_, fun held => Nat.lt_irrefl _ (sound.handles _ held)⟩
  rw [Heap.size_push]
  exact Nat.lt_succ_self _

theorem Allows.harmless {c : Cancel} (h : g.Allows w sub c) (free : ¬ g.handles sub) :
    g.Harmless c := by
  cases c with
  | nothing => trivial
  | release d => trivial
  | entry s e => exact fun he => free (h.2 he)
  | all l => exact fun sub hs => (h sub hs).2
  | stopped name script => exact h

/-- Without the new subscriber, there is less in the ward. -/
theorem Kept.withoutEntry (h : (g.withEntry e).Kept w w') : g.Kept w w' := by
  refine { h with
    entry := fun e' he => h.entry e' (.inl he)
    subscriber := fun e' he => h.subscriber e' (.inl he)
    cancels := fun sub c hc => (h.cancels sub c hc).imp_right fun allows => ?_ }
  cases c with
  | nothing => trivial
  | release d => trivial
  | entry s e' => exact ⟨allows.1, fun he => allows.2 (.inl he)⟩
  | all l => exact allows
  | stopped name script => exact allows

/-- What was just made for a subscriber is in no subscription. -/
theorem Sound.withEntry (h : g.Sound w) (kept : g.Kept w w')
    (subscriptions : w'.subscriptions = w.subscriptions) (fresh : w.entries.size ≤ e.index)
    (made : e.index < w'.entries.size) : (g.withEntry e).Sound w' := by
  have sound := kept.sound h
  refine { sound with entries := ?_, cancels := fun sub c hc => ?_ }
  · rintro e' (he | rfl)
    · exact sound.entries e' he
    · exact made
  · have allows := sound.cancels sub c hc
    rw [subscriptions] at hc
    have before := h.cancels sub c hc
    cases c with
    | nothing => trivial
    | release d => trivial
    | entry s e' =>
      refine ⟨allows.1, fun he => he.elim allows.2 ?_⟩
      rintro rfl
      exact absurd before.1 (Nat.not_lt.2 fresh)
    | all l => exact allows
    | stopped name script => exact allows

/-- A subscription that was made, with the subscriber that it takes off. -/
structure Subscribed (g : Ward) (s : SignalId) (reaction : Reaction) (w : World) (sub : SubscriptionId)
    (e : EntryId) (w' : World) : Prop where
  freshHandle : w.subscriptions.size ≤ sub.index
  freshEntry : w.entries.size ≤ e.index
  kept : g.Kept w w'
  sound : (g.holding sub e).Sound w'
  takes : w'.subscriptions.get sub = some (.entry s e)
  joined : s.index < w.signals.size → Joined s reaction e w'

/-- An operation that yields free subscriptions. -/
def Lends (g : Ward) (run : Runner) (x : Op SubscriptionId) : Prop :=
  ∀ w, g.Sound w → Ensures run x w fun sub w' => g.Kept w w' ∧ g.Free w' sub

theorem Lends.bind {x : Op SubscriptionId} {f : SubscriptionId → Op α} (hx : g.Lends run x)
    (hf : ∀ sub w, g.Free w sub → Ensures run (f sub) w fun _ w' => g.Minds w w') :
    Keeps g.Minds run (x >>= f) := by
  intro w
  refine (ensures_bind ..).2 fun sub w₁ hw₁ b w₂ hw₂ sound => ?_
  obtain ⟨kept, free⟩ := hx w sound _ _ hw₁
  exact kept.trans (hf sub w₁ free b w₂ hw₂ (kept.sound sound))

theorem Lends.after {x : Op α} {f : α → Op SubscriptionId} (hx : Keeps g.Minds run x)
    (hf : ∀ a, g.Lends run (f a)) : g.Lends run (x >>= f) := by
  intro w sound
  refine (ensures_bind ..).2 ((hx w).mono fun a w₁ minds => ?_)
  have kept := minds sound
  exact (hf a w₁ (kept.sound sound)).mono fun sub w' both => ⟨kept.trans both.1, both.2⟩

theorem create_lends {c : Cancel} (allows : ∀ w, g.Sound w → g.Allows w w.subscriptions.next c) :
    g.Lends run (Subscription.create c) :=
  fun w sound => create_free sound (allows w sound)

theorem minds_nameSubscription (name : Name) (free : g.Free w sub) :
    Ensures run (nameSubscription name sub) w fun _ w' => g.Minds w w' :=
  (ensures_modify ..).2 fun _ => .subscriptionNamed name free

@[grind ←] theorem minds_drop (s : SignalId) (outside : ¬ g.entries e) :
    Keeps g.Minds run (Signal.drop s e) := by
  have leaves : Keeps g.Minds run (modifySignal s (Signal.leftBy e)) := by
    refine minds_signal s (fun _ => rfl) (fun _ _ ht => ht) fun a e' he held => ?_
    have ne : e' ≠ e := by
      rintro rfl
      exact outside held
    exact (List.mem_erase_of_ne ne).2 he
  have marked : Keeps g.Minds run (modify fun w => { w with
      entries := w.entries.modify e fun entry => { entry with active := false } } : Op PUnit) :=
    minds_modify fun _ _ => .entriesOf (fun _ => rfl) fun held => absurd held outside
  exact keeps_bind keeps_get fun _ => keeps_ite (keeps_bind marked fun _ => leaves) leaves

theorem minds_derivation (d : DerivationId) {f : Derivation → Derivation}
    (same : ∀ a, ∀ sub ∈ (f a).subscriptions, sub ∈ a.subscriptions) :
    Keeps g.Minds run (modify fun w => { w with derivations := w.derivations.modify d f } : Op PUnit) :=
  minds_modify fun _ _ => .derivationsOf fun a sub hs => .inl (same a sub hs)

@[grind ←] theorem minds_setInFallback (a : ActivationId) (inFallback : Bool) :
    Keeps g.Minds run (Branch.setInFallback a inFallback) :=
  minds_modify fun w _ => { Kept.refl w with }

@[grind ←] theorem minds_record (d : Deed) : Keeps g.Minds run (Branch.record d) :=
  minds_modify fun w _ => { Kept.refl w with }

@[grind ←] theorem minds_createBranch (source : SignalId) (cases : CaseTable Value ValueType Formula)
    (fallback : Option Formula) : Keeps g.Minds run (Branch.create source cases fallback) := by
  refine minds_get_set (fun w _ => ?_) fun _ _ => keeps_pure _
  let w₁ : World := { w with
    branches := w.branches.push ⟨source, w.signals.next, cases, fallback⟩ }
  have branch : g.Kept w w₁ := { Kept.refl w with }
  refine branch.trans (.signalMade w₁ none ?_)
  rintro _ ⟨⟩
  trivial

@[grind ←] theorem minds_createSignal (value : Option Value) {producer : Option Producer}
    (aloof : ∀ p, producer = some p → p.Aloof) :
    Keeps g.Minds run (Signal.create value producer) :=
  minds_get_set (fun w _ => .signalMade w value aloof) fun _ _ => keeps_pure _

section
variable [Discreet run]

@[grind ←] theorem minds_invoke {t : Task} (h : g.Admits t) : Keeps g.Minds run (invoke t) := by
  intro w
  rw [ensures_invoke]
  exact fun w' hw' => Discreet.task g t w w' h hw'

/-! Subscriptions. -/

@[grind ←] theorem minds_cancel (free : ¬ g.handles sub) :
    Keeps g.Minds run (Subscription.cancel sub) := by
  refine minds_get fun w sound => ?_
  cases hc : w.subscriptions.get sub with
  | none => exact keeps_pure () w
  | some c =>
    have harmless := (sound.cancels sub c hc).harmless free
    refine (ensures_bind ..).2 ((ensures_modify ..).2 ?_)
    exact Minds.after (fun _ => .subscriptionSpent free) (minds_invoke (t := .cancel c) harmless _)

theorem minds_cancelEach {l : List SubscriptionId} (free : ∀ sub ∈ l, ¬ g.handles sub) :
    Keeps g.Minds run (Subscription.cancelEach l) :=
  keeps_forM_mem fun sub hs => minds_cancel (free sub hs)

/-! Writes. -/

@[grind ←] theorem minds_tell (s : SignalId) (round : Nat) (e : EntryId) :
    Keeps g.Minds run (Signal.tell s round e) := by
  refine minds_get fun w sound => ?_
  dsimp only
  split
  · refine (ensures_bind ..).2 ((ensures_set ..).2 ?_)
    let w₁ : World := { w with
      entries := w.entries.modify e fun entry => { entry with seen := (w.signals.get s).version } }
    have seen : g.Kept w w₁ := .entriesOf (fun _ => rfl) fun _ _ => rfl
    have told : g.Kept w₁ { w₁ with
        signals := w₁.signals.modify s (Signal.showing e (some round)) } :=
      .signals (fun _ => rfl) (fun _ _ ht => .inl ht) fun _ _ he _ => he
    exact Minds.after (fun _ => seen.trans told)
      (minds_invoke (t := .react _ _) (sound.reactions e) _)
  · exact keeps_pure () w

@[grind ←] theorem minds_notify (s : SignalId) : Keeps g.Minds run (Signal.notify s) :=
  keeps_bind (minds_signal s (fun _ => rfl) (fun _ _ ht => ht) fun _ _ he _ => he) fun _ =>
    keeps_bind keeps_get fun _ => keeps_forM fun e => minds_tell s _ e

@[grind ←] theorem minds_replace (s : SignalId) (value : Option Value) :
    Keeps g.Minds run (Signal.replace s value) :=
  keeps_bind (minds_signal s (fun _ => rfl) (fun _ _ ht => ht) fun _ _ he _ => he) fun _ =>
    minds_notify s

@[grind ←] theorem minds_write (s : SignalId) (value : Option Value) :
    Keeps g.Minds run (Signal.write s value) := by
  unfold Signal.write
  grind

@[grind ←] theorem minds_put (s : SignalId) (v : Value) : Keeps g.Minds run (Signal.put s v) :=
  minds_write s (some v)

@[grind ←] theorem minds_change (s : SignalId) (v : Value) :
    Keeps g.Minds run (Signal.change s v) :=
  minds_replace s (some v)

/-! Subscribing. -/

@[grind ←] theorem minds_wake (s : SignalId) : Keeps g.Minds run (Signal.wake s) :=
  keeps_bind keeps_get fun _ => keeps_ite (minds_invoke (t := .start s) trivial) (keeps_pure ())

/-- By the mode: the new subscriber may be called at once. -/
theorem join_made (sound : g.Sound w) (s : SignalId) (aloof : reaction.Aloof) (mode : Mode) :
    Ensures run (Signal.join s reaction mode) w fun e w' =>
      w.entries.size ≤ e.index ∧ g.Kept w w' ∧ (g.withEntry e).Sound w' ∧
        (s.index < w.signals.size → Joined s reaction e w') := by
  let e := w.entries.next
  let w₁ : World := { w with
    entries := w.entries.push ⟨true, (w.signals.get s).version, reaction⟩,
    signals := w.signals.modify s (Signal.joinedBy e mode) }
  have kept : g.Kept w w₁ := (Kept.entryMade w aloof sound.entries).trans
    (.signals (fun _ => rfl) (fun _ _ ht => .inl ht) fun _ _ he _ => List.mem_append_left _ he)
  have made : e.index < w₁.entries.size := by
    simp [e, w₁, Heap.next]
  have sound₁ : (g.withEntry e).Sound w₁ := sound.withEntry kept rfl (Nat.le_refl _) made
  have joined : s.index < w.signals.size → Joined s reaction e w₁ := by
    refine fun known => ⟨?_, ?_, ?_⟩
    · simp [w₁, e, Heap.get_modify_self _ _ _ known, Signal.joinedBy]
    · simp [w₁, e]
    · simp [w₁, e]
  simp only [Signal.join, Signal.enter, ensures_bind, ensures_get, ensures_set, ensures_pure]
  split
  · have greeted : Keeps (g.withEntry e).Minds run (Signal.greet s e reaction) :=
      keeps_bind (minds_signal s (fun _ => rfl) (fun _ _ ht => ht) fun _ _ he _ => he) fun _ =>
        keeps_bind keeps_get fun _ => minds_invoke (t := .react _ _) aloof
    refine (ensures_bind ..).2 ((greeted w₁).mono fun _ w₂ minds => (ensures_pure ..).2 ?_)
    have kept₂ := minds sound₁
    exact ⟨Nat.le_refl _, kept.trans kept₂.withoutEntry, kept₂.sound sound₁,
      fun known => (joined known).kept kept₂ (.inr rfl)⟩
  · exact (ensures_pure ..).2 ⟨Nat.le_refl _, kept, sound₁, joined⟩

theorem subscribe_made (sound : g.Sound w) (s : SignalId) (aloof : reaction.Aloof) (mode : Mode) :
    Ensures run (Signal.subscribe s reaction mode) w fun sub w' =>
      ∃ e, g.Subscribed s reaction w sub e w' := by
  refine (ensures_bind ..).2 ((minds_wake (g := g) s w).mono fun _ w₁ minds₁ => ?_)
  have kept₁ := minds₁ sound
  have sound₁ := kept₁.sound sound
  refine (ensures_bind ..).2 ?_
  refine (join_made sound₁ s aloof mode).mono ?_
  rintro e w₂ ⟨fresh, kept₂, sound₂, joined⟩
  simp only [Subscription.create, ensures_bind, ensures_get, ensures_set, ensures_pure]
  let w₃ : World := { w₂ with subscriptions := w₂.subscriptions.push (some (.entry s e)) }
  have fresh' : w.entries.size ≤ e.index := Nat.le_trans kept₁.entryCount fresh
  have made : e.index < w₂.entries.size := sound₂.entries e (.inr rfl)
  have outside : ¬ g.entries e := fun he => Nat.not_lt.2 fresh' (sound.entries e he)
  have allows : g.Allows w₂ w₂.subscriptions.next (.entry s e) :=
    ⟨made, fun he => absurd he outside⟩
  have kept₃ : g.Kept w₂ w₃ := .subscriptionMade w₂ sound₂.handles allows
  have sub₃ : ∀ sub, g.Free w₂ sub → (g.holding w₂.subscriptions.next e).Free w₃ sub := by
    rintro sub ⟨before, free⟩
    refine ⟨Nat.lt_of_lt_of_le before kept₃.subscriptionCount, fun held => held.elim free ?_⟩
    rintro rfl
    exact Nat.lt_irrefl _ before
  refine ⟨e, Nat.le_trans kept₁.subscriptionCount kept₂.subscriptionCount, fresh',
    (kept₁.trans kept₂).trans kept₃, ?_, Heap.get_push_next .., fun known => ?_⟩
  rotate_left
  · obtain ⟨subscriber, active, same⟩ := joined (Nat.lt_of_lt_of_le known kept₁.signalCount)
    exact ⟨subscriber, active, same⟩
  refine { sound₂ with
    handles := ?_, teardown := fun u t ht => sub₃ t (sound₂.teardown u t ht), cancels := ?_,
    held := fun d sub hs => sub₃ sub (sound₂.held d sub hs),
    named := fun name sub hs => sub₃ sub (sound₂.named name sub hs) }
  · rintro sub (held | rfl)
    · exact Nat.lt_of_lt_of_le (sound₂.handles sub held) kept₃.subscriptionCount
    · simp [Heap.next]
  · intro sub c hc
    by_cases hs : sub = w₂.subscriptions.next
    · subst hs
      rw [Heap.get_push_next] at hc
      cases hc
      exact ⟨made, fun _ => .inr rfl⟩
    · rw [Heap.get_push_of_ne _ _ _ hs] at hc
      have before := sound₂.cancels sub c hc
      cases c with
      | nothing => trivial
      | release d => trivial
      | entry t e' => exact ⟨before.1, fun he => .inl (before.2 he)⟩
      | all l => exact fun sub hs => sub₃ sub (before sub hs)
      | stopped name script => exact before

/-- What is made for others is free. -/
theorem subscribe_free (sound : g.Sound w) (s : SignalId) (aloof : reaction.Aloof) (mode : Mode) :
    Ensures run (Signal.subscribe s reaction mode) w fun sub w' => g.Kept w w' ∧ g.Free w' sub := by
  refine (subscribe_made sound s aloof mode).mono ?_
  rintro sub w' ⟨e, made⟩
  exact ⟨made.kept, made.sound.handles sub (.inr rfl),
    fun held => Nat.not_lt.2 made.freshHandle (sound.handles sub held)⟩

theorem subscribe_lends (s : SignalId) (aloof : reaction.Aloof) (mode : Mode) :
    g.Lends run (Signal.subscribe s reaction mode) :=
  fun _ sound => subscribe_free sound s aloof mode

/-! Cancelling. -/

@[grind ←] theorem minds_stop (s : SignalId) : Keeps g.Minds run (Signal.stop s) := by
  refine minds_get fun w sound => ?_
  dsimp only
  split
  · have flags : Keeps g.Minds run (modifySignal s fun signal =>
        { signal with started := false, teardown := none }) :=
      minds_signal s (fun _ => rfl) (fun _ _ ht => by cases ht) fun _ _ he _ => he
    refine keeps_bind flags (fun _ => ?_) w
    cases ht : (w.signals.get s).teardown with
    | none => exact keeps_pure ()
    | some t => exact minds_cancel (sound.teardown s t ht).2
  · exact keeps_pure () w

@[grind ←] theorem minds_leave (s : SignalId) (outside : ¬ g.entries e) :
    Keeps g.Minds run (Signal.leave s e) :=
  keeps_bind (minds_drop s outside) fun _ => minds_stop s

/-! Derived signals. -/

@[grind ←] theorem minds_followSignal (d : DerivationId) (s : SignalId) :
    Keeps g.Minds run (Derivation.follow d s) := by
  have aloof : Reaction.Aloof (.refresh d) := trivial
  refine Lends.bind (subscribe_lends s aloof .normal) fun sub w free => ?_
  refine (ensures_modify ..).2 fun _ => .derivationsOf fun a sub' hs => ?_
  refine (List.mem_append.1 hs).imp_right fun hs => ?_
  cases List.mem_singleton.1 hs
  exact free

@[grind ←] theorem minds_see (d : DerivationId) (s : SignalId) :
    Keeps g.Minds run (Derivation.see d s) := by
  refine keeps_bind keeps_get fun w => keeps_ite (keeps_pure ()) ?_
  exact keeps_bind (minds_derivation d fun _ _ hs => hs) fun _ => minds_followSignal d s

@[grind ←] theorem minds_track (s : SignalId) (t : Tracker) :
    Keeps g.Minds run (Derivation.track s t) := by
  cases t with
  | nobody => exact keeps_pure ()
  | passing => exact keeps_pure ()
  | recording d =>
    exact keeps_bind (minds_derivation d fun _ _ hs => hs) fun _ => minds_see d s

@[grind ←] theorem minds_reading (t : Tracker) (r : Reading) : Keeps g.Minds run (r.run t) :=
  Idle.tracked (fun s => minds_track s t) r

@[grind ←] theorem minds_refresh (d : DerivationId) : Keeps g.Minds run (Derivation.refresh d) := by
  unfold Derivation.refresh
  grind

theorem startDerivation_lends (d : DerivationId) : g.Lends run (Derivation.start d) := by
  have follows : ∀ w : World, Keeps g.Minds run
      ((w.derivations.get d).tracked.forM (Derivation.follow d)) :=
    fun w => keeps_forM fun s => minds_followSignal d s
  have starts : Keeps g.Minds run (do
      (((← get).derivations.get d).tracked.forM (Derivation.follow d)); Derivation.refresh d) :=
    keeps_bind keeps_get fun w => keeps_bind (follows w) fun _ => minds_refresh d
  have lends := Lends.after starts fun _ => create_lends (c := .release d) fun _ _ => trivial
  rw [bind_assoc] at lends
  simp only [bind_assoc] at lends
  exact lends

@[grind ←] theorem minds_release (d : DerivationId) : Keeps g.Minds run (Derivation.release d) := by
  refine minds_get fun w sound => ?_
  have held := sound.held d
  dsimp only
  refine (ensures_bind ..).2 ((ensures_modify ..).2 ?_)
  have dropped : g.Kept w { w with derivations := w.derivations.modify d fun cell =>
      { cell with subscriptions := [] } } :=
    .derivationsOf fun _ sub hs => (List.not_mem_nil hs).elim
  refine Minds.after (fun _ => dropped) ((ensures_bind ..).2 ?_)
  refine (create_free (dropped.sound sound) (c := .all _) held).mono fun sub w₁ both => ?_
  exact Minds.after (fun _ => both.1) (minds_cancel both.2.2 w₁)

@[grind ←] theorem minds_createDerivation (r : Reading) :
    Keeps g.Minds run (Derivation.create r) := by
  refine keeps_bind (minds_reading _ r) fun initial => ?_
  refine minds_get_set (fun w _ => ?_) fun _ _ => keeps_pure _
  let w₁ : World := { w with
    derivations := w.derivations.push ⟨r, w.signals.next, [], [], []⟩ }
  have derivation : g.Kept w w₁ := by
    refine { Kept.refl w with held := fun d sub hs => ?_ }
    dsimp only [w₁] at hs
    by_cases hd : d = w.derivations.next
    · rw [hd, Heap.get_push_next] at hs
      cases hs
    · rw [Heap.get_push_of_ne _ _ _ hd] at hs
      exact .inl hs
  refine derivation.trans (.signalMade w₁ (some initial) ?_)
  rintro _ ⟨⟩
  trivial

@[grind ←] theorem minds_derived (fn : FormulaId) : Keeps g.Minds run (SharedFormula.derived fn) := by
  refine keeps_bind keeps_get fun w => ?_
  dsimp only
  split
  · exact keeps_pure _
  · refine keeps_bind (minds_createDerivation _) fun s => ?_
    exact keeps_bind (minds_modify fun w _ => { Kept.refl w with }) fun _ => keeps_pure s

/-! Matches. -/

@[grind ←] theorem minds_handleCase (f : Formula) (v : Value) :
    Keeps g.Minds run (Branch.handle f v) :=
  keeps_bind keeps_get fun _ => keeps_bind (Idle.note _) fun _ => minds_reading _ _

@[grind ←] theorem minds_fallBack (f : Formula) (v : Value) :
    Keeps g.Minds run (Branch.fallBack f v) :=
  keeps_bind keeps_get fun _ => keeps_bind (Idle.note _) fun _ => minds_reading _ _

@[grind ←] theorem minds_offer (a : ActivationId) (v : Value) :
    Keeps g.Minds run (Branch.offer a v) := by
  unfold Branch.offer
  grind

theorem startBranch_lends (b : BranchId) : g.Lends run (Branch.start b) := by
  intro w sound
  simp only [Branch.start, ensures_bind, ensures_get, ensures_set]
  let w₁ : World := { w with activations := w.activations.push ⟨b, false⟩ }
  have kept : g.Kept w w₁ := { Kept.refl w with }
  have aloof : Reaction.Aloof (.branch w.activations.next) := trivial
  refine (subscribe_free (kept.sound sound) _ aloof .immediate).mono ?_
  exact fun sub w' both => ⟨kept.trans both.1, both.2⟩

omit [Discreet run] in
@[grind ←] theorem minds_createPlain (value : Option Value) :
    Keeps g.Minds run (Signal.create value none) := by
  refine minds_createSignal value ?_
  rintro _ ⟨⟩

/-! Steps and scripts. -/

omit [Discreet run] in
@[grind ←] theorem minds_nameSignal (name : Name) (s : SignalId) (role : Role) :
    Keeps g.Minds run (nameSignal name s role) :=
  minds_rename fun _ => rfl

omit [Discreet run] in
@[grind ←] theorem minds_nameFormula (name : Name) (fn : FormulaId) :
    Keeps g.Minds run (nameFormula name fn) :=
  minds_rename fun _ => rfl

omit [Discreet run] in
@[grind ←] theorem minds_createFormula (r : Reading) :
    Keeps g.Minds run (SharedFormula.create r) :=
  minds_get_set (fun w _ => { Kept.refl w with }) fun _ _ => keeps_pure _

omit [Discreet run] in
@[grind ←] theorem minds_nameNew (name : Name) (content : Dom.Content) :
    Keeps g.Minds run (nameNew name content) := by
  intro w
  simp only [nameNew, onNodes, nameNode, ensures_bind, ensures_get, ensures_set, ensures_modify,
    ensures_pure]
  exact Idle.make w content _

omit [Discreet run] in
@[grind ←] theorem minds_changeElement (n : NodeId) (f : Dom.Element → Dom.Element) :
    Keeps g.Minds run (Mount.changeElement n f) :=
  minds_modify fun w _ => { Kept.refl w with nodes := .mapElement n f }

omit [Discreet run] in
@[grind ←] theorem minds_changeAttributes (n : NodeId)
    (f : Markup.Attributes → Markup.Attributes) :
    Keeps g.Minds run (Mount.changeAttributes n f) :=
  minds_changeElement n _

omit [Discreet run] in
@[grind ←] theorem minds_createListener (h : Handler) : Keeps g.Minds run (Events.create h) :=
  minds_get_set (fun w _ => { Kept.refl w with }) fun _ _ => keeps_pure _

omit [Discreet run] in
@[grind ←] theorem minds_listen (n : NodeId) (event : String) (l : ListenerId) :
    Keeps g.Minds run (Events.listen n event l) := by
  refine minds_modify fun w _ => ?_
  split
  · exact .refl w
  · exact { Kept.refl w with }

omit [Discreet run] in
@[grind ←] theorem minds_unlisten (n : NodeId) (event : String) (l : ListenerId) :
    Keeps g.Minds run (Events.unlisten n event l) :=
  minds_modify fun w _ => { Kept.refl w with }

omit [Discreet run] in
/-- Looking a subscription up, which is free. -/
theorem lookUp_free {f : SubscriptionId → Op α} (name : Name)
    (hf : ∀ sub w, g.Free w sub → Ensures run (f sub) w fun _ w' => g.Minds w w') :
    Keeps g.Minds run (lookUp Names.subscriptions name >>= f) := by
  intro w
  simp only [lookUp, ensures_bind, ensures_get]
  cases hn : w.names.subscriptions.get? name with
  | none => exact (ensures_throw ..).2 trivial
  | some sub =>
    refine (ensures_pure ..).2 fun a w' hx sound => ?_
    exact hf sub w (sound.named name sub hn) a w' hx sound

omit [Discreet run] in
/-- Looking several subscriptions up. By induction on the names. -/
theorem lookUpAll (names : List Name) (w : World) :
    Ensures run (names.mapM (lookUp Names.subscriptions)) w fun members w' =>
      w' = w ∧ ∀ sub ∈ members, ∃ name, w.names.subscriptions.get? name = some sub := by
  induction names with
  | nil => exact (ensures_pure ..).2 ⟨rfl, fun _ hs => (List.not_mem_nil hs).elim⟩
  | cons name names ih =>
    rw [List.mapM_cons]
    simp only [lookUp, ensures_bind, ensures_get]
    cases hn : w.names.subscriptions.get? name with
    | none => exact (ensures_throw ..).2 trivial
    | some sub =>
      refine (ensures_pure ..).2 (ih.mono ?_)
      rintro members _ ⟨rfl, all⟩
      refine (ensures_pure ..).2 ⟨rfl, fun sub' hs => ?_⟩
      rcases List.mem_cons.1 hs with rfl | hs
      · exact ⟨name, hn⟩
      · exact all sub' hs

omit [Discreet run] in
theorem minds_subscribeAll (name : Name) (subs : List Name) (current : Value) :
    Keeps g.Minds run ((Step.subscribeAll name subs).run current) := by
  intro w
  refine (ensures_bind ..).2 ((lookUpAll subs w).mono ?_)
  rintro members w ⟨rfl, all⟩ a w' hx sound
  have free : ∀ sub ∈ members, g.Free w sub := by
    intro sub hs
    obtain ⟨name, named⟩ := all sub hs
    exact sound.named name sub named
  revert a w' hx
  refine (ensures_bind ..).2 ((create_free sound (c := .all members) free).mono ?_)
  rintro sub w₁ ⟨kept, free₁⟩
  refine (ensures_bind ..).2 ((minds_nameSubscription name free₁).mono fun _ w₂ minds => ?_)
  exact (ensures_pure ..).2 (kept.trans (minds (kept.sound sound)))

/-- By cases on the step. -/
theorem minds_plain (current : Value) {step : Step} (h : step.isPlain = true) :
    Keeps g.Minds run (step.run current) := by
  cases step with
  | unsubscribe sub =>
    exact lookUp_free sub fun _ w free => keeps_bind (minds_cancel free.2) (fun _ => keeps_pure _) w
  | subscribeAll name subs => exact minds_subscribeAll name subs current
  | subscribeNone name =>
    have made : g.Lends run (Subscription.create .nothing) := create_lends fun _ _ => trivial
    refine made.bind fun sub w free => ?_
    exact (ensures_bind ..).2 ((minds_nameSubscription name free).mono fun _ _ minds =>
      (ensures_pure ..).2 minds)
  | subscriptionClone name sub =>
    refine lookUp_free sub fun _ w free => ?_
    exact (ensures_bind ..).2 ((minds_nameSubscription name free).mono fun _ _ minds =>
      (ensures_pure ..).2 minds)
  | listener name script =>
    exact keeps_bind (minds_createListener _) fun l => keeps_bind (minds_rename fun _ => rfl)
      fun _ => keeps_pure _
  | _ =>
    first
    | exact absurd h Bool.false_ne_true
    | unfold Step.run
      grind [Idle.literal, Idle.note, Idle.tableOf]

/-- By cases on how the step is aloof. -/
@[grind ←] theorem minds_step (current : Value) {step : Step} (aloof : step.Aloof) :
    Keeps g.Minds run (step.run current) := by
  cases aloof with
  | plain h => exact minds_plain current h
  | @lazy name v start stop starts stops =>
    have producer : ∀ p, some (Producer.script name start stop) = some p → p.Aloof := by
      rintro _ ⟨⟩
      exact ⟨starts, stops⟩
    exact keeps_bind (Idle.literal v) fun _ => keeps_bind (minds_createSignal _ producer) fun _ =>
      keeps_bind (minds_nameSignal _ _ _) fun _ => keeps_pure _
  | @subscribe name sig mode script steps =>
    refine keeps_bind (keeps_signalNamed sig) fun s => ?_
    have aloof : Reaction.Aloof (.told name script) := steps
    refine (subscribe_lends s aloof mode).bind fun sub w free => ?_
    exact (ensures_bind ..).2 ((minds_nameSubscription name free).mono fun _ _ minds =>
      (ensures_pure ..).2 minds)
  | @choose v yes no yesSteps noSteps =>
    refine keeps_bind (minds_reading _ _) fun v => keeps_bind (minds_invoke ?_) fun _ => keeps_pure _
    show ∀ step ∈ (if v.isTruthy then yes else no), step.Aloof
    split
    · exact yesSteps
    · exact noSteps

@[grind ←] theorem minds_script (current : Value) {script : Script}
    (aloof : ∀ step ∈ script, step.Aloof) : Keeps g.Minds run (script.run current) :=
  keeps_forM_mem fun step hs => keeps_bind (minds_step current (aloof step hs)) fun _ => keeps_pure ()

/-! Callbacks. -/

omit [Discreet run] in
theorem minds_apply (n : NodeId) (v : Value) (e : Effect) :
    Keeps g.Minds run (e.apply n v) := by
  refine keeps_bind keeps_get fun w => ?_
  cases e with
  | text => exact minds_modify fun w _ => { Kept.refl w with nodes := .withData n _ }
  | form key => exact minds_changeElement n _
  | _ => exact minds_changeAttributes n _

theorem minds_reaction (v : Option Value) (aloof : reaction.Aloof) :
    Keeps g.Minds run (reaction.run v) := by
  have reported : ∀ {n : World → Note} {script : Script}, (∀ step ∈ script, step.Aloof) →
      Keeps g.Minds run (do note (n (← get)); v.forM fun v => script.run v) :=
    fun aloof => keeps_bind keeps_get fun _ => keeps_bind (Idle.note _) fun _ =>
      keeps_optionForM fun v => minds_script v aloof
  cases reaction with
  | told name script => exact reported aloof
  | followed name script => exact reported aloof
  | refresh d => exact minds_refresh d
  | branch a => exact minds_offer a _
  | effect n e => exact minds_apply n _ e

theorem minds_hook {h : Hook} (aloof : h.Aloof) : Keeps g.Minds run h.run := by
  cases h with
  | mounted name script => exact keeps_bind (Idle.note _) fun _ => minds_script _ aloof
  | unmounted name script => exact keeps_bind (Idle.note _) fun _ => minds_script _ aloof
  | listen n event l => exact minds_listen n event l
  | unlisten n event l => exact minds_unlisten n event l
  | follow f => exact aloof.elim
  | unfollow f => exact aloof.elim

theorem minds_cancelRun {c : Cancel} (harmless : g.Harmless c) : Keeps g.Minds run c.run := by
  cases c with
  | nothing => exact keeps_pure ()
  | entry s e => exact minds_leave s harmless
  | all l => exact minds_cancelEach harmless
  | release d => exact minds_release d
  | stopped name script => exact keeps_bind (Idle.note _) fun _ => minds_script _ harmless

theorem start_lends (s : SignalId) {p : Producer} (aloof : p.Aloof) : g.Lends run (p.start s) := by
  cases p with
  | derivation d => exact startDerivation_lends d
  | branch b => exact startBranch_lends b
  | script name start stop =>
    refine Lends.after (minds_rename fun _ => rfl) fun _ => Lends.after (Idle.note _) fun _ => ?_
    exact Lends.after (minds_script _ aloof.1) fun _ => create_lends fun _ _ => aloof.2

theorem minds_activate (s : SignalId) : Keeps g.Minds run (Signal.activate s) := by
  refine minds_get fun w sound => ?_
  cases hp : (w.signals.get s).producer with
  | none => exact keeps_pure () w
  | some p =>
    have started : Keeps g.Minds run (modifySignal s fun signal =>
        { signal with started := true }) :=
      minds_signal s (fun _ => rfl) (fun _ _ ht => ht) fun _ _ he _ => he
    refine keeps_bind started (fun _ => ?_) w
    refine (start_lends s (sound.producers s p hp)).bind fun t w₁ free => ?_
    refine (ensures_modify ..).2 fun _ => .signals (fun _ => rfl) ?_ fun _ _ he _ => he
    rintro _ _ ⟨⟩
    exact .inr free

theorem minds_task {t : Task} (h : g.Admits t) : Keeps g.Minds run t.run := by
  cases t with
  | react r v => exact minds_reaction v h
  | hook hook => exact minds_hook h
  | handle handler event target => exact h.elim
  | cancel c => exact minds_cancelRun h
  | start s => exact minds_activate s
  | connect n connected => exact h.elim
  | script steps current => exact minds_script current h

end

/-- However deeply callbacks are nested. -/
instance discreet_exec (fuel : Nat) : Discreet (exec fuel) := by
  induction fuel with
  | zero => exact ⟨fun _ _ _ _ _ hx => by cases hx⟩
  | succ fuel ih => exact ⟨fun g t w w' h hx => minds_task (g := g) h w () w' hx⟩

end Ward
end LiveMarkup.Live
