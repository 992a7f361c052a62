import LiveMarkup.Proofs.Steps

/-!
Operations on graphs: whatever is done to a graph of derived signals leaves it in working order.
Nobody is told anything while a signal starts, so what a computation has read keeps its value until
the computation is done; and a change reaches every reader, for each is subscribed.
-/
namespace LiveMarkup.Live

/-- A graph in working order, but for the derivations in `D`, whose signals are recorded. -/
structure Ready (D : DerivationId → Prop) (w : World) : Prop extends Wired D w where
  faithful : Faithful w

theorem Ready.next {D D' : DerivationId → Prop} {w w' : World} (h : Ready D w)
    (delivers : Delivers w w') (wired : Wired D' w') : Ready D' w' :=
  ⟨wired, (delivers h.faithful).faithful⟩

/-- What starting the signals before a position leaves alone: the signals from the position on, the
values of those that have subscribers or are started, and what is tracked. The derivations in `D`
are at work and are excepted. -/
structure Quiet (n : Nat) (D : DerivationId → Prop) (w w' : World) : Prop extends Evolves w w' where
  above : ∀ s, n ≤ s.index → w'.signals.get s = w.signals.get s
  value : ∀ s, (∀ d, D d → (w.derivations.get d).output ≠ s) →
    (w.signals.get s).subscribers ≠ [] ∨ (w.signals.get s).started = true →
    (w'.signals.get s).value = (w.signals.get s).value
  started : ∀ s, (w.signals.get s).started = true → (w'.signals.get s).started = true
  subscribers : ∀ s, (w.signals.get s).subscribers <+: (w'.signals.get s).subscribers
  entry : ∀ e, e.index < w.entries.size → w'.entries.get e = w.entries.get e
  tracked : ∀ d, n ≤ (w.derivations.get d).output.index → ¬ D d →
    (w'.derivations.get d).tracked = (w.derivations.get d).tracked
  seen : ∀ d, (w.derivations.get d).tracked ⊆ (w'.derivations.get d).tracked

namespace Quiet
variable {n m : Nat} {D D' : DerivationId → Prop} {w w₁ w₂ : World} {d : DerivationId}

theorem refl (w : World) : Quiet n D w w where
  toEvolves := .refl w
  above _ _ := rfl
  value _ _ _ := rfl
  started _ h := h
  subscribers _ := List.prefix_rfl
  entry _ _ := rfl
  tracked _ _ _ := rfl
  seen _ := List.Subset.refl _

theorem trans (h : Quiet n D w w₁) (h' : Quiet n D w₁ w₂) : Quiet n D w w₂ where
  toEvolves := h.toEvolves.trans h'.toEvolves
  above s hs := (h'.above s hs).trans (h.above s hs)
  value s hD hs := by
    refine (h'.value s (fun d hd => h.output d ▸ hD d hd) ?_).trans (h.value s hD hs)
    refine hs.imp (fun ne nil => ne ?_) (h.started s)
    exact List.eq_nil_of_prefix_nil (nil ▸ h.subscribers s)
  started s hs := h'.started s (h.started s hs)
  subscribers s := (h.subscribers s).trans (h'.subscribers s)
  entry e he := (h'.entry e (Nat.lt_of_lt_of_le he h.entries)).trans (h.entry e he)
  tracked d hd hD := (h'.tracked d (h.output d ▸ hd) hD).trans (h.tracked d hd hD)
  seen d := List.Subset.trans (h.seen d) (h'.seen d)

theorem mono (h : Quiet n D w w₁) (hnm : n ≤ m) (hD : ∀ d, D d → D' d) : Quiet m D' w w₁ where
  toEvolves := h.toEvolves
  above s hs := h.above s (Nat.le_trans hnm hs)
  value s hD' := h.value s fun d hd => hD' d (hD d hd)
  started := h.started
  subscribers := h.subscribers
  entry := h.entry
  tracked d hd hD' := h.tracked d (Nat.le_trans hnm hd) fun hd => hD' (hD d hd)
  seen := h.seen

/-- Nothing but handles is changed. -/
theorem of_still (ev : Evolves w w₁) (signals : w₁.signals = w.signals)
    (entries : w₁.entries = w.entries)
    (tracked : ∀ d, (w₁.derivations.get d).tracked = (w.derivations.get d).tracked) :
    Quiet n D w w₁ := by
  refine ⟨ev, ?_, ?_, ?_, ?_, ?_, fun d _ _ => tracked d, fun d => ?_⟩
  · rw [signals]
    exact fun _ _ => rfl
  · rw [signals]
    exact fun _ _ _ => rfl
  · rw [signals]
    exact fun _ h => h
  · rw [signals]
    exact fun _ => List.prefix_rfl
  · rw [entries]
    exact fun _ _ => rfl
  · simp only [tracked, List.Subset.refl]

/-- Whoever is subscribed stays subscribed. -/
theorem subscribed (h : Quiet n D w w₁) (faithful : Faithful w) {t : SignalId}
    (ht : ∃ e ∈ (w.signals.get t).subscribers, (w.entries.get e).reaction = .refresh d) :
    ∃ e ∈ (w₁.signals.get t).subscribers, (w₁.entries.get e).reaction = .refresh d := by
  obtain ⟨e, he, hr⟩ := ht
  have recorded := faithful.signals t
  have known := recorded.known e (recorded.joined he)
  exact ⟨e, (h.subscribers t).subset he, by rw [h.entry e known, hr]⟩

end Quiet

/-- Takes off a subscriber whose derivation, if it has one, does not run. -/
def Loose (w : World) (c : Cancel) : Prop :=
  ∃ s e, c = .entry s e ∧ e.index < w.entries.size ∧
    ∀ d, (w.entries.get e).reaction = .refresh d → ¬ Running d w

/-- What may be cancelled without cutting off a derivation that runs. -/
inductive Cancellable (w : World) : Cancel → Prop
  | loose {c : Cancel} (h : Loose w c) : Cancellable w c
  | all {subscriptions : List SubscriptionId}
    (h : ∀ sub ∈ subscriptions, Leads (Loose w) sub w) : Cancellable w (.all subscriptions)
  | release {d : DerivationId} (h : ¬ Running d w) : Cancellable w (.release d)

/-- What a runner does in a graph that is in working order. -/
class Works (run : Runner) : Prop where
  script : ∀ {steps current w w'}, (∀ step ∈ steps, step.Operates) → Ready Nowhere w →
    run (.script steps current) w = .ok ((), w') → Wired Nowhere w' ∧ Evolves w w'
  told : ∀ {name steps v w w'}, (∀ step ∈ steps, step.Operates) → Ready Nowhere w →
    run (.react (.told name steps) v) w = .ok ((), w') → Wired Nowhere w' ∧ Evolves w w'
  /-- Effects leave the signals alone. -/
  effect : ∀ {node e v w w'}, run (.react (.effect node e) v) w = .ok ((), w') → Aside w w'
  /-- A derivation that is told of a change becomes current. -/
  refresh : ∀ {d v w w'}, Ready (· = d) w → Real d w → (Running d w → Attached d w) →
    run (.react (.refresh d) v) w = .ok ((), w') → Wired Nowhere w' ∧ Evolves w w'
  /-- A signal may be started while later ones are being started. -/
  start : ∀ {D d s w w'}, Ready D w → (w.signals.get s).producer = some (.derivation d) →
    (w.signals.get s).subscribers = [] → (w.signals.get s).started = false →
    (∀ d', D d' → s.index < (w.derivations.get d').output.index) →
    run (.start s) w = .ok ((), w') →
      Wired D w' ∧ Quiet (s.index + 1) Nowhere w w' ∧ (w'.signals.get s).started = true
  /-- Cancelling only ever stops signals. -/
  cancel : ∀ {c w w'}, Ready Nowhere w → Cancellable w c → run (.cancel c) w = .ok ((), w') →
    Wired Nowhere w' ∧ Evolves w w' ∧
      ∀ s, (w'.signals.get s).started = true → (w.signals.get s).started = true

section
variable {run : Runner} [Works run] {D : DerivationId → Prop} {w : World} {d : DerivationId}
  {s : SignalId}

/-- A signal that is about to have a subscriber is started first. -/
theorem wake_works (h : Ready D w)
    (before : ∀ d, D d → s.index < (w.derivations.get d).output.index) :
    Ensures run (Signal.wake s) w fun _ w' =>
      Wired D w' ∧ Quiet (s.index + 1) Nowhere w w' ∧
        ((w'.signals.get s).producer ≠ none → (w'.signals.get s).started = true) := by
  simp only [Signal.wake, ensures_bind, ensures_get]
  by_cases idle : Signal.isIdle w s = true
  · rw [if_pos idle, ensures_invoke]
    intro w' hw'
    simp only [Signal.isIdle, Bool.and_eq_true, List.isEmpty_iff, Bool.not_eq_eq_eq_not,
      Bool.not_true] at idle
    obtain ⟨⟨nobody, notStarted⟩, produced⟩ := idle
    obtain ⟨p, hp⟩ := Option.isSome_iff_exists.1 produced
    obtain ⟨d, rfl, -⟩ := h.shape.producers s p hp
    obtain ⟨wired, quiet, started⟩ := Works.start h hp nobody notStarted before hw'
    exact ⟨wired, quiet, fun _ => started⟩
  · rw [if_neg idle, ensures_pure]
    refine ⟨h.toWired, .refl w, fun hp => ?_⟩
    by_cases nobody : (w.signals.get s).subscribers = []
    · cases started : (w.signals.get s).started with
      | true => rfl
      | false =>
        obtain ⟨p, hp⟩ := Option.ne_none_iff_exists'.1 hp
        simp [Signal.isIdle, nobody, started, hp] at idle
    · exact h.flow.started s nobody hp

omit [Works run] in
theorem join_ensures (s : SignalId) (reaction : Reaction) :
    Ensures run (Signal.join s reaction .normal) w fun e w' =>
      e = w.entries.next ∧ w' = Signal.entered s reaction .normal w := by
  simp only [Signal.join, Signal.enter, ensures_bind, ensures_get, ensures_set, ensures_pure]
  rw [if_neg Mode.noConfusion]
  simp only [ensures_pure]
  exact ⟨trivial, rfl⟩

theorem entered_quiet (s : SignalId) (reaction : Reaction) (mode : Mode) :
    Quiet (s.index + 1) D w (Signal.entered s reaction mode w) where
  toEvolves := entered_evolves s reaction mode w
  above t ht := by
    have hts : s ≠ t := fun heq => by
      subst heq
      omega
    exact Heap.get_modify_of_ne _ _ _ _ hts
  value t _ _ := Heap.get_modify_same _ s t _ Signal.value fun _ => rfl
  started t ht := by
    have same := Heap.get_modify_same w.signals s t (Signal.joinedBy w.entries.next mode)
      Signal.started fun _ => rfl
    exact same.trans ht
  subscribers t := entered_subscribers s reaction mode t
  entry _ he := entered_entry s reaction mode he
  tracked _ _ _ := rfl
  seen _ := List.Subset.refl _

theorem entered_wired (h : Ready D w) {reaction : Reaction} (mode : Mode)
    (fits : reaction.Fits w)
    (running : (w.signals.get s).producer ≠ none → (w.signals.get s).started = true) :
    Wired D (Signal.entered s reaction mode w) :=
  ⟨(entered_evolves s reaction mode w).shape h.shape fun _ _ ht => .inl ht,
    entered_handles h.handles s mode fits, entered_flow h.faithful h.flow reaction mode running⟩

/-- What subscribing leads to: there is a new subscriber, and a subscription that takes it off. -/
structure Subscribed (s : SignalId) (reaction : Reaction) (sub : SubscriptionId) (e : EntryId)
    (w : World) : Prop where
  subscriber : s.index < w.signals.size → e ∈ (w.signals.get s).subscribers
  known : e.index < w.entries.size
  reaction : (w.entries.get e).reaction = reaction
  leads : Leads (· = .entry s e) sub w

theorem subscribe_works [KeptBy Delivers run] (h : Ready D w)
    (before : ∀ d, D d → s.index < (w.derivations.get d).output.index) {reaction : Reaction}
    (fits : reaction.Fits w) :
    Ensures run (Signal.subscribe s reaction .normal) w fun sub w' =>
      Wired D w' ∧ Quiet (s.index + 1) Nowhere w w' ∧ ∃ e, Subscribed s reaction sub e w' := by
  simp only [Signal.subscribe, Subscription.create, ensures_bind, ensures_get, ensures_set,
    ensures_pure]
  intro _ w₁ hw₁
  obtain ⟨wired₁, quiet₁, running⟩ := wake_works h before _ _ hw₁
  have ready₁ : Ready D w₁ := h.next (keeps_wake s w _ _ hw₁) wired₁
  have fits₁ : reaction.Fits w₁ := quiet₁.fits.2 fits
  refine (join_ensures s reaction).mono ?_
  rintro _ _ ⟨rfl, rfl⟩
  have wired₂ := entered_wired ready₁ .normal fits₁ running
  obtain ⟨wired₃, ev⟩ := made_wired wired₂ (.entry s w₁.entries.next)
  refine ⟨wired₃, (quiet₁.trans (entered_quiet s reaction .normal)).trans
    (.of_still ev rfl rfl fun _ => rfl), w₁.entries.next, ?_, ?_, ?_, made_leads _ rfl⟩
  · intro hs
    have valid : s.index < w₁.signals.size := by simpa [Signal.entered] using hs
    simp [Signal.entered, Heap.get_modify_self _ _ _ valid, Signal.joinedBy]
  · simp [Signal.entered, Heap.next]
  · simp [Signal.entered]

/-- A derivation that follows a signal is subscribed to it. -/
theorem follow_works [KeptBy Delivers run] (h : Ready D w)
    (before : ∀ d, D d → s.index < (w.derivations.get d).output.index) (real : Real d w)
    (earlier : s.index < (w.derivations.get d).output.index) :
    Ensures run (Derivation.follow d s) w fun _ w' =>
      Wired D w' ∧ Quiet (s.index + 1) Nowhere w w' ∧
        ∃ e ∈ (w'.signals.get s).subscribers, (w'.entries.get e).reaction = .refresh d := by
  simp only [Derivation.follow, ensures_bind, ensures_modify]
  have fits : Reaction.Fits w (.refresh d) := real
  refine (subscribe_works h before fits).mono ?_
  rintro sub w₁ ⟨wired₁, quiet₁, e, subscribed⟩
  have leads : Leads (OfDerivation d w₁) sub w₁ :=
    ⟨subscribed.leads.1, fun c hc =>
      ⟨s, e, subscribed.leads.2 c hc, subscribed.known, subscribed.reaction⟩⟩
  obtain ⟨wired₂, ev⟩ := holding_wired wired₁ d (· ++ [sub]) fun l sub' hs => by
    rcases List.mem_append.1 hs with hs | hs
    · exact .inl hs
    · exact .inr (List.mem_singleton.1 hs ▸ leads)
  have valid : s.index < w₁.signals.size := by
    rw [quiet₁.signals]
    exact Nat.lt_trans earlier real.index_lt
  refine ⟨wired₂, quiet₁.trans (.of_still ev rfl rfl fun d' => ?_), e, subscribed.subscriber valid,
    subscribed.reaction⟩
  exact Heap.get_modify_same _ d d' _ Derivation.tracked fun _ => rfl

/-- A derivation at work, of which no later one is at work. -/
structure Working (D : DerivationId → Prop) (d : DerivationId) (w : World) : Prop
    extends Ready D w where
  working : D d
  real : Real d w
  last : ∀ d', D d' → (w.derivations.get d).output.index ≤ (w.derivations.get d').output.index

theorem Working.next (h : Working D d w) {w' : World} (delivers : Delivers w w')
    (wired : Wired D w') (ev : Evolves w w') : Working D d w' := by
  refine ⟨h.toReady.next delivers wired, h.working, ev.real.2 h.real, fun d' hd' => ?_⟩
  rw [ev.output, ev.output]
  exact h.last d' hd'

/-- A signal that a derivation sees is known to it afterwards. -/
theorem see_works [KeptBy Delivers run] (h : Working D d w)
    (earlier : s.index < (w.derivations.get d).output.index) :
    Ensures run (Derivation.see d s) w fun _ w' =>
      Wired D w' ∧ Quiet (w.derivations.get d).output.index (· = d) w w' ∧
        s ∈ (w'.derivations.get d).tracked ∧ (Attached d w → Attached d w') := by
  simp only [Derivation.see, ensures_bind, ensures_get]
  by_cases known : s ∈ (w.derivations.get d).tracked
  · rw [if_pos (List.contains_iff_mem.2 known), ensures_pure]
    exact ⟨h.toWired, .refl w, known, id⟩
  rw [if_neg fun hc => known (List.contains_iff_mem.1 hc)]
  simp only [ensures_bind, ensures_modify]
  obtain ⟨wired₁, ev₁⟩ := seeing_wired h.toWired h.working earlier
  have h₁ : Working D d (Derivation.seeing d s w) := h.next (.apart rfl rfl) wired₁ ev₁
  have before : ∀ d', D d' →
      s.index < ((Derivation.seeing d s w).derivations.get d').output.index := by
    intro d' hd'
    refine Nat.lt_of_lt_of_le ?_ (h₁.last d' hd')
    rw [ev₁.output]
    exact earlier
  have earlier₁ : s.index < ((Derivation.seeing d s w).derivations.get d).output.index :=
    before d h.working
  have quiet₁ : Quiet (w.derivations.get d).output.index (· = d) w (Derivation.seeing d s w) :=
    ⟨ev₁, fun _ _ => rfl, fun _ _ _ => rfl, fun _ hs => hs, fun _ => List.prefix_rfl,
      fun _ _ => rfl, fun d' _ ne => congrArg Derivation.tracked
        (Heap.get_modify_of_ne _ _ _ _ (Ne.symm ne)),
      fun d' => (seeing_tracked d d' s).subset⟩
  have valid : d.index < w.derivations.size := by
    obtain ⟨d', hd', hlt, -⟩ := h.shape.producers _ _ h.real
    cases hd'
    exact hlt
  have tracked₁ : ((Derivation.seeing d s w).derivations.get d).tracked =
      (w.derivations.get d).tracked ++ [s] := by
    simp [Derivation.seeing, Heap.get_modify_self _ _ _ valid]
  refine (follow_works h₁.toReady before h₁.real earlier₁).mono ?_
  rintro _ w₂ ⟨wired₂, quiet₂, subscribed⟩
  have tracked₂ : (w₂.derivations.get d).tracked = (w.derivations.get d).tracked ++ [s] := by
    rw [quiet₂.tracked d earlier₁ id, tracked₁]
  refine ⟨wired₂, quiet₁.trans (quiet₂.mono earlier fun _ hd => hd.elim), ?_, fun hatt t ht => ?_⟩
  · rw [tracked₂]
    exact List.mem_append_right _ (List.mem_singleton_self s)
  · rw [tracked₂, List.mem_append, List.mem_singleton] at ht
    rcases ht with ht | rfl
    · exact quiet₂.subscribed h₁.faithful (hatt t ht)
    · exact subscribed

/-- A signal that a derivation is shown is known to it afterwards. -/
theorem track_works [KeptBy Delivers run] (h : Working D d w)
    (earlier : s.index < (w.derivations.get d).output.index) :
    Ensures run (Derivation.track s (.recording d)) w fun _ w' =>
      Wired D w' ∧ Quiet (w.derivations.get d).output.index (· = d) w w' ∧
        s ∈ (w'.derivations.get d).tracked ∧ (Attached d w → Attached d w') := by
  refine (ensures_bind ..).2 ((ensures_modify ..).2 ?_)
  obtain ⟨wired₁, ev₁⟩ := showing_wired h.toWired d s
  have h₁ : Working D d (Derivation.showing d s w) := h.next (.apart rfl rfl) wired₁ ev₁
  have tracked : ∀ d', ((Derivation.showing d s w).derivations.get d').tracked =
      (w.derivations.get d').tracked :=
    fun d' => Heap.get_modify_same _ d d' _ Derivation.tracked fun _ => rfl
  have quiet₁ : Quiet (w.derivations.get d).output.index (· = d) w (Derivation.showing d s w) :=
    .of_still ev₁ rfl rfl tracked
  rw [← ev₁.output] at earlier
  refine (see_works h₁ earlier).mono ?_
  rintro _ w₂ ⟨wired₂, quiet₂, known, attached⟩
  rw [ev₁.output] at quiet₂
  refine ⟨wired₂, quiet₁.trans quiet₂, known, fun hatt => attached fun t ht => ?_⟩
  rw [tracked] at ht
  exact hatt t ht

/-- A computation yields what it makes of the values after it, for what it has read keeps its value
while it goes on. By induction on the computation. -/
theorem reading_works [KeptBy Delivers run] {r : Reading} {limit : Nat}
    {names : Ordered Name (SignalId × Role)} (hr : r.Grounded names limit)
    (hnames : w.names.signals = names) (h : Working D d w)
    (hlimit : limit = (w.derivations.get d).output.index) :
    Ensures run (r.run (.recording d)) w fun v w' =>
      Wired D w' ∧ Quiet limit (· = d) w w' ∧ (Attached d w → Attached d w' ∧
        ∃ l, r.Gives w' l v ∧ ∀ t ∈ l, t ∈ (w'.derivations.get d).tracked) := by
  induction hr generalizing w with
  | done v =>
    refine (ensures_pure ..).2 ⟨h.toWired, .refl w, fun hatt => ⟨hatt, [], .done v, fun t ht => ?_⟩⟩
    cases ht
  | @get t next earlier rest ih =>
    refine (ensures_bind ..).2 fun _ w₁ hw₁ => ?_
    have hlt : t.index < (w.derivations.get d).output.index := hlimit ▸ earlier
    obtain ⟨wired₁, quiet₁, known, attached₁⟩ := track_works h hlt _ _ hw₁
    rw [← hlimit] at quiet₁
    have h₁ : Working D d w₁ := h.next (keeps_track t _ w _ _ hw₁) wired₁ quiet₁.toEvolves
    refine (ensures_bind ..).2 ((ensures_get _).2 ?_)
    have hlimit₁ : limit = (w₁.derivations.get d).output.index := by
      rw [hlimit, quiet₁.output]
    refine (ih (Signal.content w₁ t) (quiet₁.names.trans hnames) h₁ hlimit₁).mono ?_
    rintro v w₂ ⟨wired₂, quiet₂, rest₂⟩
    refine ⟨wired₂, quiet₁.trans quiet₂, fun hatt => ?_⟩
    have hatt₁ := attached₁ hatt
    obtain ⟨hatt₂, l, gives, sees⟩ := rest₂ hatt₁
    have live : (w₁.signals.get t).subscribers ≠ [] := by
      obtain ⟨e, he, -⟩ := hatt₁ t known
      exact List.ne_nil_of_mem he
    have other : ∀ d', d' = d → (w₁.derivations.get d').output ≠ t := by
      rintro _ rfl heq
      rw [quiet₁.output] at heq
      rw [heq] at hlt
      omega
    have same : Signal.content w₂ t = Signal.content w₁ t := quiet₂.value t other (.inl live)
    refine ⟨hatt₂, t :: l, .get ?_, ?_⟩
    · rw [same]
      exact gives
    · simp only [List.mem_cons, forall_eq_or_imp]
      exact ⟨quiet₂.seen d known, sees⟩
  | @signal name t role next named rest ih =>
    refine (ensures_bind ..).2 ((ensures_get _).2 ?_)
    have lookup : require name (w.names.signals.get? name) = pure (t, role) := by
      rw [hnames, named]
      rfl
    rw [lookup]
    refine (ensures_bind ..).2 ((ensures_pure ..).2 ?_)
    refine (ih hnames h hlimit).mono ?_
    rintro v w₁ ⟨wired₁, quiet₁, rest₁⟩
    refine ⟨wired₁, quiet₁, fun hatt => ?_⟩
    obtain ⟨hatt₁, l, gives, sees⟩ := rest₁ hatt
    have named₁ : w₁.names.signals.get? name = some (t, role) := by
      rw [quiet₁.names, hnames, named]
    exact ⟨hatt₁, l, .signal named₁ gives, sees⟩
  | literal rest ih =>
    refine (ensures_bind ..).2 ((ensures_pure ..).2 ((ih hnames h hlimit).mono ?_))
    rintro v w₁ ⟨wired₁, quiet₁, rest₁⟩
    refine ⟨wired₁, quiet₁, fun hatt => ?_⟩
    obtain ⟨hatt₁, l, gives, sees⟩ := rest₁ hatt
    exact ⟨hatt₁, l, .literal gives, sees⟩
  | @text u next rest ih =>
    refine (ensures_bind ..).2 ((ensures_get _).2 ((ih (w.text u) hnames h hlimit).mono ?_))
    rintro v w₁ ⟨wired₁, quiet₁, rest₁⟩
    refine ⟨wired₁, quiet₁, fun hatt => ?_⟩
    obtain ⟨hatt₁, l, gives, sees⟩ := rest₁ hatt
    exact ⟨hatt₁, l, .text (fun own => Value.text_eq_ownText own _) gives, sees⟩

theorem followEach_works [KeptBy Delivers run] {l : List SignalId} (h : Working D d w)
    (earlier : ∀ t ∈ l, t.index < (w.derivations.get d).output.index) :
    Ensures run (l.forM (Derivation.follow d)) w fun _ w' =>
      Wired D w' ∧ Quiet (w.derivations.get d).output.index Nowhere w w' ∧
        ∀ t ∈ l, ∃ e ∈ (w'.signals.get t).subscribers,
          (w'.entries.get e).reaction = .refresh d := by
  induction l generalizing w with
  | nil =>
    refine (ensures_pure ..).2 ⟨h.toWired, .refl w, fun t ht => ?_⟩
    cases ht
  | cons t l ih =>
    refine (ensures_bind ..).2 fun _ w₁ hw₁ => ?_
    have lt := earlier t List.mem_cons_self
    have before : ∀ d', D d' → t.index < (w.derivations.get d').output.index :=
      fun d' hd' => Nat.lt_of_lt_of_le lt (h.last d' hd')
    obtain ⟨wired₁, quiet₁, first⟩ := follow_works h.toReady before h.real lt _ _ hw₁
    have quiet₁ : Quiet (w.derivations.get d).output.index Nowhere w w₁ :=
      quiet₁.mono (Nat.succ_le_of_lt lt) fun _ hd => hd
    have h₁ : Working D d w₁ := h.next (keeps_followSignal d t w _ _ hw₁) wired₁ quiet₁.toEvolves
    have earlier₁ : ∀ u ∈ l, u.index < (w₁.derivations.get d).output.index := by
      intro u hu
      rw [quiet₁.output]
      exact earlier u (List.mem_cons_of_mem _ hu)
    refine (ih h₁ earlier₁).mono ?_
    rintro _ w₂ ⟨wired₂, quiet₂, rest⟩
    rw [quiet₁.output] at quiet₂
    refine ⟨wired₂, quiet₁.trans quiet₂, fun u hu => ?_⟩
    rcases List.mem_cons.1 hu with rfl | hu
    · exact quiet₂.subscribed h₁.faithful first
    · exact rest u hu

theorem changed_quiet (value : Option Value)
    (own : (w.derivations.get d).output = s) :
    Quiet (s.index + 1) (· = d) w (Signal.changed s value w) where
  toEvolves := changed_evolves s value w
  above t ht := by
    have hts : s ≠ t := fun heq => by
      subst heq
      omega
    exact Heap.get_modify_of_ne _ _ _ _ hts
  value t other _ := by
    have hts : s ≠ t := fun heq => other d rfl (own.trans heq)
    exact congrArg Signal.value (Heap.get_modify_of_ne _ _ _ _ hts)
  started t ht := by
    have same := Heap.get_modify_same w.signals s t
      (fun signal => .bumped { signal with value }) Signal.started fun _ => rfl
    exact same.trans ht
  subscribers t := by
    have same := Heap.get_modify_same w.signals s t
      (fun signal => .bumped { signal with value }) Signal.subscribers fun _ => rfl
    exact same ▸ List.prefix_rfl
  entry _ _ := rfl
  tracked _ _ _ := rfl
  seen _ := List.Subset.refl _

omit [Works run] in
/-- Telling nobody does nothing. -/
theorem tellAll_nobody (nobody : (w.signals.get s).subscribers = []) :
    Signal.tellAll s w run w = .ok ((), w) := by
  unfold Signal.tellAll
  rw [nobody]
  rfl

/-- A computation that is recorded has its value, if the derivation was subscribed to all that it was
seen to read before. -/
theorem computation_works [KeptBy Delivers run] (h : Working D d w) :
    Ensures run ((w.derivations.get d).reading.run (.recording d)) w fun v w' =>
      Working D d w' ∧ Quiet (w.derivations.get d).output.index (· = d) w w' ∧
        (Attached d w → Computed d v w') := by
  intro v w' hw'
  obtain ⟨wired, quiet, yields⟩ := reading_works (h.shape.grounded d h.real) rfl h rfl _ _ hw'
  refine ⟨h.next (keeps_reading _ _ w _ _ hw') wired quiet.toEvolves, quiet, fun hatt => ?_⟩
  obtain ⟨attached, l, gives, sees⟩ := yields hatt
  refine ⟨attached, l, ?_, sees⟩
  rw [quiet.reading]
  exact gives

/-- The computation of a signal that is being started. Nobody is subscribed to it yet, so nobody is
told. -/
theorem firstRefresh_works [KeptBy Delivers run] (h : Working (fun d' => D d' ∨ d' = d) d w)
    (attached : Attached d w)
    (nobody : (w.signals.get (w.derivations.get d).output).subscribers = []) :
    Ensures run (Derivation.refresh d) w fun _ w' =>
      Wired D w' ∧ Quiet ((w.derivations.get d).output.index + 1) (· = d) w w' := by
  refine (ensures_bind ..).2 ((ensures_get _).2 ((ensures_bind ..).2 ?_))
  intro v w₁ hw₁
  obtain ⟨h₁, quiet₁, computed⟩ := computation_works h _ _ hw₁
  have output := quiet₁.output d
  have alone : (w₁.signals.get (w.derivations.get d).output).subscribers = [] := by
    rw [quiet₁.above _ (Nat.le_refl _), nobody]
  have quiet₁ := quiet₁.mono (Nat.le_succ _) fun _ hd => hd
  rw [← output] at alone quiet₁ ⊢
  intro _ w₂ hw₂
  rw [put_eq] at hw₂
  split at hw₂
  case isTrue same =>
    cases hw₂
    exact ⟨unnoticed_wired h₁.toWired (fun _ => computed attached) same, quiet₁⟩
  case isFalse =>
    have silent : ((Signal.changed (w₁.derivations.get d).output (some v) w₁).signals.get
        (w₁.derivations.get d).output).subscribers = [] := by
      have same := Heap.get_modify_same w₁.signals (w₁.derivations.get d).output
        (w₁.derivations.get d).output
        (fun signal => .bumped { signal with value := some v }) Signal.subscribers fun _ => rfl
      exact same.trans alone
    rw [replace_eq, tellAll_nobody silent] at hw₂
    cases hw₂
    exact ⟨noticed_wired h₁.faithful h₁.toWired h₁.real fun _ => computed attached,
      quiet₁.trans (changed_quiet (some v) rfl)⟩

/-- Starting a signal changes no value but its own, which nobody looks at yet. -/
theorem Quiet.hide {n : Nat} {w' : World} (h : Quiet n (· = d) w w')
    (output : (w.derivations.get d).output = s) (hs : s.index < n)
    (nobody : (w.signals.get s).subscribers = []) (idle : (w.signals.get s).started = false) :
    Quiet n Nowhere w w' where
  toEvolves := h.toEvolves
  above := h.above
  value t _ live := by
    refine h.value t (fun d' hd' heq => ?_) live
    subst hd'
    rw [← heq, output] at live
    rcases live with ne | started
    · exact ne nobody
    · rw [idle] at started
      cases started
  started := h.started
  subscribers := h.subscribers
  entry := h.entry
  tracked d' hd' _ := by
    refine h.tracked d' hd' fun heq => ?_
    rw [heq, output] at hd'
    omega
  seen := h.seen

theorem begun_quiet : Quiet (s.index + 1) D w (Signal.begun s w) where
  toEvolves := flags_evolves s (fun _ => true) Signal.teardown w
  above t ht := by
    have hts : s ≠ t := fun heq => by
      subst heq
      omega
    exact Heap.get_modify_of_ne _ _ _ _ hts
  value t _ _ := Heap.get_modify_same _ s t _ Signal.value fun _ => rfl
  started t ht := by
    by_cases hts : s = t
    · subst hts
      rcases Nat.lt_or_ge s.index w.signals.size with hs | hs
      · simp [Signal.begun, Heap.get_modify_self _ _ _ hs]
      · simpa only [Signal.begun, Heap.modify_of_size_le _ _ _ hs] using ht
    · simpa only [Signal.begun, Heap.get_modify_of_ne _ _ _ _ hts] using ht
  subscribers t := by
    have same := Heap.get_modify_same w.signals s t (fun signal => { signal with started := true })
      Signal.subscribers fun _ => rfl
    exact same ▸ List.prefix_rfl
  entry _ _ := rfl
  tracked _ _ _ := rfl
  seen _ := List.Subset.refl _

theorem tended_quiet (t : SubscriptionId) {n : Nat} (hn : s.index < n) :
    Quiet n D w (Signal.tended s t w) where
  toEvolves := flags_evolves s Signal.started (fun _ => some t) w
  above u hu := by
    have hsu : s ≠ u := fun heq => by
      subst heq
      omega
    exact Heap.get_modify_of_ne _ _ _ _ hsu
  value u _ _ := Heap.get_modify_same _ s u _ Signal.value fun _ => rfl
  started u hu := by
    have same := Heap.get_modify_same w.signals s u
      (fun signal => { signal with teardown := some t }) Signal.started fun _ => rfl
    exact same.trans hu
  subscribers u := by
    have same := Heap.get_modify_same w.signals s u
      (fun signal => { signal with teardown := some t }) Signal.subscribers fun _ => rfl
    exact same ▸ List.prefix_rfl
  entry _ _ := rfl
  tracked _ _ _ := rfl
  seen _ := List.Subset.refl _

/-- A derivation that starts subscribes to all that it was ever seen to read, and then computes. -/
theorem start_works [KeptBy Delivers run] (h : Working (fun d' => D d' ∨ d' = d) d w)
    (nobody : (w.signals.get (w.derivations.get d).output).subscribers = []) :
    Ensures run (Derivation.start d) w fun t w' =>
      Wired D w' ∧ Quiet ((w.derivations.get d).output.index + 1) (· = d) w w' ∧
        Leads (· = .release d) t w' := by
  refine (ensures_bind ..).2 ((ensures_get _).2 ((ensures_bind ..).2 ?_))
  intro _ w₁ hw₁
  obtain ⟨wired₁, quiet₁, each⟩ :=
    followEach_works h (fun t ht => h.shape.earlier d h.real t ht) _ _ hw₁
  have h₁ : Working (fun d' => D d' ∨ d' = d) d w₁ :=
    h.next (keeps_forM (keeps_followSignal d) w _ _ hw₁) wired₁ quiet₁.toEvolves
  have attached : Attached d w₁ := by
    unfold Attached
    rw [quiet₁.tracked d (Nat.le_refl _) id]
    exact each
  have alone : (w₁.signals.get (w₁.derivations.get d).output).subscribers = [] := by
    rw [quiet₁.output, quiet₁.above _ (Nat.le_refl _), nobody]
  refine (ensures_bind ..).2 ((firstRefresh_works h₁ attached alone).mono ?_)
  rintro _ w₂ ⟨wired₂, quiet₂⟩
  rw [quiet₁.output] at quiet₂
  have quiet₁ : Quiet ((w.derivations.get d).output.index + 1) (· = d) w w₁ :=
    quiet₁.mono (Nat.le_succ _) fun _ hd => hd.elim
  simp only [Subscription.create, ensures_bind, ensures_get, ensures_set, ensures_pure]
  obtain ⟨wired₃, ev⟩ := made_wired wired₂ (.release d)
  exact ⟨wired₃, (quiet₁.trans quiet₂).trans (.of_still ev rfl rfl fun _ => rfl),
    made_leads _ rfl⟩

theorem activate_works [KeptBy Delivers run] (h : Ready D w)
    (produced : (w.signals.get s).producer = some (.derivation d))
    (nobody : (w.signals.get s).subscribers = []) (idle : (w.signals.get s).started = false)
    (before : ∀ d', D d' → s.index < (w.derivations.get d').output.index) :
    Ensures run (Signal.activate s) w fun _ w' =>
      Wired D w' ∧ Quiet (s.index + 1) Nowhere w w' ∧ (w'.signals.get s).started = true := by
  obtain ⟨real, output⟩ := h.shape.real_of_producer produced
  refine (ensures_bind ..).2 ((ensures_get _).2 ?_)
  rw [produced]
  refine (ensures_bind ..).2 ((ensures_modify ..).2 ((ensures_bind ..).2 ?_))
  have quiet₁ : Quiet (s.index + 1) (· = d) w (Signal.begun s w) := begun_quiet
  have valid : s.index < w.signals.size := output ▸ real.index_lt
  have h₁ : Working (fun d' => D d' ∨ d' = d) d (Signal.begun s w) := by
    refine ⟨⟨begun_wired h.toWired produced, ?_⟩, .inr rfl, quiet₁.real.2 real, ?_⟩
    · exact (flags_delivers s (fun _ => true) Signal.teardown h.faithful).faithful
    · rintro d' (hd' | rfl)
      · rw [quiet₁.output, quiet₁.output, output]
        exact Nat.le_of_lt (before d' hd')
      · exact Nat.le_refl _
  have alone : ((Signal.begun s w).signals.get
      ((Signal.begun s w).derivations.get d).output).subscribers = [] := by
    rw [quiet₁.output, output]
    simp only [Signal.begun, Heap.get_modify_self _ _ _ valid]
    exact nobody
  refine (start_works h₁ alone).mono ?_
  rintro t w₂ ⟨wired₂, quiet₂, leads⟩
  rw [quiet₁.output, output] at quiet₂
  have quiet := quiet₁.trans quiet₂
  refine (ensures_modify ..).2 ?_
  have stopping : Leads (OfStopping s w₂) t w₂ := by
    refine ⟨leads.1, fun c hc => ⟨d, leads.2 c hc, quiet.real.2 real, ?_⟩⟩
    rw [quiet.output, output]
  have started : (w₂.signals.get s).started = true := by
    refine quiet₂.started s ?_
    simp [Signal.begun, Heap.get_modify_self _ _ _ valid]
  obtain ⟨wired₃, -⟩ := tended_wired wired₂ stopping
  have quiet₃ : Quiet (s.index + 1) (· = d) w₂ (Signal.tended s t w₂) :=
    tended_quiet t (Nat.lt_succ_self _)
  exact ⟨wired₃, (quiet.trans quiet₃).hide output (Nat.lt_succ_self _) nobody idle,
    quiet₃.started s started⟩

/-! Rounds. -/

theorem tell_works [KeptBy Delivers run] {n : Nat} {e : EntryId} (h : Ready Nowhere w)
    (c : Callable s n e w) :
    Ensures run (Signal.tell s n e) w fun _ w' => Wired Nowhere w' ∧ Evolves w w' := by
  intro _ w' hw'
  rw [tell_eq] at hw'
  split at hw'
  case isFalse =>
    cases hw'
    exact ⟨h.toWired, .refl w⟩
  case isTrue due =>
    simp only [Bool.and_eq_true, decide_eq_true_eq] at due
    have ev := marked_evolves s n e w
    have shape : Shape (Signal.marked s n e w) := ev.shape h.shape fun _ _ ht => .inl ht
    have handles := marked_handles h.handles s n e
    have flow := marked_flow h.flow s n e
    have faithful := (marked_called h.faithful c due.1 due.2).faithful
    have fits := h.handles.reactions e
    cases hr : (w.entries.get e).reaction with
    | told name script =>
      rw [hr] at hw' fits flow
      have wired : Wired Nowhere (Signal.marked s n e w) := by
        refine Wired.mono ⟨shape, handles, flow⟩ ?_
        rintro d (hd | hd)
        · exact hd
        · cases hd
      obtain ⟨wired', ev'⟩ := Works.told fits ⟨wired, faithful⟩ hw'
      exact ⟨wired', ev.trans ev'⟩
    | refresh d =>
      rw [hr] at hw' fits flow
      have wired : Wired (· = d) (Signal.marked s n e w) := by
        refine Wired.mono ⟨shape, handles, flow⟩ ?_
        rintro d' (hd | hd)
        · exact hd.elim
        · cases hd
          rfl
      have started : ∀ t, ((Signal.marked s n e w).signals.get t).started =
          (w.signals.get t).started :=
        fun t => Heap.get_modify_same _ s t _ Signal.started fun _ => rfl
      have attached : Running d (Signal.marked s n e w) → Attached d (Signal.marked s n e w) := by
        intro hd
        have hd₀ := ev.running (fun t ht => started t ▸ ht) hd
        exact marked_attached (h.flow.attached d id hd₀) s n e
      obtain ⟨wired', ev'⟩ := Works.refresh ⟨wired, faithful⟩ (ev.real.2 fits) attached hw'
      exact ⟨wired', ev.trans ev'⟩
    | followed name script =>
      rw [hr] at fits
      exact fits.elim
    | branch a =>
      rw [hr] at fits
      exact fits.elim
    | effect node effect =>
      rw [hr] at hw' flow
      have wired : Wired Nowhere (Signal.marked s n e w) := by
        refine Wired.mono ⟨shape, handles, flow⟩ ?_
        rintro d (hd | hd)
        · exact hd
        · cases hd
      have aside := Works.effect hw'
      exact ⟨aside.wired wired, ev.trans aside.evolves⟩

/-- A change to a graph that stays in working order, and the round that tells of it. -/
theorem replace_works [KeptBy Delivers run] (faithful : Faithful w) {value : Option Value}
    (wired : Wired Nowhere (Signal.changed s value w)) :
    Ensures run (Signal.replace s value) w fun _ w' => Wired Nowhere w' ∧ Evolves w w' := by
  intro a w' hw'
  rw [replace_eq] at hw'
  let I : World → Prop := fun w' => Wired Nowhere w' ∧ Evolves w w'
  have keeps : ∀ n e w₁, Faithful w₁ → Callable s n e w₁ → I w₁ →
      Ensures run (Signal.tell s n e) w₁ fun _ w₂ => I w₂ := by
    rintro n e w₁ faithful₁ c ⟨wired₁, ev₁⟩
    refine (tell_works ⟨wired₁, faithful₁⟩ c).mono ?_
    rintro _ w₂ ⟨wired₂, ev₂⟩
    exact ⟨wired₂, ev₁.trans ev₂⟩
  exact (tellAll_calls value keeps faithful ⟨wired, changed_evolves s value w⟩ a w' hw').2

/-- A change to a signal that is not derived, and the round that tells of it. -/
theorem write_works [KeptBy Delivers run] (h : Ready Nowhere w)
    (plain : (w.signals.get s).producer = none) (value : Option Value) :
    Ensures run (Signal.replace s value) w fun _ w' => Wired Nowhere w' ∧ Evolves w w' :=
  replace_works h.faithful (changed_wired h.faithful h.toWired plain value)

/-- A derivation that is told of a change computes its value anew, and tells its own readers. -/
theorem refresh_works [KeptBy Delivers run] (h : Ready (· = d) w) (real : Real d w)
    (attached : Running d w → Attached d w) :
    Ensures run (Derivation.refresh d) w fun _ w' => Wired Nowhere w' ∧ Evolves w w' := by
  refine (ensures_bind ..).2 ((ensures_get _).2 ((ensures_bind ..).2 ?_))
  intro v w₁ hw₁
  have working : Working (· = d) d w := by
    refine ⟨h, rfl, real, ?_⟩
    rintro _ rfl
    exact Nat.le_refl _
  obtain ⟨h₁, quiet, computed⟩ := computation_works working _ _ hw₁
  have computed₁ : Running d w₁ → Computed d v w₁ := by
    intro hd
    refine computed (attached ⟨real, ?_⟩)
    have started := hd.2
    rw [quiet.output, quiet.above _ (Nat.le_refl _)] at started
    exact started
  have wired₁ : Wired (fun d' => Nowhere d' ∨ d' = d) w₁ := h₁.toWired.mono fun _ => .inr
  rw [← quiet.output d]
  intro _ w₂ hw₂
  rw [put_eq] at hw₂
  split at hw₂
  case isTrue same =>
    cases hw₂
    exact ⟨unnoticed_wired wired₁ computed₁ same, quiet.toEvolves⟩
  case isFalse =>
    have noticed := noticed_wired h₁.faithful wired₁ h₁.real computed₁
    obtain ⟨wired₂, ev₂⟩ := replace_works h₁.faithful noticed _ _ hw₂
    exact ⟨wired₂, quiet.toEvolves.trans ev₂⟩

/-! Cancellation. -/

/-- Nothing is started, and the graph stays in working order. -/
structure Subsides (w w' : World) : Prop extends Evolves w w' where
  wired : Wired Nowhere w'
  started : ∀ s, (w'.signals.get s).started = true → (w.signals.get s).started = true

theorem Subsides.running {w' : World} (h : Subsides w w') (hd : Running d w') : Running d w :=
  h.toEvolves.running h.started hd

theorem Subsides.trans {w₁ w₂ : World} (h : Subsides w w₁) (h' : Subsides w₁ w₂) :
    Subsides w w₂ :=
  ⟨h.toEvolves.trans h'.toEvolves, h'.wired, fun s hs => h.started s (h'.started s hs)⟩

theorem Loose.next {w' : World} {c : Cancel} (h : Loose w c) (sub : Subsides w w') :
    Loose w' c := by
  obtain ⟨s, e, rfl, he, idle⟩ := h
  refine ⟨s, e, rfl, Nat.lt_of_lt_of_le he sub.entries, fun d hr hd => ?_⟩
  rw [sub.reaction e he] at hr
  exact idle d hr (sub.running hd)

theorem Cancellable.next {w' : World} {c : Cancel} (h : Cancellable w c) (sub : Subsides w w') :
    Cancellable w' c := by
  cases h with
  | loose h => exact .loose (h.next sub)
  | all h => exact .all fun s hs => sub.leads (h s hs) fun _ hc => hc.next sub
  | release h => exact .release fun hd => h (sub.running hd)

theorem cancel_works [KeptBy Delivers run] (h : Ready Nowhere w) {sub : SubscriptionId}
    (leads : Leads (Cancellable w) sub w) :
    Ensures run (Subscription.cancel sub) w fun _ w' => Subsides w w' := by
  refine (ensures_bind ..).2 ((ensures_get _).2 ?_)
  cases hc : w.subscriptions.get sub with
  | none => exact (ensures_pure ..).2 ⟨.refl w, h.toWired, fun _ hs => hs⟩
  | some c =>
    refine (ensures_bind ..).2 ((ensures_modify ..).2 ((ensures_invoke ..).2 fun w' hw' => ?_))
    obtain ⟨wired₁, ev₁⟩ := spent_wired h.toWired sub
    have sub₁ : Subsides w (Subscription.spent sub w) := ⟨ev₁, wired₁, fun _ hs => hs⟩
    have ready₁ : Ready Nowhere (Subscription.spent sub w) := h.next (.apart rfl rfl) wired₁
    obtain ⟨wired₂, ev₂, started₂⟩ := Works.cancel ready₁ ((leads.2 c hc).next sub₁) hw'
    exact sub₁.trans ⟨ev₂, wired₂, started₂⟩

theorem cancelEach_works [KeptBy Delivers run] {l : List SubscriptionId} (h : Ready Nowhere w)
    (loose : ∀ sub ∈ l, Leads (Loose w) sub w) :
    Ensures run (Subscription.cancelEach l) w fun _ w' => Subsides w w' := by
  induction l generalizing w with
  | nil => exact (ensures_pure ..).2 ⟨.refl w, h.toWired, fun _ hs => hs⟩
  | cons sub l ih =>
    refine (ensures_bind ..).2 fun _ w₁ hw₁ => ?_
    obtain ⟨made, imp⟩ := loose sub List.mem_cons_self
    have sub₁ : Subsides w w₁ := cancel_works h ⟨made, fun c hc => .loose (imp c hc)⟩ _ _ hw₁
    have h₁ : Ready Nowhere w₁ := h.next (keeps_cancel sub w _ _ hw₁) sub₁.wired
    have loose₁ : ∀ sub' ∈ l, Leads (Loose w₁) sub' w₁ := fun sub' hs =>
      sub₁.leads (loose sub' (List.mem_cons_of_mem _ hs)) fun _ hc => hc.next sub₁
    exact (ih h₁ loose₁).mono fun _ _ sub₂ => sub₁.trans sub₂

/-- A signal that has lost its last subscriber stops, and its derivation lets go of its sources. -/
theorem stop_works [KeptBy Delivers run] (h : Ready Nowhere w) :
    Ensures run (Signal.stop s) w fun _ w' => Subsides w w' := by
  refine (ensures_bind ..).2 ((ensures_get _).2 ?_)
  by_cases ends : ((w.signals.get s).subscribers.isEmpty && (w.signals.get s).started) = true
  case neg =>
    rw [if_neg ends]
    exact (ensures_pure ..).2 ⟨.refl w, h.toWired, fun _ hs => hs⟩
  rw [if_pos ends]
  simp only [Bool.and_eq_true, List.isEmpty_iff] at ends
  refine (ensures_bind ..).2 ((ensures_modify ..).2 ?_)
  have wired₁ := stopped_wired h.toWired ends.1
  have valid : s.index < w.signals.size := by
    rcases Nat.lt_or_ge s.index w.signals.size with hlt | hge
    · exact hlt
    · rw [Heap.get_of_size_le _ _ hge] at ends
      cases ends.2
  have stopped : ((Signal.stopped s w).signals.get s).started = false := by
    simp [Signal.stopped, Heap.get_modify_self _ _ _ valid]
  have sub₁ : Subsides w (Signal.stopped s w) := by
    refine ⟨flags_evolves s (fun _ => false) (fun _ => none) w, wired₁, fun t ht => ?_⟩
    have hts : s ≠ t := by
      rintro rfl
      rw [stopped] at ht
      cases ht
    simpa only [Signal.stopped, Heap.get_modify_of_ne _ _ _ _ hts] using ht
  have ready₁ : Ready Nowhere (Signal.stopped s w) :=
    h.next (flags_delivers s (fun _ => false) (fun _ => none)) wired₁
  cases ht : (w.signals.get s).teardown with
  | none => exact (ensures_pure ..).2 sub₁
  | some t =>
    have leads : Leads (Cancellable (Signal.stopped s w)) t (Signal.stopped s w) := by
      refine sub₁.leads (h.handles.teardown s t ht) ?_
      rintro _ ⟨d, rfl, -, output⟩
      refine .release fun hd => ?_
      have started := hd.2
      rw [sub₁.output, output, stopped] at started
      cases started
    exact (cancel_works ready₁ leads).mono fun _ _ sub₂ => sub₁.trans sub₂

theorem leave_works [KeptBy Delivers run] {e : EntryId} (h : Ready Nowhere w)
    (idle : ∀ d, (w.entries.get e).reaction = .refresh d → ¬ Running d w) :
    Ensures run (Signal.leave s e) w fun _ w' => Subsides w w' := by
  refine (ensures_bind ..).2 fun _ w₁ hw₁ => ?_
  have delivers : Delivers w w₁ := keeps_drop s e w _ _ hw₁
  cases drop_ensures s e run w _ _ hw₁
  have ev := dropped_evolves s e w
  have wired₁ : Wired Nowhere (Signal.dropped s e w) :=
    ⟨ev.shape h.shape fun _ _ ht => .inl ht, dropped_handles h.handles s e,
      dropped_flow h.flow s idle⟩
  have sub₁ : Subsides w (Signal.dropped s e w) := by
    refine ⟨ev, wired₁, fun t ht => ?_⟩
    have same := Heap.get_modify_same w.signals s t (Signal.leftBy e) Signal.started fun _ => rfl
    exact same.symm.trans ht
  exact (stop_works (h.next delivers wired₁)).mono fun _ _ sub₂ => sub₁.trans sub₂

theorem release_works [KeptBy Delivers run] (h : Ready Nowhere w) (idle : ¬ Running d w) :
    Ensures run (Derivation.release d) w fun _ w' => Subsides w w' := by
  refine (ensures_bind ..).2 ((ensures_get _).2 ((ensures_bind ..).2 ((ensures_modify ..).2 ?_)))
  obtain ⟨wired₁, ev₁⟩ := holding_wired h.toWired d (fun _ => []) fun _ _ hs => nomatch hs
  simp only [Subscription.create, ensures_bind, ensures_get, ensures_set, ensures_pure]
  let w₁ := Derivation.holding d (fun _ => []) w
  let l := (w.derivations.get d).subscriptions
  obtain ⟨wired₂, ev₂⟩ := made_wired wired₁ (.all l)
  have sub₂ : Subsides w (Subscription.made (.all l) w₁) :=
    ⟨ev₁.trans ev₂, wired₂, fun _ hs => hs⟩
  have ready₂ : Ready Nowhere (Subscription.made (.all l) w₁) :=
    h.next (.apart rfl rfl) wired₂
  have leads : Leads (Cancellable (Subscription.made (.all l) w₁)) w₁.subscriptions.next
      (Subscription.made (.all l) w₁) := by
    refine made_leads _ (.all fun sub hs => sub₂.leads (h.handles.held d sub hs) ?_)
    rintro _ ⟨s, e, rfl, he, hr⟩
    refine ⟨s, e, rfl, Nat.lt_of_lt_of_le he sub₂.entries, fun d' hr' hd' => idle ?_⟩
    rw [sub₂.reaction e he, hr] at hr'
    cases hr'
    exact sub₂.running hd'
  exact (cancel_works ready₂ leads).mono fun _ _ sub₃ => sub₂.trans sub₃

/-! Steps. -/

instance : Lasting Evolves := ⟨.refl, .trans⟩

theorem Ready.aside {w' : World} (h : Ready D w) (a : Aside w w') : Ready D w' :=
  h.next (.apart a.signals a.entries) (a.wired h.toWired)

/-- A subscriber that is shown the value as it joins. -/
def Signal.greeted (s : SignalId) (e : EntryId) (w : World) : World :=
  { w with signals := w.signals.modify s (Signal.showing e none) }

theorem greeted_evolves (s : SignalId) (e : EntryId) (w : World) :
    Evolves w (Signal.greeted s e w) :=
  ⟨Heap.size_modify .., fun t => Heap.get_modify_same _ s t _ Signal.producer fun _ => rfl, rfl,
    fun _ => rfl, fun _ => rfl, rfl, Nat.le_refl _, fun _ _ => rfl, Nat.le_refl _,
    fun _ _ => .inl rfl⟩

theorem greeted_wired (h : Wired D w) (s : SignalId) (e : EntryId) :
    Wired D (Signal.greeted s e w) ∧ Evolves w (Signal.greeted s e w) := by
  have ev := greeted_evolves s e w
  refine ⟨h.still ev ?_ ?_, ev⟩
  · exact ⟨fun t => Heap.get_modify_same _ s t _ Signal.value fun _ => rfl,
      fun t => Heap.get_modify_same _ s t _ Signal.version fun _ => rfl,
      fun t => Heap.get_modify_same _ s t _ Signal.started fun _ => rfl,
      fun t => Heap.get_modify_same _ s t _ Signal.subscribers fun _ => rfl,
      fun _ => rfl, fun _ => rfl⟩
  · refine ev.handles h.handles (fun e _ => h.handles.reactions e) (fun _ _ hn => .inl hn)
      (fun _ _ hs => .inl hs) fun t sub ht => .inl ?_
    have same := Heap.get_modify_same w.signals s t (Signal.showing e none) Signal.teardown
      fun _ => rfl
    exact same.symm.trans ht

/-- A subscriber of the graph that is no part of it. -/
def Reaction.Outward : Reaction → Prop
  | .told _ script => ∀ step ∈ script, step.Operates
  | .effect _ _ => True
  | _ => False

omit [Works run] in
theorem Reaction.Outward.fits {reaction : Reaction} (h : reaction.Outward) : reaction.Fits w := by
  cases reaction with
  | told name script => exact h
  | effect node e => trivial
  | _ => exact h.elim

theorem outward_works (h : Ready Nowhere w) {reaction : Reaction} (outward : reaction.Outward)
    {v : Option Value} {w' : World} (hw' : run (.react reaction v) w = .ok ((), w')) :
    Wired Nowhere w' ∧ Evolves w w' := by
  cases reaction with
  | told name script => exact Works.told outward h hw'
  | effect node e =>
    have aside := Works.effect hw'
    exact ⟨aside.wired h.toWired, aside.evolves⟩
  | _ => exact outward.elim

/-- Takes off a subscriber. -/
def OfReaction (reaction : Reaction) (w : World) (c : Cancel) : Prop :=
  ∃ s e, c = .entry s e ∧ e.index < w.entries.size ∧ (w.entries.get e).reaction = reaction

/-- Such a subscriber joins, and is called at once if it asked for that. -/
theorem joinOutward_works (h : Ready Nowhere w) {reaction : Reaction} (outward : reaction.Outward)
    (running : (w.signals.get s).producer ≠ none → (w.signals.get s).started = true) (mode : Mode) :
    Ensures run (Signal.join s reaction mode) w fun e w' =>
      Wired Nowhere w' ∧ Evolves w w' ∧ e.index < w'.entries.size ∧
        (w'.entries.get e).reaction = reaction := by
  have fits : reaction.Fits w := outward.fits
  cases mode with
  | normal =>
    refine (join_ensures s _).mono ?_
    rintro _ _ ⟨rfl, rfl⟩
    refine ⟨entered_wired h .normal fits running, entered_evolves s _ .normal w, ?_, ?_⟩
    · simp [Signal.entered, Heap.next]
    · simp [Signal.entered]
  | immediate =>
    let w₁ := Signal.entered s reaction .immediate w
    let w₂ := Signal.greeted s w.entries.next w₁
    obtain ⟨wired₂, ev₂⟩ : Wired Nowhere w₂ ∧ Evolves w₁ w₂ :=
      greeted_wired (entered_wired h .immediate fits running) s w.entries.next
    have delivers : Delivers w w₂ :=
      joined_delivers s reaction .immediate (Heap.modify_modify ..) rfl
    simp only [Signal.join, Signal.enter, Signal.greet, modifySignal, ensures_bind, ensures_get,
      ensures_set, ensures_pure, if_true, ensures_modify, ensures_invoke]
    intro w₃ hw₃
    obtain ⟨wired₃, ev₃⟩ := outward_works (h.next delivers wired₂) outward hw₃
    have known : w.entries.next.index < w₂.entries.size := by
      simp [w₂, w₁, Signal.greeted, Signal.entered, Heap.next]
    refine ⟨wired₃, ((entered_evolves s _ .immediate w).trans ev₂).trans ev₃,
      Nat.lt_of_lt_of_le known ev₃.entries, (ev₃.reaction _ known).trans ?_⟩
    simp [w₂, w₁, Signal.greeted, Signal.entered]

theorem subscribeOutward_works [KeptBy Delivers run] (h : Ready Nowhere w) {reaction : Reaction}
    (outward : reaction.Outward) (mode : Mode) :
    Ensures run (Signal.subscribe s reaction mode) w fun sub w' =>
      Wired Nowhere w' ∧ Evolves w w' ∧ Leads (OfReaction reaction w') sub w' := by
  refine (ensures_bind ..).2 fun _ w₁ hw₁ => ?_
  obtain ⟨wired₁, quiet₁, running⟩ := wake_works h (fun _ hd => hd.elim) _ _ hw₁
  have h₁ : Ready Nowhere w₁ := h.next (keeps_wake s w _ _ hw₁) wired₁
  refine (ensures_bind ..).2 ((joinOutward_works h₁ outward running mode).mono ?_)
  rintro e w₂ ⟨wired₂, ev₂, known, same⟩
  simp only [Subscription.create, ensures_bind, ensures_get, ensures_set, ensures_pure]
  obtain ⟨wired₃, ev₃⟩ := made_wired wired₂ (.entry s e)
  exact ⟨wired₃, (quiet₁.toEvolves.trans ev₂).trans ev₃, made_leads _ ⟨s, e, rfl, known, same⟩⟩

omit [Works run] in
/-- What keeps a graph in working order keeps its signals recorded, too. -/
theorem Ready.ensures {α : Type} {x : Op α} (h : Ready Nowhere w) (keeps : Keeps Delivers run x)
    (works : Ensures run x w fun _ w' => Wired Nowhere w' ∧ Evolves w w') :
    Ensures run x w fun _ w' => Ready Nowhere w' ∧ Evolves w w' := by
  intro a w' hw'
  obtain ⟨wired, ev⟩ := works a w' hw'
  exact ⟨h.next (keeps w a w' hw') wired, ev⟩

/-- A subscription that has a name takes off a subscriber that runs a script. -/
theorem Handles.cancellable (h : Handles w) {name : Name} {sub : SubscriptionId}
    (named : w.names.subscriptions.get? name = some sub) : Leads (Cancellable w) sub w := by
  obtain ⟨made, imp⟩ := h.named name sub named
  refine ⟨made, fun c hc => .loose ?_⟩
  obtain ⟨s, e, name, script, rfl, he, hr⟩ := imp c hc
  refine ⟨s, e, rfl, he, fun d hr' => ?_⟩
  rw [hr] at hr'
  cases hr'

theorem upkeep_works [KeptBy Delivers run] : Upkeep run (Ready Nowhere) Evolves where
  idling h idling := ⟨h.aside idling.toAside, idling.toAside.evolves⟩
  replace value h named :=
    h.ensures (keeps_replace _ _) (write_works h (h.shape.writable _ _ named) value)
  subscribe := fun {_ _ name script} mode h operates => by
    refine h.ensures (keeps_bind (keeps_subscribe _ _ _) fun _ => keeps_nameSubscription _ _) ?_
    have outward : Reaction.Outward (.told name script) := operates
    refine (ensures_bind ..).2 ((subscribeOutward_works h outward mode).mono ?_)
    rintro sub w₁ ⟨wired₁, ev₁, leads⟩
    refine (ensures_modify ..).2 ?_
    have leads : Leads (OfScript w₁) sub w₁ := ⟨leads.1, fun c hc =>
      let ⟨s, e, eq, known, reaction⟩ := leads.2 c hc
      ⟨s, e, _, _, eq, known, reaction⟩⟩
    obtain ⟨wired₂, ev₂⟩ := named_wired wired₁ _ leads
    exact ⟨wired₂, ev₁.trans ev₂⟩
  cancel h named := by
    refine h.ensures (keeps_cancel _) ?_
    exact (cancel_works h (h.handles.cancellable named)).mono fun _ _ subsides =>
      ⟨subsides.wired, subsides.toEvolves⟩
  script current h operates := by
    refine h.ensures (keeps_invoke _) ((ensures_invoke ..).2 fun w' hw' => ?_)
    exact Works.script operates h hw'

/-- A step keeps a graph in working order. -/
theorem step_works [KeptBy Delivers run] (h : Ready Nowhere w) {step : Step} (current : Value)
    (operates : step.Operates) :
    Ensures run (step.run current) w fun _ w' => Wired Nowhere w' ∧ Evolves w w' :=
  (upkeep_works.step h current operates).mono fun _ _ hw' => ⟨hw'.1.toWired, hw'.2⟩

/-- A script keeps a graph in working order. -/
theorem script_works [KeptBy Delivers run] {script : Script} (h : Ready Nowhere w)
    (current : Value) (operates : ∀ step ∈ script, step.Operates) :
    Ensures run (script.run current) w fun _ w' => Wired Nowhere w' ∧ Evolves w w' :=
  (upkeep_works.steps h current operates).mono fun _ _ hw' => ⟨hw'.1.toWired, hw'.2⟩

theorem told_works [KeptBy Delivers run] {script : Script} (h : Ready Nowhere w) (name : Name)
    (v : Option Value) (operates : ∀ step ∈ script, step.Operates) :
    Ensures run (Reaction.run v (.told name script)) w fun _ w' =>
      Wired Nowhere w' ∧ Evolves w w' :=
  (upkeep_works.told h name v operates).mono fun _ _ hw' => ⟨hw'.1.toWired, hw'.2⟩

theorem cancelRun_works [KeptBy Delivers run] {c : Cancel} (h : Ready Nowhere w)
    (cancellable : Cancellable w c) : Ensures run c.run w fun _ w' => Subsides w w' := by
  cases cancellable with
  | loose loose =>
    obtain ⟨s, e, rfl, -, idle⟩ := loose
    exact leave_works h idle
  | all loose => exact cancelEach_works h loose
  | release idle => exact release_works h idle

end

/-- By induction on the fuel. -/
instance works_exec (fuel : Nat) : Works (exec fuel) := by
  induction fuel with
  | zero => constructor <;> intros <;> contradiction
  | succ fuel ih =>
    constructor
    · exact fun operates h run => script_works h _ operates _ _ run
    · exact fun operates h run => told_works h _ _ operates _ _ run
    · exact fun {_ e _ w w'} run => (apply_beside e _ _ w () w' run).toAside
    · exact fun h real attached run => refresh_works h real attached _ _ run
    · exact fun h produced nobody idle before run =>
        activate_works h produced nobody idle before _ _ run
    · intro c w w' h cancellable run
      have subsides : Subsides w w' := cancelRun_works h cancellable _ _ run
      exact ⟨subsides.wired, subsides.toEvolves, subsides.started⟩

end LiveMarkup.Live
