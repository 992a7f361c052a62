import LiveMarkup.Proofs.Purity
import LiveMarkup.Proofs.Delivery

/-!
Graphs of derived signals: what holds of them between the steps of a session, and what of it each
change to a world keeps. A derived signal that is started holds what its computation makes of its
sources, or it has a change before it of which it is still to be told.
-/
namespace LiveMarkup.Live

/-- A step that only works with signals and subscriptions that are there, callbacks included. -/
inductive Step.Operates : Step → Prop
  | ask (q : Query) : Operates (.ask q)
  | set (sig : Name) (v : Formula) : Operates (.set sig v)
  | update (sig : Name) (v : Formula) : Operates (.update sig v)
  | change (sig : Name) (suffix : String) (v : Option Literal) : Operates (.change sig suffix v)
  | subscribe {name sig : Name} {mode : Mode} {script : List Step}
    (steps : ∀ step ∈ script, Operates step) : Operates (.subscribe name sig mode script)
  | unsubscribe (sub : Name) : Operates (.unsubscribe sub)
  | log (v : Formula) : Operates (.log v)
  | choose {v : Formula} {yes no : List Step} (yesSteps : ∀ step ∈ yes, Operates step)
    (noSteps : ∀ step ∈ no, Operates step) : Operates (.choose v yes no)

/-- The derivation is that of a derived signal. -/
def Real (d : DerivationId) (w : World) : Prop :=
  (w.signals.get (w.derivations.get d).output).producer = some (.derivation d)

/-- The derived signal of a derivation is started. -/
def Running (d : DerivationId) (w : World) : Prop :=
  Real d w ∧ (w.signals.get (w.derivations.get d).output).started = true

/-- A derivation is subscribed to every signal that it was seen to read. -/
def Attached (d : DerivationId) (w : World) : Prop :=
  ∀ t ∈ (w.derivations.get d).tracked, ∃ e ∈ (w.signals.get t).subscribers,
    (w.entries.get e).reaction = .refresh d

/-- A derived signal holds what its computation makes of the signals of `l`, up to what a write lets
go unnoticed, and it was seen to read them. -/
structure CurrentIn (l : List SignalId) (d : DerivationId) (w : World) : Prop where
  sees : ∀ t ∈ l, t ∈ (w.derivations.get d).tracked
  holds : ∃ v u, Signal.content w (w.derivations.get d).output = some v ∧
    (w.derivations.get d).reading.Gives w l u ∧ (v = u ∨ v.isSame u = true)

/-- A derived signal holds what its computation makes of the signals that it reads. -/
def Current (d : DerivationId) (w : World) : Prop :=
  ∃ l, CurrentIn l d w

/-- A derivation is still to be told of a change. -/
def Lagging (d : DerivationId) (w : World) : Prop :=
  ∃ s, ∃ e ∈ (w.signals.get s).subscribers, (w.entries.get e).reaction = .refresh d ∧
    (w.entries.get e).seen < (w.signals.get s).version

/-- What a subscriber of a graph may do. -/
def Reaction.Fits (w : World) : Reaction → Prop
  | .told _ script => ∀ step ∈ script, step.Operates
  | .refresh d => Real d w
  | .effect _ _ => True
  | _ => False

/-- A subscription was made, and what is left to do for it, if anything, is of a kind. -/
def Leads (P : Cancel → Prop) (sub : SubscriptionId) (w : World) : Prop :=
  sub.index < w.subscriptions.size ∧ ∀ c, w.subscriptions.get sub = some c → P c

/-- Takes off a subscriber that runs a script. -/
def OfScript (w : World) (c : Cancel) : Prop :=
  ∃ s e name script, c = .entry s e ∧ e.index < w.entries.size ∧
    (w.entries.get e).reaction = .told name script

/-- Takes off a subscriber that refreshes a derivation. -/
def OfDerivation (d : DerivationId) (w : World) (c : Cancel) : Prop :=
  ∃ s e, c = .entry s e ∧ e.index < w.entries.size ∧ (w.entries.get e).reaction = .refresh d

/-- Releases the derivation of a signal. -/
def OfStopping (s : SignalId) (w : World) (c : Cancel) : Prop :=
  ∃ d, c = .release d ∧ Real d w ∧ (w.derivations.get d).output = s

/-- The graph itself: derived signals are functions of earlier signals, and only others can be
written. -/
structure Shape (w : World) : Prop where
  producers : ∀ s p, (w.signals.get s).producer = some p →
    ∃ d, p = .derivation d ∧ d.index < w.derivations.size ∧ (w.derivations.get d).output = s
  grounded : ∀ d, Real d w → (w.derivations.get d).reading.Grounded w.names.signals
    (w.derivations.get d).output.index
  earlier : ∀ d, Real d w → ∀ t ∈ (w.derivations.get d).tracked,
    t.index < (w.derivations.get d).output.index
  writable : ∀ name s, w.names.signals.get? name = some (s, .writable) →
    (w.signals.get s).producer = none
  made : ∀ name s role, w.names.signals.get? name = some (s, role) → s.index < w.signals.size

/-- What subscribers do and what subscriptions lead to. -/
structure Handles (w : World) : Prop where
  reactions : ∀ e, (w.entries.get e).reaction.Fits w
  named : ∀ name sub, w.names.subscriptions.get? name = some sub → Leads (OfScript w) sub w
  held : ∀ d, ∀ sub ∈ (w.derivations.get d).subscriptions, Leads (OfDerivation d w) sub w
  teardown : ∀ s t, (w.signals.get s).teardown = some t → Leads (OfStopping s w) t w

/-- How values go through the graph. Derivations in `D` are at work and are excepted. -/
structure Flow (D : DerivationId → Prop) (w : World) : Prop where
  started : ∀ s, (w.signals.get s).subscribers ≠ [] → (w.signals.get s).producer ≠ none →
    (w.signals.get s).started = true
  attached : ∀ d, ¬ D d → Running d w → Attached d w
  current : ∀ d, ¬ D d → Running d w → Current d w ∨ Lagging d w

/-- A graph in working order, but for the derivations in `D`. -/
structure Wired (D : DerivationId → Prop) (w : World) : Prop where
  shape : Shape w
  handles : Handles w
  flow : Flow D w

/-- No derivation is excepted. -/
abbrev Nowhere : DerivationId → Prop := fun _ => False

/-- What nothing that goes on in a graph undoes. -/
structure Evolves (w w' : World) : Prop where
  signals : w'.signals.size = w.signals.size
  producer : ∀ s, (w'.signals.get s).producer = (w.signals.get s).producer
  derivations : w'.derivations.size = w.derivations.size
  reading : ∀ d, (w'.derivations.get d).reading = (w.derivations.get d).reading
  output : ∀ d, (w'.derivations.get d).output = (w.derivations.get d).output
  names : w'.names.signals = w.names.signals
  entries : w.entries.size ≤ w'.entries.size
  reaction : ∀ e, e.index < w.entries.size →
    (w'.entries.get e).reaction = (w.entries.get e).reaction
  subscriptions : w.subscriptions.size ≤ w'.subscriptions.size
  /-- What is left to do for a subscription only ever gets done. -/
  cancel : ∀ sub, sub.index < w.subscriptions.size →
    w'.subscriptions.get sub = w.subscriptions.get sub ∨ w'.subscriptions.get sub = none

namespace Evolves
variable {w w₁ w₂ : World} {d : DerivationId}

theorem refl (w : World) : Evolves w w :=
  ⟨rfl, fun _ => rfl, rfl, fun _ => rfl, fun _ => rfl, rfl, Nat.le_refl _, fun _ _ => rfl, Nat.le_refl _,
    fun _ _ => .inl rfl⟩

theorem trans (h : Evolves w w₁) (h' : Evolves w₁ w₂) : Evolves w w₂ where
  signals := h'.signals.trans h.signals
  producer s := (h'.producer s).trans (h.producer s)
  derivations := h'.derivations.trans h.derivations
  reading d := (h'.reading d).trans (h.reading d)
  output d := (h'.output d).trans (h.output d)
  names := h'.names.trans h.names
  entries := Nat.le_trans h.entries h'.entries
  reaction e he :=
    (h'.reaction e (Nat.lt_of_lt_of_le he h.entries)).trans (h.reaction e he)
  subscriptions := Nat.le_trans h.subscriptions h'.subscriptions
  cancel sub hs := by
    rcases h'.cancel sub (Nat.lt_of_lt_of_le hs h.subscriptions) with h₂ | h₂
    · rw [h₂]
      exact h.cancel sub hs
    · exact .inr h₂

theorem real (h : Evolves w w₁) : Real d w₁ ↔ Real d w := by
  unfold Real
  rw [h.output, h.producer]

/-- Nothing runs that did not run unless something was started. -/
theorem running (h : Evolves w w₁)
    (started : ∀ s, (w₁.signals.get s).started = true → (w.signals.get s).started = true)
    (hd : Running d w₁) : Running d w := by
  unfold Running at hd
  rw [h.real, h.output] at hd
  exact ⟨hd.1, started _ hd.2⟩

theorem fits (h : Evolves w w₁) {r : Reaction} : r.Fits w₁ ↔ r.Fits w := by
  cases r with
  | refresh d => exact h.real
  | told name script => exact Iff.rfl
  | followed name script => exact Iff.rfl
  | branch a => exact Iff.rfl
  | effect node e => exact Iff.rfl

theorem leads (h : Evolves w w₁) {P P' : Cancel → Prop} {sub : SubscriptionId}
    (leads : Leads P sub w) (imp : ∀ c, P c → P' c) : Leads P' sub w₁ := by
  refine ⟨Nat.lt_of_lt_of_le leads.1 h.subscriptions, fun c hc => ?_⟩
  rcases h.cancel sub leads.1 with hsame | hnone
  · exact imp c (leads.2 c (hsame ▸ hc))
  · rw [hnone] at hc
    cases hc

theorem ofScript (h : Evolves w w₁) {c : Cancel} (hc : OfScript w c) : OfScript w₁ c := by
  obtain ⟨s, e, name, script, rfl, he, hr⟩ := hc
  exact ⟨s, e, name, script, rfl, Nat.lt_of_lt_of_le he h.entries, (h.reaction e he).trans hr⟩

theorem ofDerivation (h : Evolves w w₁) {c : Cancel} (hc : OfDerivation d w c) :
    OfDerivation d w₁ c := by
  obtain ⟨s, e, rfl, he, hr⟩ := hc
  exact ⟨s, e, rfl, Nat.lt_of_lt_of_le he h.entries, (h.reaction e he).trans hr⟩

theorem ofStopping (h : Evolves w w₁) {s : SignalId} {c : Cancel} (hc : OfStopping s w c) :
    OfStopping s w₁ c := by
  obtain ⟨d, rfl, real, output⟩ := hc
  exact ⟨d, rfl, h.real.2 real, (h.output d).trans output⟩

/-- Where more signals are tracked, they are earlier ones. -/
theorem shape (h : Evolves w w₁) (hw : Shape w)
    (tracked : ∀ d, ∀ t ∈ (w₁.derivations.get d).tracked, t ∈ (w.derivations.get d).tracked ∨
      t.index < (w.derivations.get d).output.index) : Shape w₁ where
  producers s p hp := by
    rw [h.producer] at hp
    obtain ⟨d, rfl, hd, ho⟩ := hw.producers s p hp
    exact ⟨d, rfl, h.derivations ▸ hd, (h.output d).trans ho⟩
  grounded d real := by
    rw [h.reading, h.output, h.names]
    exact hw.grounded d (h.real.1 real)
  earlier d real t ht := by
    rw [h.output]
    exact (tracked d t ht).elim (hw.earlier d (h.real.1 real) t) id
  writable name s hn := by
    rw [h.names] at hn
    rw [h.producer]
    exact hw.writable name s hn
  made name s role hn := by
    rw [h.names] at hn
    rw [h.signals]
    exact hw.made name s role hn

/-- New subscribers and new subscriptions are of the right kind. -/
theorem handles (h : Evolves w w₁) (hw : Handles w)
    (reactions : ∀ e, w.entries.size ≤ e.index → (w₁.entries.get e).reaction.Fits w)
    (named : ∀ name sub, w₁.names.subscriptions.get? name = some sub →
      w.names.subscriptions.get? name = some sub ∨ Leads (OfScript w₁) sub w₁)
    (held : ∀ d, ∀ sub ∈ (w₁.derivations.get d).subscriptions,
      sub ∈ (w.derivations.get d).subscriptions ∨ Leads (OfDerivation d w₁) sub w₁)
    (teardown : ∀ s t, (w₁.signals.get s).teardown = some t →
      (w.signals.get s).teardown = some t ∨ Leads (OfStopping s w₁) t w₁) : Handles w₁ where
  reactions e := by
    rw [h.fits]
    rcases Nat.lt_or_ge e.index w.entries.size with he | he
    · rw [h.reaction e he]
      exact hw.reactions e
    · exact reactions e he
  named name sub hn := by
    rcases named name sub hn with hold | hnew
    · exact h.leads (hw.named name sub hold) fun _ => h.ofScript
    · exact hnew
  held d sub hs := by
    rcases held d sub hs with hold | hnew
    · exact h.leads (hw.held d sub hold) fun _ => h.ofDerivation
    · exact hnew
  teardown s t ht := by
    rcases teardown s t ht with hold | hnew
    · exact h.leads (hw.teardown s t hold) fun _ => h.ofStopping
    · exact hnew

end Evolves

section
variable {D : DerivationId → Prop} {w w' : World} {d : DerivationId}

theorem Shape.real_of_producer (h : Shape w) {s : SignalId}
    (hs : (w.signals.get s).producer = some (.derivation d)) :
    Real d w ∧ (w.derivations.get d).output = s := by
  obtain ⟨d', hd, -, rfl⟩ := h.producers s _ hs
  cases hd
  exact ⟨hs, rfl⟩

theorem Real.index_lt (h : Real d w) : (w.derivations.get d).output.index < w.signals.size := by
  unfold Real at h
  rcases Nat.lt_or_ge (w.derivations.get d).output.index w.signals.size with hlt | hge
  · exact hlt
  · rw [Heap.get_of_size_le _ _ hge] at h
    cases h

theorem Shape.eq_of_output_eq {d' : DerivationId} (hd : Real d w) (hd' : Real d' w)
    (ho : (w.derivations.get d).output = (w.derivations.get d').output) : d = d' := by
  unfold Real at hd hd'
  rw [ho, hd'] at hd
  cases hd
  rfl

/-- A derived signal stays current while the signals that it reads keep their values. -/
theorem CurrentIn.carry {l : List SignalId} (h : CurrentIn l d w)
    (ext : Extends w.names.signals w'.names.signals)
    (reading : (w'.derivations.get d).reading = (w.derivations.get d).reading)
    (tracked : (w.derivations.get d).tracked ⊆ (w'.derivations.get d).tracked)
    (same : ∀ t ∈ l, Signal.content w' t = Signal.content w t)
    (output : Signal.content w' (w'.derivations.get d).output =
      Signal.content w (w.derivations.get d).output) : CurrentIn l d w' := by
  obtain ⟨v, u, hv, gives, hsame⟩ := h.holds
  refine ⟨fun t ht => tracked (h.sees t ht), v, u, output.trans hv, ?_, hsame⟩
  rw [reading]
  exact gives.congr ext same

theorem CurrentIn.congr {l : List SignalId} (h : CurrentIn l d w) (ev : Evolves w w')
    (tracked : (w.derivations.get d).tracked ⊆ (w'.derivations.get d).tracked)
    (same : ∀ t ∈ l, Signal.content w' t = Signal.content w t)
    (output : Signal.content w' (w.derivations.get d).output =
      Signal.content w (w.derivations.get d).output) : CurrentIn l d w' := by
  refine h.carry ?_ (ev.reading d) tracked same ?_
  · rw [ev.names]
    exact fun _ _ hn => hn
  · rw [ev.output, output]

theorem Current.congr (h : Current d w) (ev : Evolves w w')
    (tracked : (w.derivations.get d).tracked ⊆ (w'.derivations.get d).tracked)
    (same : ∀ t, Signal.content w' t = Signal.content w t) : Current d w' :=
  h.imp fun _ hl => hl.congr ev tracked (fun t _ => same t) (same _)

/-- The values, the subscribers and what is tracked are the same in two worlds. -/
structure Still (w w' : World) : Prop where
  value : ∀ s, (w'.signals.get s).value = (w.signals.get s).value
  version : ∀ s, (w'.signals.get s).version = (w.signals.get s).version
  started : ∀ s, (w'.signals.get s).started = (w.signals.get s).started
  subscribers : ∀ s, (w'.signals.get s).subscribers = (w.signals.get s).subscribers
  entry : ∀ e, w'.entries.get e = w.entries.get e
  tracked : ∀ d, (w'.derivations.get d).tracked = (w.derivations.get d).tracked

theorem Flow.still (h : Flow D w) (ev : Evolves w w') (st : Still w w') : Flow D w' := by
  have running : ∀ d, Running d w' → Running d w :=
    fun d => ev.running fun s hs => st.started s ▸ hs
  constructor
  · intro s hs hp
    rw [st.subscribers] at hs
    rw [ev.producer] at hp
    rw [st.started]
    exact h.started s hs hp
  · intro d hD hd t ht
    rw [st.tracked] at ht
    rw [st.subscribers]
    obtain ⟨e, he, hr⟩ := h.attached d hD (running d hd) t ht
    exact ⟨e, he, by rw [st.entry, hr]⟩
  · intro d hD hd
    refine (h.current d hD (running d hd)).imp (fun hc => ?_) fun ⟨s, e, he, hr, hlt⟩ => ?_
    · refine hc.congr ev ?_ st.value
      simp only [st.tracked, List.Subset.refl]
    · refine ⟨s, e, ?_, ?_, ?_⟩
      · rw [st.subscribers]
        exact he
      · rw [st.entry]
        exact hr
      · rw [st.entry, st.version]
        exact hlt

/-! A signal that gets a new content. -/

theorem changed_evolves (s : SignalId) (value : Option Value) (w : World) :
    Evolves w (Signal.changed s value w) :=
  ⟨Heap.size_modify .., fun t => Heap.get_modify_same _ s t _ Signal.producer fun _ => rfl, rfl, fun _ => rfl,
    fun _ => rfl, rfl, Nat.le_refl _, fun _ _ => rfl, Nat.le_refl _, fun _ _ => .inl rfl⟩

theorem changed_handles (h : Handles w) (s : SignalId) (value : Option Value) :
    Handles (Signal.changed s value w) := by
  refine (changed_evolves s value w).handles h (fun e _ => h.reactions e) (fun _ _ hn => .inl hn)
    (fun _ _ hs => .inl hs) fun t sub ht => .inl ?_
  have same := Heap.get_modify_same w.signals s t
    (fun signal => .bumped { signal with value }) Signal.teardown fun _ => rfl
  exact same.symm.trans ht

/-- Whoever reads the signal is subscribed to it, and so has the change before it. -/
theorem changed_flow (faithful : Faithful w) (h : Flow D w) {s : SignalId}
    (hs : s.index < w.signals.size) (value : Option Value)
    (own : ∀ d, ¬ D d → Real d w → (w.derivations.get d).output = s →
      Current d (Signal.changed s value w)) : Flow D (Signal.changed s value w) := by
  have ev := changed_evolves s value w
  obtain ⟨a, self⟩ := changed_advances hs value
  have started : ∀ t, ((Signal.changed s value w).signals.get t).started =
      (w.signals.get t).started :=
    fun t => Heap.get_modify_same _ s t _ Signal.started fun _ => rfl
  have subscribers : ∀ t, ((Signal.changed s value w).signals.get t).subscribers =
      (w.signals.get t).subscribers :=
    fun t => Heap.get_modify_same _ s t _ Signal.subscribers fun _ => rfl
  have running : ∀ d, Running d (Signal.changed s value w) → Running d w :=
    fun d => ev.running fun t ht => started t ▸ ht
  constructor
  · intro t ht hp
    rw [subscribers] at ht
    rw [ev.producer] at hp
    rw [started]
    exact h.started t ht hp
  · intro d hD hd t ht
    obtain ⟨e, he, hr⟩ := h.attached d hD (running d hd) t ht
    exact ⟨e, subscribers t ▸ he, hr⟩
  · intro d hD hd
    have hd₀ := running d hd
    by_cases ho : (w.derivations.get d).output = s
    · exact .inl (own d hD hd₀.1 ho)
    · rcases h.current d hD hd₀ with ⟨l, hc⟩ | ⟨t, e, he, hr, hlt⟩
      · by_cases hread : s ∈ l
        · right
          obtain ⟨e, he, hr⟩ := h.attached d hD hd₀ s (hc.sees s hread)
          refine ⟨s, e, subscribers s ▸ he, hr, ?_⟩
          rw [changed_version hs value]
          exact Nat.lt_succ_of_le ((faithful.signals s).seen e he)
        · left
          refine ⟨l, hc.congr ev (List.Subset.refl _) (fun t ht => ?_) ?_⟩
          · have ne : t ≠ s := fun heq => hread (heq ▸ ht)
            exact congrArg Signal.value (a.others t ne)
          · exact congrArg Signal.value (a.others _ ho)
      · right
        refine ⟨t, e, subscribers t ▸ he, hr, Nat.lt_of_lt_of_le hlt ?_⟩
        exact (changed_grows faithful value).version t

/-- A change to the output of a derivation to what the computation makes of its sources. -/
theorem changed_current {l : List SignalId} {v : Value} (hw : Shape w) (real : Real d w)
    (gives : (w.derivations.get d).reading.Gives w l v)
    (sees : ∀ t ∈ l, t ∈ (w.derivations.get d).tracked) :
    Current d (Signal.changed (w.derivations.get d).output (some v) w) := by
  obtain ⟨a, self⟩ := changed_advances real.index_lt (some v)
  refine ⟨l, sees, v, v, congrArg Signal.value self, gives.congr (fun _ _ hn => hn) fun t ht => ?_,
    .inl rfl⟩
  have ne : t ≠ (w.derivations.get d).output := by
    intro heq
    have := gives.reads_lt (hw.grounded d real) t ht
    rw [heq] at this
    omega
  exact congrArg Signal.value (a.others t ne)

theorem changed_attached (h : Attached d w) (s : SignalId) (value : Option Value) :
    Attached d (Signal.changed s value w) := by
  intro t ht
  obtain ⟨e, he, hr⟩ := h t ht
  have subscribers : ((Signal.changed s value w).signals.get t).subscribers =
      (w.signals.get t).subscribers :=
    Heap.get_modify_same _ s t _ Signal.subscribers fun _ => rfl
  exact ⟨e, subscribers ▸ he, hr⟩

/-! A subscriber that counts as having been called. -/

theorem marked_evolves (s : SignalId) (n : Nat) (e : EntryId) (w : World) :
    Evolves w (Signal.marked s n e w) :=
  ⟨Heap.size_modify .., fun t => Heap.get_modify_same _ s t _ Signal.producer fun _ => rfl, rfl, fun _ => rfl,
    fun _ => rfl, rfl, Nat.le_of_eq (Heap.size_modify ..).symm,
    fun e' _ => Heap.get_modify_same _ e e' _ Entry.reaction fun _ => rfl, Nat.le_refl _,
    fun _ _ => .inl rfl⟩

theorem marked_handles (h : Handles w) (s : SignalId) (n : Nat) (e : EntryId) :
    Handles (Signal.marked s n e w) := by
  refine (marked_evolves s n e w).handles h (fun e' _ => ?_) (fun _ _ hn => .inl hn)
    (fun _ _ hs => .inl hs) fun t sub ht => .inl ?_
  · have same := Heap.get_modify_same w.entries e e'
      (fun entry => { entry with seen := (w.signals.get s).version }) Entry.reaction fun _ => rfl
    exact same.symm ▸ h.reactions e'
  · have same := Heap.get_modify_same w.signals s t (Signal.showing e (some n)) Signal.teardown
      fun _ => rfl
    exact same.symm.trans ht

theorem marked_attached (h : Attached d w) (s : SignalId) (n : Nat) (e : EntryId) :
    Attached d (Signal.marked s n e w) := by
  intro t ht
  obtain ⟨e', he', hr⟩ := h t ht
  have subscribers : ((Signal.marked s n e w).signals.get t).subscribers =
      (w.signals.get t).subscribers :=
    Heap.get_modify_same _ s t _ Signal.subscribers fun _ => rfl
  have reaction : ((Signal.marked s n e w).entries.get e').reaction =
      (w.entries.get e').reaction :=
    Heap.get_modify_same _ e e' _ Entry.reaction fun _ => rfl
  exact ⟨e', subscribers ▸ he', reaction.trans hr⟩

/-- Only the derivation that is about to be told may be left behind. -/
theorem marked_flow (h : Flow D w) (s : SignalId) (n : Nat) (e : EntryId) :
    Flow (fun d => D d ∨ (w.entries.get e).reaction = .refresh d) (Signal.marked s n e w) := by
  have ev := marked_evolves s n e w
  have value : ∀ t, ((Signal.marked s n e w).signals.get t).value = (w.signals.get t).value :=
    fun t => Heap.get_modify_same _ s t _ Signal.value fun _ => rfl
  have version : ∀ t, ((Signal.marked s n e w).signals.get t).version =
      (w.signals.get t).version :=
    fun t => Heap.get_modify_same _ s t _ Signal.version fun _ => rfl
  have started : ∀ t, ((Signal.marked s n e w).signals.get t).started =
      (w.signals.get t).started :=
    fun t => Heap.get_modify_same _ s t _ Signal.started fun _ => rfl
  have subscribers : ∀ t, ((Signal.marked s n e w).signals.get t).subscribers =
      (w.signals.get t).subscribers :=
    fun t => Heap.get_modify_same _ s t _ Signal.subscribers fun _ => rfl
  have reaction : ∀ e', ((Signal.marked s n e w).entries.get e').reaction =
      (w.entries.get e').reaction :=
    fun e' => Heap.get_modify_same _ e e' _ Entry.reaction fun _ => rfl
  have running : ∀ d, Running d (Signal.marked s n e w) → Running d w :=
    fun d => ev.running fun t ht => started t ▸ ht
  constructor
  · intro t ht hp
    rw [subscribers] at ht
    rw [ev.producer] at hp
    rw [started]
    exact h.started t ht hp
  · intro d hD hd
    exact marked_attached (h.attached d (fun hd => hD (.inl hd)) (running d hd)) s n e
  · intro d hD hd
    refine (h.current d (fun hd => hD (.inl hd)) (running d hd)).imp (fun hc => ?_)
      fun ⟨t, e', he', hr, hlt⟩ => ?_
    · exact hc.congr ev (List.Subset.refl _) value
    · have ne : e ≠ e' := fun heq => hD (.inr (heq ▸ hr))
      refine ⟨t, e', subscribers t ▸ he', (reaction e').trans hr, ?_⟩
      rw [version]
      have seen : ((Signal.marked s n e w).entries.get e').seen = (w.entries.get e').seen :=
        congrArg Entry.seen (Heap.get_modify_of_ne _ _ _ _ ne)
      exact seen ▸ hlt

/-! A subscriber that joins. -/

/-- The world in which a signal has one more subscriber. -/
def Signal.entered (s : SignalId) (reaction : Reaction) (mode : Mode) (w : World) : World :=
  { w with
    entries := w.entries.push ⟨true, (w.signals.get s).version, reaction⟩,
    signals := w.signals.modify s (Signal.joinedBy w.entries.next mode) }

theorem entered_entry (s : SignalId) (reaction : Reaction) (mode : Mode) {e : EntryId}
    (he : e.index < w.entries.size) :
    (Signal.entered s reaction mode w).entries.get e = w.entries.get e :=
  Heap.get_push_of_lt _ _ _ he

theorem entered_evolves (s : SignalId) (reaction : Reaction) (mode : Mode) (w : World) :
    Evolves w (Signal.entered s reaction mode w) :=
  ⟨Heap.size_modify .., fun t => Heap.get_modify_same _ s t _ Signal.producer fun _ => rfl, rfl, fun _ => rfl,
    fun _ => rfl, rfl, by simp [Signal.entered],
    fun _ he => congrArg Entry.reaction (entered_entry s reaction mode he), Nat.le_refl _,
    fun _ _ => .inl rfl⟩

theorem entered_handles (h : Handles w) (s : SignalId) {reaction : Reaction} (mode : Mode)
    (fits : reaction.Fits w) : Handles (Signal.entered s reaction mode w) := by
  refine (entered_evolves s reaction mode w).handles h (fun e he => ?_) (fun _ _ hn => .inl hn)
    (fun _ _ hs => .inl hs) fun t sub ht => .inl ?_
  · by_cases new : e = w.entries.next
    · subst new
      simp only [Signal.entered, Heap.get_push_next]
      exact fits
    · have same : (Signal.entered s reaction mode w).entries.get e = w.entries.get e :=
        Heap.get_push_of_ne _ _ _ new
      exact same ▸ h.reactions e
  · have same := Heap.get_modify_same w.signals s t (Signal.joinedBy w.entries.next mode)
      Signal.teardown fun _ => rfl
    exact same.symm.trans ht

theorem entered_subscribers (s : SignalId) (reaction : Reaction) (mode : Mode) (t : SignalId) :
    (w.signals.get t).subscribers <+: ((Signal.entered s reaction mode w).signals.get t).subscribers := by
  by_cases hts : s = t
  · subst hts
    rcases Nat.lt_or_ge s.index w.signals.size with hs | hs
    · simp only [Signal.entered, Heap.get_modify_self _ _ _ hs]
      exact List.prefix_append _ _
    · simp only [Signal.entered, Heap.modify_of_size_le _ _ _ hs]
      exact List.prefix_rfl
  · simp only [Signal.entered, Heap.get_modify_of_ne _ _ _ _ hts]
    exact List.prefix_rfl

theorem entered_flow (faithful : Faithful w) (h : Flow D w) {s : SignalId}
    (reaction : Reaction) (mode : Mode)
    (running : (w.signals.get s).producer ≠ none → (w.signals.get s).started = true) :
    Flow D (Signal.entered s reaction mode w) := by
  have ev := entered_evolves s reaction mode w
  have value : ∀ t, ((Signal.entered s reaction mode w).signals.get t).value =
      (w.signals.get t).value :=
    fun t => Heap.get_modify_same _ s t _ Signal.value fun _ => rfl
  have version : ∀ t, ((Signal.entered s reaction mode w).signals.get t).version =
      (w.signals.get t).version :=
    fun t => Heap.get_modify_same _ s t _ Signal.version fun _ => rfl
  have started : ∀ t, ((Signal.entered s reaction mode w).signals.get t).started =
      (w.signals.get t).started :=
    fun t => Heap.get_modify_same _ s t _ Signal.started fun _ => rfl
  have entry : ∀ t, ∀ e ∈ (w.signals.get t).subscribers,
      (Signal.entered s reaction mode w).entries.get e = w.entries.get e := by
    intro t e he
    have recorded := faithful.signals t
    exact entered_entry s reaction mode (recorded.known e (recorded.joined he))
  have still : ∀ d, Running d (Signal.entered s reaction mode w) → Running d w :=
    fun d => ev.running fun t ht => started t ▸ ht
  constructor
  · intro t ht hp
    rw [ev.producer] at hp
    rw [started]
    by_cases hts : s = t
    · subst hts
      exact running hp
    · have same : (Signal.entered s reaction mode w).signals.get t = w.signals.get t :=
        Heap.get_modify_of_ne _ _ _ _ hts
      rw [same] at ht
      exact h.started t ht hp
  · intro d hD hd t ht
    obtain ⟨e, he, hr⟩ := h.attached d hD (still d hd) t ht
    exact ⟨e, (entered_subscribers s reaction mode t).subset he, by rw [entry t e he, hr]⟩
  · intro d hD hd
    refine (h.current d hD (still d hd)).imp (fun hc => ?_) fun ⟨t, e, he, hr, hlt⟩ => ?_
    · exact hc.congr ev (List.Subset.refl _) value
    · refine ⟨t, e, (entered_subscribers s reaction mode t).subset he, ?_, ?_⟩
      · rw [entry t e he]
        exact hr
      · rw [entry t e he, version]
        exact hlt

/-! A subscriber that leaves. -/

/-- The world in which a signal has lost a subscriber. -/
def Signal.dropped (s : SignalId) (e : EntryId) (w : World) : World :=
  { w with
    entries := if e ∈ (w.signals.get s).subscribers then
      w.entries.modify e fun entry => { entry with active := false } else w.entries,
    signals := w.signals.modify s (Signal.leftBy e) }

theorem drop_ensures (s : SignalId) (e : EntryId) (run : Runner) (w : World) :
    Ensures run (Signal.drop s e) w fun _ w' => w' = Signal.dropped s e w := by
  simp only [Signal.drop, modifySignal, ensures_bind, ensures_get]
  unfold Signal.dropped
  by_cases he : e ∈ (w.signals.get s).subscribers
  · rw [if_pos (List.contains_iff_mem.2 he), if_pos he]
    simp only [ensures_bind, ensures_modify]
  · rw [if_neg fun hc => he (List.contains_iff_mem.1 hc), if_neg he]
    simp only [ensures_modify]

theorem dropped_entry {β : Type} (g : Entry → β)
    (same : ∀ entry : Entry, g { entry with active := false } = g entry) (s : SignalId)
    (e e' : EntryId) : g ((Signal.dropped s e w).entries.get e') = g (w.entries.get e') := by
  unfold Signal.dropped
  by_cases he : e ∈ (w.signals.get s).subscribers
  · simp only [if_pos he]
    exact Heap.get_modify_same _ e e' _ g same
  · simp only [if_neg he]

theorem dropped_evolves (s : SignalId) (e : EntryId) (w : World) :
    Evolves w (Signal.dropped s e w) := by
  refine ⟨Heap.size_modify .., fun t => Heap.get_modify_same _ s t _ Signal.producer fun _ => rfl, rfl, fun _ => rfl,
    fun _ => rfl, rfl, ?_, fun e' _ => dropped_entry Entry.reaction (fun _ => rfl) s e e',
    Nat.le_refl _, fun _ _ => .inl rfl⟩
  unfold Signal.dropped
  by_cases he : e ∈ (w.signals.get s).subscribers
  · simp [if_pos he]
  · simp [if_neg he]

theorem dropped_handles (h : Handles w) (s : SignalId) (e : EntryId) :
    Handles (Signal.dropped s e w) := by
  refine (dropped_evolves s e w).handles h (fun e' _ => ?_) (fun _ _ hn => .inl hn)
    (fun _ _ hs => .inl hs) fun t sub ht => .inl ?_
  · rw [dropped_entry Entry.reaction (fun _ => rfl)]
    exact h.reactions e'
  · have same := Heap.get_modify_same w.signals s t (Signal.leftBy e) Signal.teardown
      fun _ => rfl
    exact same.symm.trans ht

theorem dropped_subscribers {s : SignalId} {e e' : EntryId} (ne : e' ≠ e) (t : SignalId) :
    e' ∈ ((Signal.dropped s e w).signals.get t).subscribers ↔
      e' ∈ (w.signals.get t).subscribers := by
  by_cases hts : s = t
  · subst hts
    rcases Nat.lt_or_ge s.index w.signals.size with hs | hs
    · simp only [Signal.dropped, Heap.get_modify_self _ _ _ hs]
      exact List.mem_erase_of_ne ne
    · simp only [Signal.dropped, Heap.modify_of_size_le _ _ _ hs]
  · simp only [Signal.dropped, Heap.get_modify_of_ne _ _ _ _ hts]

theorem dropped_flow (h : Flow D w) (s : SignalId) {e : EntryId}
    (idle : ∀ d, (w.entries.get e).reaction = .refresh d → ¬ Running d w) :
    Flow D (Signal.dropped s e w) := by
  have ev := dropped_evolves s e w
  have value : ∀ t, ((Signal.dropped s e w).signals.get t).value = (w.signals.get t).value :=
    fun t => Heap.get_modify_same _ s t _ Signal.value fun _ => rfl
  have version : ∀ t, ((Signal.dropped s e w).signals.get t).version =
      (w.signals.get t).version :=
    fun t => Heap.get_modify_same _ s t _ Signal.version fun _ => rfl
  have started : ∀ t, ((Signal.dropped s e w).signals.get t).started =
      (w.signals.get t).started :=
    fun t => Heap.get_modify_same _ s t _ Signal.started fun _ => rfl
  have running : ∀ d, Running d (Signal.dropped s e w) → Running d w :=
    fun d => ev.running fun t ht => started t ▸ ht
  constructor
  · intro t ht hp
    rw [ev.producer] at hp
    rw [started]
    refine h.started t (fun hnil => ht ?_) hp
    by_cases hts : s = t
    · subst hts
      rcases Nat.lt_or_ge s.index w.signals.size with hs | hs
      · simp [Signal.dropped, Heap.get_modify_self _ _ _ hs, Signal.leftBy, hnil]
      · simp [Signal.dropped, Heap.modify_of_size_le _ _ _ hs, hnil]
    · simp [Signal.dropped, Heap.get_modify_of_ne _ _ _ _ hts, hnil]
  · intro d hD hd t ht
    obtain ⟨e', he', hr⟩ := h.attached d hD (running d hd) t ht
    have ne : e' ≠ e := fun heq => idle d (heq ▸ hr) (running d hd)
    exact ⟨e', (dropped_subscribers ne t).2 he',
      (dropped_entry Entry.reaction (fun _ => rfl) s e e').trans hr⟩
  · intro d hD hd
    refine (h.current d hD (running d hd)).imp (fun hc => ?_) fun lagging => ?_
    · exact hc.congr ev (List.Subset.refl _) value
    · obtain ⟨t, e', he', hr, hlt⟩ := lagging
      have ne : e' ≠ e := fun heq => idle d (heq ▸ hr) (running d hd)
      refine ⟨t, e', (dropped_subscribers ne t).2 he',
        (dropped_entry Entry.reaction (fun _ => rfl) s e e').trans hr, ?_⟩
      rw [dropped_entry Entry.seen (fun _ => rfl), version]
      exact hlt

/-! Signals that start and stop. -/

/-- Starting and stopping leave everything else of the signals alone. -/
theorem flags_evolves (s : SignalId) (started : Signal → Bool)
    (teardown : Signal → Option SubscriptionId) (w : World) :
    Evolves w { w with signals := w.signals.modify s fun signal =>
      { signal with started := started signal, teardown := teardown signal } } :=
  ⟨Heap.size_modify .., fun t => Heap.get_modify_same _ s t _ Signal.producer fun _ => rfl, rfl, fun _ => rfl,
    fun _ => rfl, rfl, Nat.le_refl _, fun _ _ => rfl, Nat.le_refl _, fun _ _ => .inl rfl⟩

/-- The world in which a signal counts as started. -/
def Signal.begun (s : SignalId) (w : World) : World :=
  { w with signals := w.signals.modify s fun signal => { signal with started := true } }

/-- The world in which a signal has stopped. -/
def Signal.stopped (s : SignalId) (w : World) : World :=
  { w with signals := w.signals.modify s fun signal =>
    { signal with started := false, teardown := none } }

/-- The world in which a started signal knows what to cancel when it stops. -/
def Signal.tended (s : SignalId) (t : SubscriptionId) (w : World) : World :=
  { w with signals := w.signals.modify s fun signal => { signal with teardown := some t } }

theorem begun_wired (h : Wired D w) {s : SignalId}
    (hs : (w.signals.get s).producer = some (.derivation d)) :
    Wired (fun d' => D d' ∨ d' = d) (Signal.begun s w) := by
  have ev : Evolves w (Signal.begun s w) := flags_evolves s (fun _ => true) Signal.teardown w
  have other : ∀ t, s ≠ t → (Signal.begun s w).signals.get t = w.signals.get t :=
    fun t ht => Heap.get_modify_of_ne _ _ _ _ ht
  have value : ∀ t, ((Signal.begun s w).signals.get t).value = (w.signals.get t).value :=
    fun t => Heap.get_modify_same _ s t _ Signal.value fun _ => rfl
  have version : ∀ t, ((Signal.begun s w).signals.get t).version = (w.signals.get t).version :=
    fun t => Heap.get_modify_same _ s t _ Signal.version fun _ => rfl
  have subscribers : ∀ t, ((Signal.begun s w).signals.get t).subscribers =
      (w.signals.get t).subscribers :=
    fun t => Heap.get_modify_same _ s t _ Signal.subscribers fun _ => rfl
  have running : ∀ d', d' ≠ d → Running d' (Signal.begun s w) → Running d' w := by
    intro d' ne hd
    obtain ⟨real, output⟩ := h.shape.real_of_producer hs
    have real' := ev.real.1 hd.1
    have ho : s ≠ (w.derivations.get d').output :=
      fun heq => ne (Shape.eq_of_output_eq real' real (heq.symm.trans output.symm))
    have started := hd.2
    rw [ev.output, other _ ho] at started
    exact ⟨real', started⟩
  refine ⟨ev.shape h.shape fun _ _ ht => .inl ht, ?_, ?_⟩
  · refine ev.handles h.handles (fun e _ => h.handles.reactions e) (fun _ _ hn => .inl hn)
      (fun _ _ hs => .inl hs) fun t sub ht => .inl ?_
    have same := Heap.get_modify_same w.signals s t
      (fun signal => { signal with started := true }) Signal.teardown fun _ => rfl
    exact same.symm.trans ht
  constructor
  · intro t ht hp
    by_cases hts : s = t
    · subst hts
      have valid : s.index < w.signals.size := by
        rcases Nat.lt_or_ge s.index w.signals.size with hlt | hge
        · exact hlt
        · rw [Heap.get_of_size_le _ _ hge] at hs
          cases hs
      simp [Signal.begun, Heap.get_modify_self _ _ _ valid]
    · rw [other t hts] at ht hp ⊢
      exact h.flow.started t ht hp
  · intro d' hD hd t ht
    have hd₀ := running d' (fun heq => hD (.inr heq)) hd
    obtain ⟨e, he, hr⟩ := h.flow.attached d' (fun hd => hD (.inl hd)) hd₀ t ht
    exact ⟨e, subscribers t ▸ he, hr⟩
  · intro d' hD hd
    have hd₀ := running d' (fun heq => hD (.inr heq)) hd
    refine (h.flow.current d' (fun hd => hD (.inl hd)) hd₀).imp (fun hc => ?_)
      fun ⟨t, e, he, hr, hlt⟩ => ?_
    · exact hc.congr ev (List.Subset.refl _) value
    · exact ⟨t, e, subscribers t ▸ he, hr, version t ▸ hlt⟩

theorem stopped_wired (h : Wired D w) {s : SignalId} (nobody : (w.signals.get s).subscribers = []) :
    Wired D (Signal.stopped s w) := by
  have ev : Evolves w (Signal.stopped s w) := flags_evolves s (fun _ => false) (fun _ => none) w
  have other : ∀ t, s ≠ t → (Signal.stopped s w).signals.get t = w.signals.get t :=
    fun t ht => Heap.get_modify_of_ne _ _ _ _ ht
  have value : ∀ t, ((Signal.stopped s w).signals.get t).value = (w.signals.get t).value :=
    fun t => Heap.get_modify_same _ s t _ Signal.value fun _ => rfl
  have version : ∀ t, ((Signal.stopped s w).signals.get t).version =
      (w.signals.get t).version :=
    fun t => Heap.get_modify_same _ s t _ Signal.version fun _ => rfl
  have subscribers : ∀ t, ((Signal.stopped s w).signals.get t).subscribers =
      (w.signals.get t).subscribers :=
    fun t => Heap.get_modify_same _ s t _ Signal.subscribers fun _ => rfl
  have started : ∀ t, ((Signal.stopped s w).signals.get t).started = true →
      (w.signals.get t).started = true := by
    intro t ht
    by_cases hts : s = t
    · subst hts
      rcases Nat.lt_or_ge s.index w.signals.size with hs | hs
      · simp [Signal.stopped, Heap.get_modify_self _ _ _ hs] at ht
      · simp only [Signal.stopped, Heap.modify_of_size_le _ _ _ hs] at ht
        exact ht
    · rw [other t hts] at ht
      exact ht
  have running : ∀ d', Running d' (Signal.stopped s w) → Running d' w :=
    fun d' => ev.running started
  refine ⟨ev.shape h.shape fun _ _ ht => .inl ht, ?_, ?_⟩
  · refine ev.handles h.handles (fun e _ => h.handles.reactions e) (fun _ _ hn => .inl hn)
      (fun _ _ hs => .inl hs) fun t sub ht => .inl ?_
    by_cases hts : s = t
    · subst hts
      rcases Nat.lt_or_ge s.index w.signals.size with hs | hs
      · simp [Signal.stopped, Heap.get_modify_self _ _ _ hs] at ht
      · simp only [Signal.stopped, Heap.modify_of_size_le _ _ _ hs] at ht
        exact ht
    · rw [other t hts] at ht
      exact ht
  constructor
  · intro t ht hp
    rw [subscribers] at ht
    have hts : s ≠ t := fun heq => ht (heq ▸ nobody)
    rw [other t hts] at hp ⊢
    exact h.flow.started t ht hp
  · intro d' hD hd t ht
    obtain ⟨e, he, hr⟩ := h.flow.attached d' hD (running d' hd) t ht
    exact ⟨e, subscribers t ▸ he, hr⟩
  · intro d' hD hd
    refine (h.flow.current d' hD (running d' hd)).imp (fun hc => ?_)
      fun ⟨t, e, he, hr, hlt⟩ => ?_
    · exact hc.congr ev (List.Subset.refl _) value
    · exact ⟨t, e, subscribers t ▸ he, hr, version t ▸ hlt⟩

/-! Changes under which nothing flows. -/

theorem Still.of_eq (signals : w'.signals = w.signals) (entries : w'.entries = w.entries)
    (tracked : ∀ d, (w'.derivations.get d).tracked = (w.derivations.get d).tracked) :
    Still w w' := by
  refine ⟨?_, ?_, ?_, ?_, ?_, tracked⟩
  · rw [signals]
    exact fun _ => rfl
  · rw [signals]
    exact fun _ => rfl
  · rw [signals]
    exact fun _ => rfl
  · rw [signals]
    exact fun _ => rfl
  · rw [entries]
    exact fun _ => rfl

theorem Wired.mono {D' : DerivationId → Prop} (h : Wired D w) (hD : ∀ d, D d → D' d) :
    Wired D' w :=
  ⟨h.shape, h.handles, h.flow.started, fun d hd => h.flow.attached d fun hd' => hd (hD d hd'),
    fun d hd => h.flow.current d fun hd' => hd (hD d hd')⟩

/-- A derivation that is done is excepted no more. -/
theorem Wired.settle (h : Wired (fun d' => D d' ∨ d' = d) w)
    (done : Running d w → Attached d w ∧ Current d w) : Wired D w := by
  refine ⟨h.shape, h.handles, h.flow.started, fun d' hD hd => ?_, fun d' hD hd => ?_⟩
  · by_cases heq : d' = d
    · subst heq
      exact (done hd).1
    · exact h.flow.attached d' (fun hor => hor.elim hD heq) hd
  · by_cases heq : d' = d
    · subst heq
      exact .inl (done hd).2
    · exact h.flow.current d' (fun hor => hor.elim hD heq) hd

theorem Wired.still (h : Wired D w) (ev : Evolves w w') (st : Still w w') (handles : Handles w') :
    Wired D w' := by
  refine ⟨ev.shape h.shape fun d t ht => .inl ?_, handles, h.flow.still ev st⟩
  rw [st.tracked] at ht
  exact ht

theorem Aside.evolves (a : Aside w w') : Evolves w w' := by
  obtain ⟨signals, entries, subscriptions, derivations, signalNames, -⟩ := a
  refine ⟨?_, ?_, ?_, ?_, ?_, signalNames, ?_, ?_, ?_, ?_⟩
  · rw [signals]
  · rw [signals]
    exact fun _ => rfl
  · rw [derivations]
  · rw [derivations]
    exact fun _ => rfl
  · rw [derivations]
    exact fun _ => rfl
  · simp only [entries, Nat.le_refl]
  · rw [entries]
    exact fun _ _ => rfl
  · simp only [subscriptions, Nat.le_refl]
  · rw [subscriptions]
    exact fun _ _ => .inl rfl

theorem Aside.wired (a : Aside w w') (h : Wired D w) : Wired D w' := by
  have ev := a.evolves
  obtain ⟨signals, entries, subscriptions, derivations, -, names⟩ := a
  refine h.still ev (.of_eq signals entries ?_) (ev.handles h.handles ?_ ?_ ?_ ?_)
  · rw [derivations]
    exact fun _ => rfl
  · rw [entries]
    exact fun e _ => h.handles.reactions e
  · rw [names]
    exact fun _ _ hn => .inl hn
  · rw [derivations]
    exact fun _ _ hs => .inl hs
  · rw [signals]
    exact fun _ _ ht => .inl ht

/-- A new subscription. -/
def Subscription.made (c : Cancel) (w : World) : World :=
  { w with subscriptions := w.subscriptions.push (some c) }

theorem made_evolves (c : Cancel) (w : World) : Evolves w (Subscription.made c w) := by
  refine ⟨rfl, fun _ => rfl, rfl, fun _ => rfl, fun _ => rfl, rfl, Nat.le_refl _, fun _ _ => rfl, ?_,
    fun sub hs => .inl (Heap.get_push_of_lt _ _ _ hs)⟩
  simp [Subscription.made]

theorem made_wired (h : Wired D w) (c : Cancel) :
    Wired D (Subscription.made c w) ∧ Evolves w (Subscription.made c w) := by
  have ev := made_evolves c w
  refine ⟨h.still ev (.of_eq rfl rfl fun _ => rfl) ?_, ev⟩
  exact ev.handles h.handles (fun e _ => h.handles.reactions e) (fun _ _ hn => .inl hn)
    (fun _ _ hs => .inl hs) fun _ _ ht => .inl ht

theorem made_leads (c : Cancel) {P : Cancel → Prop} (hc : P c) :
    Leads P w.subscriptions.next (Subscription.made c w) := by
  refine ⟨by simp [Subscription.made, Heap.next], fun c' hc' => ?_⟩
  simp only [Subscription.made, Heap.get_push_next, Option.some.injEq] at hc'
  exact hc' ▸ hc

/-- A subscription for which nothing is left to do. -/
def Subscription.spent (sub : SubscriptionId) (w : World) : World :=
  { w with subscriptions := w.subscriptions.modify sub fun _ => none }

theorem spent_evolves (sub : SubscriptionId) (w : World) : Evolves w (Subscription.spent sub w) := by
  refine ⟨rfl, fun _ => rfl, rfl, fun _ => rfl, fun _ => rfl, rfl, Nat.le_refl _, fun _ _ => rfl, ?_,
    fun other hs => ?_⟩
  · simp [Subscription.spent]
  · by_cases ho : sub = other
    · subst ho
      exact .inr (Heap.get_modify_self _ _ _ hs)
    · exact .inl (Heap.get_modify_of_ne _ _ _ _ ho)

theorem spent_wired (h : Wired D w) (sub : SubscriptionId) :
    Wired D (Subscription.spent sub w) ∧ Evolves w (Subscription.spent sub w) := by
  have ev := spent_evolves sub w
  refine ⟨h.still ev (.of_eq rfl rfl fun _ => rfl) ?_, ev⟩
  exact ev.handles h.handles (fun e _ => h.handles.reactions e) (fun _ _ hn => .inl hn)
    (fun _ _ hs => .inl hs) fun _ _ ht => .inl ht

/-- A change to what a derivation tracks, shows and holds. -/
theorem cell_evolves (d : DerivationId) (f : Derivation → Derivation)
    (reading : ∀ cell, (f cell).reading = cell.reading)
    (output : ∀ cell, (f cell).output = cell.output) (w : World) :
    Evolves w { w with derivations := w.derivations.modify d f } :=
  ⟨rfl, fun _ => rfl, Heap.size_modify ..,
    fun d' => Heap.get_modify_same _ d d' _ Derivation.reading reading,
    fun d' => Heap.get_modify_same _ d d' _ Derivation.output output, rfl,
    Nat.le_refl _, fun _ _ => rfl, Nat.le_refl _, fun _ _ => .inl rfl⟩

/-- Other subscriptions for a derivation to hold. -/
def Derivation.holding (d : DerivationId) (f : List SubscriptionId → List SubscriptionId)
    (w : World) : World :=
  { w with derivations := w.derivations.modify d fun cell =>
    { cell with subscriptions := f cell.subscriptions } }

theorem holding_wired (h : Wired D w) (d : DerivationId)
    (f : List SubscriptionId → List SubscriptionId)
    (held : ∀ l, ∀ sub ∈ f l, sub ∈ l ∨ Leads (OfDerivation d w) sub w) :
    Wired D (Derivation.holding d f w) ∧ Evolves w (Derivation.holding d f w) := by
  have ev : Evolves w (Derivation.holding d f w) :=
    cell_evolves d (fun cell => { cell with subscriptions := f cell.subscriptions })
      (fun _ => rfl) (fun _ => rfl) w
  refine ⟨h.still ev ?_ ?_, ev⟩
  · exact .of_eq rfl rfl fun d' => Heap.get_modify_same _ d d' _ Derivation.tracked fun _ => rfl
  · refine ev.handles h.handles (fun e _ => h.handles.reactions e) (fun _ _ hn => .inl hn)
      (fun d' sub hs => ?_) fun _ _ ht => .inl ht
    by_cases hd : d = d'
    · subst hd
      rcases Nat.lt_or_ge d.index w.derivations.size with valid | invalid
      · simp only [Derivation.holding, Heap.get_modify_self _ _ _ valid] at hs
        exact held _ sub hs
      · simp only [Derivation.holding, Heap.modify_of_size_le _ _ _ invalid] at hs
        exact .inl hs
    · simp only [Derivation.holding, Heap.get_modify_of_ne _ _ _ _ hd] at hs
      exact .inl hs

theorem tended_wired (h : Wired D w) {s : SignalId} {t : SubscriptionId}
    (leads : Leads (OfStopping s w) t w) :
    Wired D (Signal.tended s t w) ∧ Evolves w (Signal.tended s t w) := by
  have ev : Evolves w (Signal.tended s t w) := flags_evolves s Signal.started (fun _ => some t) w
  refine ⟨h.still ev ?_ ?_, ev⟩
  · exact ⟨fun u => Heap.get_modify_same _ s u _ Signal.value fun _ => rfl,
      fun u => Heap.get_modify_same _ s u _ Signal.version fun _ => rfl,
      fun u => Heap.get_modify_same _ s u _ Signal.started fun _ => rfl,
      fun u => Heap.get_modify_same _ s u _ Signal.subscribers fun _ => rfl,
      fun _ => rfl, fun _ => rfl⟩
  · refine ev.handles h.handles (fun e _ => h.handles.reactions e) (fun _ _ hn => .inl hn)
      (fun _ _ hs => .inl hs) fun u sub hu => ?_
    by_cases hsu : s = u
    · subst hsu
      rcases Nat.lt_or_ge s.index w.signals.size with hs | hs
      · simp only [Signal.tended, Heap.get_modify_self _ _ _ hs, Option.some.injEq] at hu
        exact .inr (ev.leads (hu ▸ leads) fun _ => ev.ofStopping)
      · simp only [Signal.tended, Heap.modify_of_size_le _ _ _ hs] at hu
        exact .inl hu
    · simp only [Signal.tended, Heap.get_modify_of_ne _ _ _ _ hsu] at hu
      exact .inl hu

/-- A subscription that gets a name. -/
theorem named_wired (h : Wired D w) (name : Name) {sub : SubscriptionId}
    (leads : Leads (OfScript w) sub w) :
    let w' := { w with names :=
      { w.names with subscriptions := w.names.subscriptions.insert name sub } }
    Wired D w' ∧ Evolves w w' := by
  intro w'
  have ev : Evolves w w' :=
    ⟨rfl, fun _ => rfl, rfl, fun _ => rfl, fun _ => rfl, rfl, Nat.le_refl _, fun _ _ => rfl,
      Nat.le_refl _, fun _ _ => .inl rfl⟩
  refine ⟨h.still ev (.of_eq rfl rfl fun _ => rfl) ?_, ev⟩
  refine ev.handles h.handles (fun e _ => h.handles.reactions e) (fun other sub' hn => ?_)
    (fun _ _ hs => .inl hs) fun _ _ ht => .inl ht
  by_cases ho : other = name
  · subst ho
    simp only [w', Ordered.get?_insert_self, Option.some.injEq] at hn
    exact .inr (hn ▸ leads)
  · simp only [w', Ordered.get?_insert_of_ne _ ho] at hn
    exact .inl hn

/-- A derivation whose record says that a signal was shown to it. -/
def Derivation.showing (d : DerivationId) (t : SignalId) (w : World) : World :=
  { w with derivations := w.derivations.modify d fun cell =>
    { cell with shown := t :: cell.shown } }

theorem showing_wired (h : Wired D w) (d : DerivationId) (t : SignalId) :
    Wired D (Derivation.showing d t w) ∧ Evolves w (Derivation.showing d t w) := by
  have ev : Evolves w (Derivation.showing d t w) :=
    cell_evolves d (fun cell => { cell with shown := t :: cell.shown })
      (fun _ => rfl) (fun _ => rfl) w
  refine ⟨h.still ev (.of_eq rfl rfl fun d' => ?_) ?_, ev⟩
  · exact Heap.get_modify_same _ d d' _ Derivation.tracked fun _ => rfl
  · refine ev.handles h.handles (fun e _ => h.handles.reactions e) (fun _ _ hn => .inl hn)
      (fun d' sub hs => .inl ?_) fun _ _ ht => .inl ht
    have same := Heap.get_modify_same w.derivations d d'
      (fun cell => { cell with shown := t :: cell.shown }) Derivation.subscriptions fun _ => rfl
    exact same ▸ hs

/-- A derivation at work that is seen to read one more signal. -/
def Derivation.seeing (d : DerivationId) (t : SignalId) (w : World) : World :=
  { w with derivations := w.derivations.modify d fun cell =>
    { cell with tracked := cell.tracked ++ [t] } }

theorem seeing_tracked (d d' : DerivationId) (t : SignalId) :
    (w.derivations.get d').tracked <+: ((Derivation.seeing d t w).derivations.get d').tracked := by
  by_cases hd : d = d'
  · subst hd
    rcases Nat.lt_or_ge d.index w.derivations.size with valid | invalid
    · simp only [Derivation.seeing, Heap.get_modify_self _ _ _ valid]
      exact List.prefix_append _ _
    · simp only [Derivation.seeing, Heap.modify_of_size_le _ _ _ invalid]
      exact List.prefix_rfl
  · simp only [Derivation.seeing, Heap.get_modify_of_ne _ _ _ _ hd]
    exact List.prefix_rfl

theorem seeing_wired (h : Wired D w) (hD : D d) {t : SignalId}
    (before : t.index < (w.derivations.get d).output.index) :
    Wired D (Derivation.seeing d t w) ∧ Evolves w (Derivation.seeing d t w) := by
  have ev : Evolves w (Derivation.seeing d t w) :=
    cell_evolves d (fun cell => { cell with tracked := cell.tracked ++ [t] })
      (fun _ => rfl) (fun _ => rfl) w
  have other : ∀ d', d ≠ d' → (Derivation.seeing d t w).derivations.get d' = w.derivations.get d' :=
    fun d' hd => Heap.get_modify_of_ne _ _ _ _ hd
  have running : ∀ d', Running d' (Derivation.seeing d t w) → Running d' w :=
    fun d' => ev.running fun _ hs => hs
  refine ⟨⟨ev.shape h.shape fun d' u hu => ?_, ?_, ?_⟩, ev⟩
  · by_cases hd : d = d'
    · subst hd
      rcases Nat.lt_or_ge d.index w.derivations.size with valid | invalid
      · simp only [Derivation.seeing, Heap.get_modify_self _ _ _ valid, List.mem_append,
          List.mem_singleton] at hu
        refine hu.imp id fun heq => ?_
        rw [heq]
        exact before
      · simp only [Derivation.seeing, Heap.modify_of_size_le _ _ _ invalid] at hu
        exact .inl hu
    · rw [other d' hd] at hu
      exact .inl hu
  · refine ev.handles h.handles (fun e _ => h.handles.reactions e) (fun _ _ hn => .inl hn)
      (fun d' sub hs => .inl ?_) fun _ _ ht => .inl ht
    have same := Heap.get_modify_same w.derivations d d'
      (fun cell => { cell with tracked := cell.tracked ++ [t] }) Derivation.subscriptions
      fun _ => rfl
    exact same ▸ hs
  · constructor
    · exact h.flow.started
    · intro d' hD' hd u hu
      have ne : d ≠ d' := fun heq => hD' (heq ▸ hD)
      rw [other d' ne] at hu
      exact h.flow.attached d' hD' (running d' hd) u hu
    · intro d' hD' hd
      refine (h.flow.current d' hD' (running d' hd)).imp (fun hc => ?_) id
      exact hc.congr ev (seeing_tracked d d' t).subset fun _ => rfl

/-! A computation that is done. -/

/-- What a computation of a derivation has come to: its value in the world as it is now, of signals
that the derivation is subscribed to. -/
structure Computed (d : DerivationId) (v : Value) (w : World) : Prop where
  attached : Attached d w
  gives : ∃ l, (w.derivations.get d).reading.Gives w l v ∧ ∀ t ∈ l, t ∈ (w.derivations.get d).tracked

theorem unnoticed_wired (h : Wired (fun d' => D d' ∨ d' = d) w) {v : Value}
    (computed : Running d w → Computed d v w)
    (same : sameContent (Signal.content w (w.derivations.get d).output) (some v) = true) :
    Wired D w := by
  refine h.settle fun hd => ?_
  obtain ⟨attached, l, gives, sees⟩ := computed hd
  refine ⟨attached, l, sees, ?_⟩
  cases hc : Signal.content w (w.derivations.get d).output with
  | none =>
    rw [hc] at same
    cases same
  | some u =>
    rw [hc] at same
    exact ⟨u, v, rfl, gives, .inr same⟩

theorem noticed_wired (faithful : Faithful w) (h : Wired (fun d' => D d' ∨ d' = d) w)
    (real : Real d w) {v : Value} (computed : Running d w → Computed d v w) :
    Wired D (Signal.changed (w.derivations.get d).output (some v) w) := by
  have ev := changed_evolves (w.derivations.get d).output (some v) w
  have flow : Flow (fun d' => D d' ∨ d' = d)
      (Signal.changed (w.derivations.get d).output (some v) w) := by
    refine changed_flow faithful h.flow real.index_lt (some v) fun d' hD real' ho => ?_
    exact absurd (.inr (Shape.eq_of_output_eq real' real ho)) hD
  have wired : Wired (fun d' => D d' ∨ d' = d) _ :=
    ⟨ev.shape h.shape fun _ _ ht => .inl ht, changed_handles h.handles _ _, flow⟩
  refine wired.settle fun hd => ?_
  have started : ∀ t, ((Signal.changed (w.derivations.get d).output (some v) w).signals.get
      t).started = (w.signals.get t).started :=
    fun t => Heap.get_modify_same _ _ t _ Signal.started fun _ => rfl
  obtain ⟨attached, l, gives, sees⟩ := computed (ev.running (fun t ht => started t ▸ ht) hd)
  exact ⟨changed_attached attached _ _, changed_current h.shape real gives sees⟩

/-- A change to a signal that is not derived. -/
theorem changed_wired (faithful : Faithful w) (h : Wired D w) {s : SignalId}
    (plain : (w.signals.get s).producer = none) (value : Option Value) :
    Wired D (Signal.changed s value w) := by
  rcases Nat.lt_or_ge s.index w.signals.size with hs | hs
  · refine ⟨(changed_evolves s value w).shape h.shape fun _ _ ht => .inl ht,
      changed_handles h.handles s value,
      changed_flow faithful h.flow hs value fun d _ real ho => ?_⟩
    unfold Real at real
    rw [ho, plain] at real
    cases real
  · rw [changed_unknown hs]
    exact h

end

end LiveMarkup.Live
