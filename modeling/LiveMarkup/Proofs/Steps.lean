import LiveMarkup.Proofs.Graph

/-!
Steps: what a step that only works with signals and subscriptions comes down to. It writes a signal,
or it subscribes a script to one, or it cancels a subscription that has a name; whatever else it does
leaves the signals alone.
-/
namespace LiveMarkup.Live

/-- An invariant and a relation that what steps do to signals and subscriptions keeps. -/
structure Upkeep (run : Runner) (I : World → Prop) (R : World → World → Prop) : Prop where
  idling : ∀ {w w'}, I w → Idling w w' → I w' ∧ R w w'
  replace : ∀ {w s name} value, I w → w.names.signals.get? name = some (s, .writable) →
    Ensures run (Signal.replace s value) w fun _ w' => I w' ∧ R w w'
  subscribe : ∀ {w s name script} mode, I w → (∀ step ∈ script, step.Operates) →
    Ensures run (Signal.subscribe s (.told name script) mode >>= nameSubscription name) w
      fun _ w' => I w' ∧ R w w'
  cancel : ∀ {w name sub}, I w → w.names.subscriptions.get? name = some sub →
    Ensures run (Subscription.cancel sub) w fun _ w' => I w' ∧ R w w'
  script : ∀ {steps w} current, I w → (∀ step ∈ steps, step.Operates) →
    Ensures run (invoke (.script steps current)) w fun _ w' => I w' ∧ R w w'

section
variable {run : Runner} {I : World → Prop} {R : World → World → Prop} [Lasting R] {w : World}
  {s : SignalId}

theorem writableNamed_ensures (name : Name) :
    Ensures run (writableNamed name) w fun s w' =>
      w' = w ∧ w.names.signals.get? name = some (s, .writable) := by
  simp only [writableNamed, lookUp, ensures_bind, ensures_get]
  cases hn : w.names.signals.get? name with
  | none => exact (ensures_throw ..).2 trivial
  | some p =>
    obtain ⟨s, role⟩ := p
    simp only [require, ensures_pure]
    split
    case isTrue writable =>
      subst writable
      exact (ensures_pure ..).2 ⟨rfl, rfl⟩
    case isFalse => exact (ensures_throw ..).2 trivial

/-- A write goes unnoticed, or it is a change that the subscribers are told of. -/
theorem put_eq (s : SignalId) (v : Value) (run : Runner) (w : World) :
    Signal.put s v run w =
      if sameContent (Signal.content w s) (some v) then .ok ((), w)
      else Signal.replace s (some v) run w := by
  have read : Signal.put s v run w =
      (if sameContent (Signal.content w s) (some v) then pure ()
      else Signal.replace s (some v) : Op Unit) run w := rfl
  rw [read]
  split
  · rfl
  · rfl

namespace Upkeep

theorem put (u : Upkeep run I R) (h : I w) {name : Name}
    (named : w.names.signals.get? name = some (s, .writable)) (v : Value) :
    Ensures run (Signal.put s v) w fun _ w' => I w' ∧ R w w' := by
  intro _ w' hw'
  rw [put_eq] at hw'
  split at hw'
  · cases hw'
    exact ⟨h, Lasting.refl w⟩
  · exact u.replace (some v) h named _ _ hw'

omit [Lasting R] in
/-- Nothing but an answer comes after. -/
theorem answered {x : Op Unit} {a : Answer} {Q : World → Prop}
    (hx : Ensures run x w fun _ w' => Q w') :
    Ensures run (do x; return a) w fun _ w' => Q w' :=
  (ensures_bind ..).2 (hx.mono fun _ _ hw' => (ensures_pure ..).2 hw')

/-- What goes on after something that leaves the signals alone. -/
theorem after {α β : Type} {x : Op α} {f : α → Op β} (u : Upkeep run I R) (h : I w)
    (hx : Keeps Idling run x)
    (hf : ∀ a w₁, I w₁ → Idling w w₁ → Ensures run (f a) w₁ fun _ w' => I w' ∧ R w₁ w') :
    Ensures run (x >>= f) w fun _ w' => I w' ∧ R w w' := by
  refine (ensures_bind ..).2 fun a w₁ hw₁ => ?_
  have idling : Idling w w₁ := hx w _ _ hw₁
  obtain ⟨h₁, r₁⟩ := u.idling h idling
  refine (hf a w₁ h₁ idling).mono ?_
  rintro _ w' ⟨h', r'⟩
  exact ⟨h', Lasting.trans r₁ r'⟩

theorem formula {β : Type} {f : Value → Op β} (u : Upkeep run I R) (h : I w) (r : Reading)
    (hf : ∀ v w₁, I w₁ → Idling w w₁ → Ensures run (f v) w₁ fun _ w' => I w' ∧ R w₁ w') :
    Ensures run (r.run .nobody >>= f) w fun _ w' => I w' ∧ R w w' :=
  u.after h (Idle.reading (fun _ => Tracker.noConfusion) r) hf

omit [Lasting R] in
/-- A step that writes, by the name of what it writes. -/
theorem writing {name : Name} {f : SignalId → Op Answer}
    (hf : ∀ s, w.names.signals.get? name = some (s, .writable) →
      Ensures run (f s) w fun _ w' => I w' ∧ R w w') :
    Ensures run (writableNamed name >>= f) w fun _ w' => I w' ∧ R w w' := by
  refine (ensures_bind ..).2 ((writableNamed_ensures name).mono ?_)
  rintro s _ ⟨rfl, named⟩
  exact hf s named

theorem change (u : Upkeep run I R) (h : I w) (current : Value) (sig : Name) (suffix : String)
    (v : Option Literal) :
    Ensures run ((Step.change sig suffix v).run current) w fun _ w' => I w' ∧ R w w' := by
  refine writing fun s named => (ensures_bind ..).2 ((ensures_get _).2 ?_)
  split
  · exact answered (u.replace _ h named)
  · refine u.after h (Idle.literal _) fun v w₁ h₁ idling => ?_
    rw [← idling.signalNames] at named
    exact answered (u.replace _ h₁ named)
  · refine answered fun a w' hw' => ?_
    rw [notify_eq, ← replace_eq] at hw'
    exact u.replace _ h named a w' hw'

/-- By cases on the step. -/
theorem step (u : Upkeep run I R) (h : I w) {step : Step} (current : Value)
    (operates : step.Operates) :
    Ensures run (step.run current) w fun _ w' => I w' ∧ R w w' := by
  cases operates with
  | ask q =>
    refine (ensures_bind ..).2 ((ensures_get _).2 ?_)
    split
    · exact (ensures_pure ..).2 ⟨h, Lasting.refl w⟩
    · exact (ensures_throw ..).2 trivial
  | set sig v =>
    refine writing fun s named => u.formula h _ fun v w₁ h₁ idling => ?_
    rw [← idling.signalNames] at named
    exact answered (u.put h₁ named v)
  | update sig v =>
    refine writing fun s named => (ensures_bind ..).2 ((ensures_get _).2 ?_)
    refine u.formula h _ fun v w₁ h₁ idling => ?_
    rw [← idling.signalNames] at named
    exact answered (u.put h₁ named v)
  | change sig suffix v => exact u.change h current sig suffix v
  | @subscribe name sig mode script steps =>
    refine u.after h ?_ fun s w₁ h₁ _ => ?_
    · exact keeps_bind (keeps_bind keeps_get fun w => keeps_require _ _) fun p => keeps_pure _
    · have subscribed : Ensures run
          (Signal.subscribe s (.told name script) mode >>= nameSubscription name) w₁
          fun _ w' => I w' ∧ R w₁ w' := u.subscribe mode h₁ steps
      rw [ensures_bind] at subscribed
      exact (ensures_bind ..).2 (subscribed.mono fun _ _ hw' => answered hw')
  | unsubscribe sub =>
    simp only [Step.run, lookUp, ensures_bind, ensures_get]
    cases hn : w.names.subscriptions.get? sub with
    | none => exact (ensures_throw ..).2 trivial
    | some handle =>
      refine (ensures_pure ..).2 ((u.cancel h hn).mono fun _ w' hw' => (ensures_pure ..).2 hw')
  | log v =>
    refine u.formula h _ fun v w₁ h₁ _ => (ensures_bind ..).2 ((ensures_get _).2 (answered ?_))
    exact (Idle.note (R := Idling) _ w₁).mono fun _ _ => u.idling h₁
  | @choose v yes no yesSteps noSteps =>
    refine u.formula h _ fun v w₁ h₁ _ => answered (u.script current h₁ ?_)
    split
    · exact yesSteps
    · exact noSteps

/-- By induction on the steps. -/
theorem steps (u : Upkeep run I R) (h : I w) {script : Script} (current : Value)
    (operates : ∀ step ∈ script, step.Operates) :
    Ensures run (script.run current) w fun _ w' => I w' ∧ R w w' := by
  unfold Script.run
  induction script generalizing w with
  | nil => exact (ensures_pure ..).2 ⟨h, Lasting.refl w⟩
  | cons step script ih =>
    refine (ensures_bind ..).2 ((ensures_bind ..).2 ?_)
    refine (u.step h current (operates step List.mem_cons_self)).mono ?_
    rintro _ w₁ ⟨h₁, r₁⟩
    refine (ensures_pure ..).2 ((ih h₁ fun s hs => operates s (List.mem_cons_of_mem _ hs)).mono ?_)
    rintro _ w₂ ⟨h₂, r₂⟩
    exact ⟨h₂, Lasting.trans r₁ r₂⟩

/-- A callback takes a note of the value and then runs its script, if there is a value. -/
theorem told (u : Upkeep run I R) (h : I w) {script : Script} (name : Name) (v : Option Value)
    (operates : ∀ step ∈ script, step.Operates) :
    Ensures run (Reaction.run v (.told name script)) w fun _ w' => I w' ∧ R w w' := by
  refine (ensures_bind ..).2 ((ensures_get _).2 ?_)
  refine u.after h (Idle.note _) fun _ w₁ h₁ _ => ?_
  cases v with
  | none => exact (ensures_pure ..).2 ⟨h₁, Lasting.refl w₁⟩
  | some v => exact u.steps h₁ v operates

end Upkeep

end

end LiveMarkup.Live
