import LiveMarkup.Proofs.Recounting
import LiveMarkup.Proofs.SlotNames

/-!
Unsubscribing: what becomes of subscriptions in the course of a session. The cancellations of a
session are kept in order, those on the way of another one below it. The topmost of them are made
from outside of any cancellation: by a step itself, or by a callback that no cancellation led to.

Main statement: `cancels_once`.
-/
namespace LiveMarkup.Live

open Cancellation

/-- The world after the steps of a session. -/
def World.after (fuel : Nat) (w : World) : Script → Except Halt World
  | [] => .ok w
  | step :: rest =>
    (runFrom fuel { w with log := [] } (step.run .null)).bind fun p => World.after fuel p.2 rest

/-- The steps of a session so far, the cancellations that were made and the world that came about.
-/
inductive Lived (fuel : Nat) (start : World) : Script → List Cancellation → World → Prop
  | start : Lived fuel start [] [] start
  | step {script : Script} {past calls : List Cancellation} {w w' : World} {step : Step}
    {answer : Answer} (before : Lived fuel start script past w)
    (next : Account (Performs fuel) (step.run .null) { w with log := [] } calls answer w') :
    Lived fuel start (script ++ [step]) (past ++ calls) w'

variable {fuel : Nat} {script rest : Script} {past calls : List Cancellation} {start w w' : World}
  {step : Step} {answer : Answer}

theorem World.after_append :
    w.after fuel (script ++ rest) = (w.after fuel script).bind fun w₁ => w₁.after fuel rest := by
  induction script generalizing w with
  | nil => rfl
  | cons step script ih =>
    rw [List.cons_append, World.after, World.after]
    cases runFrom fuel { w with log := [] } (step.run .null) with
    | error e => rfl
    | ok p => exact ih

/-- The notes have nothing to do with subscriptions. -/
theorem silenced_leaves (w : World) : w.Leaves { w with log := [] } :=
  .of_eq rfl rfl rfl

namespace Lived

/-- Every step that comes to an end has its account. -/
theorem account (issued : w.Issued)
    (ran : runFrom fuel { w with log := [] } (step.run .null) = .ok (answer, w')) :
    ∃ calls, Account (Performs fuel) (step.run .null) { w with log := [] } calls answer w' := by
  have chronicled : Chronicled (Performs fuel) (exec fuel) (step.run .null) :=
    chronicled_step .null step
  exact (chronicled _ ((silenced_leaves w).issued issued) answer w' ran).1

theorem issued (h : Lived fuel start script past w) (made : start.Issued) : w.Issued := by
  induction h with
  | start => exact made
  | @step script past calls w w' step answer _ next ih =>
    have chronicled : Chronicled (Performs fuel) (exec fuel) (step.run .null) :=
    chronicled_step .null step
    have ran := next.runs fun _ _ _ _ => Performs.runs
    exact (chronicled _ ((silenced_leaves w).issued ih) answer w' ran).2.1

theorem tallies (h : Lived fuel start script past w) : Tallies start past w := by
  induction h with
  | start => exact .spares (World.Leaves.of_eq rfl rfl rfl).spares
  | @step _ _ _ w _ _ _ _ next ih =>
    have silenced : Tallies w [] { w with log := [] } := .spares (silenced_leaves w).spares
    exact ih.trans (silenced.trans (next.tallies (Performs.fair fuel)))

/-- By induction on the steps that are left. -/
theorem onward (h : Lived fuel start script past w) (issued : w.Issued)
    (ran : w.after fuel rest = .ok w') : ∃ past', Lived fuel start (script ++ rest) past' w' := by
  induction rest generalizing script past w with
  | nil =>
    cases ran
    exact ⟨past, (List.append_nil script).symm ▸ h⟩
  | cons step rest ih =>
    rw [World.after] at ran
    cases first : runFrom fuel { w with log := [] } (step.run .null) with
    | error e =>
      rw [first] at ran
      cases ran
    | ok p =>
      rw [first] at ran
      obtain ⟨calls, account⟩ := account issued first
      have here : Lived fuel w [step] calls p.2 := .step .start account
      obtain ⟨past', h'⟩ := ih (h.step account) (here.issued issued) ran
      exact ⟨past', List.append_cons script step rest ▸ h'⟩

end Lived

/-- A session has a history if and only if it comes to an end. -/
theorem lived_iff (made : start.Issued) :
    start.after fuel script = .ok w ↔ ∃ past, Lived fuel start script past w := by
  constructor
  · exact Lived.start.onward made
  · rintro ⟨past, h⟩
    induction h with
    | start => rfl
    | @step script past calls w w' step answer _ next ih =>
      have ran : runFrom fuel { w with log := [] } (step.run .null) = .ok (answer, w') :=
        next.runs fun _ _ _ _ => Performs.runs
      rw [World.after_append, ih]
      change (runFrom fuel { w with log := [] } (step.run .null)).bind (fun p => .ok p.2) = .ok w'
      rw [ran]
      rfl

/-- A step that unsubscribes cancels the one subscription, if it is active still. -/
theorem account_unsubscribe {name : Name} {s : SubscriptionId} (issued : w.Issued)
    (named : w.names.subscriptions.get? name = some s)
    (ran : runFrom fuel { w with log := [] } ((Step.unsubscribe name).run .null) = .ok (answer, w')) :
    ∃ calls, Account (Performs fuel) ((Step.unsubscribe name).run .null) { w with log := [] } calls
        answer w' ∧ s ∈ w'.ended ∧
      ∀ c, w.subscriptions.get s = some c → ∃ within, calls = [.mk s c within] := by
  let w₁ : World := { w with log := [] }
  have issued₁ : w₁.Issued := (silenced_leaves w).issued issued
  have stays : ∀ w : World, w.Spares w := fun w => (World.Leaves.of_eq rfl rfl rfl).spares
  have found : ∀ run, lookUp Names.subscriptions name run w₁ = .ok (s, w₁) := by
    intro run
    have read : lookUp Names.subscriptions name run w₁ =
        require name (w.names.subscriptions.get? name) run w₁ := rfl
    rw [read, named]
    rfl
  have ran' : (lookUp Names.subscriptions name >>= fun s => Subscription.cancel s >>= fun _ =>
      pure Answer.none : Op Answer) (exec fuel) w₁ = .ok (answer, w') := ran
  rw [bind_of_ok (found _)] at ran'
  obtain ⟨⟨⟩, w₂, cancelled, rest⟩ := ok_of_bind ran'
  cases rest
  have whole : ∀ {l}, Account (Performs fuel) (Subscription.cancel s) w₁ l () w' →
      Account (Performs fuel) ((Step.unsubscribe name).run .null) w₁ l .none w' := by
    intro l account
    have rest : Account (Performs fuel)
        (Subscription.cancel s >>= fun _ => pure Answer.none : Op Answer)
        w₁ (l ++ []) .none w' := account.bind (.still (fun _ => rfl) (stays w'))
    have all : Account (Performs fuel) ((Step.unsubscribe name).run .null) w₁
        ([] ++ (l ++ [])) .none w' :=
      Account.bind (.still found (stays w₁)) rest
    rwa [List.append_nil, List.nil_append] at all
  cases active : w.subscriptions.get s with
  | none =>
    have idle := cancel_of_ended (w := w₁) active
    obtain rfl : w₁ = w' := (Prod.mk.inj (Except.ok.inj ((idle _).symm.trans cancelled))).2
    exact ⟨[], whole (.still idle (stays w₁)), ⟨issued.named name s named, active⟩, nofun⟩
  | some c =>
    obtain ⟨⟨l, done⟩, -⟩ := done_of_active (Performs fuel) issued₁ active cancelled
    have account := Account.cancel (w := w₁) active done
    refine ⟨_, whole account, ?_, fun c' same => ?_⟩
    · rw [(account.tallies (Performs.fair fuel)).ended, cancelled_mk]
      exact .inr (Set.mem_insert s _)
    · cases same
      exact ⟨l, rfl⟩

/-- A session that comes to an end has a history. In it no subscription is cancelled twice, those
that are not active are those that were cancelled, or were so from the start, and members are
cancelled in turn. Whenever a cancellation has come to an end that was on the way of no other one,
all members of the aggregates that were cancelled until then are cancelled, and the members of
members. The history goes on with every further step: who was active is so still with the work it
had, or was cancelled and that was the work; and a step that unsubscribes cancels that subscription
and what is cancelled on its way, or nothing if it is not active. -/
theorem cancels_once (fuel : Nat) (script : Script) {start : World} (made : start.Issued)
    (w : World) :
    (start.after fuel script = .ok w ↔ ∃ past, Lived fuel start script past w) ∧
      ∀ past, Lived fuel start script past w →
        (handlesAll past).Nodup ∧
        (∀ s, s.index < w.subscriptions.size ∧ Subscription.isActive w s = false ↔
          s ∈ start.ended ∨ s ∈ handlesAll past) ∧
        OrderlyAll start.ended past ∧
        (∀ before, before <+: past → ∀ m a, Relation.TransGen (Member before) m a →
          m ∈ start.ended ∨ m ∈ handlesAll before) ∧
        ∀ step answer w', runFrom fuel { w with log := [] } (step.run .null) = .ok (answer, w') →
          ∃ calls, Lived fuel start (script ++ [step]) (past ++ calls) w' ∧
            (∀ s c, w.subscriptions.get s = some c → w'.subscriptions.get s = some c ∨
              w'.subscriptions.get s = none ∧ ∃ within, Among (.mk s c within) calls) ∧
            ∀ name s, step = .unsubscribe name → w.names.subscriptions.get? name = some s →
              Subscription.isActive w' s = false ∧
                ∀ c, w.subscriptions.get s = some c → ∃ within, calls = [.mk s c within] := by
  refine ⟨lived_iff made, fun past h => ?_⟩
  have tallies := h.tallies
  have issued := h.issued made
  refine ⟨tallies.orderly.nodup.1, fun s => ?_, tallies.orderly, ?_, fun step answer w' ran => ?_⟩
  · have ended : s ∈ w.ended ↔ s ∈ start.ended ∨ s ∈ handlesAll past := by
      rw [tallies.ended]
      rfl
    rw [← ended, Subscription.isActive, Option.isSome_eq_false_iff, Option.isNone_iff_eq_none]
    rfl
  · rintro before ⟨after, rfl⟩ m a member
    exact (orderlyAll_append.1 tallies.orderly).1.member member
  · obtain ⟨calls, account, last⟩ : ∃ calls,
        Account (Performs fuel) (step.run .null) { w with log := [] } calls answer w' ∧
          ∀ name s, step = .unsubscribe name → w.names.subscriptions.get? name = some s →
            s ∈ w'.ended ∧
              ∀ c, w.subscriptions.get s = some c → ∃ within, calls = [.mk s c within] := by
      by_cases unsubscribes : ∃ name s, step = .unsubscribe name ∧
          w.names.subscriptions.get? name = some s
      · obtain ⟨name, s, rfl, named⟩ := unsubscribes
        obtain ⟨calls, account, last⟩ := account_unsubscribe issued named ran
        refine ⟨calls, account, fun name' s' same named' => ?_⟩
        cases same
        cases named.symm.trans named'
        exact last
      · obtain ⟨calls, account⟩ := Lived.account issued ran
        exact ⟨calls, account, fun name s same named => absurd ⟨name, s, same, named⟩ unsubscribes⟩
    refine ⟨calls, h.step account, (account.tallies (Performs.fair fuel)).work,
      fun name s same named => ?_⟩
    obtain ⟨ended, only⟩ := last name s same named
    refine ⟨?_, only⟩
    rw [Subscription.isActive, ended.2]
    rfl

/-- Two subscriptions whose cancellation unsubscribes others, an aggregate of them, and one that has
it and one of them as members. -/
private def entangled : World :=
  { World.empty with
    subscriptions := ⟨#[
      some (.stopped "a" [.unsubscribe "outer", .unsubscribe "a", .unsubscribe "b"]),
      some (.stopped "b" [.unsubscribe "inner"]),
      some (.all [⟨0⟩, ⟨1⟩]),
      some (.all [⟨2⟩, ⟨1⟩, ⟨2⟩])]⟩
    names := { Names.empty with subscriptions :=
      (((Ordered.empty.insert "a" ⟨0⟩).insert "b" ⟨1⟩).insert "inner" ⟨2⟩).insert "outer" ⟨3⟩ } }

/-- What is left when it is unsubscribed, and one of the members once more. -/
private def disentangled : World :=
  match entangled.after 10 [.unsubscribe "outer", .unsubscribe "a"] with
  | .ok w => w
  | .error _ => .empty

theorem cancels_once_entangled :
    ∃ past, Lived 10 entangled [.unsubscribe "outer", .unsubscribe "a"] past disentangled ∧
      (handlesAll past).Nodup ∧ ∀ s ∈ [⟨0⟩, ⟨1⟩, ⟨2⟩, ⟨3⟩], s ∈ handlesAll past := by
  have members : ∀ s : SubscriptionId, ∀ members,
      entangled.subscriptions.get s = some (.all members) → ∀ m ∈ members, m.index < 4 := by
    intro s
    refine Heap.get_of_cells (P := fun c : Option Cancel =>
      ∀ members, c = some (.all members) → ∀ m ∈ members, m.index < 4) _ s ?_ nofun
    simp [entangled]
  have names : ∀ e ∈ entangled.names.subscriptions.entries, e.2.index < 4 := by decide +kernel
  have made : entangled.Issued :=
    ⟨members, nofun, fun _ _ named => names _ (Ordered.mem_of_get? named)⟩
  have ran : entangled.after 10 [.unsubscribe "outer", .unsubscribe "a"] = .ok disentangled := by
    have ok : (entangled.after 10 [.unsubscribe "outer", .unsubscribe "a"]).isOk = true := by
      decide +kernel
    unfold disentangled
    cases ends : entangled.after 10 [.unsubscribe "outer", .unsubscribe "a"] with
    | error e =>
      rw [ends] at ok
      cases ok
    | ok w => rfl
  obtain ⟨history, whole⟩ :=
    cancels_once 10 [.unsubscribe "outer", .unsubscribe "a"] made disentangled
  obtain ⟨past, lived⟩ := history.1 ran
  obtain ⟨once, gone, -⟩ := whole past lived
  have idle : ∀ s : SubscriptionId, s ∈ [⟨0⟩, ⟨1⟩, ⟨2⟩, ⟨3⟩] →
      s.index < disentangled.subscriptions.size ∧
        Subscription.isActive disentangled s = false := by
    decide +kernel
  have active : ∀ s : SubscriptionId, s ∈ [⟨0⟩, ⟨1⟩, ⟨2⟩, ⟨3⟩] →
      Subscription.isActive entangled s = true := by
    decide +kernel
  refine ⟨past, lived, once, fun s hs => ?_⟩
  refine ((gone s).1 (idle s hs)).resolve_left fun ended => ?_
  have still := active s hs
  rw [Subscription.isActive, ended.2] at still
  cases still

end LiveMarkup.Live
