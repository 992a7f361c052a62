import LiveMarkup.Proofs.Balance

/-!
Starting: a node that is started subscribes once to each signal that it depends on, and the nodes among
those are started first. Nobody is told anything meanwhile, so nothing is undone on the way.
-/
namespace LiveMarkup.Live

/-- A balanced network whose signals are recorded. -/
structure Poised (D P : SignalId → Prop) (w : World) : Prop extends Balanced D P w where
  faithful : Faithful w

theorem Poised.next {D D' P P' : SignalId → Prop} {w w' : World} (h : Poised D P w)
    (delivers : Delivers w w') (balanced : Balanced D' P' w') : Poised D' P' w' :=
  ⟨balanced, (delivers h.faithful).faithful⟩

/-- What starting the signals before a position leaves alone: the signals, the nodes' links and the
cells from the position on, and all handles. The nodes in `O` are at work and are excepted. -/
structure Rises (N : Nat) (O : SignalId → Prop) (w w' : World) : Prop extends Develops w w' where
  above : ∀ s, N ≤ s.index → w'.signals.get s = w.signals.get s
  links : ∀ n, N ≤ n.index → ¬ O n → ∀ s, links w' n s = links w n s
  cell : ∀ d, Real d w → N ≤ (w.derivations.get d).output.index →
    ¬ O (w.derivations.get d).output → w'.derivations.get d = w.derivations.get d
  handle : ∀ sub, sub.index < w.subscriptions.size →
    w'.subscriptions.get sub = w.subscriptions.get sub
  started : ∀ s, (w.signals.get s).started = true → (w'.signals.get s).started = true

namespace Rises
variable {N M : Nat} {O O' : SignalId → Prop} {w w₁ w₂ : World}

theorem refl (w : World) : Rises N O w w :=
  ⟨.refl w, fun _ _ => rfl, fun _ _ _ _ => rfl, fun _ _ _ _ => rfl, fun _ _ => rfl, fun _ hs => hs⟩

theorem trans (h : Rises N O w w₁) (h' : Rises N O w₁ w₂) : Rises N O w w₂ where
  toDevelops := h.toDevelops.trans h'.toDevelops
  above s hs := (h'.above s hs).trans (h.above s hs)
  links n hn ho s := (h'.links n hn ho s).trans (h.links n hn ho s)
  cell d real hd ho := by
    refine (h'.cell d (h.real.2 real) ?_ ?_).trans (h.cell d real hd ho)
    · rw [h.output]
      exact hd
    · rw [h.output]
      exact ho
  handle sub hs :=
    (h'.handle sub (Nat.lt_of_lt_of_le hs h.toDevelops.subscriptions)).trans (h.handle sub hs)
  started s hs := h'.started s (h.started s hs)

theorem mono (h : Rises N O w w₁) (hN : N ≤ M) (hO : ∀ n, M ≤ n.index → O n → O' n) :
    Rises M O' w w₁ where
  toDevelops := h.toDevelops
  above s hs := h.above s (Nat.le_trans hN hs)
  links n hn ho := h.links n (Nat.le_trans hN hn) fun hn' => ho (hO n hn hn')
  cell d real hd ho := h.cell d real (Nat.le_trans hN hd) fun hd' => ho (hO _ hd hd')
  handle := h.handle
  started := h.started

theorem of_same (same : Same w w₁) (h : Laid w)
    (above : ∀ s, N ≤ s.index → w₁.signals.get s = w.signals.get s) : Rises N O w w₁ where
  toDevelops := same.toDevelops
  above := above
  links n _ _ s := same.links_eq h n s
  cell d real _ _ := same.cell d real id
  handle := same.handle
  started s hs := (same.started s id).trans hs

end Rises

/-- Nobody was told of what happened to a signal. -/
structure Hushed (n : SignalId) (w w' : World) : Prop extends Same w w' where
  others : ∀ s, s ≠ n → w'.signals.get s = w.signals.get s
  named : w'.names.subscriptions = w.names.subscriptions

namespace Hushed
variable {n : SignalId} {w w₁ w₂ : World}

theorem refl (w : World) : Hushed n w w := ⟨.refl w, fun _ _ => rfl, rfl⟩

theorem trans (h : Hushed n w w₁) (h' : Hushed n w₁ w₂) : Hushed n w w₂ :=
  ⟨h.toSame.trans h'.toSame, fun s hs => (h'.others s hs).trans (h.others s hs),
    h'.named.trans h.named⟩

theorem of_beside (h : Beside w w₁) : Hushed n w w₁ := by
  refine ⟨h.same, fun s _ => ?_, h.subscriptionNames⟩
  rw [h.signals]

theorem balanced {D P : SignalId → Prop} (h : Hushed n w w₁) (balanced : Balanced D P w) :
    Balanced D P w₁ := by
  refine h.toSame.balanced balanced ?_
  rw [h.named]
  exact fun _ _ hn => .inl hn

theorem rises {O : SignalId → Prop} (h : Hushed n w w₁) (laid : Laid w) :
    Rises (n.index + 1) O w w₁ :=
  .of_same h.toSame laid fun s hs => h.others s fun heq => by
    subst heq
    omega

end Hushed

/-- What may be cancelled without cutting off a node that is not excepted. -/
def Unneeded (D : SignalId → Prop) (w : World) (c : Cancel) : Prop :=
  ∃ s e, c = .entry s e ∧ e.index < w.entries.size ∧
    ∀ n, (w.entries.get e).reaction.node? w = some n → D n

/-- What may be cancelled while the nodes in `D` are being stopped. -/
inductive Permits (D : SignalId → Prop) (w : World) : Cancel → Prop
  | entry {c : Cancel} (h : Unneeded D w c) : Permits D w c
  | all {subscriptions : List SubscriptionId}
    (h : ∀ sub ∈ subscriptions, Leads (Unneeded D w) sub w) : Permits D w (.all subscriptions)
  | release {d : DerivationId} (real : Real d w) (h : D (w.derivations.get d).output) :
    Permits D w (.release d)

/-- What cancelling leads to: subscribers leave, and a handle is spent only once its entry is off. -/
structure Sheds (w w' : World) : Prop extends Develops w w' where
  started : ∀ s, (w'.signals.get s).started = true → (w.signals.get s).started = true
  subscribers : ∀ s, (w'.signals.get s).subscribers ⊆ (w.signals.get s).subscribers
  spent : ∀ sub s e, w.subscriptions.get sub = some (.entry s e) →
    w'.subscriptions.get sub = some (.entry s e) ∨ e ∉ (w'.signals.get s).subscribers

/-- What a runner does in a balanced network. -/
class Balances (run : Runner) : Prop where
  script : ∀ {steps current w w'}, (∀ step ∈ steps, step.Operates) → Poised NoNode NoNode w →
    run (.script steps current) w = .ok ((), w') → Balanced NoNode NoNode w' ∧ Develops w w'
  told : ∀ {name steps v w w'}, (∀ step ∈ steps, step.Operates) → Poised NoNode NoNode w →
    run (.react (.told name steps) v) w = .ok ((), w') →
      Balanced NoNode NoNode w' ∧ Develops w w'
  refresh : ∀ {d v w w'}, Poised NoNode NoNode w → Real d w →
    (w.signals.get (w.derivations.get d).output).started = true →
    run (.react (.refresh d) v) w = .ok ((), w') → Balanced NoNode NoNode w' ∧ Develops w w'
  branch : ∀ {a v w w'}, Poised NoNode NoNode w → run (.react (.branch a) v) w = .ok ((), w') →
    Balanced NoNode NoNode w' ∧ Develops w w'
  /-- An effect writes to nodes only. -/
  effect : ∀ {n e v w w'}, run (.react (.effect n e) v) w = .ok ((), w') → Beside w w'
  /-- A match that nobody listens to tells nobody. -/
  unheard : ∀ {a v n w w'}, (w.branches.get (w.activations.get a).branch).output = n →
    (w.signals.get n).subscribers = [] → run (.react (.branch a) v) w = .ok ((), w') → Hushed n w w'
  /-- A signal may be started while later ones are being started. -/
  start : ∀ {D s w w'}, Poised D NoNode w → ¬ D s → (w.signals.get s).producer ≠ none →
    (w.signals.get s).subscribers = [] → (w.signals.get s).started = false →
    (∀ n, D n → s.index < n.index) → run (.start s) w = .ok ((), w') →
      Balanced D (· = s) w' ∧ Rises (s.index + 1) NoNode w w' ∧ (w'.signals.get s).started = true
  cancel : ∀ {D c w w'}, Poised D NoNode w → Permits D w c → run (.cancel c) w = .ok ((), w') →
    Balanced D NoNode w' ∧ Sheds w w' ∧
      ∀ s e, Takes w s e c → e ∉ (w'.signals.get s).subscribers

section
variable {run : Runner} [Balances run] {D : SignalId → Prop} {w : World} {s n : SignalId}
  {d : DerivationId}

/-- A signal that is about to have a subscriber is started first. -/
theorem wake_balances (h : Poised D NoNode w) (out : ¬ D s) (before : ∀ n, D n → s.index < n.index) :
    Ensures run (Signal.wake s) w fun _ w' =>
      Balanced D (· = s) w' ∧ Rises (s.index + 1) NoNode w w' ∧
        ((w'.signals.get s).producer ≠ none → (w'.signals.get s).started = true) := by
  simp only [Signal.wake, ensures_bind, ensures_get]
  by_cases idle : Signal.isIdle w s = true
  · rw [if_pos idle, ensures_invoke]
    intro w' hw'
    simp only [Signal.isIdle, Bool.and_eq_true, List.isEmpty_iff, Bool.not_eq_eq_eq_not,
      Bool.not_true] at idle
    obtain ⟨⟨nobody, notStarted⟩, produced⟩ := idle
    have produced : (w.signals.get s).producer ≠ none := Option.isSome_iff_ne_none.1 produced
    obtain ⟨balanced, rises, started⟩ := Balances.start h out produced nobody notStarted before hw'
    exact ⟨balanced, rises, fun _ => started⟩
  · rw [if_neg idle, ensures_pure]
    refine ⟨h.toBalanced.mono (fun _ => id) (fun _ hp => hp.elim), .refl w, fun hp => ?_⟩
    by_cases nobody : (w.signals.get s).subscribers = []
    · cases started : (w.signals.get s).started with
      | true => rfl
      | false =>
        obtain ⟨p, hp⟩ := Option.ne_none_iff_exists'.1 hp
        simp [Signal.isIdle, nobody, started, hp] at idle
    · exact h.started s nobody hp

omit [Balances run] in
/-- A subscriber that joins an earlier signal for a node at work is a new link of that node. -/
theorem entered_rises (h : Poised D (· = s) w) (hn : D n) (earlier : s.index < n.index)
    (valid : s.index < w.signals.size) {reaction : Reaction} (mode : Mode)
    (proper : reaction.Proper w) (node : reaction.node? w = some n)
    (running : (w.signals.get s).producer ≠ none → (w.signals.get s).started = true) :
    let w' := Signal.entered s reaction mode w
    Balanced D NoNode w' ∧ Rises n.index (· = n) w w' ∧
      ∀ t, links w' n t = links w n t ++ if s = t then [w.entries.next] else [] := by
  intro w'
  have joins := fun m t => entered_links (s := s) h.faithful h.toLaid mode proper m t
  have started : ∀ t, (w'.signals.get t).started = (w.signals.get t).started :=
    fun t => Heap.get_modify_same _ s t _ Signal.started fun _ => rfl
  refine ⟨entered_balanced h.faithful h.toBalanced mode proper ?_ running, ?_, fun t => ?_⟩
  · intro m hm
    rw [node] at hm
    cases hm
    exact hn
  · refine ⟨entered_develops s reaction mode w, fun t ht => ?_, fun m _ hm t => ?_, fun _ _ _ _ => rfl,
      fun _ _ => rfl, fun t ht => (started t).trans ht⟩
    · refine Heap.get_modify_of_ne _ _ _ _ fun heq => ?_
      subst heq
      omega
    · rw [joins, if_neg, List.append_nil]
      rintro ⟨-, -, hnode⟩
      rw [node] at hnode
      cases hnode
      exact hm rfl
  · rw [joins]
    simp only [valid, node, and_true]

/-! Derived signals. -/

/-- A derivation is subscribed once to each of some signals, and holds the handles. -/
structure Bound (d : DerivationId) (l : List SignalId) (w : World) : Prop where
  count : ∀ t, (links w (w.derivations.get d).output t).length = if t ∈ l then 1 else 0
  held : ∀ t, ∀ e ∈ links w (w.derivations.get d).output t, Takes w t e (.release d)

/-- A derivation at work, of which no later node is at work. -/
structure AtWork (D : SignalId → Prop) (d : DerivationId) (w : World) : Prop
    extends Poised D NoNode w where
  working : D (w.derivations.get d).output
  real : Real d w
  last : ∀ n, D n → (w.derivations.get d).output.index ≤ n.index

omit [Balances run] in
theorem AtWork.next (h : AtWork D d w) {w' : World} (delivers : Delivers w w')
    (balanced : Balanced D NoNode w') (dev : Develops w w') : AtWork D d w' := by
  refine ⟨h.toPoised.next delivers balanced, ?_, dev.real.2 h.real, ?_⟩
  · rw [dev.output]
    exact h.working
  · rw [dev.output]
    exact h.last

omit [Balances run] in
theorem AtWork.index_lt (h : AtWork D d w) : d.index < w.derivations.size :=
  (h.producers _ _ h.real).1

omit [Balances run] in
theorem Bound.same {l : List SignalId} (bound : Bound d l w) (h : Laid w) {w' : World}
    (same : Same w w') : Bound d l w' := by
  have cell : w'.derivations.get d = w.derivations.get d := by rw [same.derivations']
  constructor
  · intro t
    rw [cell, same.links_eq h]
    exact bound.count t
  · intro t e he
    rw [cell, same.links_eq h] at he
    obtain ⟨sub, hs, hc⟩ := bound.held t e he
    refine ⟨sub, ?_, (same.handle sub (h.held d sub hs).1).trans hc⟩
    rw [cell]
    exact hs

/-- A node has one more link, and there is a handle to it. -/
structure Joins (n s : SignalId) (reaction : Reaction) (sub : SubscriptionId) (e : EntryId)
    (w w' : World) : Prop where
  links : ∀ t, links w' n t = links w n t ++ if s = t then [e] else []
  known : e.index < w'.entries.size
  reaction : (w'.entries.get e).reaction = reaction
  made : sub.index < w'.subscriptions.size
  handle : w'.subscriptions.get sub = some (.entry s e)

theorem subscribe_balances [KeptBy Delivers run] (h : AtWork D d w)
    (earlier : s.index < (w.derivations.get d).output.index) :
    Ensures run (Signal.subscribe s (.refresh d) .normal) w fun sub w' =>
      Balanced D NoNode w' ∧
        Rises (w.derivations.get d).output.index (· = (w.derivations.get d).output) w w' ∧
        w'.derivations.get d = w.derivations.get d ∧
        ∃ e, Joins (w.derivations.get d).output s (.refresh d) sub e w w' := by
  have out : ¬ D s := fun hs => Nat.not_le_of_lt earlier (h.last s hs)
  have before : ∀ n, D n → s.index < n.index :=
    fun n hn => Nat.lt_of_lt_of_le earlier (h.last n hn)
  have later : s.index + 1 ≤ (w.derivations.get d).output.index := earlier
  refine (ensures_bind ..).2 fun _ w₁ hw₁ => ?_
  obtain ⟨balanced₁, rises₁, running⟩ := wake_balances h.toPoised out before _ _ hw₁
  have poised₁ : Poised D (· = s) w₁ := h.toPoised.next (keeps_wake s w _ _ hw₁) balanced₁
  have cell₁ := rises₁.cell d h.real later id
  have valid : s.index < w₁.signals.size := by
    rw [rises₁.signals]
    exact Nat.lt_trans earlier h.real.index_lt
  have node : Reaction.node? w₁ (.refresh d) = some (w.derivations.get d).output := by
    rw [← cell₁]
    rfl
  refine (ensures_bind ..).2 ((join_ensures s (.refresh d)).mono ?_)
  rintro _ w₂ ⟨rfl, rfl⟩
  simp only [Subscription.create, ensures_bind, ensures_get, ensures_set, ensures_pure]
  obtain ⟨balanced₂, rises₂, links₂⟩ :=
    entered_rises poised₁ h.working earlier valid .normal
      (show Reaction.Proper w₁ (.refresh d) from rises₁.real.2 h.real) node running
  have same₃ := made_same (.entry s w₁.entries.next) (Signal.entered s (.refresh d) .normal w₁)
  refine ⟨same₃.balanced balanced₂ fun _ _ hn => .inl hn,
    ((rises₁.mono later fun _ _ ho => ho.elim).trans rises₂).trans
      (.of_same same₃ balanced₂.toLaid fun _ _ => rfl), cell₁, w₁.entries.next, ?_, ?_, ?_, ?_, ?_⟩
  · intro t
    rw [← rises₁.links _ later id, ← links₂]
    exact same₃.links_eq balanced₂.toLaid _ t
  · simp [Signal.entered, Heap.next]
  · exact entered_reaction s (.refresh d) .normal
  · simp [Signal.entered, Heap.next]
  · exact Heap.get_push_next ..

omit [Balances run] in
/-- A derivation that holds the handle to a new link is bound to one more signal. -/
theorem holding_balances {l : List SignalId} {sub : SubscriptionId} {e : EntryId} {w₁ : World}
    (h : AtWork D d w) (h₁ : AtWork D d w₁)
    (rises : Rises (w.derivations.get d).output.index (· = (w.derivations.get d).output) w w₁)
    (cell : w₁.derivations.get d = w.derivations.get d)
    (joins : Joins (w.derivations.get d).output s (.refresh d) sub e w w₁)
    (bound : Bound d l w) (new : s ∉ l) :
    let w₂ := Derivation.holding d (· ++ [sub]) w₁
    Balanced D NoNode w₂ ∧
      Rises (w.derivations.get d).output.index (· = (w.derivations.get d).output) w₁ w₂ ∧
      Bound d (l ++ [s]) w₂ ∧ (w₂.derivations.get d).tracked = (w.derivations.get d).tracked := by
  intro w₂
  have leads : Leads (OfDerivation d w₁) sub w₁ := by
    refine ⟨joins.made, fun c hc => ⟨s, e, ?_, joins.known, joins.reaction⟩⟩
    rw [joins.handle] at hc
    exact (Option.some.inj hc).symm
  have balanced : Balanced D NoNode w₂ := by
    refine cell_balanced h₁.toBalanced h₁.working _ (fun _ => rfl) (fun _ => rfl)
      (fun t ht => .inl ht) (h₁.seen d) fun sub' hs => ?_
    rcases List.mem_append.1 hs with hs | hs
    · exact .inl hs
    · exact .inr (List.mem_singleton.1 hs ▸ leads)
  have dev : Develops w₁ w₂ := (cell_evolves d
    (fun cell => { cell with subscriptions := cell.subscriptions ++ [sub] })
    (fun _ => rfl) (fun _ => rfl) w₁).develops rfl rfl
  have links₂ : ∀ m t, links w₂ m t = links w₁ m t :=
    dev.links_eq h₁.toLaid (fun _ => rfl) fun _ => rfl
  have tracked : (w₂.derivations.get d).tracked = (w₁.derivations.get d).tracked :=
    Heap.get_modify_same _ d d _ Derivation.tracked fun _ => rfl
  have subscriptions : (w₂.derivations.get d).subscriptions =
      (w.derivations.get d).subscriptions ++ [sub] := by
    rw [← cell]
    exact congrArg Derivation.subscriptions (Heap.get_modify_self _ _ _ h₁.index_lt)
  have links : ∀ t, links w₂ (w₂.derivations.get d).output t =
      links w (w.derivations.get d).output t ++ if s = t then [e] else [] := by
    intro t
    rw [dev.output, cell, links₂, joins.links]
  refine ⟨balanced, ⟨dev, fun _ _ => rfl, fun m _ _ t => links₂ m t, fun d' _ _ hd' => ?_,
    fun _ _ => rfl, fun _ hs => hs⟩, ⟨fun t => ?_, fun t e' he' => ?_⟩, tracked.trans (congrArg _ cell)⟩
  · refine Heap.get_modify_of_ne _ _ _ _ fun heq => hd' ?_
    rw [← heq, cell]
  · rw [links, List.length_append, bound.count]
    by_cases hst : s = t
    · subst hst
      simp [new]
    · simp [hst, Ne.symm hst]
  · rw [links] at he'
    rcases List.mem_append.1 he' with he' | he'
    · obtain ⟨sub', hs, hc⟩ := bound.held t e' he'
      refine ⟨sub', ?_, (rises.handle sub' (h.held d sub' hs).1).trans hc⟩
      rw [subscriptions]
      exact List.mem_append_left _ hs
    · by_cases hst : s = t
      · subst hst
        rw [if_pos rfl, List.mem_singleton] at he'
        subst he'
        refine ⟨sub, ?_, joins.handle⟩
        rw [subscriptions]
        exact List.mem_append_right _ (List.mem_singleton_self _)
      · rw [if_neg hst] at he'
        cases he'

/-- A derivation that follows one more signal is subscribed to that, too. -/
theorem follow_balances [KeptBy Delivers run] {l : List SignalId} (h : AtWork D d w)
    (earlier : s.index < (w.derivations.get d).output.index) (bound : Bound d l w) (new : s ∉ l) :
    Ensures run (Derivation.follow d s) w fun _ w' =>
      Balanced D NoNode w' ∧
        Rises (w.derivations.get d).output.index (· = (w.derivations.get d).output) w w' ∧
        Bound d (l ++ [s]) w' ∧ (w'.derivations.get d).tracked = (w.derivations.get d).tracked := by
  refine (ensures_bind ..).2 fun sub w₁ hw₁ => ?_
  obtain ⟨balanced₁, rises₁, cell, e, joins⟩ := subscribe_balances h earlier _ _ hw₁
  have h₁ : AtWork D d w₁ :=
    h.next (keeps_subscribe s _ _ w _ _ hw₁) balanced₁ rises₁.toDevelops
  obtain ⟨balanced₂, rises₂, bound₂, tracked⟩ :=
    holding_balances h h₁ rises₁ cell joins bound new
  exact (ensures_modify ..).2 ⟨balanced₂, rises₁.trans rises₂, bound₂, tracked⟩

/-- A derivation that was shown a signal, which it tracks from then on. -/
def Derivation.learning (d : DerivationId) (s : SignalId) (w : World) : World :=
  { w with derivations := w.derivations.modify d fun cell =>
    { cell with
      shown := s :: cell.shown
      tracked := if s ∈ cell.tracked then cell.tracked else cell.tracked ++ [s] } }

omit [Balances run] in
/-- A derivation that is shown a signal follows it if that is new. -/
theorem track_eq (d : DerivationId) (s : SignalId) (w : World) :
    Derivation.track s (.recording d) run w =
      if s ∈ (w.derivations.get d).tracked then .ok ((), Derivation.learning d s w)
      else Derivation.follow d s run (Derivation.learning d s w) := by
  have tracked : ((Derivation.showing d s w).derivations.get d).tracked =
      (w.derivations.get d).tracked :=
    Heap.get_modify_same _ d d _ Derivation.tracked fun _ => rfl
  have read : Derivation.track s (.recording d) run w =
      (if ((Derivation.showing d s w).derivations.get d).tracked.contains s then pure ()
      else do
        modify (Derivation.seeing d s)
        Derivation.follow d s : Op Unit) run (Derivation.showing d s w) := rfl
  rw [read, tracked]
  by_cases known : s ∈ (w.derivations.get d).tracked
  · have same : Derivation.showing d s w = Derivation.learning d s w := by
      unfold Derivation.showing Derivation.learning
      rw [Heap.modify_congr]
      simp [known]
    rw [if_pos (List.contains_iff_mem.2 known), if_pos known, same]
    rfl
  · have same : Derivation.seeing d s (Derivation.showing d s w) = Derivation.learning d s w := by
      unfold Derivation.seeing Derivation.showing Derivation.learning
      simp only [Heap.modify_modify]
      rw [Heap.modify_congr]
      simp [known]
    rw [if_neg fun hc => known (List.contains_iff_mem.1 hc), if_neg known, ← same]
    rfl

omit [Balances run] in
theorem learning_balances (h : AtWork D d w) (earlier : s.index < (w.derivations.get d).output.index)
    {l : List SignalId} (bound : Bound d l w) :
    let w' := Derivation.learning d s w
    AtWork D d w' ∧
      Rises (w.derivations.get d).output.index (· = (w.derivations.get d).output) w w' ∧
      Bound d l w' := by
  intro w'
  have balanced : Balanced D NoNode w' := by
    refine cell_balanced h.toBalanced h.working _ (fun _ => rfl) (fun _ => rfl) (fun t ht => ?_) ?_
      fun sub hs => .inl hs
    · dsimp only at ht
      split at ht
      · exact .inl ht
      · rcases List.mem_append.1 ht with ht | ht
        · exact .inl ht
        · exact .inr (List.mem_singleton.1 ht ▸ earlier)
    · obtain ⟨nodup, seen⟩ := h.seen d
      dsimp only
      split
      case isTrue known =>
        refine ⟨nodup, fun t => ?_⟩
        rw [List.mem_cons, seen]
        exact ⟨fun ht => ht.elim (fun heq => heq ▸ known) id, .inr⟩
      case isFalse unknown =>
        refine ⟨?_, fun t => ?_⟩
        · rw [List.nodup_append]
          refine ⟨nodup, List.nodup_cons.2 ⟨List.not_mem_nil, List.nodup_nil⟩, fun t ht u hu heq => unknown ?_⟩
          rw [List.mem_singleton] at hu
          rw [← hu, ← heq]
          exact ht
        · rw [List.mem_cons, seen, List.mem_append, List.mem_singleton, or_comm]
  have dev : Develops w w' := (cell_evolves d
    (fun cell => { cell with
      shown := s :: cell.shown
      tracked := if s ∈ cell.tracked then cell.tracked else cell.tracked ++ [s] })
    (fun _ => rfl) (fun _ => rfl) w).develops rfl rfl
  have links : ∀ m t, links w' m t = links w m t :=
    dev.links_eq h.toLaid (fun _ => rfl) fun _ => rfl
  have subscriptions : (w'.derivations.get d).subscriptions = (w.derivations.get d).subscriptions :=
    Heap.get_modify_same _ d d _ Derivation.subscriptions fun _ => rfl
  refine ⟨h.next (.apart rfl rfl) balanced dev, ⟨dev, fun _ _ => rfl, fun m _ _ t => links m t,
    fun d' _ _ hd' => ?_, fun _ _ => rfl, fun _ hs => hs⟩, fun t => ?_, fun t e he => ?_⟩
  · exact Heap.get_modify_of_ne _ _ _ _ fun heq => hd' (by rw [heq])
  · rw [dev.output, links]
    exact bound.count t
  · rw [dev.output, links] at he
    obtain ⟨sub, hs, hc⟩ := bound.held t e he
    exact ⟨sub, subscriptions ▸ hs, hc⟩

/-- A derivation that is shown a signal stays subscribed once to each that it tracks. -/
theorem track_balances [KeptBy Delivers run] (h : AtWork D d w)
    (earlier : s.index < (w.derivations.get d).output.index)
    (bound : Bound d (w.derivations.get d).tracked w) :
    Ensures run (Derivation.track s (.recording d)) w fun _ w' =>
      Balanced D NoNode w' ∧
        Rises (w.derivations.get d).output.index (· = (w.derivations.get d).output) w w' ∧
        Bound d (w'.derivations.get d).tracked w' := by
  obtain ⟨h₁, rises₁, bound₁⟩ := learning_balances h earlier bound
  have tracked₁ : ((Derivation.learning d s w).derivations.get d).tracked =
      if s ∈ (w.derivations.get d).tracked then (w.derivations.get d).tracked
      else (w.derivations.get d).tracked ++ [s] :=
    congrArg Derivation.tracked (Heap.get_modify_self _ _ _ h.index_lt)
  intro _ w' hw'
  rw [track_eq] at hw'
  split at hw'
  case isTrue known =>
    cases hw'
    rw [if_pos known] at tracked₁
    exact ⟨h₁.toBalanced, rises₁, tracked₁ ▸ bound₁⟩
  case isFalse unknown =>
    rw [if_neg unknown] at tracked₁
    rw [← rises₁.output] at earlier
    obtain ⟨balanced₂, rises₂, bound₂, tracked₂⟩ := follow_balances h₁ earlier bound₁ unknown _ _ hw'
    rw [rises₁.output] at rises₂
    refine ⟨balanced₂, rises₁.trans rises₂, ?_⟩
    rw [tracked₂, tracked₁]
    exact bound₂

/-- By induction on the computation. -/
theorem reading_balances [KeptBy Delivers run] {r : Reading} {limit : Nat}
    {names : Ordered Name (SignalId × Role)} (hr : r.Grounded names limit)
    (hnames : w.names.signals = names) (h : AtWork D d w)
    (hlimit : limit = (w.derivations.get d).output.index)
    (bound : Bound d (w.derivations.get d).tracked w) :
    Ensures run (r.run (.recording d)) w fun _ w' =>
      Balanced D NoNode w' ∧ Rises limit (· = (w.derivations.get d).output) w w' ∧
        Bound d (w'.derivations.get d).tracked w' := by
  induction hr generalizing w with
  | done v => exact (ensures_pure ..).2 ⟨h.toBalanced, .refl w, bound⟩
  | @get t next earlier rest ih =>
    refine (ensures_bind ..).2 fun _ w₁ hw₁ => ?_
    obtain ⟨balanced₁, rises₁, bound₁⟩ := track_balances h (hlimit ▸ earlier) bound _ _ hw₁
    rw [← hlimit] at rises₁
    have h₁ : AtWork D d w₁ := h.next (keeps_track t _ w _ _ hw₁) balanced₁ rises₁.toDevelops
    refine (ensures_bind ..).2 ((ensures_get _).2 ?_)
    have hlimit₁ : limit = (w₁.derivations.get d).output.index := by
      rw [hlimit, rises₁.output]
    refine (ih _ (rises₁.names.trans hnames) h₁ hlimit₁ bound₁).mono ?_
    rintro v w₂ ⟨balanced₂, rises₂, bound₂⟩
    rw [rises₁.output] at rises₂
    exact ⟨balanced₂, rises₁.trans rises₂, bound₂⟩
  | @signal name t role next named rest ih =>
    refine (ensures_bind ..).2 ((ensures_get _).2 ?_)
    have lookup : require name (w.names.signals.get? name) = pure (t, role) := by
      rw [hnames, named]
      rfl
    rw [lookup]
    exact (ensures_bind ..).2 ((ensures_pure ..).2 (ih hnames h hlimit bound))
  | literal rest ih =>
    exact (ensures_bind ..).2 ((ensures_pure ..).2 (ih hnames h hlimit bound))
  | text rest ih => exact (ensures_bind ..).2 ((ensures_get _).2 (ih _ hnames h hlimit bound))

theorem followEach_balances [KeptBy Delivers run] {l done : List SignalId} (h : AtWork D d w)
    (earlier : ∀ t ∈ l, t.index < (w.derivations.get d).output.index) (bound : Bound d done w)
    (distinct : (done ++ l).Nodup) :
    Ensures run (l.forM (Derivation.follow d)) w fun _ w' =>
      Balanced D NoNode w' ∧
        Rises (w.derivations.get d).output.index (· = (w.derivations.get d).output) w w' ∧
        Bound d (done ++ l) w' ∧ (w'.derivations.get d).tracked = (w.derivations.get d).tracked := by
  induction l generalizing w done with
  | nil =>
    refine (ensures_pure ..).2 ⟨h.toBalanced, .refl w, ?_, rfl⟩
    rw [List.append_nil]
    exact bound
  | cons t l ih =>
    have new : t ∉ done := fun mem =>
      (List.nodup_append.1 distinct).2.2 t mem t List.mem_cons_self rfl
    refine (ensures_bind ..).2 fun _ w₁ hw₁ => ?_
    obtain ⟨balanced₁, rises₁, bound₁, tracked₁⟩ :=
      follow_balances h (earlier t List.mem_cons_self) bound new _ _ hw₁
    have h₁ : AtWork D d w₁ :=
      h.next (keeps_followSignal d t w _ _ hw₁) balanced₁ rises₁.toDevelops
    have rest : done ++ t :: l = done ++ [t] ++ l := by simp
    rw [rest] at distinct ⊢
    refine (ih h₁ (fun u hu => ?_) bound₁ distinct).mono ?_
    · rw [rises₁.output]
      exact earlier u (List.mem_cons_of_mem _ hu)
    · rintro _ w₂ ⟨balanced₂, rises₂, bound₂, tracked₂⟩
      rw [rises₁.output] at rises₂
      exact ⟨balanced₂, rises₁.trans rises₂, bound₂, tracked₂.trans tracked₁⟩

omit [Balances run] in
/-- A write to a signal without subscribers is told to nobody. -/
theorem write_hushed (nobody : (w.signals.get s).subscribers = []) (value : Option Value) :
    Ensures run (Signal.write s value) w fun _ w' => Hushed s w w' := by
  refine (ensures_bind ..).2 ((ensures_get _).2 ?_)
  split
  case isTrue => exact (ensures_pure ..).2 (.refl w)
  case isFalse =>
    intro _ w' hw'
    have silent : ((Signal.changed s value w).signals.get s).subscribers = [] := by
      have same := Heap.get_modify_same w.signals s s
        (fun signal => .bumped { signal with value }) Signal.subscribers fun _ => rfl
      exact same.trans nobody
    rw [replace_eq, tellAll_nobody silent] at hw'
    cases hw'
    exact ⟨changed_same s value w, fun t ht => Heap.get_modify_of_ne _ _ _ _ (Ne.symm ht), rfl⟩

/-- A derived signal that is started subscribes to all that it was ever seen to read, and to what its
first computation reads on top of that. -/
theorem startDerivation_balances [KeptBy Delivers run] (h : AtWork D d w)
    (nobody : (w.signals.get (w.derivations.get d).output).subscribers = [])
    (unlinked : ∀ t, links w (w.derivations.get d).output t = []) :
    Ensures run (Derivation.start d) w fun t w' =>
      Balanced D NoNode w' ∧
        Rises ((w.derivations.get d).output.index + 1) (· = (w.derivations.get d).output) w w' ∧
        Bound d (w'.derivations.get d).tracked w' ∧ Leads (· = .release d) t w' ∧
          w'.subscriptions.get t = some (.release d) := by
  have bound : Bound d [] w := by
    constructor
    · intro t
      simp [unlinked]
    · intro t e he
      rw [unlinked] at he
      cases he
  refine (ensures_bind ..).2 ((ensures_get _).2 ((ensures_bind ..).2 ?_))
  intro _ w₁ hw₁
  have makes := h.producers _ _ h.real
  obtain ⟨balanced₁, rises₁, bound₁, tracked₁⟩ :=
    followEach_balances h makes.2.2.2 bound (h.seen d).1 _ _ hw₁
  have h₁ : AtWork D d w₁ :=
    h.next (keeps_forM (keeps_followSignal d) w _ _ hw₁) balanced₁ rises₁.toDevelops
  rw [List.nil_append, ← tracked₁] at bound₁
  refine (ensures_bind ..).2 ((ensures_bind ..).2 ((ensures_get _).2 ((ensures_bind ..).2 ?_)))
  intro v w₂ hw₂
  have pure := (h₁.producers _ _ h₁.real).2.2.1
  obtain ⟨balanced₂, rises₂, bound₂⟩ := reading_balances pure rfl h₁ rfl bound₁ _ _ hw₂
  have h₂ : AtWork D d w₂ := h₁.next (keeps_reading _ _ w₁ _ _ hw₂) balanced₂ rises₂.toDevelops
  rw [rises₁.output] at rises₂ ⊢
  have alone : (w₂.signals.get (w.derivations.get d).output).subscribers = [] := by
    rw [rises₂.above _ (Nat.le_refl _), rises₁.above _ (Nat.le_refl _), nobody]
  refine (write_hushed alone (some v)).mono ?_
  rintro _ w₃ hushed
  have rises₃ := hushed.rises (O := (· = (w.derivations.get d).output)) balanced₂.toLaid
  simp only [Subscription.create, ensures_bind, ensures_get, ensures_set, ensures_pure]
  have balanced₃ : Balanced D NoNode w₃ := hushed.balanced balanced₂
  have same₄ : Same w₃ (Subscription.made (.release d) w₃) := made_same _ w₃
  have same : Same w₂ (Subscription.made (.release d) w₃) := hushed.toSame.trans same₄
  have rises := (rises₁.trans rises₂).mono (Nat.le_succ _) fun _ _ ho => ho
  have bound₄ := bound₂.same balanced₂.toLaid same
  have cell : (Subscription.made (.release d) w₃).derivations = w₂.derivations := same.derivations'
  rw [← cell] at bound₄
  exact ⟨same₄.balanced balanced₃ fun _ _ hn => .inl hn,
    (rises.trans rises₃).trans (.of_same same₄ balanced₃.toLaid fun _ _ => rfl), bound₄,
    made_leads _ rfl, Heap.get_push_next ..⟩

/-! Matches. -/

omit [Balances run] in
/-- What a match does with a value keeps whatever its parts keep. -/
theorem offer_keeps {I : World → Prop} {a : ActivationId}
    (output : (w.branches.get (w.activations.get a).branch).output = n)
    (idling : ∀ w₁ w₂, I w₁ → Idling w₁ w₂ → I w₂)
    (flag : ∀ w₁ inFallback, I w₁ →
      Ensures run (Branch.setInFallback a inFallback) w₁ fun _ w₂ => I w₂)
    (record : ∀ w₁ (d : Deed), d.branch = (w.activations.get a).branch → I w₁ →
      Ensures run (Branch.record d) w₁ fun _ w₂ => I w₂)
    (write : ∀ w₁ value, I w₁ → Ensures run (Signal.write n value) w₁ fun _ w₂ => I w₂)
    (h : I w) (v : Value) : Ensures run (Branch.offer a v) w fun _ w' => I w' := by
  refine (ensures_bind ..).2 ((ensures_get _).2 ?_)
  dsimp only
  rw [output]
  split
  case h_1 f _ =>
    refine (ensures_bind ..).2 ((flag w false h).mono fun _ w₁ h₁ => (ensures_bind ..).2 ?_)
    refine (Idle.handle (R := Idling) f v w₁).mono fun u w₂ idle => (ensures_bind ..).2 ?_
    exact (record w₂ _ rfl (idling _ _ h₁ idle)).mono fun _ w₃ h₃ => write w₃ (some u) h₃
  case h_2 =>
    split
    case h_1 f _ =>
      split
      case isTrue =>
        exact (ensures_bind ..).2 ((record w _ rfl h).mono fun _ w₁ h₁ => flag w₁ true h₁)
      case isFalse =>
        refine (ensures_bind ..).2 ((Idle.fallBack (R := Idling) f _ w).mono fun u w₁ idle => ?_)
        refine (ensures_bind ..).2 ((record w₁ _ rfl (idling _ _ h idle)).mono fun _ w₂ h₂ => ?_)
        exact (ensures_bind ..).2 ((write w₂ (some u) h₂).mono fun _ w₃ h₃ => flag w₃ true h₃)
    case h_2 =>
      refine (ensures_bind ..).2 ((record w _ rfl h).mono fun _ w₁ h₁ => (ensures_bind ..).2 ?_)
      exact (write w₁ none h₁).mono fun _ w₂ h₂ => flag w₂ true h₂

omit [Balances run] in
/-- What a match does with a value keeps whatever its callbacks and the writes to its output keep. -/
theorem offer_ensures {I : World → Prop} {a : ActivationId}
    (output : (w.branches.get (w.activations.get a).branch).output = n)
    (beside : ∀ w₁ w₂, I w₁ → Beside w₁ w₂ → I w₂)
    (write : ∀ w₁ value, I w₁ → Ensures run (Signal.write n value) w₁ fun _ w₂ => I w₂)
    (h : I w) (v : Value) : Ensures run (Branch.offer a v) w fun _ w' => I w' := by
  refine offer_keeps output (fun w₁ w₂ h₁ idling => beside w₁ w₂ h₁ idling.toBeside)
    (fun w₁ inFallback h₁ => ?_) (fun w₁ d _ h₁ => ?_) write h v
  · exact (setInFallback_beside a inFallback run w₁).mono fun _ w₂ hb => beside w₁ w₂ h₁ hb
  · exact (record_beside d run w₁).mono fun _ w₂ hb => beside w₁ w₂ h₁ hb

omit [Balances run] in
/-- A match that nobody listens to tells nobody. -/
theorem offer_hushed {a : ActivationId}
    (output : (w.branches.get (w.activations.get a).branch).output = n)
    (nobody : (w.signals.get n).subscribers = []) (v : Value) :
    Ensures run (Branch.offer a v) w fun _ w' => Hushed n w w' := by
  refine offer_ensures (I := Hushed n w) output (fun w₁ w₂ h₁ hb => h₁.trans (.of_beside hb))
    (fun w₁ value h₁ => ?_) (.refl w) v
  refine (write_hushed ?_ value).mono fun _ w₂ h₂ => h₁.trans h₂
  rw [h₁.subscribers]
  exact nobody

/-- The world in which a match that is being started has joined its source, for a new period. -/
abbrev Branch.joined (b : BranchId) (w w₂ : World) : World :=
  Signal.entered (w.branches.get b).source (.branch w.activations.next) .immediate w₂

/-- The world in which it is shown the value of its source. -/
abbrev Branch.shown (b : BranchId) (w w₂ : World) : World :=
  Signal.greeted (w.branches.get b).source w₂.entries.next (Branch.joined b w w₂)

/-- The start of a match that makes the signal `n`. Its source is started first, which leads to `w₂`,
and the value is offered before anybody listens to the match, which leads to `w₅`. -/
structure Begins (run : Runner) (D : SignalId → Prop) (b : BranchId) (n : SignalId) (w w₂ w₅ : World) :
    Prop where
  earlier : (w.branches.get b).source.index < n.index
  woken : Signal.wake (w.branches.get b).source run (Branch.activated b w) = .ok ((), w₂)
  poised₁ : Poised D NoNode (Branch.activated b w)
  poised₂ : Poised D (· = (w.branches.get b).source) w₂
  rises₁ : Rises (n.index + 1) (· = n) w (Branch.activated b w)
  rises₂ : Rises ((w.branches.get b).source.index + 1) NoNode (Branch.activated b w) w₂
  proper : Reaction.Proper w₂ (.branch w.activations.next)
  node : Reaction.node? w₂ (.branch w.activations.next) = some n
  balanced₃ : Balanced D NoNode (Branch.joined b w w₂)
  rises₃ : Rises n.index (· = n) w₂ (Branch.joined b w w₂)
  links : ∀ t, links (Branch.joined b w w₂) n t =
    links w₂ n t ++ if (w.branches.get b).source = t then [w₂.entries.next] else []
  alone : ((Branch.shown b w w₂).signals.get n).subscribers = []
  offered : run (.react (.branch w.activations.next)
      (Signal.content (Branch.joined b w w₂) (w.branches.get b).source))
    (Branch.shown b w w₂) = .ok ((), w₅)

theorem startBranch_begins [KeptBy Delivers run] {b : BranchId} (h : Poised D NoNode w) (hn : D n)
    (last : ∀ m, D m → n.index ≤ m.index)
    (produced : (w.signals.get n).producer = some (.branch b))
    (nobody : (w.signals.get n).subscribers = []) :
    Ensures run (Branch.start b) w fun t w' => ∃ w₂ w₅, Begins run D b n w w₂ w₅ ∧
      t = w₅.subscriptions.next ∧
        w' = Subscription.made (.entry (w.branches.get b).source w₂.entries.next) w₅ := by
  obtain ⟨-, output, earlier⟩ := h.producers n _ produced
  let source := (w.branches.get b).source
  let a := w.activations.next
  let w₁ := Branch.activated b w
  have same₁ : Same w w₁ := activated_same b w
  have h₁ : Poised D NoNode w₁ :=
    h.next (.apart rfl rfl) (same₁.balanced h.toBalanced fun _ _ hs => .inl hs)
  have rises₁ : Rises (n.index + 1) (· = n) w w₁ := .of_same same₁ h.toLaid fun _ _ => rfl
  have cell : w₁.activations.get a = ⟨b, false⟩ := Heap.get_push_next ..
  have proper₁ : Reaction.Proper w₁ (.branch a) := by
    refine ⟨?_, ?_⟩
    · simp [w₁, a, Branch.activated, Heap.next]
    · rw [cell]
      exact (congrArg (fun s => (w.signals.get s).producer) output).trans produced
  have node₁ : Reaction.node? w₁ (.branch a) = some n := by
    simp only [Reaction.node?, cell]
    exact congrArg some output
  refine (ensures_bind ..).2 ((ensures_get _).2 ((ensures_bind ..).2 ((ensures_set ..).2 ?_)))
  refine (ensures_bind ..).2 fun _ w₂ hw₂ => ?_
  have later : source.index + 1 ≤ n.index := earlier
  obtain ⟨balanced₂, rises₂, running⟩ := wake_balances h₁
    (fun hs => Nat.not_le_of_lt earlier (last _ hs))
    (fun m hm => Nat.lt_of_lt_of_le earlier (last m hm)) _ _ hw₂
  have h₂ : Poised D (· = source) w₂ := h₁.next (keeps_wake source w₁ _ _ hw₂) balanced₂
  have proper₂ := rises₂.proper proper₁
  have node₂ := (rises₂.node? proper₁).trans node₁
  have valid : source.index < w₂.signals.size := by
    rw [rises₂.signals]
    refine Nat.lt_trans earlier (index_lt_of_ne (w := w) Signal.producer fun heq => ?_)
    rw [produced] at heq
    cases heq
  let e := w₂.entries.next
  let w₃ := Signal.entered source (.branch a) .immediate w₂
  let w₄ := Signal.greeted source e w₃
  obtain ⟨balanced₃, rises₃, links₃⟩ : Balanced D NoNode w₃ ∧ Rises n.index (· = n) w₂ w₃ ∧
      ∀ t, links w₃ n t = links w₂ n t ++ if source = t then [e] else [] :=
    entered_rises h₂ hn earlier valid .immediate proper₂ node₂ running
  have ne : source ≠ n := fun heq => Nat.lt_irrefl _ (heq ▸ earlier)
  have alone : (w₄.signals.get n).subscribers = [] := by
    have same₄ : w₄.signals.get n = w₃.signals.get n := Heap.get_modify_of_ne _ _ _ _ ne
    rw [same₄, rises₃.above n (Nat.le_refl _), rises₂.above n later]
    exact nobody
  simp only [Signal.join, Signal.enter, Signal.greet, modifySignal, Subscription.create, ensures_bind,
    ensures_get, ensures_set, ensures_pure, if_true, ensures_modify, ensures_invoke]
  intro w₅ hw₅
  have content : Signal.content w₄ source = Signal.content w₃ source :=
    Heap.get_modify_same _ source source _ Signal.value fun _ => rfl
  have offered : run (.react (.branch a) (Signal.content w₄ source)) w₄ = .ok ((), w₅) := hw₅
  rw [content] at offered
  exact ⟨w₂, w₅, ⟨earlier, hw₂, h₁, h₂, rises₁, rises₂, proper₂, node₂, balanced₃, rises₃, links₃, alone,
    offered⟩, rfl, rfl⟩

/-- A match that is started subscribes to its source, which shows it the present value. -/
theorem startBranch_balances [KeptBy Delivers run] {b : BranchId} (h : Poised D NoNode w) (hn : D n)
    (last : ∀ m, D m → n.index ≤ m.index)
    (produced : (w.signals.get n).producer = some (.branch b))
    (nobody : (w.signals.get n).subscribers = []) :
    Ensures run (Branch.start b) w fun t w' =>
      Balanced D NoNode w' ∧ Rises (n.index + 1) (· = n) w w' ∧
        ∃ a e, Joins n (w.branches.get b).source (.branch a) t e w w' ∧
          Reaction.node? w' (.branch a) = some n := by
  refine (startBranch_begins h hn last produced nobody).mono ?_
  rintro _ _ ⟨w₂, w₅, begins, rfl, rfl⟩
  let source := (w.branches.get b).source
  let a := w.activations.next
  let e := w₂.entries.next
  let w₃ := Signal.entered source (.branch a) .immediate w₂
  let w₄ := Signal.greeted source e w₃
  have later : source.index + 1 ≤ n.index := begins.earlier
  have rises₂ := begins.rises₂
  have balanced₃ : Balanced D NoNode w₃ := begins.balanced₃
  have same₄ : Same w₃ w₄ := greeted_same source e w₃
  have balanced₄ : Balanced D NoNode w₄ := same₄.balanced balanced₃ fun _ _ hs => .inl hs
  have rises₄ : Rises (n.index + 1) (· = n) w₃ w₄ :=
    .of_same same₄ balanced₃.toLaid fun t ht => Heap.get_modify_of_ne _ _ _ _ fun heq => by
      subst heq
      omega
  have known : e.index < w₃.entries.size := by
    simp [w₃, e, Signal.entered, Heap.next]
  have output₄ : (w₄.branches.get (w₄.activations.get a).branch).output = n :=
    Option.some.inj begins.node
  have hushed : Hushed n w₄ w₅ := Balances.unheard output₄ begins.alone begins.offered
  have balanced₅ := hushed.balanced balanced₄
  have same₆ := made_same (.entry source e) w₅
  have same : Same w₃ (Subscription.made (.entry source e) w₅) :=
    (same₄.trans hushed.toSame).trans same₆
  have rises : Rises (n.index + 1) (· = n) w w₃ :=
    (begins.rises₁.trans (rises₂.mono (Nat.le_succ_of_le later) fun _ _ ho => ho.elim)).trans
      (begins.rises₃.mono (Nat.le_succ _) fun _ _ ho => ho)
  refine ⟨same₆.balanced balanced₅ fun _ _ hs => .inl hs,
    ((rises.trans rises₄).trans (hushed.rises balanced₄.toLaid)).trans
      (.of_same same₆ balanced₅.toLaid fun _ _ => rfl), a, e, ⟨fun t => ?_, ?_, ?_, ?_, ?_⟩, ?_⟩
  · rw [← (activated_same b w).links_eq h.toLaid, ← rises₂.links n later id, ← begins.links]
    exact same.links_eq balanced₃.toLaid n t
  · exact Nat.lt_of_lt_of_le known same.entries
  · exact (same.reactions e).trans (entered_reaction source (.branch a) .immediate)
  · exact Nat.lt_of_lt_of_eq (Nat.lt_succ_self _) (Heap.size_push ..).symm
  · exact Heap.get_push_next ..
  · exact (same.node? (begins.rises₃.proper begins.proper)).trans
      ((begins.rises₃.node? begins.proper).trans begins.node)

/-! Any node. -/

omit [Balances run] in
theorem flags_rises (h : Laid w) (started : Signal → Bool)
    (teardown : Signal → Option SubscriptionId) {O : SignalId → Prop}
    (on : ∀ signal : Signal, signal.started = true → started signal = true) :
    Rises (s.index + 1) O w { w with signals := w.signals.modify s fun signal =>
      { signal with started := started signal, teardown := teardown signal } } := by
  have dev := (flags_evolves s started teardown w).develops rfl rfl
  refine ⟨dev, fun t ht => ?_, fun m _ _ t => ?_, fun _ _ _ _ => rfl, fun _ _ => rfl, fun t ht => ?_⟩
  · refine Heap.get_modify_of_ne _ _ _ _ fun heq => ?_
    subst heq
    omega
  · exact dev.links_eq h (fun t => Heap.get_modify_same _ s t _ Signal.subscribers fun _ => rfl)
      (fun _ => rfl) m t
  · exact Heap.get_modify_of _ _ _ _ (fun signal : Signal => signal.started = true) on ht

omit [Balances run] in
/-- A node is done starting when it knows what to cancel when it stops. -/
theorem tended_balanced (h : Balanced (fun m => D m ∨ m = s) NoNode w)
    (started : (w.signals.get s).started = true) {t : SubscriptionId} {c : Cancel}
    (leads : Leads (OfNode s w) t w) (handle : w.subscriptions.get t = some c)
    (takes : ∀ u, ∀ e ∈ links w s u, Takes w u e c)
    (linked : ∀ u, (links w s u).length = if u ∈ needs w s then 1 else 0) :
    Balanced D (· = s) (Signal.tended s t w) := by
  have balanced : Balanced (fun m => D m ∨ m = s) NoNode (Signal.tended s t w) := by
    refine flags_balanced h (.inr rfl) Signal.started (fun _ => some t) (fun _ _ => started)
      (h.idle s) ?_
    rintro _ ⟨⟩
    exact .inr leads
  have dev := (flags_evolves s Signal.started (fun _ => some t) w).develops rfl rfl
  have links : ∀ u, links (Signal.tended s t w) s u = links w s u :=
    dev.links_eq h.toLaid (fun u => Heap.get_modify_same _ s u _ Signal.subscribers fun _ => rfl)
      (fun _ => rfl) s
  have same : ((Signal.tended s t w).signals.get s).started = true :=
    (Heap.get_modify_same w.signals s s (fun signal => { signal with teardown := some t })
      Signal.started fun _ => rfl).trans started
  have producer : ((Signal.tended s t w).signals.get s).producer = (w.signals.get s).producer :=
    dev.producer s
  have valid : s.index < w.signals.size :=
    index_lt_of_ne Signal.started fun heq => nomatch started.symm.trans heq
  refine balanced.settle (fun no => absurd rfl no) (fun _ hm => hm.elim) (fun u => ?_) fun _ => ?_
  · have same' : needs (Signal.tended s t w) s = needs w s := by
      unfold needs
      rw [producer]
      rfl
    rw [links, same', same, linked]
    simp
  · refine ⟨t, c, congrArg Signal.teardown (Heap.get_modify_self _ _ _ valid), handle, fun u e he => ?_⟩
    rw [links] at he
    exact takes u e he

omit [Balances run] in
/-- A node that counts as started while it is being started. -/
theorem begun_poised (h : Poised D NoNode w) (produced : (w.signals.get s).producer ≠ none) :
    Poised (fun m => D m ∨ m = s) NoNode (Signal.begun s w) := by
  have more : Balanced (fun m => D m ∨ m = s) NoNode w :=
    h.toBalanced.mono (fun _ => .inl) fun _ hm => hm.elim
  refine ⟨flags_balanced more (.inr rfl) (fun _ => true) Signal.teardown (fun _ _ => rfl)
    (fun no => absurd no produced) (fun t ht => .inl ht), ?_⟩
  exact (flags_delivers s (fun _ => true) Signal.teardown h.faithful).faithful

omit [Balances run] in
theorem begun_unlinked (h : Poised D NoNode w) (out : ¬ D s)
    (idle : (w.signals.get s).started = false) (t : SignalId) :
    links (Signal.begun s w) s t = [] := by
  have begun : Rises (s.index + 1) NoNode w (Signal.begun s w) :=
    flags_rises h.toLaid (fun _ => true) Signal.teardown fun _ _ => rfl
  rw [begun.toDevelops.links_eq h.toLaid
    (fun u => Heap.get_modify_same _ s u _ Signal.subscribers fun _ => rfl) (fun _ => rfl)]
  exact h.links_eq_nil out idle t

/-- A node is started while later ones are being started. By cases on its producer. -/
theorem activate_balances [KeptBy Delivers run] (h : Poised D NoNode w) (out : ¬ D s)
    (produced : (w.signals.get s).producer ≠ none) (nobody : (w.signals.get s).subscribers = [])
    (idle : (w.signals.get s).started = false) (before : ∀ n, D n → s.index < n.index) :
    Ensures run (Signal.activate s) w fun _ w' =>
      Balanced D (· = s) w' ∧ Rises (s.index + 1) NoNode w w' ∧
        (w'.signals.get s).started = true := by
  obtain ⟨p, hp⟩ := Option.ne_none_iff_exists'.1 produced
  have valid : s.index < w.signals.size := index_lt_of_ne Signal.producer produced
  let D' : SignalId → Prop := fun m => D m ∨ m = s
  let w₁ := Signal.begun s w
  have rises₁ : Rises (s.index + 1) (· = s) w w₁ := flags_rises h.toLaid (fun _ => true) Signal.teardown fun _ _ => rfl
  have h₁ : Poised D' NoNode w₁ := begun_poised h produced
  have self : w₁.signals.get s = { w.signals.get s with started := true } :=
    Heap.get_modify_self _ _ _ valid
  have nobody₁ : (w₁.signals.get s).subscribers = [] := by
    rw [self]
    exact nobody
  have unlinked : ∀ t, links w₁ s t = [] := begun_unlinked h out idle
  have last : ∀ m, D' m → s.index ≤ m.index := by
    rintro m (hm | rfl)
    · exact Nat.le_of_lt (before m hm)
    · exact Nat.le_refl _
  refine (ensures_bind ..).2 ((ensures_get _).2 ?_)
  rw [hp]
  refine (ensures_bind ..).2 ((ensures_modify ..).2 ((ensures_bind ..).2 ?_))
  -- What is left is the same for every producer once its links are known.
  have finish : ∀ {w₂ : World} {t : SubscriptionId} {c : Cancel}, Balanced D' NoNode w₂ →
      Rises (s.index + 1) (· = s) w₁ w₂ → OfNode s w₂ c → t.index < w₂.subscriptions.size → w₂.subscriptions.get t = some c →
      (∀ u, ∀ e ∈ links w₂ s u, Takes w₂ u e c) →
      (∀ u, (links w₂ s u).length = if u ∈ needs w₂ s then 1 else 0) →
      Balanced D (· = s) (Signal.tended s t w₂) ∧ Rises (s.index + 1) NoNode w (Signal.tended s t w₂) ∧
        ((Signal.tended s t w₂).signals.get s).started = true := by
    intro w₂ t c balanced₂ rises₂ of made handle takes linked
    have started : (w₂.signals.get s).started = true := by
      refine rises₂.started s ?_
      rw [self]
    refine ⟨tended_balanced balanced₂ started ⟨made, fun c' hc' => ?_⟩ handle takes linked, ?_, ?_⟩
    · rw [handle] at hc'
      exact Option.some.inj hc' ▸ of
    · refine ((rises₁.trans rises₂).trans
        (flags_rises balanced₂.toLaid Signal.started (fun _ => some t) fun _ hs => hs)).mono (Nat.le_refl _) ?_
      rintro m hm rfl
      omega
    · exact (Heap.get_modify_same w₂.signals s s (fun signal => { signal with teardown := some t })
        Signal.started fun _ => rfl).trans started
  cases p with
  | derivation d =>
    obtain ⟨real, output⟩ := h.toLaid.real_of_producer hp
    have output₁ : (w₁.derivations.get d).output = s := output
    have work : AtWork D' d w₁ := by
      refine ⟨h₁, ?_, rises₁.real.2 real, ?_⟩
      · rw [output₁]
        exact .inr rfl
      · rw [output₁]
        exact last
    rw [← output₁] at nobody₁ unlinked
    refine (startDerivation_balances work nobody₁ unlinked).mono ?_
    rw [output₁]
    rintro t w₂ ⟨balanced₂, rises₂, bound, leads, handle⟩
    have producer₂ : (w₂.signals.get s).producer = some (.derivation d) :=
      ((rises₁.trans rises₂).producer s).trans hp
    have output₂ : (w₂.derivations.get d).output = s := (rises₂.output d).trans output₁
    refine (ensures_modify ..).2 (finish balanced₂ rises₂ (.inl ⟨d, rfl, producer₂⟩) leads.1 handle
      (fun u e he => bound.held u e (by rwa [output₂])) fun u => ?_)
    rw [← output₂, bound.count, output₂]
    simp only [needs_of_derivation balanced₂.toLaid producer₂]
  | branch b =>
    have produced₁ : (w₁.signals.get s).producer = some (.branch b) := (rises₁.producer s).trans hp
    refine (startBranch_balances h₁ (.inr rfl) last produced₁ nobody₁).mono ?_
    rintro t w₂ ⟨balanced₂, rises₂, a, e, joins, node⟩
    have producer₂ : (w₂.signals.get s).producer = some (.branch b) := (rises₂.producer s).trans produced₁
    have links : ∀ u, links w₂ s u = if (w₁.branches.get b).source = u then [e] else [] := by
      intro u
      rw [joins.links, unlinked, List.nil_append]
    have of : OfNode s w₂ (.entry (w₁.branches.get b).source e) := by
      refine .inr ⟨_, e, b, rfl, joins.known, ?_, producer₂⟩
      rw [joins.reaction]
      exact node
    refine (ensures_modify ..).2 (finish balanced₂ rises₂ of joins.made joins.handle
      (fun u e' he => ?_) fun u => ?_)
    · rw [links] at he
      split at he
      case isTrue here => exact ⟨here, (List.mem_singleton.1 he).symm⟩
      case isFalse => cases he
    · simp only [links, needs_of_branch producer₂, rises₂.branches, List.mem_singleton]
      by_cases here : (w₁.branches.get b).source = u
      · simp [here]
      · simp [here, Ne.symm here]
  | script name start stop => exact (h.producers s _ hp).elim

end

end LiveMarkup.Live
