import LiveMarkup.Proofs.Network
import LiveMarkup.Proofs.Consistency

/-!
Upstream subscriptions: when nothing is under way, a node of a network is started while it has
subscribers, and then it is subscribed exactly once to each signal that it depends on. How many
subscribers the signals have is therefore settled by who is subscribed from outside.
-/
namespace LiveMarkup.Live

/-! Signals that are added to a network. -/

/-- A signal was added, with the cells that its producer needs and that nothing happened to yet. -/
structure Adds (value : Option Value) (producer : Option Producer) (w w' : World) : Prop where
  signals : w'.signals = w.signals.push (.fresh value producer)
  entries : w'.entries = w.entries
  subscriptions : w'.subscriptions = w.subscriptions
  activations : w'.activations = w.activations
  subscriptionNames : w'.names.subscriptions = w.names.subscriptions
  derivation : ∀ d, d.index < w.derivations.size → w'.derivations.get d = w.derivations.get d
  derivations : w.derivations.size ≤ w'.derivations.size
  unused : ∀ d, w.derivations.size ≤ d.index → (w'.derivations.get d).tracked = [] ∧
    (w'.derivations.get d).shown = [] ∧ (w'.derivations.get d).subscriptions = []
  branch : ∀ b, b.index < w.branches.size → w'.branches.get b = w.branches.get b
  branches : w.branches.size ≤ w'.branches.size
  names : Extends w.names.signals w'.names.signals
  made : ∀ name s role, w'.names.signals.get? name = some (s, role) → s.index < w'.signals.size
  makes : ∀ p, producer = some p → p.Makes w' w.signals.next
  deeds : w'.deeds = w.deeds
  writable : ∀ name s, w'.names.signals.get? name = some (s, .writable) →
    w.names.signals.get? name = some (s, .writable) ∨ s = w.signals.next ∧ producer = none
  founded : ∀ b, b.index < w'.branches.size → b.index < w.branches.size ∨
    value = none ∧ producer = some (.branch b) ∧ (w'.branches.get b).output = w.signals.next

namespace Adds
variable {value : Option Value} {producer : Option Producer} {w w' : World} {n s : SignalId}
  {r : Reaction}

theorem old (h : Adds value producer w w') (hs : s ≠ w.signals.next) :
    w'.signals.get s = w.signals.get s := by
  rw [h.signals]
  exact Heap.get_push_of_ne _ _ _ hs

theorem new (h : Adds value producer w w') :
    w'.signals.get w.signals.next = .fresh value producer := by
  rw [h.signals]
  exact Heap.get_push_next ..

/-- The new signal has as few subscribers as it had before it was made. -/
theorem subscribers (h : Adds value producer w w') (s : SignalId) :
    (w'.signals.get s).subscribers = (w.signals.get s).subscribers := by
  by_cases hs : s = w.signals.next
  · subst hs
    rw [h.new, Heap.get_next]
    rfl
  · rw [h.old hs]

theorem producer_of (h : Adds value producer w w') {p : Producer}
    (hp : (w.signals.get n).producer = some p) : (w'.signals.get n).producer = some p := by
  refine (congrArg Signal.producer (h.old ?_)).trans hp
  rintro rfl
  rw [Heap.get_next] at hp
  cases hp

theorem makes_of (h : Adds value producer w w') {p : Producer} (makes : p.Makes w n) :
    p.Makes w' n := by
  cases p with
  | derivation d =>
    obtain ⟨valid, output, grounded, earlier⟩ := makes
    simp only [Producer.Makes, h.derivation d valid]
    exact ⟨Nat.lt_of_lt_of_le valid h.derivations, output, grounded.mono h.names, earlier⟩
  | branch b =>
    obtain ⟨valid, made⟩ := makes
    simp only [Producer.Makes, h.branch b valid]
    exact ⟨Nat.lt_of_lt_of_le valid h.branches, made⟩
  | script name start stop => exact makes

/-- What a subscriber works for, and that it may, do not depend on what is new. -/
theorem proper (h : Adds value producer w w') (laid : Laid w) (proper : r.Proper w) :
    r.Proper w' ∧ r.node? w' = r.node? w := by
  cases r with
  | refresh d =>
    have real : Real d w := proper
    have same := h.derivation d (laid.producers _ _ real).1
    have output : (w'.derivations.get d).output = (w.derivations.get d).output := by rw [same]
    refine ⟨?_, congrArg some output⟩
    simp only [Reaction.Proper, Real, output]
    exact h.producer_of real
  | branch a =>
    obtain ⟨made, branch⟩ := proper
    have same := h.branch _ (laid.producers _ _ branch).1
    simp only [Reaction.Proper, Reaction.node?, h.activations, same]
    exact ⟨⟨made, h.producer_of branch⟩, trivial⟩
  | told name script => exact ⟨proper, rfl⟩
  | followed name script => exact ⟨proper, rfl⟩
  | effect node e => exact ⟨proper, rfl⟩

theorem node?_eq (h : Adds value producer w w') (laid : Laid w) (e : EntryId) :
    (w'.entries.get e).reaction.node? w' = (w.entries.get e).reaction.node? w := by
  rw [h.entries]
  exact (h.proper laid (laid.reactions e)).2

theorem links_eq (h : Adds value producer w w') (laid : Laid w) (n s : SignalId) :
    links w' n s = links w n s := by
  unfold links
  rw [h.subscribers]
  exact List.filter_congr fun e _ => by rw [h.node?_eq laid]

theorem needs_eq (h : Adds value producer w w') (laid : Laid w) (hn : n ≠ w.signals.next) :
    needs w' n = needs w n := by
  unfold needs
  rw [h.old hn]
  cases hp : (w.signals.get n).producer with
  | none => rfl
  | some p =>
    have makes := laid.producers n p hp
    cases p with
    | derivation d => simp only [Option.elim, Producer.needs, h.derivation d makes.1]
    | branch b => simp only [Option.elim, Producer.needs, h.branch b makes.1]
    | script name start stop => rfl

theorem leads (h : Adds value producer w w') {P P' : Cancel → Prop} {sub : SubscriptionId}
    (leads : Leads P sub w) (imp : ∀ c, P c → P' c) : Leads P' sub w' := by
  unfold Leads
  rw [h.subscriptions]
  exact ⟨leads.1, fun c hc => imp c (leads.2 c hc)⟩

theorem ofNode (h : Adds value producer w w') (laid : Laid w) {c : Cancel} (hc : OfNode n w c) :
    OfNode n w' c := by
  rcases hc with ⟨d, rfl, hd⟩ | ⟨s, e, b, rfl, known, node, hb⟩
  · exact .inl ⟨d, rfl, h.producer_of hd⟩
  · refine .inr ⟨s, e, b, rfl, h.entries ▸ known, ?_, h.producer_of hb⟩
    rw [h.node?_eq laid]
    exact node

theorem laid (h : Adds value producer w w') (laid : Laid w) : Laid w' := by
  have cell : ∀ d, w'.derivations.get d = w.derivations.get d ∨
      (w'.derivations.get d).tracked = [] ∧ (w'.derivations.get d).shown = [] ∧
        (w'.derivations.get d).subscriptions = [] := by
    intro d
    rcases Nat.lt_or_ge d.index w.derivations.size with valid | invalid
    · exact .inl (h.derivation d valid)
    · exact .inr (h.unused d invalid)
  constructor
  · intro n p hp
    by_cases hn : n = w.signals.next
    · subst hn
      rw [h.new] at hp
      exact h.makes p hp
    · rw [h.old hn] at hp
      exact h.makes_of (laid.producers n p hp)
  · exact h.made
  · intro d
    rcases cell d with same | ⟨tracked, shown, -⟩
    · rw [same]
      exact laid.seen d
    · rw [tracked, shown]
      exact ⟨List.nodup_nil, fun t => Iff.rfl⟩
  · intro e
    rw [h.entries]
    exact (h.proper laid (laid.reactions e)).1
  · intro name sub hn
    rw [h.subscriptionNames] at hn
    refine h.leads (laid.named name sub hn) ?_
    rintro _ ⟨s, e, name, script, rfl, known, reaction⟩
    refine ⟨s, e, name, script, rfl, ?_⟩
    rw [h.entries]
    exact ⟨known, reaction⟩
  · intro d sub hs
    rcases cell d with same | ⟨-, -, nothing⟩
    · rw [same] at hs
      refine h.leads (laid.held d sub hs) ?_
      rintro _ ⟨s, e, rfl, known, reaction⟩
      refine ⟨s, e, rfl, ?_⟩
      rw [h.entries]
      exact ⟨known, reaction⟩
    · rw [nothing] at hs
      cases hs
  · intro n t ht
    by_cases hn : n = w.signals.next
    · subst hn
      rw [h.new] at ht
      cases ht
    · rw [h.old hn] at ht
      exact h.leads (laid.teardown n t ht) fun _ => h.ofNode laid

theorem takes (h : Adds value producer w w') (laid : Laid w) {c : Cancel} {e : EntryId}
    (hc : OfNode n w c) (takes : Takes w s e c) : Takes w' s e c := by
  rcases hc with ⟨d, rfl, hp⟩ | ⟨s', e', b, rfl, -⟩
  · obtain ⟨sub, hs, he⟩ := takes
    refine ⟨sub, ?_, ?_⟩
    · rw [h.derivation d (laid.producers n _ hp).1]
      exact hs
    · rw [h.subscriptions]
      exact he
  · exact takes

/-- The new signal is a node that is not started. -/
theorem balanced (h : Adds value producer w w') (balanced : Balanced NoNode NoNode w) :
    Balanced NoNode NoNode w' := by
  have laid := balanced.toLaid
  have idle : ∀ {P : Prop}, (w'.signals.get w.signals.next).started = true → P := by
    intro P hs
    rw [h.new] at hs
    cases hs
  have known : ∀ n, (w'.signals.get n).started = true → n ≠ w.signals.next := by
    rintro n hs rfl
    exact idle hs
  refine ⟨h.laid laid, fun n hs hp => ?_, fun n hp => ?_, fun n _ _ hs => ?_, fun n _ s => ?_,
    fun n _ hs => ?_⟩
  · rw [h.subscribers] at hs
    have hn : n ≠ w.signals.next := by
      rintro rfl
      rw [Heap.get_next] at hs
      exact hs rfl
    rw [h.old hn] at hp ⊢
    exact balanced.started n hs hp
  · by_cases hn : n = w.signals.next
    · subst hn
      rw [h.new]
      rfl
    · rw [h.old hn] at hp ⊢
      exact balanced.idle n hp
  · rw [h.old (known n hs)] at hs
    rw [h.subscribers]
    exact balanced.observed n id id hs
  · rw [h.links_eq laid]
    by_cases hn : n = w.signals.next
    · subst hn
      have unlinked : links w w.signals.next s = [] := by
        refine balanced.links_eq_nil id ?_ s
        rw [Heap.get_next]
        rfl
      rw [unlinked, if_neg fun both => idle both.1]
      rfl
    · rw [h.old hn, h.needs_eq laid hn]
      exact balanced.linked n id s
  · have hn := known n hs
    rw [h.old hn] at hs
    obtain ⟨t, c, ht, hc, takes⟩ := balanced.tended n id hs
    refine ⟨t, c, ?_, ?_, fun s e he => ?_⟩
    · rw [h.old hn]
      exact ht
    · rw [h.subscriptions]
      exact hc
    · rw [h.links_eq laid] at he
      exact h.takes laid ((laid.teardown n t ht).2 c hc) (takes s e he)

end Adds

/-- Signals stay, with their producers, while others are added. -/
structure Continues (w w' : World) : Prop where
  size : w.signals.size ≤ w'.signals.size
  producer : ∀ n, n.index < w.signals.size →
    (w'.signals.get n).producer = (w.signals.get n).producer

namespace Continues
variable {w w₁ w₂ : World}

theorem refl (w : World) : Continues w w := ⟨Nat.le_refl _, fun _ _ => rfl⟩

theorem trans (h : Continues w w₁) (h' : Continues w₁ w₂) : Continues w w₂ where
  size := Nat.le_trans h.size h'.size
  producer n hn := (h'.producer n (Nat.lt_of_lt_of_le hn h.size)).trans (h.producer n hn)

theorem of_develops (h : Develops w w₁) : Continues w w₁ :=
  ⟨Nat.le_of_eq h.signals.symm, fun n _ => h.producer n⟩

theorem of_adds {value : Option Value} {producer : Option Producer}
    (h : Adds value producer w w₁) : Continues w w₁ := by
  refine ⟨?_, fun n hn => congrArg Signal.producer (h.old ?_)⟩
  · rw [h.signals, Heap.size_push]
    exact Nat.le_succ _
  · rintro rfl
    exact Nat.lt_irrefl _ hn

end Continues

section
variable {run : Runner} {w w' : World} {name : Name}

/-- A name that was not in use comes to stand for the new signal. -/
theorem added_names (role : Role) (h : Laid w) (unused : w.names.signals.get? name = none) :
    let names := w.names.signals.insert name (w.signals.next, role)
    Extends w.names.signals names ∧
      (∀ other s role', names.get? other = some (s, role') → s.index < w.signals.size + 1) ∧
      ∀ other s role', names.get? other = some (s, role') →
        w.names.signals.get? other = some (s, role') ∨ s = w.signals.next ∧ role' = role := by
  intro names
  have new : ∀ other s role', names.get? other = some (s, role') →
      w.names.signals.get? other = some (s, role') ∨ s = w.signals.next ∧ role' = role := by
    intro other s role' hn
    by_cases ho : other = name
    · subst ho
      simp only [names, Ordered.get?_insert_self, Option.some.injEq, Prod.mk.injEq] at hn
      exact .inr ⟨hn.1.symm, hn.2.symm⟩
    · simp only [names, Ordered.get?_insert_of_ne _ ho] at hn
      exact .inl hn
  refine ⟨fun other p hp => ?_, fun other s role' hn => ?_, new⟩
  · have ne : other ≠ name := by
      rintro rfl
      rw [unused] at hp
      cases hp
    exact (Ordered.get?_insert_of_ne _ ne _).trans hp
  · rcases new other s role' hn with old | ⟨rfl, -⟩
    · exact Nat.lt_succ_of_lt (h.made other s role' old)
    · exact Nat.lt_succ_self _

/-- A signal was added, after something that leaves the network alone. -/
def Expands (w w' : World) : Prop :=
  ∃ value producer w₁, Idling w w₁ ∧ Adds value producer w₁ w'

theorem Expands.balances (h : Balanced NoNode NoNode w) (expands : Expands w w') :
    Balanced NoNode NoNode w' ∧ Continues w w' := by
  obtain ⟨value, producer, w₁, idling, adds⟩ := expands
  exact ⟨adds.balanced (idling.toBeside.balanced h),
    (Continues.of_develops idling.toBeside.same.toDevelops).trans (.of_adds adds)⟩

theorem create_expands (h : Balanced NoNode NoNode w) (unused : w.names.signals.get? name = none)
    (v : Literal) (role : Role) :
    Ensures run (do
      nameSignal name (← Signal.create (some (← v.eval)) none) role
      return Answer.none) w fun _ w' => Expands w w' := by
  refine (ensures_bind ..).2 ((Idle.literal (R := Idling) v w).mono fun v w₁ idling => ?_)
  simp only [Signal.create, ensures_bind, ensures_get, ensures_set, ensures_pure, nameSignal,
    rename, ensures_modify]
  rw [← idling.signalNames] at unused
  obtain ⟨names, made, new⟩ := added_names role (idling.toBeside.balanced h).toLaid unused
  refine ⟨some v, none, w₁, idling, ?_⟩
  refine ⟨rfl, rfl, rfl, rfl, rfl, fun _ _ => rfl, Nat.le_refl _, fun d hd => ?_, fun _ _ => rfl,
    Nat.le_refl _, names, ?_, fun _ hp => absurd hp.symm (Option.some_ne_none _), rfl,
    fun other s hn => (new other s _ hn).imp_right fun both => ⟨both.1, rfl⟩, fun _ hb => .inl hb⟩
  · rw [Heap.get_of_size_le _ _ hd]
    exact ⟨rfl, rfl, rfl⟩
  · rw [Heap.size_push]
    exact made

/-- The first value is computed unseen, and named afterwards. A derived signal starts with nothing
tracked. -/
theorem derive_expands (h : Balanced NoNode NoNode w) {r : Reading}
    (unused : w.names.signals.get? name = none) (pure : r.Pure w.names.signals w.signals.size) :
    Ensures run (do
      nameSignal name (← Derivation.create r) .readable
      return Answer.none) w fun _ w' => Expands w w' := by
  refine (ensures_bind ..).2 ((ensures_bind ..).2 ?_)
  refine (Idle.reading (R := Idling) (fun _ => Tracker.noConfusion) r w).mono fun v w₁ idling => ?_
  simp only [ensures_bind, ensures_get, ensures_set, ensures_pure, nameSignal, rename,
    ensures_modify]
  rw [← idling.signalNames] at unused pure
  rw [← idling.signals] at pure
  obtain ⟨names, made, new⟩ := added_names .readable (idling.toBeside.balanced h).toLaid unused
  have cell : (w₁.derivations.push ⟨r, w₁.signals.next, [], [], []⟩).get w₁.derivations.next =
      ⟨r, w₁.signals.next, [], [], []⟩ := Heap.get_push_next ..
  refine ⟨some v, some (.derivation w₁.derivations.next), w₁, idling, ?_⟩
  refine ⟨rfl, rfl, rfl, rfl, rfl, fun d hd => Heap.get_push_of_lt _ _ _ hd, ?_, fun d hd => ?_,
    fun _ _ => rfl, Nat.le_refl _, names, ?_, ?_, rfl,
    fun other s hn => .inl ((new other s _ hn).resolve_right fun both => Role.noConfusion both.2),
    fun _ hb => .inl hb⟩
  · rw [Heap.size_push]
    exact Nat.le_succ _
  · by_cases hn : d = w₁.derivations.next
    · subst hn
      rw [cell]
      exact ⟨rfl, rfl, rfl⟩
    · rw [Heap.get_push_of_ne _ _ _ hn, Heap.get_of_size_le _ _ hd]
      exact ⟨rfl, rfl, rfl⟩
  · rw [Heap.size_push]
    exact made
  · rintro _ ⟨⟩
    simp only [Producer.Makes, cell, Heap.size_push]
    exact ⟨Nat.lt_succ_self _, trivial, pure.grounded.mono names, fun _ ht => absurd ht List.not_mem_nil⟩

/-- A match over a signal that is there. -/
theorem branch_expands (h : Balanced NoNode NoNode w) {source : Name} {cases : List CaseSpec}
    {fallback : Option Formula} (unused : w.names.signals.get? name = none) (current : Value) :
    Ensures run ((Step.branch name source cases fallback).run current) w fun _ w' =>
      Expands w w' := by
  simp only [Step.run, signalNamed, lookUp, ensures_bind, ensures_get]
  cases hn : w.names.signals.get? source with
  | none => exact (ensures_throw ..).2 trivial
  | some p =>
    obtain ⟨s, role⟩ := p
    simp only [require, ensures_pure]
    refine ((Idle.tableOf (R := Idling) cases w).mono fun table w₁ idling => ?_)
    simp only [Branch.create, ensures_bind, ensures_get, ensures_set, ensures_pure, nameSignal, rename,
      ensures_modify]
    have made₁ : s.index < w₁.signals.size := by
      rw [idling.signals]
      exact h.made source s role hn
    rw [← idling.signalNames] at unused
    obtain ⟨names, made, new⟩ := added_names .branching (idling.toBeside.balanced h).toLaid unused
    have cell : (w₁.branches.push ⟨s, w₁.signals.next, table, fallback⟩).get w₁.branches.next =
        ⟨s, w₁.signals.next, table, fallback⟩ := Heap.get_push_next ..
    refine ⟨none, some (.branch w₁.branches.next), w₁, idling, ?_⟩
    refine ⟨rfl, rfl, rfl, rfl, rfl, fun _ _ => rfl, Nat.le_refl _, fun d hd => ?_,
      fun b hb => Heap.get_push_of_lt _ _ _ hb, ?_, names, ?_, ?_, rfl,
      fun other s hn => .inl ((new other s _ hn).resolve_right fun both => Role.noConfusion both.2),
      fun b hb => ?_⟩
    · rw [Heap.get_of_size_le _ _ hd]
      exact ⟨rfl, rfl, rfl⟩
    · rw [Heap.size_push]
      exact Nat.le_succ _
    · rw [Heap.size_push]
      exact made
    · rintro _ ⟨⟩
      simp only [Producer.Makes, cell, Heap.size_push]
      exact ⟨Nat.lt_succ_self _, trivial, made₁⟩
    · by_cases new : b = w₁.branches.next
      · subst new
        rw [cell]
        exact .inr ⟨rfl, rfl, rfl⟩
      · rw [Heap.size_push] at hb
        have ne : b.index ≠ w₁.branches.size := fun heq => new (congrArg Id.mk heq)
        exact .inl (by omega)

end

/-! Networks. -/

/-- What may happen to a network from one moment at which nothing is under way to the next. -/
inductive Happens : World → World → Prop
  | signal {fuel : Nat} {w w' : World} {name : Name} {v : Literal} {current : Value} {a : Answer} :
    w.names.signals.get? name = none →
      runFrom fuel w ((Step.signal name v).run current) = .ok (a, w') → Happens w w'
  | constant {fuel : Nat} {w w' : World} {name : Name} {v : Literal} {current : Value} {a : Answer} :
    w.names.signals.get? name = none →
      runFrom fuel w ((Step.constant name v).run current) = .ok (a, w') → Happens w w'
  /-- A computation may read whatever signals are there. -/
  | derive {fuel : Nat} {w w' : World} {name : Name} {r : Reading} {current : Value} {a : Answer} :
    w.names.signals.get? name = none → r.Pure w.names.signals w.signals.size →
      runFrom fuel w ((Step.derive name r).run current) = .ok (a, w') → Happens w w'
  /-- A match over whatever signal is there. -/
  | branch {fuel : Nat} {w w' : World} {name source : Name} {cases : List CaseSpec}
    {fallback : Option Formula} {current : Value} {a : Answer} :
    w.names.signals.get? name = none →
      runFrom fuel w ((Step.branch name source cases fallback).run current) = .ok (a, w') →
        Happens w w'
  | operate {fuel : Nat} {w w' : World} {step : Step} {current : Value} {a : Answer} :
    step.Operates → runFrom fuel w (step.run current) = .ok (a, w') → Happens w w'
  /-- Anything may happen to the rest of the world. -/
  | elsewhere {w w' : World} : Beside w w' → Happens w w'

/-- A network has come to be another one. -/
inductive Later (w : World) : World → Prop
  | now : Later w w
  | next {w₁ w₂ : World} : Later w w₁ → Happens w₁ w₂ → Later w w₂

/-- The worlds in which a network can be when nothing is under way. -/
def Network : World → Prop := Later .empty

/-- Whatever happens keeps a network balanced. By cases on what happens. -/
theorem Happens.poised {w w' : World} (happens : Happens w w') (h : Poised NoNode NoNode w) :
    Poised NoNode NoNode w' ∧ Continues w w' := by
  have run {fuel : Nat} {step : Step} {current : Value} {a : Answer}
      (ran : runFrom fuel w (step.run current) = .ok (a, w'))
      (result : Balanced NoNode NoNode w' ∧ Continues w w') :
      Poised NoNode NoNode w' ∧ Continues w w' :=
    ⟨h.next (keeps_step current step _ _ _ ran) result.1, result.2⟩
  cases happens with
  | signal unused ran => exact run ran ((create_expands h.toBalanced unused _ _ _ _ ran).balances h.toBalanced)
  | constant unused ran => exact run ran ((create_expands h.toBalanced unused _ _ _ _ ran).balances h.toBalanced)
  | derive unused pure ran => exact run ran ((derive_expands h.toBalanced unused pure _ _ ran).balances h.toBalanced)
  | branch unused ran => exact run ran ((branch_expands h.toBalanced unused _ _ _ ran).balances h.toBalanced)
  | operate operates ran =>
    obtain ⟨h', dev⟩ := upkeep_balances.step h _ operates _ _ ran
    exact ⟨h', .of_develops dev⟩
  | elsewhere beside =>
    exact ⟨h.next (.apart beside.signals beside.entries) (beside.balanced h.toBalanced),
      .of_develops beside.same.toDevelops⟩

/-- By induction on what has happened. -/
theorem Later.poised {w w' : World} (later : Later w w') (h : Poised NoNode NoNode w) :
    Poised NoNode NoNode w' ∧ Continues w w' := by
  induction later with
  | now => exact ⟨h, .refl w⟩
  | next _ happens ih =>
    obtain ⟨h₁, continues₁⟩ := ih
    obtain ⟨h₂, continues₂⟩ := happens.poised h₁
    exact ⟨h₂, continues₁.trans continues₂⟩

theorem Poised.empty : Poised NoNode NoNode .empty := by
  refine ⟨⟨⟨fun _ _ hp => (nomatch hp), fun _ _ _ hn => (nomatch hn), fun _ => ⟨.nil, fun _ => Iff.rfl⟩,
    fun _ _ hs => (nomatch hs), fun _ _ hn => (nomatch hn), fun _ _ hs => (nomatch hs),
    fun _ _ ht => (nomatch ht)⟩, fun _ hs => absurd rfl hs, fun _ _ => rfl, fun _ _ _ hs => (nomatch hs),
    fun _ _ _ => ?_, fun _ _ hs => (nomatch hs)⟩, .empty⟩
  exact (if_neg fun both => nomatch both.1).symm

theorem Network.poised {w : World} (h : Network w) : Poised NoNode NoNode w :=
  (Later.poised h .empty).1

/-! Who is subscribed. -/

/-- The subscribers of a signal that work for no node. -/
def outsiders (w : World) (s : SignalId) : List EntryId :=
  (w.signals.get s).subscribers.filter fun e => (w.entries.get e).reaction.node? w = none

section
variable {w w' : World} {n s : SignalId} {e : EntryId}

theorem mem_outsiders : e ∈ outsiders w s ↔
    e ∈ (w.signals.get s).subscribers ∧ (w.entries.get e).reaction.node? w = none := by
  simp [outsiders, List.mem_filter]

theorem count_node? (w : World) (l : List EntryId) (key : Option SignalId) :
    (l.map fun e => (w.entries.get e).reaction.node? w).count key =
      (l.filter fun e => (w.entries.get e).reaction.node? w = key).length := by
  rw [List.count_eq_countP, List.countP_map, List.countP_eq_length_filter]
  congr 1
  refine List.filter_congr fun e _ => Bool.eq_iff_iff.2 ?_
  simp

theorem outsiders_of_size_le (hs : w.signals.size ≤ s.index) : outsiders w s = [] := by
  unfold outsiders
  rw [Heap.get_of_size_le _ _ hs]
  rfl

/-- A signal has as many subscribers as before if it has as many from outside and for each node. -/
theorem length_subscribers_eq (outside : (outsiders w' s).length = (outsiders w s).length)
    (links : ∀ n, (links w' n s).length = (links w n s).length) :
    (w'.signals.get s).subscribers.length = (w.signals.get s).subscribers.length := by
  have keys : ((w'.signals.get s).subscribers.map fun e => (w'.entries.get e).reaction.node? w').Perm
      ((w.signals.get s).subscribers.map fun e => (w.entries.get e).reaction.node? w) := by
    refine List.perm_iff_count.2 fun key => ?_
    rw [count_node?, count_node?]
    cases key with
    | none => exact outside
    | some n => exact links n
  simpa only [List.length_map] using keys.length_eq

namespace Balanced

/-- What is started is a node that has subscribers. -/
theorem started_iff (h : Balanced NoNode NoNode w) : (w.signals.get n).started = true ↔
    (w.signals.get n).producer ≠ none ∧ (w.signals.get n).subscribers ≠ [] :=
  ⟨fun hs => ⟨fun hp => (nomatch hs.symm.trans (h.idle n hp)), h.observed n id id hs⟩,
    fun both => h.started n both.2 both.1⟩

/-- A node whose subscribers all come from outside, or work for nodes that are not started, is not
started if there are none from outside. By induction, from the last node down. -/
theorem unstarted (h : Balanced NoNode NoNode w)
    (alone : ∀ n, (w.signals.get n).producer ≠ none → outsiders w n = []) (n : SignalId) :
    (w.signals.get n).started = false := by
  cases started : (w.signals.get n).started with
  | false => rfl
  | true =>
    obtain ⟨produced, observed⟩ := h.started_iff.1 started
    obtain ⟨e, he⟩ := List.exists_mem_of_ne_nil _ observed
    cases node : (w.entries.get e).reaction.node? w with
    | none =>
      have outside : e ∈ outsiders w n := mem_outsiders.2 ⟨he, node⟩
      rw [alone n produced] at outside
      cases outside
    | some m =>
      obtain ⟨started', needed⟩ := h.started_of_link id (mem_links.2 ⟨he, node⟩)
      have later := h.needs_lt needed
      have valid : m.index < w.signals.size :=
        index_lt_of_ne Signal.started fun heq => nomatch started'.symm.trans heq
      rw [h.unstarted alone m] at started'
      cases started'
termination_by w.signals.size - n.index

/-- If no node has subscribers from outside, then nobody but those from outside is subscribed. -/
theorem subscribers_eq (h : Balanced NoNode NoNode w)
    (alone : ∀ n, (w.signals.get n).producer ≠ none → outsiders w n = []) (s : SignalId) :
    (w.signals.get s).subscribers = outsiders w s := by
  refine (List.filter_eq_self.2 fun e he => decide_eq_true ?_).symm
  cases node : (w.entries.get e).reaction.node? w with
  | none => rfl
  | some n =>
    have started := (h.started_of_link id (mem_links.2 ⟨he, node⟩)).1
    rw [h.unstarted alone n] at started
    cases started

/-- Nodes are started as before, and signals have as many subscribers as before, if they have as many
from outside. By induction, from the last signal down: who is subscribed to it works for a later
node. -/
theorem same_again (h : Balanced NoNode NoNode w) (h' : Balanced NoNode NoNode w')
    (continues : Continues w w') (outside : ∀ s, (outsiders w' s).length = (outsiders w s).length)
    (needs : ∀ n, (w.signals.get n).started = true → ∀ s, s ∈ needs w' n ↔ s ∈ needs w n)
    (s : SignalId) :
    (w'.signals.get s).started = (w.signals.get s).started ∧
      (w'.signals.get s).subscribers.length = (w.signals.get s).subscribers.length := by
  have later : ∀ n, s.index < n.index →
      (w'.signals.get n).started = (w.signals.get n).started := by
    intro n hn
    rcases Nat.lt_or_ge n.index w'.signals.size with valid | invalid
    · exact (h.same_again h' continues outside needs n).1
    · rw [Heap.get_of_size_le _ _ invalid,
        Heap.get_of_size_le _ _ (Nat.le_trans continues.size invalid)]
  have length := length_subscribers_eq (outside s) fun n => by
    rw [h'.linked n id, h.linked n id]
    rcases Nat.lt_or_ge s.index n.index with hn | hn
    · rw [later n hn]
      by_cases started : (w.signals.get n).started = true
      · simp only [started, needs n started]
      · rw [if_neg fun both => started both.1, if_neg fun both => started both.1]
    · rw [if_neg fun both => Nat.not_lt_of_le hn (h'.needs_lt both.2),
        if_neg fun both => Nat.not_lt_of_le hn (h.needs_lt both.2)]
  have observed : (w'.signals.get s).subscribers ≠ [] ↔ (w.signals.get s).subscribers ≠ [] := by
    rw [ne_eq, ne_eq, ← List.length_eq_zero_iff, length, List.length_eq_zero_iff]
  refine ⟨Bool.eq_iff_iff.2 ?_, length⟩
  rw [h'.started_iff, h.started_iff, observed]
  rcases Nat.lt_or_ge s.index w.signals.size with valid | invalid
  · rw [continues.producer s valid]
  · rw [Heap.get_of_size_le _ _ invalid]
    exact ⟨fun both => absurd rfl both.2, fun both => absurd rfl both.2⟩
termination_by w'.signals.size - s.index

end Balanced

/-- When nothing is under way, a node is started while it has subscribers; and it has one subscriber on
each signal that it depends on while it is started, and none on any other or while it is not. Once
nobody outside is subscribed to a node any more, nobody but those from outside is subscribed to
anything; and whenever the signals have as many subscribers from outside as before, they have as many
subscribers as before, unless a node that was started then has come to depend on more. -/
theorem subscribed_once_each (h : Network w) :
    (∀ n, (w.signals.get n).producer ≠ none →
      ((w.signals.get n).started = true ↔ (w.signals.get n).subscribers ≠ [])) ∧
    (∀ n s, (links w n s).length =
      if (w.signals.get n).started = true ∧ s ∈ needs w n then 1 else 0) ∧
    ((∀ n, (w.signals.get n).producer ≠ none → outsiders w n = []) →
      ∀ s, (w.signals.get s).subscribers = outsiders w s) ∧
    ∀ w', Later w w' → (∀ s, (outsiders w' s).length = (outsiders w s).length) →
      (∀ n, (w.signals.get n).started = true → ∀ s, s ∈ needs w' n ↔ s ∈ needs w n) →
        ∀ s, (w'.signals.get s).subscribers.length = (w.signals.get s).subscribers.length := by
  have balanced := h.poised.toBalanced
  refine ⟨fun n produced => ?_, fun n s => balanced.linked n id s, balanced.subscribers_eq,
    fun w' later outside needs s => ?_⟩
  · rw [balanced.started_iff]
    exact ⟨fun both => both.2, fun observed => ⟨produced, observed⟩⟩
  · obtain ⟨h', continues⟩ := later.poised h.poised
    exact (balanced.same_again h'.toBalanced continues outside needs s).2

end

/-- A gated signal and a match over it. A subscriber of the match opens the gate, so that more is read,
and leaves again. -/
theorem subscribed_once_each_gated :
    ∃ w w₁ w₂, Network w ∧ Later w w₁ ∧ Later w₁ w₂ ∧
      (links w₁ ⟨2⟩ ⟨1⟩).length = 1 ∧ (links w₁ ⟨3⟩ ⟨2⟩).length = 1 ∧
      ∀ s, (w₂.signals.get s).subscribers.length = (w.signals.get s).subscribers.length := by
  let w₁ := after .empty (.signal "gate" (.plain (.bool false)))
  let w₂ := after w₁ (.signal "source" (.plain (.string "first")))
  let w₃ := after w₂ (.derive "gated" (gated ⟨0⟩ ⟨1⟩))
  let w₄ := after w₃ (.branch "shown" "gated" [⟨.typed .string, fun v => .done v⟩]
    (some fun _ => .done (.string "closed")))
  let w₅ := after w₄ (.subscribe "x" "shown" .normal
    [.set "source" fun _ => .done (.string "second")])
  let w₆ := after w₅ (.set "gate" fun _ => .done (.bool true))
  let w₇ := after w₆ (.unsubscribe "x")
  obtain ⟨_, h₁⟩ := runFrom_after .empty
    (.signal "gate" (.plain (.bool false))) (by decide +kernel)
  obtain ⟨_, h₂⟩ := runFrom_after w₁
    (.signal "source" (.plain (.string "first"))) (by decide +kernel)
  obtain ⟨_, h₃⟩ := runFrom_after w₂
    (.derive "gated" (gated ⟨0⟩ ⟨1⟩)) (by decide +kernel)
  obtain ⟨_, h₄⟩ := runFrom_after w₃ (.branch "shown" "gated" [⟨.typed .string, fun v => .done v⟩]
    (some fun _ => .done (.string "closed"))) (by decide +kernel)
  obtain ⟨_, h₅⟩ := runFrom_after w₄ (.subscribe "x" "shown" .normal
    [.set "source" fun _ => .done (.string "second")]) (by decide +kernel)
  obtain ⟨_, h₆⟩ := runFrom_after w₅ (.set "gate" fun _ => .done (.bool true)) (by decide +kernel)
  obtain ⟨_, h₇⟩ := runFrom_after w₆ (.unsubscribe "x") (by decide +kernel)
  have steps : ∀ step ∈ [Step.set "source" fun _ => .done (.string "second")], step.Operates := by
    intro step hs
    cases List.mem_singleton.1 hs
    exact .set _ _
  have built : Network w₄ := .next (.next (.next (.next .now (.signal (by decide +kernel) h₁))
    (.signal (by decide +kernel) h₂)) (.derive (by decide +kernel)
      (gated_pure (by decide +kernel) (by decide +kernel)) h₃)) (.branch (by decide +kernel) h₄)
  have subscribed : Happens w₄ w₅ := .operate (.subscribe steps) h₅
  have opened : Happens w₅ w₆ := .operate (.set _ _) h₆
  have left : Happens w₆ w₇ := .operate (.unsubscribe _) h₇
  have size₄ : w₄.signals.size = 4 := by decide +kernel
  have size₇ : w₇.signals.size = 4 := by decide +kernel
  have idle : ∀ i : Fin 4, (w₄.signals.get ⟨i⟩).started = false := by decide +kernel
  have outside : ∀ i : Fin 4, outsiders w₇ ⟨i⟩ = outsiders w₄ ⟨i⟩ := by decide +kernel
  have both : ((w₆.signals.get ⟨2⟩).started = true ∧ ⟨1⟩ ∈ needs w₆ ⟨2⟩) ∧
      (w₆.signals.get ⟨3⟩).started = true ∧ ⟨2⟩ ∈ needs w₆ ⟨3⟩ := by decide +kernel
  clear_value w₁ w₂ w₃ w₄ w₅ w₆ w₇
  obtain ⟨-, once, -⟩ := subscribed_once_each (.next (.next built subscribed) opened)
  obtain ⟨-, -, -, again⟩ := subscribed_once_each built
  refine ⟨w₄, w₆, w₇, built, .next (.next .now subscribed) opened, .next .now left, ?_, ?_,
    again w₇ (.next (.next (.next .now subscribed) opened) left) (fun s => ?_) fun s started => ?_⟩
  · rw [once, if_pos both.1]
  · rw [once, if_pos both.2]
  · rcases Nat.lt_or_ge s.index 4 with hs | hs
    · exact congrArg List.length (outside ⟨s.index, hs⟩)
    · rw [outsiders_of_size_le (size₇ ▸ hs), outsiders_of_size_le (size₄ ▸ hs)]
  · have hs : s.index < 4 := size₄ ▸ index_lt_of_ne Signal.started fun heq =>
      nomatch started.symm.trans heq
    exact nomatch started.symm.trans (idle ⟨s.index, hs⟩)

end LiveMarkup.Live
