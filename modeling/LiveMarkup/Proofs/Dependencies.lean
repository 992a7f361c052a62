import LiveMarkup.Proofs.Graph

/-!
Dependencies: which subscribers work for which node of a network of derived signals and matches, what
each node depends on, and how the two agree. A node that is being started or stopped is excepted from
that until it is done.
-/
namespace LiveMarkup.Live

/-- The node that a subscriber works for: the derived signal that it refreshes, or the match that it
branches for. -/
def Reaction.node? (w : World) : Reaction → Option SignalId
  | .refresh d => some (w.derivations.get d).output
  | .branch a => some (w.branches.get (w.activations.get a).branch).output
  | _ => none

/-- The subscribers of a signal that work for a node. -/
def links (w : World) (n s : SignalId) : List EntryId :=
  (w.signals.get s).subscribers.filter fun e => (w.entries.get e).reaction.node? w = some n

/-- The signals that a producer depends on: those that any recorded run of a computation has ever
read, and the source of a match. -/
def Producer.needs (w : World) : Producer → List SignalId
  | .derivation d => (w.derivations.get d).shown
  | .branch b => [(w.branches.get b).source]
  | .script _ _ _ => []

/-- The signals that a node depends on. -/
def needs (w : World) (n : SignalId) : List SignalId :=
  (w.signals.get n).producer.elim [] (Producer.needs w)

/-- No node is excepted. -/
abbrev NoNode : SignalId → Prop := fun _ => False

/-- What a subscriber in a network may do. -/
def Reaction.Proper (w : World) : Reaction → Prop
  | .told _ script => ∀ step ∈ script, step.Operates
  | .refresh d => Real d w
  | .branch a => a.index < w.activations.size ∧
      (w.signals.get (w.branches.get (w.activations.get a).branch).output).producer =
        some (.branch (w.activations.get a).branch)
  | .effect _ _ => True
  | .followed _ _ => False

/-- A signal is made by a producer from earlier signals. -/
def Producer.Makes (w : World) (n : SignalId) : Producer → Prop
  | .derivation d => d.index < w.derivations.size ∧ (w.derivations.get d).output = n ∧
      (w.derivations.get d).reading.Grounded w.names.signals n.index ∧
      ∀ t ∈ (w.derivations.get d).tracked, t.index < n.index
  | .branch b => b.index < w.branches.size ∧ (w.branches.get b).output = n ∧
      (w.branches.get b).source.index < n.index
  | .script _ _ _ => False

/-- Carrying out a cancellation takes an entry off a signal. -/
def Takes (w : World) (s : SignalId) (e : EntryId) : Cancel → Prop
  | .entry s' e' => s' = s ∧ e' = e
  | .all subscriptions => ∃ sub ∈ subscriptions, w.subscriptions.get sub = some (.entry s e)
  | .release d => ∃ sub ∈ (w.derivations.get d).subscriptions,
      w.subscriptions.get sub = some (.entry s e)
  | _ => False

/-- What is to be cancelled when a node stops. -/
def OfNode (n : SignalId) (w : World) (c : Cancel) : Prop :=
  (∃ d, c = .release d ∧ (w.signals.get n).producer = some (.derivation d)) ∨
  ∃ s e b, c = .entry s e ∧ e.index < w.entries.size ∧
    (w.entries.get e).reaction.node? w = some n ∧ (w.signals.get n).producer = some (.branch b)

/-- A node will leave all its sources when it stops. -/
def Tended (n : SignalId) (w : World) : Prop :=
  ∃ t c, (w.signals.get n).teardown = some t ∧ w.subscriptions.get t = some c ∧
    ∀ s, ∀ e ∈ links w n s, Takes w s e c

/-- A network of derived signals and matches, whatever goes on in it. -/
structure Laid (w : World) : Prop where
  producers : ∀ n p, (w.signals.get n).producer = some p → p.Makes w n
  made : ∀ name s role, w.names.signals.get? name = some (s, role) → s.index < w.signals.size
  seen : ∀ d, (w.derivations.get d).tracked.Nodup ∧
    ∀ t, t ∈ (w.derivations.get d).shown ↔ t ∈ (w.derivations.get d).tracked
  reactions : ∀ e, (w.entries.get e).reaction.Proper w
  named : ∀ name sub, w.names.subscriptions.get? name = some sub → Leads (OfScript w) sub w
  held : ∀ d, ∀ sub ∈ (w.derivations.get d).subscriptions, Leads (OfDerivation d w) sub w
  teardown : ∀ n t, (w.signals.get n).teardown = some t → Leads (OfNode n w) t w

/-- A network in which nodes are started while they have subscribers, and are subscribed once to
each signal that they depend on while they are started. The nodes in `D` are being started or stopped,
and those in `P` may have no subscribers yet, or none any more. -/
structure Balanced (D P : SignalId → Prop) (w : World) : Prop extends Laid w where
  started : ∀ n, (w.signals.get n).subscribers ≠ [] → (w.signals.get n).producer ≠ none →
    (w.signals.get n).started = true
  idle : ∀ n, (w.signals.get n).producer = none → (w.signals.get n).started = false
  observed : ∀ n, ¬ D n → ¬ P n → (w.signals.get n).started = true →
    (w.signals.get n).subscribers ≠ []
  linked : ∀ n, ¬ D n → ∀ s, (links w n s).length =
    if (w.signals.get n).started = true ∧ s ∈ needs w n then 1 else 0
  tended : ∀ n, ¬ D n → (w.signals.get n).started = true → Tended n w

/-- What nothing that goes on in a network undoes. -/
structure Develops (w w' : World) : Prop extends Evolves w w' where
  branches : w'.branches = w.branches
  activations : w.activations.size ≤ w'.activations.size
  matched : ∀ a, a.index < w.activations.size →
    (w'.activations.get a).branch = (w.activations.get a).branch

namespace Develops
variable {w w₁ w₂ : World} {n : SignalId} {r : Reaction}

theorem refl (w : World) : Develops w w :=
  ⟨.refl w, rfl, Nat.le_refl _, fun _ _ => rfl⟩

theorem trans (h : Develops w w₁) (h' : Develops w₁ w₂) : Develops w w₂ where
  toEvolves := h.toEvolves.trans h'.toEvolves
  branches := h'.branches.trans h.branches
  activations := Nat.le_trans h.activations h'.activations
  matched a ha := (h'.matched a (Nat.lt_of_lt_of_le ha h.activations)).trans (h.matched a ha)

theorem node? (h : Develops w w₁) (proper : r.Proper w) : r.node? w₁ = r.node? w := by
  cases r with
  | refresh d => exact congrArg some (h.output d)
  | branch a => simp only [Reaction.node?, h.matched a proper.1, h.branches]
  | told name script => rfl
  | followed name script => rfl
  | effect node e => rfl

theorem proper (h : Develops w w₁) (proper : r.Proper w) : r.Proper w₁ := by
  cases r with
  | refresh d => exact h.real.2 proper
  | branch a =>
    refine ⟨Nat.lt_of_lt_of_le proper.1 h.activations, ?_⟩
    rw [h.matched a proper.1, h.branches, h.producer]
    exact proper.2
  | told name script => exact proper
  | followed name script => exact proper
  | effect node e => exact proper

theorem links_eq (h : Develops w w₁) (hw : Laid w)
    (subscribers : ∀ s, (w₁.signals.get s).subscribers = (w.signals.get s).subscribers)
    (reactions : ∀ e, (w₁.entries.get e).reaction = (w.entries.get e).reaction) (n s : SignalId) :
    links w₁ n s = links w n s := by
  unfold links
  rw [subscribers]
  refine List.filter_congr fun e _ => ?_
  rw [reactions, h.node? (hw.reactions e)]

theorem ofNode (h : Develops w w₁) (hw : Laid w) {c : Cancel} (hc : OfNode n w c) :
    OfNode n w₁ c := by
  rcases hc with ⟨d, rfl, hd⟩ | ⟨s, e, b, rfl, he, hn, hb⟩
  · exact .inl ⟨d, rfl, (h.producer n).trans hd⟩
  · refine .inr ⟨s, e, b, rfl, Nat.lt_of_lt_of_le he h.entries, ?_, (h.producer n).trans hb⟩
    rw [h.reaction e he, h.node? (hw.reactions e), hn]

/-- Where more signals are tracked they are earlier ones, and new subscribers and handles are of the
right kind. -/
theorem laid (h : Develops w w₁) (hw : Laid w)
    (tracked : ∀ d, Real d w → ∀ t ∈ (w₁.derivations.get d).tracked,
      t ∈ (w.derivations.get d).tracked ∨ t.index < (w.derivations.get d).output.index)
    (seen : ∀ d, (w₁.derivations.get d).tracked.Nodup ∧
      ∀ t, t ∈ (w₁.derivations.get d).shown ↔ t ∈ (w₁.derivations.get d).tracked)
    (reactions : ∀ e, w.entries.size ≤ e.index → (w₁.entries.get e).reaction.Proper w₁)
    (named : ∀ name sub, w₁.names.subscriptions.get? name = some sub →
      w.names.subscriptions.get? name = some sub ∨ Leads (OfScript w₁) sub w₁)
    (held : ∀ d, ∀ sub ∈ (w₁.derivations.get d).subscriptions,
      sub ∈ (w.derivations.get d).subscriptions ∨ Leads (OfDerivation d w₁) sub w₁)
    (teardown : ∀ n t, (w₁.signals.get n).teardown = some t →
      (w.signals.get n).teardown = some t ∨ Leads (OfNode n w₁) t w₁) : Laid w₁ where
  producers n p hp := by
    rw [h.producer] at hp
    have makes := hw.producers n p hp
    cases p with
    | derivation d =>
      obtain ⟨hd, output, pure, earlier⟩ := makes
      have real : Real d w := by
        unfold Real
        rw [output]
        exact hp
      refine ⟨h.derivations ▸ hd, (h.output d).trans output, ?_, fun t ht => ?_⟩
      · rw [h.reading, h.names]
        exact pure
      · rcases tracked d real t ht with ht | ht
        · exact earlier t ht
        · exact output ▸ ht
    | branch b =>
      unfold Producer.Makes
      rw [h.branches]
      exact makes
    | script name start stop => exact makes
  made name s role hn := by
    rw [h.names] at hn
    rw [h.signals]
    exact hw.made name s role hn
  seen := seen
  reactions e := by
    rcases Nat.lt_or_ge e.index w.entries.size with he | he
    · rw [h.reaction e he]
      exact h.proper (hw.reactions e)
    · exact reactions e he
  named name sub hn := by
    rcases named name sub hn with hold | hnew
    · exact h.leads (hw.named name sub hold) fun _ => h.ofScript
    · exact hnew
  held d sub hs := by
    rcases held d sub hs with hold | hnew
    · exact h.leads (hw.held d sub hold) fun _ => h.ofDerivation
    · exact hnew
  teardown n t ht := by
    rcases teardown n t ht with hold | hnew
    · exact h.leads (hw.teardown n t hold) fun _ => h.ofNode hw
    · exact hnew

end Develops

section
variable {D D' P P' : SignalId → Prop} {w w' : World} {n s t : SignalId} {d : DerivationId} {e : EntryId}

/-- What tells a signal from one that was never made says that it was made. -/
theorem index_lt_of_ne {β : Type} (g : Signal → β) (h : g (w.signals.get s) ≠ g default) :
    s.index < w.signals.size := by
  refine Nat.lt_of_not_le fun invalid => h ?_
  rw [Heap.get_of_size_le _ _ invalid]

theorem mem_links : e ∈ links w n s ↔
    e ∈ (w.signals.get s).subscribers ∧ (w.entries.get e).reaction.node? w = some n := by
  simp [links, List.mem_filter]

theorem needs_of_derivation (h : Laid w) (hd : (w.signals.get n).producer = some (.derivation d)) :
    t ∈ needs w n ↔ t ∈ (w.derivations.get d).tracked := by
  simp only [needs, hd, Option.elim, Producer.needs]
  exact (h.seen d).2 t

theorem needs_of_branch {b : BranchId} (hb : (w.signals.get n).producer = some (.branch b)) :
    needs w n = [(w.branches.get b).source] := by
  simp only [needs, hb, Option.elim, Producer.needs]

/-- Nodes depend on earlier signals. -/
theorem Laid.needs_lt (h : Laid w) (hs : s ∈ needs w n) : s.index < n.index := by
  cases hp : (w.signals.get n).producer with
  | none =>
    simp only [needs, hp, Option.elim] at hs
    cases hs
  | some p =>
    have makes := h.producers n p hp
    cases p with
    | derivation d => exact makes.2.2.2 s ((needs_of_derivation h hp).1 hs)
    | branch b =>
      rw [needs_of_branch hp, List.mem_singleton] at hs
      exact hs ▸ makes.2.2
    | script name start stop => exact makes.elim

theorem Laid.real_of_producer (h : Laid w)
    (hd : (w.signals.get n).producer = some (.derivation d)) :
    Real d w ∧ (w.derivations.get d).output = n := by
  obtain ⟨-, output, -⟩ := h.producers n _ hd
  refine ⟨?_, output⟩
  unfold Real
  rw [output]
  exact hd

/-- What a link works for is a node. -/
theorem Laid.producer_of_link (h : Laid w) (he : e ∈ links w n s) :
    (w.signals.get n).producer ≠ none := by
  have hn := (mem_links.1 he).2
  have proper := h.reactions e
  cases hr : (w.entries.get e).reaction <;> rw [hr] at hn proper
  case refresh d =>
    cases hn
    unfold Reaction.Proper Real at proper
    rw [proper]
    exact nofun
  case branch a =>
    cases hn
    rw [proper.2]
    exact nofun
  all_goals cases hn

theorem Balanced.mono (h : Balanced D P w) (hD : ∀ n, D n → D' n) (hP : ∀ n, P n → D' n ∨ P' n) :
    Balanced D' P' w where
  toLaid := h.toLaid
  started := h.started
  idle := h.idle
  observed n hd hp := h.observed n (fun hn => hd (hD n hn)) fun hn => (hP n hn).elim hd hp
  linked n hd := h.linked n fun hn => hd (hD n hn)
  tended n hd := h.tended n fun hn => hd (hD n hn)

/-- A node that is done is excepted no more. -/
theorem Balanced.settle (h : Balanced (fun m => D m ∨ m = n) P w)
    (observed : ¬ P' n → (w.signals.get n).started = true → (w.signals.get n).subscribers ≠ [])
    (hP : ∀ m, P m → P' m)
    (linked : ∀ s, (links w n s).length =
      if (w.signals.get n).started = true ∧ s ∈ needs w n then 1 else 0)
    (tended : (w.signals.get n).started = true → Tended n w) : Balanced D P' w where
  toLaid := h.toLaid
  started := h.started
  idle := h.idle
  observed m hd hp hs := by
    by_cases heq : m = n
    · subst heq
      exact observed hp hs
    · exact h.observed m (fun hor => hor.elim hd heq) (fun hm => hp (hP m hm)) hs
  linked m hd s := by
    by_cases heq : m = n
    · subst heq
      exact linked s
    · exact h.linked m (fun hor => hor.elim hd heq) s
  tended m hd hs := by
    by_cases heq : m = n
    · subst heq
      exact tended hs
    · exact h.tended m (fun hor => hor.elim hd heq) hs

theorem Balanced.links_eq_nil (h : Balanced D P w) (hd : ¬ D n)
    (idle : (w.signals.get n).started = false) (s : SignalId) : links w n s = [] := by
  refine List.eq_nil_of_length_eq_zero ?_
  rw [h.linked n hd s, if_neg]
  rw [idle]
  exact fun ⟨h, _⟩ => nomatch h

/-- Whoever works for a node that is not excepted works for one that is started. -/
theorem Balanced.started_of_link (h : Balanced D P w) (hd : ¬ D n) (he : e ∈ links w n s) :
    (w.signals.get n).started = true ∧ s ∈ needs w n := by
  have length := h.linked n hd s
  split at length
  case isTrue both => exact both
  case isFalse =>
    rw [List.eq_nil_of_length_eq_zero length] at he
    cases he

/-- The subscribers are the same in two worlds, and so are the flags and handles of the nodes outside
`D`. -/
structure Near (D : SignalId → Prop) (w w' : World) : Prop extends Develops w w' where
  subscribers : ∀ s, (w'.signals.get s).subscribers = (w.signals.get s).subscribers
  reactions : ∀ e, (w'.entries.get e).reaction = (w.entries.get e).reaction
  handle : ∀ sub, sub.index < w.subscriptions.size →
    w'.subscriptions.get sub = w.subscriptions.get sub
  started : ∀ n, ¬ D n → (w'.signals.get n).started = (w.signals.get n).started
  teardown : ∀ n, ¬ D n → (w'.signals.get n).teardown = (w.signals.get n).teardown
  cell : ∀ d, Real d w → ¬ D (w.derivations.get d).output →
    w'.derivations.get d = w.derivations.get d

namespace Near

theorem refl (w : World) : Near D w w :=
  ⟨.refl w, fun _ => rfl, fun _ => rfl, fun _ _ => rfl, fun _ _ => rfl, fun _ _ => rfl, fun _ _ _ => rfl⟩

theorem trans {w₁ w₂ : World} (h : Near D w w₁) (h' : Near D w₁ w₂) : Near D w w₂ where
  toDevelops := h.toDevelops.trans h'.toDevelops
  subscribers s := (h'.subscribers s).trans (h.subscribers s)
  reactions e := (h'.reactions e).trans (h.reactions e)
  handle sub hs :=
    (h'.handle sub (Nat.lt_of_lt_of_le hs h.toDevelops.subscriptions)).trans (h.handle sub hs)
  started n hn := (h'.started n hn).trans (h.started n hn)
  teardown n hn := (h'.teardown n hn).trans (h.teardown n hn)
  cell d real hd := by
    refine (h'.cell d (h.real.2 real) ?_).trans (h.cell d real hd)
    rw [h.output]
    exact hd

theorem links_eq (near : Near D w w') (h : Laid w) (n s : SignalId) :
    links w' n s = links w n s :=
  near.toDevelops.links_eq h near.subscribers near.reactions n s

theorem needs_eq (near : Near D w w') (h : Laid w) (hd : ¬ D n) : needs w' n = needs w n := by
  unfold needs
  rw [near.producer]
  cases hp : (w.signals.get n).producer with
  | none => rfl
  | some p =>
    cases p with
    | derivation d =>
      obtain ⟨real, output⟩ := h.real_of_producer hp
      simp only [Option.elim, Producer.needs]
      rw [near.cell d real (output ▸ hd)]
    | branch b => simp only [Option.elim, Producer.needs, near.branches]
    | script name start stop => rfl

/-- What is to be cancelled when a node stops takes off what it took off before. -/
theorem takes (near : Near D w w') (h : Laid w) (hd : ¬ D n) {c : Cancel} (hc : OfNode n w c)
    (takes : Takes w s e c) : Takes w' s e c := by
  rcases hc with ⟨d, rfl, hp⟩ | ⟨s', e', b, rfl, -⟩
  · obtain ⟨real, output⟩ := h.real_of_producer hp
    obtain ⟨sub, hs, he⟩ := takes
    refine ⟨sub, ?_, (near.handle sub (h.held d sub hs).1).trans he⟩
    rw [near.cell d real (output ▸ hd)]
    exact hs
  · exact takes

theorem tended (near : Near D w w') (h : Laid w) (hd : ¬ D n) (tended : Tended n w) :
    Tended n w' := by
  obtain ⟨t, c, ht, hc, takes⟩ := tended
  obtain ⟨made, imp⟩ := h.teardown n t ht
  refine ⟨t, c, (near.teardown n hd).trans ht, (near.handle t made).trans hc, fun s e he => ?_⟩
  rw [near.links_eq h] at he
  exact near.takes h hd (imp c hc) (takes s e he)

theorem balanced (near : Near D w w') (h : Balanced D P w) (laid : Laid w')
    (started : ∀ n, D n → (w'.signals.get n).subscribers ≠ [] → (w'.signals.get n).producer ≠ none →
      (w'.signals.get n).started = true)
    (idle : ∀ n, D n → (w'.signals.get n).producer = none → (w'.signals.get n).started = false) :
    Balanced D P w' where
  toLaid := laid
  started n hs hp := by
    by_cases hd : D n
    · exact started n hd hs hp
    · rw [near.subscribers] at hs
      rw [near.producer] at hp
      rw [near.started n hd]
      exact h.started n hs hp
  idle n hp := by
    by_cases hd : D n
    · exact idle n hd hp
    · rw [near.producer] at hp
      rw [near.started n hd]
      exact h.idle n hp
  observed n hd hp hs := by
    rw [near.started n hd] at hs
    rw [near.subscribers]
    exact h.observed n hd hp hs
  linked n hd s := by
    rw [near.links_eq h.toLaid, near.started n hd, near.needs_eq h.toLaid hd]
    exact h.linked n hd s
  tended n hd hs := by
    rw [near.started n hd] at hs
    exact near.tended h.toLaid hd (h.tended n hd hs)

end Near

/-- Nothing that concerns the network is changed. -/
structure Same (w w' : World) : Prop extends Near NoNode w w' where
  derivations' : w'.derivations = w.derivations

namespace Same

theorem refl (w : World) : Same w w := ⟨.refl w, rfl⟩

theorem trans {w₁ w₂ : World} (h : Same w w₁) (h' : Same w₁ w₂) : Same w w₂ :=
  ⟨h.toNear.trans h'.toNear, h'.derivations'.trans h.derivations'⟩

theorem laid (same : Same w w') (h : Laid w)
    (named : ∀ name sub, w'.names.subscriptions.get? name = some sub →
      w.names.subscriptions.get? name = some sub ∨ Leads (OfScript w') sub w') : Laid w' := by
  refine same.toDevelops.laid h ?_ ?_ (fun e _ => ?_) named ?_ fun n t ht => .inl ?_
  · rw [same.derivations']
    exact fun d _ t ht => .inl ht
  · rw [same.derivations']
    exact h.seen
  · rw [same.reactions]
    exact same.proper (h.reactions e)
  · rw [same.derivations']
    exact fun d sub hs => .inl hs
  · exact (same.teardown n id).symm.trans ht

theorem balanced (same : Same w w') (h : Balanced D P w)
    (named : ∀ name sub, w'.names.subscriptions.get? name = some sub →
      w.names.subscriptions.get? name = some sub ∨ Leads (OfScript w') sub w') :
    Balanced D P w' := by
  have near : Near D w w' := ⟨same.toDevelops, same.subscribers, same.reactions, same.handle,
    fun n _ => same.started n id, fun n _ => same.teardown n id, fun d real _ => same.cell d real id⟩
  refine near.balanced h (same.laid h.toLaid named) (fun n _ hs hp => ?_) fun n _ hp => ?_
  · rw [same.subscribers] at hs
    rw [same.producer] at hp
    rw [same.started n id]
    exact h.started n hs hp
  · rw [same.producer] at hp
    rw [same.started n id]
    exact h.idle n hp

end Same

end

end LiveMarkup.Live
