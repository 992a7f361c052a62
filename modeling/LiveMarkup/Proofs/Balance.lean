import LiveMarkup.Proofs.Dependencies
import LiveMarkup.Proofs.Operations

/-!
Balance: what each change to a world does to a network. Most changes leave alone who is subscribed to
what. A subscriber that joins or leaves for a node concerns only a node that is excepted.
-/
namespace LiveMarkup.Live

theorem Evolves.develops {w w' : World} (ev : Evolves w w') (branches : w'.branches = w.branches)
    (activations : w'.activations = w.activations) : Develops w w' := by
  refine ⟨ev, branches, ?_, fun a _ => ?_⟩
  · simp only [activations, Nat.le_refl]
  · rw [activations]

/-! Changes that leave the network alone. -/

section
variable {D P : SignalId → Prop} {w w' : World} {s : SignalId}

theorem Same.of_signals (ev : Evolves w w') (branches : w'.branches = w.branches)
    (activations : w'.activations = w.activations) (derivations : w'.derivations = w.derivations)
    (subscribers : ∀ s, (w'.signals.get s).subscribers = (w.signals.get s).subscribers)
    (started : ∀ s, (w'.signals.get s).started = (w.signals.get s).started)
    (teardown : ∀ s, (w'.signals.get s).teardown = (w.signals.get s).teardown)
    (reactions : ∀ e, (w'.entries.get e).reaction = (w.entries.get e).reaction)
    (handle : ∀ sub, sub.index < w.subscriptions.size →
      w'.subscriptions.get sub = w.subscriptions.get sub) : Same w w' where
  toDevelops := ev.develops branches activations
  subscribers := subscribers
  reactions := reactions
  handle := handle
  started n _ := started n
  teardown n _ := teardown n
  cell d _ _ := by rw [derivations]
  derivations' := derivations

theorem changed_same (s : SignalId) (value : Option Value) (w : World) :
    Same w (Signal.changed s value w) :=
  .of_signals (changed_evolves s value w) rfl rfl rfl
    (fun t => Heap.get_modify_same _ s t _ Signal.subscribers fun _ => rfl)
    (fun t => Heap.get_modify_same _ s t _ Signal.started fun _ => rfl)
    (fun t => Heap.get_modify_same _ s t _ Signal.teardown fun _ => rfl) (fun _ => rfl) fun _ _ => rfl

theorem marked_same (s : SignalId) (n : Nat) (e : EntryId) (w : World) :
    Same w (Signal.marked s n e w) :=
  .of_signals (marked_evolves s n e w) rfl rfl rfl
    (fun t => Heap.get_modify_same _ s t _ Signal.subscribers fun _ => rfl)
    (fun t => Heap.get_modify_same _ s t _ Signal.started fun _ => rfl)
    (fun t => Heap.get_modify_same _ s t _ Signal.teardown fun _ => rfl)
    (fun e' => Heap.get_modify_same _ e e' _ Entry.reaction fun _ => rfl) fun _ _ => rfl

theorem greeted_same (s : SignalId) (e : EntryId) (w : World) : Same w (Signal.greeted s e w) :=
  .of_signals (greeted_evolves s e w) rfl rfl rfl
    (fun t => Heap.get_modify_same _ s t _ Signal.subscribers fun _ => rfl)
    (fun t => Heap.get_modify_same _ s t _ Signal.started fun _ => rfl)
    (fun t => Heap.get_modify_same _ s t _ Signal.teardown fun _ => rfl) (fun _ => rfl) fun _ _ => rfl

theorem made_same (c : Cancel) (w : World) : Same w (Subscription.made c w) :=
  .of_signals (made_evolves c w) rfl rfl rfl (fun _ => rfl) (fun _ => rfl) (fun _ => rfl) (fun _ => rfl)
    fun _ hs => Heap.get_push_of_lt _ _ _ hs

namespace Beside

theorem same (h : Beside w w') : Same w w' := by
  have dev : Develops w w' :=
    ⟨h.toAside.evolves, h.branches, Nat.le_of_eq h.activations.symm, fun a _ => h.matched a⟩
  refine ⟨⟨dev, ?_, ?_, ?_, ?_, ?_, ?_⟩, h.derivations⟩
  · rw [h.signals]
    exact fun _ => rfl
  · rw [h.entries]
    exact fun _ => rfl
  · rw [h.subscriptions]
    exact fun _ _ => rfl
  · rw [h.signals]
    exact fun _ _ => rfl
  · rw [h.signals]
    exact fun _ _ => rfl
  · rw [h.derivations]
    exact fun _ _ _ => rfl

theorem balanced (beside : Beside w w') (h : Balanced D P w) : Balanced D P w' := by
  refine beside.same.balanced h ?_
  rw [beside.subscriptionNames]
  exact fun _ _ hn => .inl hn

end Beside

theorem setInFallback_beside (a : ActivationId) (inFallback : Bool) (run : Runner) :
    Keeps Beside run (Branch.setInFallback a inFallback) := by
  intro w
  simp only [Branch.setInFallback, ensures_modify]
  exact ⟨⟨rfl, rfl, rfl, rfl, rfl, rfl⟩, rfl, Heap.size_modify ..,
    fun a' => Heap.get_modify_same _ a a' _ Activation.branch fun _ => rfl⟩

theorem record_beside (d : Deed) (run : Runner) : Keeps Beside run (Branch.record d) := by
  intro w
  simp only [Branch.record, ensures_modify]
  exact ⟨⟨rfl, rfl, rfl, rfl, rfl, rfl⟩, rfl, rfl, fun _ => rfl⟩

/-- The world in which a match begins a period with subscribers. -/
def Branch.activated (b : BranchId) (w : World) : World :=
  { w with activations := w.activations.push ⟨b, false⟩ }

theorem activated_same (b : BranchId) (w : World) : Same w (Branch.activated b w) := by
  have ev : Evolves w (Branch.activated b w) :=
    ⟨rfl, fun _ => rfl, rfl, fun _ => rfl, fun _ => rfl, rfl, Nat.le_refl _, fun _ _ => rfl, Nat.le_refl _,
      fun _ _ => .inl rfl⟩
  have dev : Develops w (Branch.activated b w) := by
    refine ⟨ev, rfl, ?_, fun a ha => congrArg Activation.branch (Heap.get_push_of_lt _ _ _ ha)⟩
    simp [Branch.activated]
  exact ⟨⟨dev, fun _ => rfl, fun _ => rfl, fun _ _ => rfl, fun _ _ => rfl, fun _ _ => rfl, fun _ _ _ => rfl⟩, rfl⟩

/-! Changes to an excepted node. -/

/-- A node that is being started or stopped may change its flags. -/
theorem flags_balanced (h : Balanced D P w) (hs : D s) (started : Signal → Bool)
    (teardown : Signal → Option SubscriptionId)
    (on : (w.signals.get s).subscribers ≠ [] → (w.signals.get s).producer ≠ none →
      started (w.signals.get s) = true)
    (off : (w.signals.get s).producer = none → started (w.signals.get s) = false)
    (leads : ∀ t, teardown (w.signals.get s) = some t →
      (w.signals.get s).teardown = some t ∨ Leads (OfNode s w) t w) :
    Balanced D P { w with signals := w.signals.modify s fun signal =>
      { signal with started := started signal, teardown := teardown signal } } := by
  rcases Nat.lt_or_ge s.index w.signals.size with valid | invalid
  case inr =>
    rw [Heap.modify_of_size_le _ _ _ invalid]
    exact h
  let w' : World := { w with signals := w.signals.modify s fun signal =>
    { signal with started := started signal, teardown := teardown signal } }
  have dev : Develops w w' := (flags_evolves s started teardown w).develops rfl rfl
  have self : w'.signals.get s = { w.signals.get s with
      started := started (w.signals.get s), teardown := teardown (w.signals.get s) } :=
    Heap.get_modify_self _ _ _ valid
  have other : ∀ t, s ≠ t → w'.signals.get t = w.signals.get t :=
    fun t ht => Heap.get_modify_of_ne _ _ _ _ ht
  have laid : Laid w' := by
    refine dev.laid h.toLaid (fun _ _ _ ht => .inl ht) h.seen
      (fun e _ => dev.proper (h.reactions e)) (fun _ _ hn => .inl hn) (fun _ _ hd => .inl hd)
      fun n t ht => ?_
    by_cases hn : s = n
    · subst hn
      rw [self] at ht
      exact (leads t ht).imp id fun leads => dev.leads leads fun _ => dev.ofNode h.toLaid
    · rw [other n hn] at ht
      exact .inl ht
  have near : Near D w w' := by
    refine ⟨dev, fun t => Heap.get_modify_same _ s t _ Signal.subscribers fun _ => rfl, fun _ => rfl,
      fun _ _ => rfl, fun n hn => ?_, fun n hn => ?_, fun _ _ _ => rfl⟩
    · rw [other n fun heq => hn (heq ▸ hs)]
    · rw [other n fun heq => hn (heq ▸ hs)]
  refine near.balanced h laid (fun n _ hsub hp => ?_) fun n _ hp => ?_
  · by_cases hn : s = n
    · subst hn
      rw [self] at hsub hp ⊢
      exact on hsub hp
    · rw [other n hn] at hsub hp ⊢
      exact h.started n hsub hp
  · by_cases hn : s = n
    · subst hn
      rw [self] at hp ⊢
      exact off hp
    · rw [other n hn] at hp ⊢
      exact h.idle n hp

/-- A derivation that is being started or stopped may change its cell. -/
theorem cell_balanced {d : DerivationId} (h : Balanced D P w)
    (hd : D (w.derivations.get d).output) (f : Derivation → Derivation)
    (reading : ∀ cell, (f cell).reading = cell.reading)
    (output : ∀ cell, (f cell).output = cell.output)
    (tracked : ∀ t ∈ (f (w.derivations.get d)).tracked,
      t ∈ (w.derivations.get d).tracked ∨ t.index < (w.derivations.get d).output.index)
    (seen : (f (w.derivations.get d)).tracked.Nodup ∧
      ∀ t, t ∈ (f (w.derivations.get d)).shown ↔ t ∈ (f (w.derivations.get d)).tracked)
    (held : ∀ sub ∈ (f (w.derivations.get d)).subscriptions,
      sub ∈ (w.derivations.get d).subscriptions ∨ Leads (OfDerivation d w) sub w) :
    Balanced D P { w with derivations := w.derivations.modify d f } := by
  rcases Nat.lt_or_ge d.index w.derivations.size with valid | invalid
  case inr =>
    rw [Heap.modify_of_size_le _ _ _ invalid]
    exact h
  let w' : World := { w with derivations := w.derivations.modify d f }
  have dev : Develops w w' := (cell_evolves d f reading output w).develops rfl rfl
  have self : w'.derivations.get d = f (w.derivations.get d) := Heap.get_modify_self _ _ _ valid
  have other : ∀ d', d ≠ d' → w'.derivations.get d' = w.derivations.get d' :=
    fun d' hd' => Heap.get_modify_of_ne _ _ _ _ hd'
  have laid : Laid w' := by
    refine dev.laid h.toLaid (fun d' _ t ht => ?_) (fun d' => ?_) (fun e _ => dev.proper (h.reactions e))
      (fun _ _ hn => .inl hn) (fun d' sub hs => ?_) fun _ _ ht => .inl ht
    · by_cases hd' : d = d'
      · subst hd'
        rw [self] at ht
        exact tracked t ht
      · rw [other d' hd'] at ht
        exact .inl ht
    · by_cases hd' : d = d'
      · subst hd'
        rw [self]
        exact seen
      · rw [other d' hd']
        exact h.seen d'
    · by_cases hd' : d = d'
      · subst hd'
        rw [self] at hs
        exact (held sub hs).imp id fun leads => dev.leads leads fun _ => dev.ofDerivation
      · rw [other d' hd'] at hs
        exact .inl hs
  have near : Near D w w' := by
    refine ⟨dev, fun _ => rfl, fun _ => rfl, fun _ _ => rfl, fun _ _ => rfl, fun _ _ => rfl, fun d' _ hd' => ?_⟩
    refine other d' fun heq => hd' ?_
    rw [← heq]
    exact hd
  exact near.balanced h laid (fun n _ => h.started n) fun n _ => h.idle n

/-- A handle may be spent unless it is one of a node that is not excepted. -/
theorem spent_balanced (h : Balanced D P w) {sub : SubscriptionId}
    (apart : ∀ c, w.subscriptions.get sub = some c →
      (∀ d, c = .release d → D (w.derivations.get d).output) ∧
      ∀ s e, c = .entry s e → ∀ n, (w.entries.get e).reaction.node? w = some n → D n) :
    Balanced D P (Subscription.spent sub w) := by
  let w' := Subscription.spent sub w
  have dev : Develops w w' := (spent_evolves sub w).develops rfl rfl
  have laid : Laid w' :=
    dev.laid h.toLaid (fun _ _ _ ht => .inl ht) h.seen (fun e _ => dev.proper (h.reactions e))
      (fun _ _ hn => .inl hn) (fun _ _ hs => .inl hs) fun _ _ ht => .inl ht
  have kept : ∀ other c, w.subscriptions.get other = some c →
      (∀ d, c = .release d → ¬ D (w.derivations.get d).output) →
      (∀ s e, c = .entry s e → ∃ n, (w.entries.get e).reaction.node? w = some n ∧ ¬ D n) →
      (∃ d, c = .release d) ∨ (∃ s e, c = .entry s e) → w'.subscriptions.get other = some c := by
    intro other c hc release entry kind
    have ne : sub ≠ other := by
      rintro rfl
      obtain ⟨hd, hn⟩ := apart c hc
      rcases kind with ⟨d, rfl⟩ | ⟨s, e, rfl⟩
      · exact release d rfl (hd d rfl)
      · obtain ⟨n, node, out⟩ := entry s e rfl
        exact out (hn s e rfl n node)
    exact (Heap.get_modify_of_ne _ _ _ _ ne).trans hc
  refine ⟨laid, h.started, h.idle, h.observed, h.linked, fun n hn hs => ?_⟩
  obtain ⟨t, c, ht, hc, takes⟩ := h.tended n hn hs
  rcases (h.teardown n t ht).2 c hc with ⟨d, rfl, hd⟩ | ⟨s, e, b, rfl, he, node, hb⟩
  · obtain ⟨real, output⟩ := h.toLaid.real_of_producer hd
    refine ⟨t, .release d, ht, kept t _ hc ?_ nofun (.inl ⟨d, rfl⟩), fun s e he => ?_⟩
    · rintro _ ⟨⟩
      rw [output]
      exact hn
    · obtain ⟨sub', hs', held⟩ := takes s e he
      refine ⟨sub', hs', kept sub' _ held nofun ?_ (.inr ⟨s, e, rfl⟩)⟩
      rintro _ _ ⟨⟩
      exact ⟨n, (mem_links.1 he).2, hn⟩
  · refine ⟨t, .entry s e, ht, kept t _ hc nofun ?_ (.inr ⟨s, e, rfl⟩), takes⟩
    rintro _ _ ⟨⟩
    exact ⟨n, node, hn⟩

/-! Subscribers that join and leave. -/

theorem entered_develops (s : SignalId) (reaction : Reaction) (mode : Mode) (w : World) :
    Develops w (Signal.entered s reaction mode w) :=
  (entered_evolves s reaction mode w).develops rfl rfl

theorem entered_reaction (s : SignalId) (reaction : Reaction) (mode : Mode) :
    ((Signal.entered s reaction mode w).entries.get w.entries.next).reaction = reaction := by
  simp [Signal.entered]

/-- A subscriber that joins is a link of the node that it works for, and of no other. -/
theorem entered_links (faithful : Faithful w) (h : Laid w) {reaction : Reaction} (mode : Mode)
    (proper : reaction.Proper w) (n t : SignalId) :
    links (Signal.entered s reaction mode w) n t = links w n t ++
      if s = t ∧ s.index < w.signals.size ∧ reaction.node? w = some n then [w.entries.next]
      else [] := by
  let w' := Signal.entered s reaction mode w
  have dev : Develops w w' := entered_develops s reaction mode w
  have old : ∀ e ∈ (w.signals.get t).subscribers,
      (w'.entries.get e).reaction.node? w' = (w.entries.get e).reaction.node? w := by
    intro e he
    have recorded := faithful.signals t
    rw [dev.reaction e (recorded.known e (recorded.joined he)), dev.node? (h.reactions e)]
  have new : (w'.entries.get w.entries.next).reaction.node? w' = reaction.node? w := by
    rw [entered_reaction, dev.node? proper]
  have same : (w.signals.get t).subscribers.filter
      (fun e => (w'.entries.get e).reaction.node? w' = some n) = links w n t :=
    List.filter_congr fun e he => by rw [old e he]
  by_cases here : s = t ∧ s.index < w.signals.size
  · obtain ⟨rfl, valid⟩ := here
    have subscribers : (w'.signals.get s).subscribers =
        (w.signals.get s).subscribers ++ [w.entries.next] :=
      congrArg Signal.subscribers (Heap.get_modify_self _ _ _ valid)
    change (w'.signals.get s).subscribers.filter
      (fun e => (w'.entries.get e).reaction.node? w' = some n) = _
    rw [subscribers, List.filter_append, same]
    by_cases node : reaction.node? w = some n
    · simp [new, node, valid]
    · simp [new, node]
  · have subscribers : (w'.signals.get t).subscribers = (w.signals.get t).subscribers := by
      by_cases hst : s = t
      · subst hst
        have invalid : w.signals.size ≤ s.index := Nat.le_of_not_lt fun hlt => here ⟨rfl, hlt⟩
        have signals : w'.signals = w.signals := Heap.modify_of_size_le _ _ _ invalid
        rw [signals]
      · exact congrArg Signal.subscribers (Heap.get_modify_of_ne _ _ _ _ hst)
    change (w'.signals.get t).subscribers.filter _ = _
    rw [subscribers, same, if_neg fun both => here ⟨both.1, both.2.1⟩, List.append_nil]

/-- Somebody from outside, or a subscriber for an excepted node, may join a signal that runs. -/
theorem entered_balanced (faithful : Faithful w) (h : Balanced D (· = s) w) {reaction : Reaction}
    (mode : Mode) (proper : reaction.Proper w)
    (outside : ∀ n, reaction.node? w = some n → D n)
    (running : (w.signals.get s).producer ≠ none → (w.signals.get s).started = true) :
    Balanced D NoNode (Signal.entered s reaction mode w) := by
  let w' := Signal.entered s reaction mode w
  have dev : Develops w w' := entered_develops s reaction mode w
  have started : ∀ t, (w'.signals.get t).started = (w.signals.get t).started :=
    fun t => Heap.get_modify_same _ s t _ Signal.started fun _ => rfl
  have teardown : ∀ t, (w'.signals.get t).teardown = (w.signals.get t).teardown :=
    fun t => Heap.get_modify_same _ s t _ Signal.teardown fun _ => rfl
  have other : ∀ t, s ≠ t → w'.signals.get t = w.signals.get t :=
    fun t ht => Heap.get_modify_of_ne _ _ _ _ ht
  have links : ∀ n, ¬ D n → ∀ t, links w' n t = links w n t := by
    intro n hn t
    rw [entered_links faithful h.toLaid mode proper, if_neg fun both => hn (outside n both.2.2),
      List.append_nil]
  have laid : Laid w' := by
    refine dev.laid h.toLaid (fun _ _ _ ht => .inl ht) h.seen (fun e he => ?_) (fun _ _ hn => .inl hn)
      (fun _ _ hs => .inl hs) fun n t ht => .inl ((teardown n).symm.trans ht)
    by_cases new : e = w.entries.next
    · subst new
      rw [entered_reaction]
      exact dev.proper proper
    · have same : w'.entries.get e = w.entries.get e := Heap.get_push_of_ne _ _ _ new
      rw [same]
      exact dev.proper (h.reactions e)
  refine ⟨laid, fun n hs hp => ?_, fun n hp => ?_, fun n hD _ hs => ?_, fun n hD t => ?_, fun n hD hs => ?_⟩
  · rw [started]
    rw [dev.producer] at hp
    by_cases hn : s = n
    · subst hn
      exact running hp
    · rw [other n hn] at hs
      exact h.started n hs hp
  · rw [dev.producer] at hp
    rw [started]
    exact h.idle n hp
  · rw [started] at hs
    by_cases hn : s = n
    · subst hn
      have valid : s.index < w.signals.size :=
        index_lt_of_ne Signal.started fun heq => nomatch hs.symm.trans heq
      have subscribers : (w'.signals.get s).subscribers =
          (w.signals.get s).subscribers ++ [w.entries.next] :=
        congrArg Signal.subscribers (Heap.get_modify_self _ _ _ valid)
      rw [subscribers]
      exact List.append_ne_nil_of_right_ne_nil _ (List.cons_ne_nil _ _)
    · rw [other n hn]
      exact h.observed n hD (fun heq => hn heq.symm) hs
  · have same : needs w' n = needs w n := by
      unfold needs
      rw [dev.producer]
      rfl
    rw [links n hD, started, same]
    exact h.linked n hD t
  · rw [started] at hs
    obtain ⟨t, c, ht, hc, takes⟩ := h.tended n hD hs
    refine ⟨t, c, (teardown n).trans ht, hc, fun s' e he => ?_⟩
    rw [links n hD] at he
    exact takes s' e he

theorem dropped_develops (s : SignalId) (e : EntryId) (w : World) :
    Develops w (Signal.dropped s e w) :=
  (dropped_evolves s e w).develops rfl rfl

theorem dropped_subset (s : SignalId) (e : EntryId) (t : SignalId) :
    ((Signal.dropped s e w).signals.get t).subscribers ⊆ (w.signals.get t).subscribers := by
  by_cases hst : s = t
  · subst hst
    rcases Nat.lt_or_ge s.index w.signals.size with valid | invalid
    · simp only [Signal.dropped, Heap.get_modify_self _ _ _ valid]
      exact List.erase_subset
    · simp only [Signal.dropped, Heap.modify_of_size_le _ _ _ invalid, List.Subset.refl]
  · simp only [Signal.dropped, Heap.get_modify_of_ne _ _ _ _ hst, List.Subset.refl]

theorem not_mem_dropped (faithful : Faithful w) (s : SignalId) (e : EntryId) :
    e ∉ ((Signal.dropped s e w).signals.get s).subscribers := by
  rcases Nat.lt_or_ge s.index w.signals.size with valid | invalid
  · simp only [Signal.dropped, Heap.get_modify_self _ _ _ valid]
    exact (faithful.signals s).nodup.not_mem_erase
  · simp only [Signal.dropped, Heap.modify_of_size_le _ _ _ invalid, Heap.get_of_size_le _ _ invalid]
    exact List.not_mem_nil

/-- Somebody from outside, or a subscriber for an excepted node, may leave. The signal may be without
subscribers then. -/
theorem dropped_balanced (h : Balanced D NoNode w) (s : SignalId) {e : EntryId}
    (outside : ∀ n, (w.entries.get e).reaction.node? w = some n → D n) :
    Balanced D (· = s) (Signal.dropped s e w) := by
  let w' := Signal.dropped s e w
  have dev : Develops w w' := dropped_develops s e w
  have reaction : ∀ e', (w'.entries.get e').reaction = (w.entries.get e').reaction :=
    fun e' => dropped_entry Entry.reaction (fun _ => rfl) s e e'
  have started : ∀ t, (w'.signals.get t).started = (w.signals.get t).started :=
    fun t => Heap.get_modify_same _ s t _ Signal.started fun _ => rfl
  have teardown : ∀ t, (w'.signals.get t).teardown = (w.signals.get t).teardown :=
    fun t => Heap.get_modify_same _ s t _ Signal.teardown fun _ => rfl
  have other : ∀ t, s ≠ t → w'.signals.get t = w.signals.get t :=
    fun t ht => Heap.get_modify_of_ne _ _ _ _ ht
  have links : ∀ n, ¬ D n → ∀ t, links w' n t = links w n t := by
    intro n hn t
    have works : ∀ e', ((w'.entries.get e').reaction.node? w' = some n) =
        ((w.entries.get e').reaction.node? w = some n) := by
      intro e'
      rw [reaction, dev.node? (h.reactions e')]
    unfold Live.links
    simp only [works]
    by_cases hst : s = t
    · subst hst
      rcases Nat.lt_or_ge s.index w.signals.size with valid | invalid
      · have subscribers : (w'.signals.get s).subscribers = (w.signals.get s).subscribers.erase e :=
          congrArg Signal.subscribers (Heap.get_modify_self _ _ _ valid)
        rw [subscribers, ← List.erase_filter, List.erase_of_not_mem]
        intro mem
        exact hn (outside n (of_decide_eq_true (List.mem_filter.1 mem).2))
      · have signals : w'.signals = w.signals := Heap.modify_of_size_le _ _ _ invalid
        rw [signals]
    · rw [other t hst]
  have laid : Laid w' := by
    refine dev.laid h.toLaid (fun _ _ _ ht => .inl ht) h.seen (fun e' _ => ?_) (fun _ _ hn => .inl hn)
      (fun _ _ hs => .inl hs) fun n t ht => .inl ((teardown n).symm.trans ht)
    rw [reaction]
    exact dev.proper (h.reactions e')
  refine ⟨laid, fun n hs hp => ?_, fun n hp => ?_, fun n hD hP hs => ?_, fun n hD t => ?_, fun n hD hs => ?_⟩
  · rw [dev.producer] at hp
    rw [started]
    refine h.started n (fun hnil => hs ?_) hp
    exact List.eq_nil_of_subset_nil (hnil ▸ dropped_subset s e n)
  · rw [dev.producer] at hp
    rw [started]
    exact h.idle n hp
  · rw [started] at hs
    rw [other n fun heq => hP heq.symm]
    exact h.observed n hD id hs
  · have same : needs w' n = needs w n := by
      unfold needs
      rw [dev.producer]
      rfl
    rw [links n hD, started, same]
    exact h.linked n hD t
  · rw [started] at hs
    obtain ⟨t, c, ht, hc, takes⟩ := h.tended n hD hs
    refine ⟨t, c, (teardown n).trans ht, hc, fun s' e' he' => ?_⟩
    rw [links n hD] at he'
    exact takes s' e' he'

end

end LiveMarkup.Live
