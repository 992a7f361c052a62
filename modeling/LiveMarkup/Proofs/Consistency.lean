import LiveMarkup.Proofs.Operations

/-!
Consistency: when nothing is under way, every derived signal that has a subscriber holds what its
computation makes of the signals that it reads. A graph is built signal by signal, and between that
anything may be done to it.
-/
namespace LiveMarkup.Live

/-- A derivation whose signal is yet to be made. -/
def Derivation.added (r : Reading) (w : World) : World :=
  { w with derivations := w.derivations.push ⟨r, w.signals.next, [], [], []⟩ }

/-- A new signal. -/
def Signal.added (value : Option Value) (producer : Option Producer) (w : World) : World :=
  { w with signals := w.signals.push (.fresh value producer) }

/-- A signal that gets a name. -/
def Signal.called (name : Name) (s : SignalId) (role : Role) (w : World) : World :=
  { w with names := { w.names with signals := w.names.signals.insert name (s, role) } }

section
variable {w : World} {d : DerivationId} {name : Name} {role : Role} {value : Option Value}
  {producer : Option Producer}

theorem Shape.index_lt (h : Shape w) (real : Real d w) : d.index < w.derivations.size := by
  obtain ⟨d', hd, hlt, -⟩ := h.producers _ _ real
  cases hd
  exact hlt

theorem Real.output_ne_next (h : Real d w) : (w.derivations.get d).output ≠ w.signals.next := by
  intro heq
  have := h.index_lt
  rw [heq] at this
  exact Nat.lt_irrefl _ this

theorem derivationAdded_wired (h : Wired Nowhere w) (r : Reading) :
    Wired Nowhere (Derivation.added r w) := by
  have old : ∀ d, d ≠ w.derivations.next →
      (Derivation.added r w).derivations.get d = w.derivations.get d :=
    fun d hd => Heap.get_push_of_ne _ _ _ hd
  have new : (Derivation.added r w).derivations.get w.derivations.next =
      ⟨r, w.signals.next, [], [], []⟩ := Heap.get_push_next ..
  have known : ∀ {d}, d.index < w.derivations.size → d ≠ w.derivations.next := by
    rintro d hd rfl
    exact Nat.lt_irrefl _ hd
  have real : ∀ d, Real d (Derivation.added r w) → Real d w ∧ d ≠ w.derivations.next := by
    intro d hd
    unfold Real at hd
    by_cases hn : d = w.derivations.next
    · subst hn
      rw [new] at hd
      have unmade : (w.signals.get w.signals.next).producer = none := by
        rw [Heap.get_next]
        rfl
      exact absurd (hd.symm.trans unmade) nofun
    · rw [old d hn] at hd
      exact ⟨hd, hn⟩
  have real' : ∀ d, Real d w → Real d (Derivation.added r w) := by
    intro d hd
    unfold Real
    rw [old d (known (h.shape.index_lt hd))]
    exact hd
  refine ⟨⟨?_, ?_, ?_, h.shape.writable, h.shape.made⟩, ⟨?_, h.handles.named, ?_, ?_⟩,
    ⟨h.flow.started, ?_, ?_⟩⟩
  · intro s p hp
    obtain ⟨d, rfl, hd, ho⟩ := h.shape.producers s p hp
    refine ⟨d, rfl, ?_, ?_⟩
    · exact (Heap.size_push ..).symm ▸ Nat.lt_succ_of_lt hd
    · rw [old d (known hd), ho]
  · intro d hd
    obtain ⟨hd, hn⟩ := real d hd
    rw [old d hn]
    exact h.shape.grounded d hd
  · intro d hd
    obtain ⟨hd, hn⟩ := real d hd
    rw [old d hn]
    exact h.shape.earlier d hd
  · intro e
    have fits := h.handles.reactions e
    cases hr : (w.entries.get e).reaction <;> rw [hr] at fits
    case refresh d => exact hr.symm ▸ real' d fits
    all_goals exact hr.symm ▸ fits
  · intro d sub hs
    by_cases hn : d = w.derivations.next
    · subst hn
      rw [new] at hs
      cases hs
    · rw [old d hn] at hs
      exact h.handles.held d sub hs
  · intro s t ht
    obtain ⟨made, imp⟩ := h.handles.teardown s t ht
    refine ⟨made, fun c hc => ?_⟩
    obtain ⟨d, rfl, hd, ho⟩ := imp c hc
    exact ⟨d, rfl, real' d hd, by rw [old d (known (h.shape.index_lt hd)), ho]⟩
  · intro d _ hd
    obtain ⟨hd₀, hn⟩ := real d hd.1
    unfold Attached
    rw [old d hn]
    refine h.flow.attached d id ⟨hd₀, ?_⟩
    have started := hd.2
    rw [old d hn] at started
    exact started
  · intro d _ hd
    obtain ⟨hd₀, hn⟩ := real d hd.1
    have running : Running d w := by
      refine ⟨hd₀, ?_⟩
      have started := hd.2
      rw [old d hn] at started
      exact started
    refine (h.flow.current d id running).imp (fun ⟨l, hc⟩ => ⟨l, ?_⟩) id
    have same := old d hn
    refine hc.carry (fun _ _ hn => hn) (congrArg _ same) ?_ (fun _ _ => rfl) ?_
    · simp only [same, List.Subset.refl]
    · rw [same]
      rfl

/-- What may produce a new signal: a derivation that was made for it and has not run yet. -/
def Producer.Fits (w : World) (p : Producer) : Prop :=
  ∃ d, p = .derivation d ∧ d.index < w.derivations.size ∧
    (w.derivations.get d).output = w.signals.next ∧ (w.derivations.get d).tracked = [] ∧
      (w.derivations.get d).reading.Grounded w.names.signals w.signals.size

theorem signalAdded_wired (h : Wired Nowhere w) (fits : ∀ p, producer = some p → p.Fits w) :
    Wired Nowhere (Signal.added value producer w) := by
  let w' := Signal.added value producer w
  have old : ∀ s, s ≠ w.signals.next → w'.signals.get s = w.signals.get s :=
    fun s hs => Heap.get_push_of_ne _ _ _ hs
  have new : w'.signals.get w.signals.next = .fresh value producer := Heap.get_push_next ..
  have size : w'.signals.size = w.signals.size + 1 := Heap.size_push ..
  have subscribed : ∀ {s e}, e ∈ (w.signals.get s).subscribers →
      w'.signals.get s = w.signals.get s := by
    intro s e he
    refine old s ?_
    rintro rfl
    rw [Heap.get_next] at he
    cases he
  have real : ∀ d, Real d w' → Real d w ∨ producer = some (.derivation d) := by
    intro d hd
    by_cases ho : (w.derivations.get d).output = w.signals.next
    · right
      unfold Real at hd
      have output : (w'.derivations.get d).output = w.signals.next := ho
      rw [output, new] at hd
      exact hd
    · left
      exact (congrArg Signal.producer (old _ ho)).symm.trans hd
  have real' : ∀ d, Real d w → Real d w' := fun d hd =>
    (congrArg Signal.producer (old _ hd.output_ne_next)).trans hd
  have running : ∀ d, Running d w' → Running d w := by
    intro d hd
    have started := hd.2
    by_cases ho : (w.derivations.get d).output = w.signals.next
    · have output : (w'.derivations.get d).output = w.signals.next := ho
      rw [output, new] at started
      cases started
    · exact ⟨(congrArg Signal.producer (old _ ho)).symm.trans hd.1,
        (congrArg Signal.started (old _ ho)).symm.trans started⟩
  refine ⟨⟨?_, ?_, ?_, ?_, ?_⟩, ⟨?_, h.handles.named, h.handles.held, ?_⟩, ⟨?_, ?_, ?_⟩⟩
  · intro s p hp
    by_cases hs : s = w.signals.next
    · subst hs
      rw [new] at hp
      obtain ⟨d, rfl, hd, ho, -⟩ := fits p hp
      exact ⟨d, rfl, hd, ho⟩
    · rw [old s hs] at hp
      exact h.shape.producers s p hp
  · intro d hd
    rcases real d hd with hd | hp
    · exact h.shape.grounded d hd
    · obtain ⟨d', heq, -, ho, -, grounded⟩ := fits _ hp
      cases heq
      have position : (w.derivations.get d).output.index = w.signals.size := congrArg Id.index ho
      exact position.symm ▸ grounded
  · intro d hd t ht
    rcases real d hd with hd | hp
    · exact h.shape.earlier d hd t ht
    · obtain ⟨d', heq, -, -, nothing, -⟩ := fits _ hp
      cases heq
      have tracked : (w'.derivations.get d).tracked = [] := nothing
      rw [tracked] at ht
      cases ht
  · intro name s hn
    have ne : s ≠ w.signals.next := by
      rintro rfl
      exact Nat.lt_irrefl _ (h.shape.made name _ _ hn)
    exact (congrArg Signal.producer (old s ne)).trans (h.shape.writable name s hn)
  · intro name s role hn
    rw [size]
    exact Nat.lt_succ_of_lt (h.shape.made name s role hn)
  · intro e
    have fits := h.handles.reactions e
    cases hr : (w.entries.get e).reaction <;> rw [hr] at fits
    case refresh d => exact hr.symm ▸ real' d fits
    all_goals exact hr.symm ▸ fits
  · intro s t ht
    by_cases hs : s = w.signals.next
    · subst hs
      rw [new] at ht
      cases ht
    · rw [old s hs] at ht
      obtain ⟨made, imp⟩ := h.handles.teardown s t ht
      refine ⟨made, fun c hc => ?_⟩
      obtain ⟨d, rfl, hd, ho⟩ := imp c hc
      exact ⟨d, rfl, real' d hd, ho⟩
  · intro s hs hp
    by_cases hn : s = w.signals.next
    · subst hn
      rw [new] at hs
      exact absurd rfl hs
    · rw [old s hn] at hs hp ⊢
      exact h.flow.started s hs hp
  · intro d _ hd t ht
    obtain ⟨e, he, hr⟩ := h.flow.attached d id (running d hd) t ht
    exact ⟨e, subscribed he ▸ he, hr⟩
  · intro d _ hd
    have hd₀ := running d hd
    have content : ∀ s, s ≠ w.signals.next → Signal.content w' s = Signal.content w s :=
      fun s hs => congrArg Signal.value (old s hs)
    refine (h.flow.current d id hd₀).imp (fun ⟨l, hc⟩ => ⟨l, ?_⟩) fun ⟨s, e, he, hr, hlt⟩ => ?_
    · refine hc.carry (fun _ _ hn => hn) rfl (List.Subset.refl _) (fun t ht => content t ?_)
        (content _ hd₀.1.output_ne_next)
      obtain ⟨_, _, -, gives, -⟩ := hc.holds
      rintro rfl
      have before := gives.reads_lt (h.shape.grounded d hd₀.1) _ ht
      exact Nat.lt_asymm before hd₀.1.index_lt
    · have same := subscribed he
      exact ⟨s, e, same ▸ he, hr, same ▸ hlt⟩

theorem called_extends (unused : w.names.signals.get? name = none) (s : SignalId) :
    Extends w.names.signals (Signal.called name s role w).names.signals := by
  intro other p hp
  have ne : other ≠ name := by
    rintro rfl
    rw [unused] at hp
    cases hp
  exact (Ordered.get?_insert_of_ne _ ne _).trans hp

theorem called_wired (h : Wired Nowhere w) (unused : w.names.signals.get? name = none)
    {s : SignalId} (known : s.index < w.signals.size)
    (writable : role = .writable → (w.signals.get s).producer = none) :
    Wired Nowhere (Signal.called name s role w) := by
  have ext : Extends w.names.signals (Signal.called name s role w).names.signals :=
    called_extends unused s
  have named : ∀ other t role', (Signal.called name s role w).names.signals.get? other = some (t, role') →
      w.names.signals.get? other = some (t, role') ∨ t = s ∧ role' = role := by
    intro other t role' hn
    by_cases ho : other = name
    · subst ho
      simp only [Signal.called, Ordered.get?_insert_self, Option.some.injEq, Prod.mk.injEq] at hn
      exact .inr ⟨hn.1.symm, hn.2.symm⟩
    · simp only [Signal.called, Ordered.get?_insert_of_ne _ ho] at hn
      exact .inl hn
  refine ⟨⟨h.shape.producers, fun d real => (h.shape.grounded d real).mono ext, h.shape.earlier, ?_, ?_⟩,
    ⟨h.handles.reactions, h.handles.named, h.handles.held, h.handles.teardown⟩,
    ⟨h.flow.started, h.flow.attached, fun d hd running => ?_⟩⟩
  · intro other t hn
    rcases named other t _ hn with before | ⟨rfl, hrole⟩
    · exact h.shape.writable other t before
    · exact writable hrole.symm
  · intro other t role' hn
    rcases named other t role' hn with before | ⟨rfl, -⟩
    · exact h.shape.made other t role' before
    · exact known
  · refine (h.flow.current d hd running).imp (fun ⟨l, hc⟩ => ⟨l, ?_⟩) id
    exact hc.carry ext rfl (List.Subset.refl _) (fun _ _ => rfl) rfl

/-- A signal was derived by a computation. -/
def Derives (w : World) (s : SignalId) (r : Reading) : Prop :=
  ∃ d, (w.signals.get s).producer = some (.derivation d) ∧ (w.derivations.get d).reading = r

theorem Derives.evolve {w' : World} {s : SignalId} {r : Reading} (h : Derives w s r)
    (ev : Evolves w w') : Derives w' s r := by
  obtain ⟨d, hs, hr⟩ := h
  exact ⟨d, (ev.producer s).trans hs, (ev.reading d).trans hr⟩

/-- What there is of a graph is there still. -/
structure Builds (w w' : World) : Prop where
  names : Extends w.names.signals w'.names.signals
  count : w.signals.size ≤ w'.signals.size
  derives : ∀ s r, Derives w s r → Derives w' s r

instance : Lasting Builds where
  refl _ := ⟨fun _ _ hn => hn, Nat.le_refl _, fun _ _ hs => hs⟩
  trans h h' := ⟨fun _ _ hn => h'.names _ _ (h.names _ _ hn), Nat.le_trans h.count h'.count,
    fun s r hs => h'.derives s r (h.derives s r hs)⟩

theorem Evolves.builds {w' : World} (ev : Evolves w w') : Builds w w' := by
  refine ⟨?_, Nat.le_of_eq ev.signals.symm, fun s r hs => hs.evolve ev⟩
  rw [ev.names]
  exact fun _ _ hn => hn

theorem derivationAdded_builds (hw : Shape w) (r : Reading) : Builds w (Derivation.added r w) := by
  refine ⟨fun _ _ hn => hn, Nat.le_refl _, fun s r' ⟨d, hs, hr⟩ => ?_⟩
  have known := hw.index_lt (hw.real_of_producer hs).1
  have same : (Derivation.added r w).derivations.get d = w.derivations.get d :=
    Heap.get_push_of_lt _ _ _ known
  exact ⟨d, hs, same ▸ hr⟩

theorem signalAdded_builds : Builds w (Signal.added value producer w) := by
  refine ⟨fun _ _ hn => hn, ?_, fun s r ⟨d, hs, hr⟩ => ?_⟩
  · simp [Signal.added]
  · have ne : s ≠ w.signals.next := by
      rintro rfl
      rw [Heap.get_next] at hs
      cases hs
    have same : (Signal.added value producer w).signals.get s = w.signals.get s :=
      Heap.get_push_of_ne _ _ _ ne
    exact ⟨d, same ▸ hs, hr⟩

theorem called_builds (unused : w.names.signals.get? name = none) (s : SignalId) :
    Builds w (Signal.called name s role w) :=
  ⟨called_extends unused s, Nat.le_refl _, fun _ _ hs => hs⟩

variable {run : Runner}

theorem create_works (h : Ready Nowhere w) (unused : w.names.signals.get? name = none) (v : Literal)
    (role : Role) :
    Ensures run (do
      nameSignal name (← Signal.create (some (← v.eval)) none) role
      return Answer.none) w fun _ w' => Wired Nowhere w' ∧ Builds w w' := by
  refine (ensures_bind ..).2 ((Idle.literal (R := Aside) v w).mono fun v w₁ aside => ?_)
  have h₁ : Ready Nowhere w₁ := h.aside aside
  simp only [Signal.create, ensures_bind, ensures_get, ensures_set, ensures_pure, nameSignal,
    rename, ensures_modify]
  have unused₁ : w₁.names.signals.get? name = none := by rwa [aside.signalNames]
  have wired₂ : Wired Nowhere (Signal.added (some v) none w₁) := signalAdded_wired h₁.toWired
    fun _ made => Option.noConfusion rfl (heq_of_eq made)
  have unused₂ : (Signal.added (some v) none w₁).names.signals.get? name = none := unused₁
  have builds₂ : Builds w₁ (Signal.added (some v) none w₁) := signalAdded_builds
  have builds₃ : Builds (Signal.added (some v) none w₁)
      (Signal.called name w₁.signals.next role (Signal.added (some v) none w₁)) :=
    called_builds unused₂ _
  refine ⟨called_wired wired₂ unused₁ ?_ fun _ => ?_, ?_⟩
  · simp [Signal.added, Heap.next]
  · simp [Signal.added, Signal.fresh]
  · exact Lasting.trans aside.evolves.builds (Lasting.trans builds₂ builds₃)

/-- The first value is computed unseen, so a derived signal starts with nothing tracked. -/
theorem createDerivation_works (h : Ready Nowhere w) {r : Reading}
    (grounded : r.Grounded w.names.signals w.signals.size) :
    Ensures run (Derivation.create r) w fun s w' =>
      Wired Nowhere w' ∧ Builds w w' ∧ Derives w' s r ∧ s = w.signals.next ∧
        s.index < w'.signals.size ∧ w'.names.signals = w.names.signals := by
  refine (ensures_bind ..).2 ?_
  refine (Idle.reading (R := Aside) (fun _ => Tracker.noConfusion) r w).mono fun v w₁ aside => ?_
  have h₁ : Ready Nowhere w₁ := h.aside aside
  simp only [ensures_bind, ensures_get, ensures_set, ensures_pure]
  have cell : (Derivation.added r w₁).derivations.get w₁.derivations.next =
      ⟨r, w₁.signals.next, [], [], []⟩ := Heap.get_push_next ..
  have wired₂ := derivationAdded_wired h₁.toWired r
  refine ⟨signalAdded_wired wired₂ ?_, ?_, ?_, ?_, ?_, aside.signalNames⟩
  · rintro _ ⟨⟩
    refine ⟨w₁.derivations.next, rfl, ?_, ?_, ?_, ?_⟩
    · simp [Derivation.added, Heap.next]
    · rw [cell]
      rfl
    · rw [cell]
    · rw [cell]
      rw [← aside.signalNames, ← aside.signals] at grounded
      exact grounded
  · exact Lasting.trans aside.evolves.builds
      (Lasting.trans (derivationAdded_builds h₁.shape r) signalAdded_builds)
  · refine ⟨w₁.derivations.next, ?_, congrArg Derivation.reading cell⟩
    exact congrArg Signal.producer (Heap.get_push_next ..)
  · rw [aside.signals]
  · simp [Heap.next]

theorem derive_works (h : Ready Nowhere w) {r : Reading}
    (unused : w.names.signals.get? name = none)
    (grounded : r.Grounded w.names.signals w.signals.size) :
    Ensures run (do
      nameSignal name (← Derivation.create r) .readable
      return Answer.none) w fun _ w' =>
        Wired Nowhere w' ∧ Derives w' w.signals.next r ∧ Builds w w' := by
  refine (ensures_bind ..).2 ((createDerivation_works h grounded).mono ?_)
  rintro s w₁ ⟨wired₁, builds₁, derives₁, rfl, known₁, names₁⟩
  simp only [ensures_bind, nameSignal, rename, ensures_modify, ensures_pure]
  have unused₁ : w₁.names.signals.get? name = none := by rwa [names₁]
  have builds₂ : Builds w₁ (Signal.called name w.signals.next .readable w₁) :=
    called_builds unused₁ _
  exact ⟨called_wired wired₁ unused₁ known₁ Role.noConfusion, builds₂.derives _ _ derives₁,
    Lasting.trans builds₁ builds₂⟩

end

/-- The worlds in which a graph can be when nothing is under way, with the signals that were derived
and the computations that they were derived by. -/
inductive Graphed : List (SignalId × Reading) → World → Prop
  | empty : Graphed [] .empty
  | signal {derived : List (SignalId × Reading)} {fuel : Nat} {w w' : World} {name : Name}
    {v : Literal} {current : Value} {a : Answer} :
    Graphed derived w → w.names.signals.get? name = none →
      runFrom fuel w ((Step.signal name v).run current) = .ok (a, w') → Graphed derived w'
  | constant {derived : List (SignalId × Reading)} {fuel : Nat} {w w' : World} {name : Name}
    {v : Literal} {current : Value} {a : Answer} :
    Graphed derived w → w.names.signals.get? name = none →
      runFrom fuel w ((Step.constant name v).run current) = .ok (a, w') → Graphed derived w'
  /-- A computation may read whatever signals are there. -/
  | derive {derived : List (SignalId × Reading)} {fuel : Nat} {w w' : World} {name : Name}
    {r : Reading} {current : Value} {a : Answer} :
    Graphed derived w → w.names.signals.get? name = none →
      r.Pure w.names.signals w.signals.size →
        runFrom fuel w ((Step.derive name r).run current) = .ok (a, w') →
          Graphed ((w.signals.next, r) :: derived) w'
  | operate {derived : List (SignalId × Reading)} {fuel : Nat} {w w' : World} {step : Step}
    {current : Value} {a : Answer} :
    Graphed derived w → step.Operates → runFrom fuel w (step.run current) = .ok (a, w') →
      Graphed derived w'
  /-- Anything may happen to the rest of the world. -/
  | elsewhere {derived : List (SignalId × Reading)} {w w' : World} :
    Graphed derived w → Aside w w' → Graphed derived w'

theorem Wired.empty : Wired Nowhere .empty := by
  have unreal : ∀ d, ¬ Real d .empty := fun d real => nomatch (real : none = some _)
  constructor
  · exact ⟨fun _ _ hp => (nomatch hp), fun d real => absurd real (unreal d),
      fun d real => absurd real (unreal d), fun _ _ hn => (nomatch hn), fun _ _ _ hn => (nomatch hn)⟩
  · exact ⟨fun _ _ hs => (nomatch hs), fun _ _ hn => (nomatch hn), fun _ _ hs => (nomatch hs),
      fun _ _ ht => (nomatch ht)⟩
  · exact ⟨fun _ hs => absurd rfl hs, fun d _ hd => absurd hd.1 (unreal d),
      fun d _ hd => absurd hd.1 (unreal d)⟩

/-- A graph in working order in which everybody has been told of the last change. -/
structure Resting (derived : List (SignalId × Reading)) (w : World) : Prop
    extends Ready Nowhere w where
  upTo : UpTo (fun _ => False) w
  derives : ∀ s r, (s, r) ∈ derived → Derives w s r
  pure : ∀ s r, (s, r) ∈ derived → r.Pure w.names.signals w.signals.size

theorem Resting.next {derived : List (SignalId × Reading)} {w w' : World} (h : Resting derived w)
    (delivers : Delivers w w') (wired : Wired Nowhere w') (builds : Builds w w') :
    Resting derived w' :=
  ⟨h.toReady.next delivers wired, (delivers h.faithful).upTo _ h.upTo,
    fun s r hs => builds.derives s r (h.derives s r hs),
    fun s r hs => (h.pure s r hs).mono builds.names builds.count⟩

/-- By induction on how the graph came to be. -/
theorem Graphed.resting {derived : List (SignalId × Reading)} {w : World} (h : Graphed derived w) :
    Resting derived w := by
  induction h with
  | empty =>
    exact ⟨⟨.empty, .empty⟩, fun _ _ he => (nomatch he), fun _ _ hs => (nomatch hs),
      fun _ _ hs => (nomatch hs)⟩
  | @signal _ _ _ _ _ v current _ _ unused run ih =>
    obtain ⟨wired, builds⟩ := create_works ih.toReady unused v .writable _ _ run
    exact ih.next (keeps_step current _ _ _ _ run) wired builds
  | @constant _ _ _ _ _ v current _ _ unused run ih =>
    obtain ⟨wired, builds⟩ := create_works ih.toReady unused v .readable _ _ run
    exact ih.next (keeps_step current _ _ _ _ run) wired builds
  | @derive _ _ _ _ _ _ current _ _ unused pure run ih =>
    obtain ⟨wired, new, builds⟩ := derive_works ih.toReady unused pure.grounded _ _ run
    have rest := ih.next (keeps_step current _ _ _ _ run) wired builds
    refine ⟨rest.toReady, rest.upTo, fun s r hs => ?_, fun s r hs => ?_⟩
    · rcases List.mem_cons.1 hs with heq | hs
      · cases heq
        exact new
      · exact rest.derives s r hs
    · rcases List.mem_cons.1 hs with heq | hs
      · cases heq
        exact pure.mono builds.names builds.count
      · exact rest.pure s r hs
  | @operate _ _ _ _ _ current _ _ operates run ih =>
    obtain ⟨wired, ev⟩ := step_works ih.toReady current operates _ _ run
    exact ih.next (keeps_step current _ _ _ _ run) wired ev.builds
  | elsewhere _ aside ih =>
    exact ih.next (.apart aside.signals aside.entries) (aside.wired ih.toWired) aside.evolves.builds

/-- When nothing is under way, a derived signal that has a subscriber holds what its computation
yields now, or a value that a write of that would not be seen to change. -/
theorem derived_consistent {derived : List (SignalId × Reading)} {w : World}
    (h : Graphed derived w) {s : SignalId} {r : Reading} (hs : (s, r) ∈ derived)
    (observed : (w.signals.get s).subscribers ≠ []) (fuel : Nat) :
    ∃ v u, (w.signals.get s).value = some v ∧ runFrom fuel w (r.run .nobody) = .ok (u, w) ∧
      (v = u ∨ v.isSame u = true) := by
  have resting := h.resting
  obtain ⟨d, produced, rfl⟩ := resting.derives s r hs
  obtain ⟨real, rfl⟩ := resting.shape.real_of_producer produced
  have started := resting.flow.started _ observed (by rw [produced]; nofun)
  have notLagging : ¬ Lagging d w := by
    rintro ⟨t, e, he, -, unseen⟩
    rw [resting.upTo t e he id] at unseen
    exact Nat.lt_irrefl _ unseen
  obtain ⟨l, -, v, u, hv, gives, same⟩ :=
    (resting.flow.current d id ⟨real, started⟩).resolve_right notLagging
  have pure := resting.pure _ _ hs
  rw [gives.eq_value pure] at same
  exact ⟨v, _, hv, pure.run_nobody _, same⟩

/-- The second signal's value while the first one's is true. -/
def gated (a b : SignalId) : Reading :=
  .get a fun x => if x = some (.bool true) then .get b fun y => .done (y.getD .null)
    else .done .null

theorem gated_pure {names : Ordered Name (SignalId × Role)} {limit : Nat} {a b : SignalId}
    (ha : a.index < limit) (hb : b.index < limit) : (gated a b).Pure names limit := by
  refine .get ha fun x => ?_
  split
  · exact .get hb fun y => .done _
  · exact .done _

/-- The world after a step, if it succeeds. -/
def after (w : World) (step : Step) : World :=
  match runFrom 10 w (step.run .null) with
  | .ok (_, w') => w'
  | .error _ => w

theorem runFrom_after (w : World) (step : Step)
    (ok : (runFrom 10 w (step.run .null)).isOk = true) :
    ∃ a, runFrom 10 w (step.run .null) = .ok (a, after w step) := by
  unfold after
  cases h : runFrom 10 w (step.run .null) with
  | error e =>
    rw [h] at ok
    cases ok
  | ok r => exact ⟨r.1, rfl⟩

theorem derived_consistent_gated :
    ∃ w, (w.signals.get ⟨2⟩).subscribers ≠ [] ∧ ∃ v u, (w.signals.get ⟨2⟩).value = some v ∧
      runFrom 10 w ((gated ⟨0⟩ ⟨1⟩).run .nobody) = .ok (u, w) ∧ (v = u ∨ v.isSame u = true) := by
  let w₁ := after .empty (.signal "gate" (.plain (.bool false)))
  let w₂ := after w₁ (.signal "source" (.plain (.string "first")))
  let w₃ := after w₂ (.derive "gated" (gated ⟨0⟩ ⟨1⟩))
  -- The subscriber is told when the gate opens, and then writes what has just come to be read.
  let w₄ := after w₃ (.subscribe "x" "gated" .normal
    [.set "source" fun _ => .done (.string "second")])
  let w₅ := after w₄ (.set "gate" fun _ => .done (.bool true))
  obtain ⟨_, h₁⟩ := runFrom_after .empty
    (.signal "gate" (.plain (.bool false))) (by decide +kernel)
  obtain ⟨_, h₂⟩ := runFrom_after w₁
    (.signal "source" (.plain (.string "first"))) (by decide +kernel)
  obtain ⟨_, h₃⟩ := runFrom_after w₂
    (.derive "gated" (gated ⟨0⟩ ⟨1⟩)) (by decide +kernel)
  obtain ⟨_, h₄⟩ := runFrom_after w₃ (.subscribe "x" "gated" .normal
    [.set "source" fun _ => .done (.string "second")]) (by decide +kernel)
  obtain ⟨_, h₅⟩ := runFrom_after w₄
    (.set "gate" fun _ => .done (.bool true)) (by decide +kernel)
  have steps : ∀ step ∈ [Step.set "source" fun _ => .done (.string "second")], step.Operates := by
    intro step hs
    cases List.mem_singleton.1 hs
    exact .set _ _
  have g₂ := (Graphed.empty.signal (by decide +kernel) h₁).signal (by decide +kernel) h₂
  have g₃ := g₂.derive (by decide +kernel) (gated_pure (by decide +kernel) (by decide +kernel)) h₃
  have g₅ := (g₃.operate (.subscribe steps) h₄).operate (.set _ _) h₅
  have observed : (w₅.signals.get ⟨2⟩).subscribers ≠ [] := by decide +kernel
  exact ⟨w₅, observed, derived_consistent g₅ List.mem_cons_self observed 10⟩

end LiveMarkup.Live
