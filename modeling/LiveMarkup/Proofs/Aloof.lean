import LiveMarkup.Proofs.Purity
import LiveMarkup.Proofs.Rooting

/-!
Callbacks that leave the tree alone. Whatever such callbacks do to signals, they reach no
subscription but through a name, a signal or a derivation that holds it. So subscriptions that are
held elsewhere stay, and so do the links, the mounts and the hooks of nodes.
-/
namespace LiveMarkup.Live

/-- A step that runs no script of its own, moves no node, gives a node no hook and has no listener
run. -/
def Step.isPlain : Step → Bool
  | .ask _ | .signal _ _ | .constant _ _ | .readOnly _ _ | .emit _ _ | .orphanEmit _
  | .derive _ _ | .branch _ _ _ _ | .formula _ _ | .formulaClone _ _ | .formulaCall _
  | .formulaSignal _ _ | .set _ _ | .update _ _ | .change _ _ _ | .unsubscribe _
  | .subscribeAll _ _ | .subscribeNone _ | .subscriptionClone _ _ | .log _
  | .element _ _ _ | .text _ _ | .comment _ _ | .fragment _
  | .setAttr _ _ _ | .removeAttr _ _ | .toggle _ _ _ | .setStyle _ _ _ | .setValue _ _
  | .setNumber _ _ | .setDate _ _ | .setChecked _ _
  | .listener _ _ | .listen _ _ _ | .unlisten _ _ _ => true
  | _ => false

/-- A step that leaves the tree alone, and so do the scripts that it leaves to be run. -/
inductive Step.Aloof : Step → Prop
  | plain {step : Step} (h : step.isPlain = true) : Aloof step
  | lazy {name : Name} {v : Literal} {start stop : List Step}
    (starts : ∀ step ∈ start, Aloof step) (stops : ∀ step ∈ stop, Aloof step) :
    Aloof (.lazy name v start stop)
  | subscribe {name sig : Name} {mode : Mode} {script : List Step}
    (steps : ∀ step ∈ script, Aloof step) : Aloof (.subscribe name sig mode script)
  | choose {v : Formula} {yes no : List Step} (yesSteps : ∀ step ∈ yes, Aloof step)
    (noSteps : ∀ step ∈ no, Aloof step) : Aloof (.choose v yes no)

def Reaction.Aloof : Reaction → Prop
  | .told _ script | .followed _ script => ∀ step ∈ script, step.Aloof
  | .refresh _ | .branch _ | .effect _ _ => True

def Producer.Aloof : Producer → Prop
  | .derivation _ | .branch _ => True
  | .script _ start stop => (∀ step ∈ start, step.Aloof) ∧ ∀ step ∈ stop, step.Aloof

def Hook.Aloof : Hook → Prop
  | .mounted _ script | .unmounted _ script => ∀ step ∈ script, step.Aloof
  | .listen _ _ _ | .unlisten _ _ _ => True
  | .follow _ | .unfollow _ => False

/-- Subscriptions, and subscribers, that nobody else is to get hold of. -/
structure Ward where
  handles : SubscriptionId → Prop
  entries : EntryId → Prop

namespace Ward

/-- A subscription that was made and may be cancelled. -/
def Free (g : Ward) (w : World) (sub : SubscriptionId) : Prop :=
  sub.index < w.subscriptions.size ∧ ¬ g.handles sub

/-- What may be left to do for a subscription. -/
def Allows (g : Ward) (w : World) (sub : SubscriptionId) : Cancel → Prop
  | .nothing | .release _ => True
  | .entry _ e => e.index < w.entries.size ∧ (g.entries e → g.handles sub)
  | .all subscriptions => ∀ sub ∈ subscriptions, g.Free w sub
  | .stopped _ script => ∀ step ∈ script, step.Aloof

/-- Only subscriptions that are free are held anywhere, and all callbacks leave the tree alone. -/
structure Sound (g : Ward) (w : World) : Prop where
  handles : ∀ sub, g.handles sub → sub.index < w.subscriptions.size
  entries : ∀ e, g.entries e → e.index < w.entries.size
  producers : ∀ s p, (w.signals.get s).producer = some p → p.Aloof
  teardown : ∀ s t, (w.signals.get s).teardown = some t → g.Free w t
  reactions : ∀ e, (w.entries.get e).reaction.Aloof
  cancels : ∀ sub c, w.subscriptions.get sub = some c → g.Allows w sub c
  held : ∀ d, ∀ sub ∈ (w.derivations.get d).subscriptions, g.Free w sub
  named : ∀ name sub, w.names.subscriptions.get? name = some sub → g.Free w sub

/-- What is done apart from the tree leaves nodes, hooks and follows as they are, and what is in the
ward. What is new is sound. -/
structure Kept (g : Ward) (w w' : World) : Prop where
  nodes : w.nodes.Enlarged w'.nodes
  mountHooks : w'.mountHooks = w.mountHooks
  unmountHooks : w'.unmountHooks = w.unmountHooks
  follows : w'.follows = w.follows
  signalCount : w.signals.size ≤ w'.signals.size
  entryCount : w.entries.size ≤ w'.entries.size
  subscriptionCount : w.subscriptions.size ≤ w'.subscriptions.size
  handle : ∀ sub, g.handles sub → w'.subscriptions.get sub = w.subscriptions.get sub
  entry : ∀ e, g.entries e → (w'.entries.get e).active = (w.entries.get e).active ∧
    (w'.entries.get e).reaction = (w.entries.get e).reaction
  subscriber : ∀ e, g.entries e → ∀ s, e ∈ (w.signals.get s).subscribers →
    e ∈ (w'.signals.get s).subscribers
  producers : ∀ s p, (w'.signals.get s).producer = some p →
    (w.signals.get s).producer = some p ∨ p.Aloof
  teardown : ∀ s t, (w'.signals.get s).teardown = some t →
    (w.signals.get s).teardown = some t ∨ g.Free w' t
  reactions : ∀ e, (w'.entries.get e).reaction = (w.entries.get e).reaction ∨
    (w'.entries.get e).reaction.Aloof
  cancels : ∀ sub c, w'.subscriptions.get sub = some c →
    w.subscriptions.get sub = some c ∨ g.Allows w' sub c
  held : ∀ d, ∀ sub ∈ (w'.derivations.get d).subscriptions,
    sub ∈ (w.derivations.get d).subscriptions ∨ g.Free w' sub
  named : ∀ name sub, w'.names.subscriptions.get? name = some sub →
    w.names.subscriptions.get? name = some sub ∨ g.Free w' sub

variable {g : Ward} {w w₁ w₂ : World}

theorem Free.mono {sub : SubscriptionId} (h : g.Free w sub)
    (count : w.subscriptions.size ≤ w₁.subscriptions.size) : g.Free w₁ sub :=
  ⟨Nat.lt_of_lt_of_le h.1 count, h.2⟩

theorem Allows.mono {sub : SubscriptionId} {c : Cancel} (h : g.Allows w sub c)
    (entries : w.entries.size ≤ w₁.entries.size)
    (subscriptions : w.subscriptions.size ≤ w₁.subscriptions.size) : g.Allows w₁ sub c := by
  cases c with
  | nothing => trivial
  | release d => trivial
  | entry s e => exact ⟨Nat.lt_of_lt_of_le h.1 entries, h.2⟩
  | all l => exact fun sub hs => (h sub hs).mono subscriptions
  | stopped name script => exact h

namespace Kept

theorem refl (w : World) : g.Kept w w :=
  ⟨.refl _, rfl, rfl, rfl, Nat.le_refl _, Nat.le_refl _, Nat.le_refl _, fun _ _ => rfl,
    fun _ _ => ⟨rfl, rfl⟩, fun _ _ _ h => h, fun _ _ h => .inl h, fun _ _ h => .inl h,
    fun _ => .inl rfl, fun _ _ h => .inl h, fun _ _ h => .inl h, fun _ _ h => .inl h⟩

theorem trans (h : g.Kept w w₁) (h' : g.Kept w₁ w₂) : g.Kept w w₂ where
  nodes := h.nodes.trans h'.nodes
  mountHooks := h'.mountHooks.trans h.mountHooks
  unmountHooks := h'.unmountHooks.trans h.unmountHooks
  follows := h'.follows.trans h.follows
  signalCount := Nat.le_trans h.signalCount h'.signalCount
  entryCount := Nat.le_trans h.entryCount h'.entryCount
  subscriptionCount := Nat.le_trans h.subscriptionCount h'.subscriptionCount
  handle sub hs := (h'.handle sub hs).trans (h.handle sub hs)
  entry e he := ⟨(h'.entry e he).1.trans (h.entry e he).1, (h'.entry e he).2.trans (h.entry e he).2⟩
  subscriber e he s hs := h'.subscriber e he s (h.subscriber e he s hs)
  producers s p hp := (h'.producers s p hp).elim (h.producers s p) .inr
  teardown s t ht := (h'.teardown s t ht).elim
    (fun ht => (h.teardown s t ht).imp_right (·.mono h'.subscriptionCount)) .inr
  reactions e := by
    rcases h'.reactions e with same | aloof
    · rw [same]
      exact h.reactions e
    · exact .inr aloof
  cancels sub c hc := (h'.cancels sub c hc).elim
    (fun hc => (h.cancels sub c hc).imp_right (·.mono h'.entryCount h'.subscriptionCount)) .inr
  held d sub hs := (h'.held d sub hs).elim
    (fun hs => (h.held d sub hs).imp_right (·.mono h'.subscriptionCount)) .inr
  named name sub hs := (h'.named name sub hs).elim
    (fun hs => (h.named name sub hs).imp_right (·.mono h'.subscriptionCount)) .inr

/-- What a ward says of a world goes on to hold. -/
theorem sound (h : g.Kept w w₁) (hw : g.Sound w) : g.Sound w₁ where
  handles sub hs := Nat.lt_of_lt_of_le (hw.handles sub hs) h.subscriptionCount
  entries e he := Nat.lt_of_lt_of_le (hw.entries e he) h.entryCount
  producers s p hp := (h.producers s p hp).elim (hw.producers s p) id
  teardown s t ht := (h.teardown s t ht).elim
    (fun ht => (hw.teardown s t ht).mono h.subscriptionCount) id
  reactions e := by
    rcases h.reactions e with same | aloof
    · rw [same]
      exact hw.reactions e
    · exact aloof
  cancels sub c hc := (h.cancels sub c hc).elim
    (fun hc => (hw.cancels sub c hc).mono h.entryCount h.subscriptionCount) id
  held d sub hs := (h.held d sub hs).elim
    (fun hs => (hw.held d sub hs).mono h.subscriptionCount) id
  named name sub hs := (h.named name sub hs).elim
    (fun hs => (hw.named name sub hs).mono h.subscriptionCount) id

/-! Single changes. -/

theorem signals {s : SignalId} {f : Signal → Signal} (producer : ∀ a, (f a).producer = a.producer)
    (teardown : ∀ a t, (f a).teardown = some t → a.teardown = some t ∨ g.Free w t)
    (subscribers : ∀ a, ∀ e ∈ a.subscribers, g.entries e → e ∈ (f a).subscribers) :
    g.Kept w { w with signals := w.signals.modify s f } := by
  have cell : ∀ t, (w.signals.modify s f).get t = w.signals.get t ∨
      (w.signals.modify s f).get t = f (w.signals.get t) := by
    intro t
    by_cases hst : s = t
    · subst hst
      rcases Nat.lt_or_ge s.index w.signals.size with known | unknown
      · exact .inr (Heap.get_modify_self _ _ _ known)
      · rw [Heap.modify_of_size_le _ _ _ unknown]
        exact .inl rfl
    · exact .inl (Heap.get_modify_of_ne _ _ _ _ hst)
  refine { Kept.refl w with signalCount := ?_, subscriber := ?_, producers := ?_, teardown := ?_ }
  · exact Nat.le_of_eq (Heap.size_modify ..).symm
  · intro e he t ht
    dsimp only
    rcases cell t with same | changed
    · rwa [same]
    · rw [changed]
      exact subscribers _ e ht he
  · intro t p hp
    refine .inl ?_
    have same := Heap.get_modify_same w.signals s t f Signal.producer producer
    exact same ▸ hp
  · intro t u hu
    dsimp only at hu
    rcases cell t with same | changed
    · exact .inl (same ▸ hu)
    · exact teardown _ u (changed ▸ hu)

theorem entriesOf {e : EntryId} {f : Entry → Entry} (reaction : ∀ a, (f a).reaction = a.reaction)
    (active : g.entries e → ∀ a, (f a).active = a.active) :
    g.Kept w { w with entries := w.entries.modify e f } := by
  have same : ∀ e', ((w.entries.modify e f).get e').reaction = (w.entries.get e').reaction :=
    fun e' => Heap.get_modify_same w.entries e e' f Entry.reaction reaction
  refine { Kept.refl w with
    entryCount := ?_, entry := ?_, reactions := fun e' => .inl (same e'), cancels := ?_ }
  · exact Nat.le_of_eq (Heap.size_modify ..).symm
  · intro e' he'
    refine ⟨?_, same e'⟩
    dsimp only
    by_cases he : e = e'
    · subst he
      exact Heap.get_modify_same w.entries e e f Entry.active (active he')
    · rw [Heap.get_modify_of_ne _ _ _ _ he]
  · exact fun _ _ hc => .inl hc

theorem derivationsOf {d : DerivationId} {f : Derivation → Derivation}
    (subscriptions : ∀ a, ∀ sub ∈ (f a).subscriptions, sub ∈ a.subscriptions ∨ g.Free w sub) :
    g.Kept w { w with derivations := w.derivations.modify d f } := by
  refine { Kept.refl w with held := fun d' sub hs => ?_ }
  dsimp only at hs
  by_cases hd : d = d'
  · subst hd
    rcases Nat.lt_or_ge d.index w.derivations.size with known | unknown
    · rw [Heap.get_modify_self _ _ _ known] at hs
      exact subscriptions _ sub hs
    · rw [Heap.modify_of_size_le _ _ _ unknown] at hs
      exact .inl hs
  · rw [Heap.get_modify_of_ne _ _ _ _ hd] at hs
    exact .inl hs

/-- A new signal. -/
theorem signalMade (w : World) (value : Option Value) {producer : Option Producer}
    (aloof : ∀ p, producer = some p → p.Aloof) :
    g.Kept w { w with signals := w.signals.push (.fresh value producer) } := by
  have old : ∀ s, s ≠ w.signals.next →
      (w.signals.push (.fresh value producer)).get s = w.signals.get s :=
    fun s hs => Heap.get_push_of_ne _ _ _ hs
  refine { Kept.refl w with signalCount := ?_, subscriber := ?_, producers := ?_, teardown := ?_ }
  · rw [Heap.size_push]
    exact Nat.le_succ _
  · intro e _ s hs
    have ne : s ≠ w.signals.next := by
      rintro rfl
      rw [Heap.get_next] at hs
      cases hs
    dsimp only
    rwa [old s ne]
  · intro s p hp
    dsimp only at hp
    by_cases hs : s = w.signals.next
    · rw [hs, Heap.get_push_next] at hp
      exact .inr (aloof p hp)
    · rw [old s hs] at hp
      exact .inl hp
  · intro s t ht
    dsimp only at ht
    by_cases hs : s = w.signals.next
    · rw [hs, Heap.get_push_next] at ht
      cases ht
    · rw [old s hs] at ht
      exact .inl ht

/-- A new subscriber, on no signal yet. -/
theorem entryMade (w : World) {entry : Entry} (aloof : entry.reaction.Aloof)
    (known : ∀ e, g.entries e → e.index < w.entries.size) :
    g.Kept w { w with entries := w.entries.push entry } := by
  refine { Kept.refl w with entryCount := ?_, entry := ?_, reactions := ?_, cancels := ?_ }
  · rw [Heap.size_push]
    exact Nat.le_succ _
  · intro e he
    dsimp only
    rw [Heap.get_push_of_lt _ _ _ (known e he)]
    exact ⟨rfl, rfl⟩
  · intro e
    dsimp only
    by_cases he : e = w.entries.next
    · rw [he, Heap.get_push_next]
      exact .inr aloof
    · rw [Heap.get_push_of_ne _ _ _ he]
      exact .inl rfl
  · exact fun _ _ hc => .inl hc

/-- A new subscription. -/
theorem subscriptionMade (w : World) {c : Cancel} (known : ∀ sub, g.handles sub → sub.index < w.subscriptions.size)
    (allows : g.Allows w w.subscriptions.next c) :
    g.Kept w { w with subscriptions := w.subscriptions.push (some c) } := by
  have count : w.subscriptions.size ≤ (w.subscriptions.push (some c)).size := by
    rw [Heap.size_push]
    exact Nat.le_succ _
  refine { Kept.refl w with
    subscriptionCount := count, handle := ?_, teardown := fun _ _ h => .inl h, cancels := ?_,
    held := fun _ _ h => .inl h, named := fun _ _ h => .inl h }
  · exact fun sub hs => Heap.get_push_of_lt _ _ _ (known sub hs)
  · intro sub c' hc
    dsimp only at hc
    by_cases hs : sub = w.subscriptions.next
    · subst hs
      rw [Heap.get_push_next] at hc
      cases hc
      exact .inr (allows.mono (Nat.le_refl _) count)
    · rw [Heap.get_push_of_ne _ _ _ hs] at hc
      exact .inl hc

/-- A subscription for which nothing is left to do. -/
theorem subscriptionSpent {sub : SubscriptionId} (free : ¬ g.handles sub) :
    g.Kept w { w with subscriptions := w.subscriptions.modify sub fun _ => none } := by
  refine { Kept.refl w with
    subscriptionCount := Nat.le_of_eq (Heap.size_modify ..).symm, handle := ?_,
    teardown := fun _ _ h => .inl h, cancels := ?_, held := fun _ _ h => .inl h,
    named := fun _ _ h => .inl h }
  · intro other ho
    have ne : sub ≠ other := by
      rintro rfl
      exact free ho
    exact Heap.get_modify_of_ne _ _ _ _ ne
  · intro other c hc
    dsimp only at hc
    by_cases ho : sub = other
    · subst ho
      rcases Nat.lt_or_ge sub.index w.subscriptions.size with known | unknown
      · rw [Heap.get_modify_self _ _ _ known] at hc
        cases hc
      · rw [Heap.modify_of_size_le _ _ _ unknown] at hc
        exact .inl hc
    · rw [Heap.get_modify_of_ne _ _ _ _ ho] at hc
      exact .inl hc

/-- A subscription that gets a name. -/
theorem subscriptionNamed (name : Name) {sub : SubscriptionId} (free : g.Free w sub) :
    g.Kept w { w with names :=
      { w.names with subscriptions := w.names.subscriptions.insert name sub } } := by
  refine { Kept.refl w with named := fun other sub' hs => ?_ }
  dsimp only at hs
  by_cases ho : other = name
  · rw [ho, Ordered.get?_insert_self] at hs
    cases hs
    exact .inr free
  · rw [Ordered.get?_insert_of_ne _ ho] at hs
    exact .inl hs

end Kept

/-- From where a ward is sound it is kept. -/
def Minds (g : Ward) (w w' : World) : Prop :=
  g.Sound w → g.Kept w w'

instance : Lasting g.Minds where
  refl w _ := .refl w
  trans h h' hw := (h hw).trans (h' ((h hw).sound hw))

instance : Idle g.Minds where
  log w _ _ := { Kept.refl w with }
  make w _ _ _ := { Kept.refl w with nodes := .create _ _ }

end Ward
end LiveMarkup.Live
