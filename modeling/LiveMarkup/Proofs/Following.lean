import LiveMarkup.Proofs.Minding

/-!
Following: the subscriptions that last while nodes are mounted. Each follow alone holds its
subscription, so that nothing but its own hooks makes or cancels it.
-/
namespace LiveMarkup.Live

/-- The subscription of a follow takes an entry off its signal. -/
def Holds (w : World) (f : FollowId) (e : EntryId) : Prop :=
  ∃ sub, (w.follows.get f).slot = some sub ∧
    w.subscriptions.get sub = some (.entry (w.follows.get f).signal e)

/-- The subscriptions of all follows, and their subscribers. -/
def followed (w : World) : Ward where
  handles sub := ∃ f, (w.follows.get f).slot = some sub
  entries e := ∃ f, Holds w f e

/-- A follow has an active subscription on its signal, which runs its reaction. -/
def Listens (w : World) (f : FollowId) : Prop :=
  ∃ e, Holds w f e ∧ Joined (w.follows.get f).signal (w.follows.get f).reaction e w

/-- What holds of follows: nobody else gets hold of their subscriptions, and no two of them have one
subscriber. -/
structure Following (w : World) : Prop where
  sound : (followed w).Sound w
  reactions : ∀ f, (w.follows.get f).reaction.Aloof
  signals : ∀ f, f.index < w.follows.size → (w.follows.get f).signal.index < w.signals.size
  listens : ∀ f, (w.follows.get f).slot ≠ none → Listens w f
  apart : ∀ f f' e, Holds w f e → Holds w f' e → f = f'

/-- Two worlds have the same links between nodes, the same hooks and the same follows, but for
subscriptions. There may be new nodes, which stand alone, and new signals. -/
structure Standing (w w' : World) : Prop where
  nodes : w.nodes.Extended w'.nodes
  mountHooks : w'.mountHooks = w.mountHooks
  unmountHooks : w'.unmountHooks = w.unmountHooks
  followCount : w'.follows.size = w.follows.size
  cell : ∀ f, (w'.follows.get f).signal = (w.follows.get f).signal ∧
    (w'.follows.get f).reaction = (w.follows.get f).reaction ∧
      (w'.follows.get f).mode = (w.follows.get f).mode
  signalCount : w.signals.size ≤ w'.signals.size

/-- Beyond that, the same nodes are mounted, and only the follows of `F` may have other
subscriptions. -/
structure Unmoved (F : FollowId → Prop) (w w' : World) : Prop extends Standing w w' where
  connected : ∀ n, (w'.nodes.get n).connected = (w.nodes.get n).connected
  slot : ∀ f, ¬ F f → (w'.follows.get f).slot = (w.follows.get f).slot

variable {w w₁ w₂ w' : World} {f : FollowId} {e : EntryId} {sub : SubscriptionId}

theorem Standing.refl (w : World) : Standing w w :=
  ⟨(Dom.Forest.Enlarged.refl _).toExtended, rfl, rfl, rfl, fun _ => ⟨rfl, rfl, rfl⟩, Nat.le_refl _⟩

theorem Standing.trans (h : Standing w w₁) (h' : Standing w₁ w₂) : Standing w w₂ where
  nodes := h.nodes.trans h'.nodes
  mountHooks := h'.mountHooks.trans h.mountHooks
  unmountHooks := h'.unmountHooks.trans h.unmountHooks
  followCount := h'.followCount.trans h.followCount
  cell f := ⟨(h'.cell f).1.trans (h.cell f).1, (h'.cell f).2.1.trans (h.cell f).2.1,
    (h'.cell f).2.2.trans (h.cell f).2.2⟩
  signalCount := Nat.le_trans h.signalCount h'.signalCount

namespace Unmoved
variable {F F' : FollowId → Prop}

theorem refl (w : World) : Unmoved F w w :=
  ⟨.refl w, fun _ => rfl, fun _ _ => rfl⟩

theorem trans (h : Unmoved F w w₁) (h' : Unmoved F w₁ w₂) : Unmoved F w w₂ :=
  ⟨h.toStanding.trans h'.toStanding, fun n => (h'.connected n).trans (h.connected n),
    fun f hf => (h'.slot f hf).trans (h.slot f hf)⟩

theorem mono (h : Unmoved F w w₁) (more : ∀ f, F f → F' f) : Unmoved F' w w₁ :=
  ⟨h.toStanding, h.connected, fun f hf => h.slot f fun hF => hf (more f hF)⟩

theorem of_kept {g : Ward} (h : g.Kept w w₁) : Unmoved F w w₁ where
  nodes := h.nodes.toExtended
  mountHooks := h.mountHooks
  unmountHooks := h.unmountHooks
  followCount := by rw [h.follows]
  cell f := by
    rw [h.follows]
    exact ⟨rfl, rfl, rfl⟩
  signalCount := h.signalCount
  connected := h.nodes.connected
  slot f _ := by rw [h.follows]

end Unmoved

/-! What is done apart from the tree. -/

theorem followed_kept (h : (followed w).Kept w w') : followed w' = followed w := by
  have takes : ∀ f e, Holds w' f e ↔ Holds w f e := by
    intro f e
    unfold Holds
    rw [h.follows]
    refine exists_congr fun sub => and_congr_right fun slot => ?_
    rw [h.handle sub ⟨f, slot⟩]
  unfold followed
  congr 1
  · funext sub
    rw [h.follows]
  · funext e
    exact propext (exists_congr fun f => takes f e)

namespace Following

theorem kept (h : Following w) (kept : (followed w).Kept w w') : Following w' := by
  have same := followed_kept kept
  have takes : ∀ f e, Holds w' f e → Holds w f e := by
    rintro f e ⟨sub, slot, cancel⟩
    rw [kept.follows] at slot cancel
    rw [kept.handle sub ⟨f, slot⟩] at cancel
    exact ⟨sub, slot, cancel⟩
  refine ⟨?_, fun f => ?_, fun f hf => ?_, fun f slot => ?_, fun f f' e hf hf' =>
    h.apart f f' e (takes f e hf) (takes f' e hf')⟩
  · rw [same]
    exact kept.sound h.sound
  · rw [kept.follows]
    exact h.reactions f
  · rw [kept.follows] at hf ⊢
    exact Nat.lt_of_lt_of_le (h.signals f hf) kept.signalCount
  · rw [kept.follows] at slot
    obtain ⟨e, ⟨sub, held, cancel⟩, joined⟩ := h.listens f slot
    have taken : Holds w f e := ⟨sub, held, cancel⟩
    rw [← kept.handle sub ⟨f, held⟩] at cancel
    unfold Listens Holds
    rw [kept.follows]
    exact ⟨e, ⟨sub, held, cancel⟩, joined.kept kept ⟨f, taken⟩⟩

/-- Only follows and what they hold matter, not nodes. -/
theorem of_nodes (h : Following w) (nodes : Dom.Forest) : Following { w with nodes } :=
  ⟨{ h.sound with }, h.reactions, h.signals,
    fun f slot => by
      obtain ⟨e, taken, joined⟩ := h.listens f slot
      exact ⟨e, taken, { joined with }⟩,
    h.apart⟩

theorem minds {α : Type} (h : Following w) {run : Runner} {x : Op α} (F : FollowId → Prop)
    (hx : Keeps (followed w).Minds run x) :
    Ensures run x w fun _ w' => Following w' ∧ Unmoved F w w' :=
  (hx w).mono fun _ _ minds => ⟨h.kept (minds h.sound), .of_kept (minds h.sound)⟩

end Following

/-! What the hooks of a follow do. -/

/-- A follow with another subscription, or none. -/
def Lifecycle.slotted (f : FollowId) (slot : Option SubscriptionId) (w : World) : World :=
  { w with follows := w.follows.modify f fun cell => { cell with slot } }

theorem slotted_unmoved (slot : Option SubscriptionId) :
    Unmoved (· = f) w (Lifecycle.slotted f slot w) where
  nodes := (Dom.Forest.Enlarged.refl _).toExtended
  mountHooks := rfl
  unmountHooks := rfl
  followCount := Heap.size_modify ..
  cell g := ⟨Heap.get_modify_same _ f g _ Follow.signal fun _ => rfl,
    Heap.get_modify_same _ f g _ Follow.reaction fun _ => rfl,
    Heap.get_modify_same _ f g _ Follow.mode fun _ => rfl⟩
  signalCount := Nat.le_refl _
  connected _ := rfl
  slot g hg := by
    have other : (Lifecycle.slotted f slot w).follows.get g = w.follows.get g :=
      Heap.get_modify_of_ne _ _ _ _ (Ne.symm hg)
    rw [other]

theorem slotted_self (hf : f.index < w.follows.size) (slot : Option SubscriptionId) :
    ((Lifecycle.slotted f slot w).follows.get f).slot = slot := by
  unfold Lifecycle.slotted
  rw [Heap.get_modify_self _ _ _ hf]

/-- Less is in the ward, but nothing that takes off one of its subscribers. -/
theorem Ward.Sound.mono {g g' : Ward} (h : g.Sound w) (handles : ∀ sub, g'.handles sub → g.handles sub)
    (entries : ∀ e, g'.entries e → g.entries e)
    (own : ∀ sub s e, w.subscriptions.get sub = some (.entry s e) → g'.entries e → g.handles sub →
      g'.handles sub) : g'.Sound w := by
  have free : ∀ sub, g.Free w sub → g'.Free w sub :=
    fun sub h => ⟨h.1, fun held => h.2 (handles sub held)⟩
  refine ⟨fun sub hs => h.handles sub (handles sub hs), fun e he => h.entries e (entries e he),
    h.producers, fun s t ht => free t (h.teardown s t ht), h.reactions, fun sub c hc => ?_,
    fun d sub hs => free sub (h.held d sub hs), fun name sub hs => free sub (h.named name sub hs)⟩
  have allows := h.cancels sub c hc
  cases c with
  | nothing => trivial
  | release d => trivial
  | entry s e => exact ⟨allows.1, fun he => own sub s e hc he (allows.2 (entries e he))⟩
  | all l => exact fun sub hs => free sub (allows sub hs)
  | stopped name script => exact allows

/-- A follow is given another subscription, or none. It is a new one, with a subscriber that is in the
ward `g`, which holds what follows held before besides. -/
structure Slotting (w w₁ : World) (f : FollowId) (slot : Option SubscriptionId) (g : Ward) : Prop where
  start : Following w
  known : f.index < w.follows.size
  kept : (followed w).Kept w w₁
  sound : g.Sound w₁
  handles : ∀ sub, g.handles sub ↔ (followed w).handles sub ∨ slot = some sub
  entries : ∀ e, (followed w).entries e → g.entries e
  new : ∀ sub, slot = some sub → ∃ e, w.entries.size ≤ e.index ∧ g.entries e ∧
    w₁.subscriptions.get sub = some (.entry (w.follows.get f).signal e) ∧
      Joined (w.follows.get f).signal (w.follows.get f).reaction e w₁

namespace Slotting
variable {slot : Option SubscriptionId} {g : Ward} (h : Slotting w w₁ f slot g)
include h

theorem here : ((Lifecycle.slotted f slot w₁).follows.get f).slot = slot :=
  slotted_self (h.kept.follows ▸ h.known) slot

omit h in
theorem other {k : FollowId} (ne : k ≠ f) :
    (Lifecycle.slotted f slot w₁).follows.get k = w₁.follows.get k :=
  Heap.get_modify_of_ne _ _ _ _ (Ne.symm ne)

/-- The subscriber of a new subscription is younger than all those of before. -/
theorem fresh {e : EntryId} (held : Holds (Lifecycle.slotted f slot w₁) f e) :
    w.entries.size ≤ e.index ∧ g.entries e := by
  obtain ⟨sub, held, cancel⟩ := held
  obtain ⟨e', young, entry, takes, -⟩ := h.new sub (h.here ▸ held)
  have found : w₁.subscriptions.get sub = _ := cancel
  rw [takes] at found
  obtain ⟨-, rfl⟩ := Cancel.entry.inj (Option.some.inj found)
  exact ⟨young, entry⟩

theorem before {k : FollowId} {e : EntryId} (ne : k ≠ f)
    (held : Holds (Lifecycle.slotted f slot w₁) k e) : Holds w k e := by
  obtain ⟨sub, held, cancel⟩ := held
  rw [other ne, h.kept.follows] at held cancel
  have found : w₁.subscriptions.get sub = some (.entry (w.follows.get k).signal e) := cancel
  rw [h.kept.handle sub ⟨k, held⟩] at found
  exact ⟨sub, held, found⟩

theorem old {k : FollowId} {e : EntryId} (held : Holds w k e) : ¬ w.entries.size ≤ e.index :=
  Nat.not_le.2 (h.start.sound.entries e ⟨k, held⟩)

theorem apart {k k' : FollowId} {e : EntryId} (hk : Holds (Lifecycle.slotted f slot w₁) k e)
    (hk' : Holds (Lifecycle.slotted f slot w₁) k' e) : k = k' := by
  by_cases eq : k = f
  · subst eq
    by_cases eq' : k' = k
    · exact eq'.symm
    · exact absurd (h.fresh hk).1 (h.old (h.before eq' hk'))
  · by_cases eq' : k' = f
    · subst eq'
      exact absurd (h.fresh hk').1 (h.old (h.before eq hk))
    · exact h.start.apart k k' e (h.before eq hk) (h.before eq' hk')

/-- Whoever holds the subscription of a subscriber that a follow holds is that follow. -/
theorem own {sub : SubscriptionId} {s : SignalId} {e : EntryId}
    (cancel : w₁.subscriptions.get sub = some (.entry s e)) {k : FollowId}
    (held : Holds (Lifecycle.slotted f slot w₁) k e) (mine : g.handles sub) :
    (followed (Lifecycle.slotted f slot w₁)).handles sub := by
  rcases (h.handles sub).1 mine with ⟨k', slot'⟩ | slot'
  · rw [h.kept.handle sub ⟨k', slot'⟩] at cancel
    obtain ⟨e', ⟨sub', held', cancel'⟩, -⟩ := h.start.listens k' (slot' ▸ Option.some_ne_none sub)
    rw [slot'] at held'
    cases held'
    rw [cancel] at cancel'
    cases cancel'
    have taken' : Holds w k' e := ⟨sub, slot', cancel⟩
    by_cases eq : k = f
    · subst eq
      exact absurd (h.fresh held).1 (h.old taken')
    · have one := h.start.apart k k' e (h.before eq held) taken'
      refine ⟨k, ?_⟩
      rw [other eq, h.kept.follows, one]
      exact slot'
  · exact ⟨f, h.here.trans slot'⟩

theorem ward_sound : (followed (Lifecycle.slotted f slot w₁)).Sound (Lifecycle.slotted f slot w₁) := by
  have still : g.Sound (Lifecycle.slotted f slot w₁) := { h.sound with }
  refine still.mono ?_ ?_ ?_
  · rintro sub ⟨k, held⟩
    rw [h.handles]
    by_cases eq : k = f
    · rw [eq, h.here] at held
      exact .inr held
    · rw [other eq, h.kept.follows] at held
      exact .inl ⟨k, held⟩
  · rintro e ⟨k, taken⟩
    by_cases eq : k = f
    · exact (h.fresh (eq ▸ taken)).2
    · exact h.entries e ⟨k, h.before eq taken⟩
  · rintro sub s e cancel ⟨k, taken⟩ mine
    exact h.own cancel taken mine

theorem listens {k : FollowId} (held : ((Lifecycle.slotted f slot w₁).follows.get k).slot ≠ none) :
    Listens (Lifecycle.slotted f slot w₁) k := by
  have cell := (slotted_unmoved (w := w₁) (f := f) slot).cell k
  by_cases eq : k = f
  · subst eq
    rw [h.here] at held
    obtain ⟨sub, hs⟩ := Option.ne_none_iff_exists'.1 held
    obtain ⟨e, -, -, takes, joined⟩ := h.new sub hs
    rw [h.kept.follows] at cell
    refine ⟨e, ⟨sub, h.here.trans hs, ?_⟩, ?_⟩
    · rw [cell.1]
      exact takes
    · rw [cell.1, cell.2.1]
      exact { joined with }
  · rw [other eq] at held
    obtain ⟨e, ⟨sub, slot', cancel⟩, joined⟩ := (h.start.kept h.kept).listens k held
    unfold Listens Holds
    rw [other eq]
    exact ⟨e, ⟨sub, slot', cancel⟩, { joined with }⟩

theorem following : Following (Lifecycle.slotted f slot w₁) := by
  have still := h.start.kept h.kept
  have unmoved : Unmoved (· = f) w₁ (Lifecycle.slotted f slot w₁) := slotted_unmoved slot
  refine ⟨h.ward_sound, fun k => ?_, fun k hk => ?_, fun k => h.listens, fun k k' e => h.apart⟩
  · rw [(unmoved.cell k).2.1]
    exact still.reactions k
  · rw [unmoved.followCount] at hk
    rw [(unmoved.cell k).1]
    exact still.signals k hk

end Slotting

namespace Following

/-- No two follows hold one subscription. -/
theorem slot_inj (h : Following w) {g g' : FollowId} (hg : (w.follows.get g).slot = some sub)
    (hg' : (w.follows.get g').slot = some sub) : g = g' := by
  obtain ⟨e, ⟨sub₁, held, cancel⟩, -⟩ := h.listens g (hg ▸ Option.some_ne_none sub)
  obtain ⟨e', ⟨sub₂, held', cancel'⟩, -⟩ := h.listens g' (hg' ▸ Option.some_ne_none sub)
  rw [hg] at held
  rw [hg'] at held'
  cases held
  cases held'
  obtain ⟨-, rfl⟩ := Cancel.entry.inj (Option.some.inj (cancel.symm.trans cancel'))
  exact h.apart g g' e ⟨_, hg, cancel⟩ ⟨_, hg', cancel'⟩

section
variable {run : Runner} [Discreet run]

/-- The subscription that a follow had is cancelled when it has another one, or none. -/
theorem vacate (h : Following w) (slot : Option SubscriptionId)
    (free : ∀ sub, slot = some sub → ¬ (followed w).handles sub) (F : FollowId → Prop) :
    Ensures run (slot.forM Subscription.cancel) w fun _ w' => Following w' ∧ Unmoved F w w' := by
  cases slot with
  | none => exact (ensures_pure ..).2 ⟨h, .refl w⟩
  | some sub => exact h.minds F (Ward.minds_cancel (free sub rfl))

/-- At a mount, a follow comes to listen. -/
theorem startFollow (h : Following w) (hf : f.index < w.follows.size) :
    Ensures run (Lifecycle.startFollow f) w fun _ w' =>
      Following w' ∧ Unmoved (· = f) w w' ∧ (w'.follows.get f).slot.isSome = true := by
  simp only [Lifecycle.startFollow, Lifecycle.setSlot, ensures_bind, ensures_get, ensures_modify]
  refine (Ward.subscribe_made h.sound _ (h.reactions f) _).mono ?_
  rintro sub w₁ ⟨e, made⟩
  let w₂ := Lifecycle.slotted f (some sub) w₁
  have h₂ : Following w₂ := by
    refine Slotting.following
      ⟨h, hf, made.kept, made.sound, fun sub' => ?_, fun e he => .inl he, ?_⟩
    · exact or_congr_right ⟨fun eq => eq ▸ rfl, fun eq => (Option.some.inj eq).symm⟩
    · rintro _ ⟨⟩
      exact ⟨e, made.freshEntry, .inr rfl, made.takes, made.joined (h.signals f hf)⟩
  have here : (w₂.follows.get f).slot = some sub := slotted_self (made.kept.follows ▸ hf) _
  have moved : Unmoved (· = f) w w₂ :=
    (Unmoved.of_kept made.kept).trans (slotted_unmoved (some sub))
  refine (h₂.vacate (w₁.follows.get f).slot ?_ fun _ => False).mono ?_
  · rintro prev held ⟨g, slot⟩
    rw [made.kept.follows] at held
    by_cases hg : g = f
    · rw [hg, here] at slot
      cases slot
      exact Nat.not_lt.2 made.freshHandle (h.sound.handles sub ⟨f, held⟩)
    · rw [moved.slot g hg] at slot
      exact hg (h.slot_inj slot held)
  · rintro _ w' ⟨h', unmoved⟩
    refine ⟨h', moved.trans (unmoved.mono fun _ none => none.elim), ?_⟩
    rw [unmoved.slot f id, here]
    rfl

/-- At an unmount, a follow listens no more. -/
theorem endFollow (h : Following w) (hf : f.index < w.follows.size) :
    Ensures run (Lifecycle.endFollow f) w fun _ w' =>
      Following w' ∧ Unmoved (· = f) w w' ∧ (w'.follows.get f).slot.isSome = false := by
  simp only [Lifecycle.endFollow, Lifecycle.setSlot, ensures_bind, ensures_get, ensures_modify]
  let w₂ := Lifecycle.slotted f none w
  have h₂ : Following w₂ := by
    refine Slotting.following ⟨h, hf, .refl w, h.sound, fun sub => ?_, fun _ he => he, ?_⟩
    · simp
    · rintro _ ⟨⟩
  have here : (w₂.follows.get f).slot = none := slotted_self hf none
  have moved : Unmoved (· = f) w w₂ := slotted_unmoved none
  refine (h₂.vacate (w.follows.get f).slot ?_ fun _ => False).mono ?_
  · rintro sub held ⟨g, slot⟩
    by_cases hg : g = f
    · rw [hg, here] at slot
      cases slot
    · rw [moved.slot g hg] at slot
      exact hg (h.slot_inj slot held)
  · rintro _ w' ⟨h', unmoved⟩
    refine ⟨h', moved.trans (unmoved.mono fun _ none => none.elim), ?_⟩
    rw [unmoved.slot f id, here]
    rfl

end

end Following
end LiveMarkup.Live
