import LiveMarkup.Proofs.Operations
import LiveMarkup.Proofs.Mounting

/-!
Turning: what mounts do to a graph. The effects of a node that is mounted join the signals that they
follow, and those of a node that is unmounted leave them; either way the graph is in working order
afterwards.
-/
namespace LiveMarkup.Live

/-- A graph in working order, and a tree in which every hook is that of a follow, and every follow
has an effect called for as long as its node is mounted. -/
structure Pitched (w : World) : Prop extends Ready Nowhere w where
  following : Following w
  linked : w.nodes.Linked
  turns : ∀ b n h, (n, h) ∈ w.hooks b → ∃ f, h = Hook.turning f b ∧ f.index < w.follows.size
  effects : ∀ f, f.index < w.follows.size → (w.follows.get f).mode = .immediate ∧
    ∃ n e, (w.follows.get f).reaction = .effect n e ∧ Owns w n f

variable {w w₁ w' : World} {f : FollowId} {n : NodeId} {b : Bool} {sub : SubscriptionId}

namespace Pitched

theorem hooked (h : Pitched w) : Hooked w :=
  ⟨fun b n hook mem => .inr (h.turns b n hook mem), fun f hf =>
    let ⟨_, n, _, _, owns⟩ := h.effects f hf
    ⟨n, owns⟩⟩

theorem outward (h : Pitched w) (hf : f.index < w.follows.size) :
    (w.follows.get f).reaction.Outward := by
  obtain ⟨-, n, e, same, -⟩ := h.effects f hf
  rw [same]
  trivial

theorem next (h : Pitched w) (ready : Ready Nowhere w') (following : Following w')
    (standing : Standing w w') : Pitched w' := by
  refine ⟨ready, following, h.linked.extended standing.nodes, fun b n hook mem => ?_,
    fun f hf => ?_⟩
  · rw [standing.hooks] at mem
    rw [standing.followCount]
    exact h.turns b n hook mem
  · rw [standing.followCount] at hf
    obtain ⟨mode, n, e, reaction, owns⟩ := h.effects f hf
    obtain ⟨-, sameReaction, sameMode⟩ := standing.cell f
    exact ⟨sameMode.trans mode, n, e, sameReaction.trans reaction, standing.owns.2 owns⟩

end Pitched

/-- The subscription of a follow takes off the follow's effect. -/
theorem Following.leads (h : Following w) (slot : (w.follows.get f).slot = some sub) :
    Leads (OfReaction (w.follows.get f).reaction w) sub w := by
  obtain ⟨e, ⟨sub', held, cancel⟩, joined⟩ := h.listens f (slot ▸ Option.some_ne_none sub)
  rw [slot] at held
  cases held
  refine ⟨h.sound.handles sub ⟨f, slot⟩, fun c hc => ?_⟩
  rw [cancel] at hc
  cases hc
  exact ⟨_, e, rfl, h.sound.entries e ⟨f, sub, slot, cancel⟩, joined.reaction⟩

theorem OfReaction.next {reaction : Reaction} {c : Cancel} (h : OfReaction reaction w c)
    (ev : Evolves w w') : OfReaction reaction w' c := by
  obtain ⟨s, e, rfl, known, same⟩ := h
  exact ⟨s, e, rfl, Nat.lt_of_lt_of_le known ev.entries, (ev.reaction e known).trans same⟩

theorem OfReaction.cancellable {reaction : Reaction} (outward : reaction.Outward) {c : Cancel}
    (h : OfReaction reaction w c) : Cancellable w c := by
  obtain ⟨s, e, rfl, known, same⟩ := h
  refine .loose ⟨s, e, rfl, known, fun d hr => ?_⟩
  rw [same] at hr
  rw [hr] at outward
  exact outward.elim

/-- A runner of tasks under which mounts keep a graph in working order. -/
class Sustains (run : Runner) : Prop where
  turn : ∀ {w w' f b}, Pitched w → f.index < w.follows.size →
    run (.hook (.turning f b)) w = .ok ((), w') → Wired Nowhere w' ∧ Evolves w w'
  connect : ∀ {w w' n b}, Pitched w → n.index < w.nodes.size →
    run (.connect n b) w = .ok ((), w') → Wired Nowhere w' ∧ Evolves w w'

theorem slotted_aside (slot : Option SubscriptionId) (w : World) :
    Aside w (Lifecycle.slotted f slot w) :=
  ⟨rfl, rfl, rfl, rfl, rfl, rfl⟩

section
variable {run : Runner} [Works run] [KeptBy Delivers run]

theorem vacate_works (h : Ready Nowhere w) {reaction : Reaction} (outward : reaction.Outward)
    {slot : Option SubscriptionId}
    (leads : ∀ sub, slot = some sub → Leads (OfReaction reaction w) sub w) :
    Ensures run (slot.forM Subscription.cancel) w fun _ w' => Wired Nowhere w' ∧ Evolves w w' := by
  cases slot with
  | none => exact (ensures_pure ..).2 ⟨h.toWired, .refl w⟩
  | some sub =>
    obtain ⟨made, of⟩ := leads sub rfl
    refine (cancel_works h ⟨made, fun c hc => (of c hc).cancellable outward⟩).mono ?_
    exact fun _ _ subsides => ⟨subsides.wired, subsides.toEvolves⟩

theorem startFollow_works [Discreet run] (h : Pitched w) (hf : f.index < w.follows.size) :
    Ensures run (Lifecycle.startFollow f) w fun _ w' => Wired Nowhere w' ∧ Evolves w w' := by
  have outward := h.outward hf
  simp only [Lifecycle.startFollow, Lifecycle.setSlot, ensures_bind, ensures_get, ensures_modify]
  intro sub w₁ hw₁
  obtain ⟨wired₁, ev₁, -⟩ := subscribeOutward_works h.toReady outward _ _ _ hw₁
  have ready₁ : Ready Nowhere w₁ := h.toReady.next (keeps_subscribe _ _ _ w _ _ hw₁) wired₁
  obtain ⟨kept, -⟩ := Ward.subscribe_free h.following.sound _ (h.following.reactions f) _ _ _ hw₁
  have aside := slotted_aside (f := f) (some sub) w₁
  have ev₂ := ev₁.trans aside.evolves
  refine (vacate_works (ready₁.aside aside) outward fun prev slot => ?_).mono ?_
  · rw [kept.follows] at slot
    exact ev₂.leads (h.following.leads slot) fun _ of => of.next ev₂
  · exact fun _ _ both => ⟨both.1, ev₂.trans both.2⟩

theorem endFollow_works (h : Pitched w) (hf : f.index < w.follows.size) :
    Ensures run (Lifecycle.endFollow f) w fun _ w' => Wired Nowhere w' ∧ Evolves w w' := by
  simp only [Lifecycle.endFollow, Lifecycle.setSlot, ensures_bind, ensures_get, ensures_modify]
  have aside := slotted_aside (f := f) none w
  have ev := aside.evolves
  refine (vacate_works (h.toReady.aside aside) (h.outward hf) fun prev slot => ?_).mono ?_
  · exact ev.leads (h.following.leads slot) fun _ of => of.next ev
  · exact fun _ _ both => ⟨both.1, ev.trans both.2⟩

end

section
variable {run : Runner} [KeptBy Delivers run] [Tends run] [Sustains run]

theorem turn_pitches (h : Pitched w) (hf : f.index < w.follows.size) :
    Ensures run (invoke (.hook (.turning f b))) w fun _ w' =>
      Pitched w' ∧ Evolves w w' ∧ Standing w w' := by
  refine (ensures_invoke ..).2 fun w' hw' => ?_
  obtain ⟨wired, ev⟩ := Sustains.turn h hf hw'
  obtain ⟨following, unmoved, -⟩ := Tends.turn h.following hf hw'
  exact ⟨h.next (h.toReady.next (KeptBy.task _ _ _ hw') wired) following unmoved.toStanding, ev,
    unmoved.toStanding⟩

theorem connectOne_pitches (h : Pitched w) (known : n.index < w.nodes.size) :
    Ensures run (invoke (.connect n b)) w fun _ w' =>
      Pitched w' ∧ Evolves w w' ∧ Standing w w' := by
  refine (ensures_invoke ..).2 fun w' hw' => ?_
  obtain ⟨wired, ev⟩ := Sustains.connect h known hw'
  have turned := Tends.connect h.following h.hooked h.linked known hw'
  exact ⟨h.next (h.toReady.next (KeptBy.task _ _ _ hw') wired) turned.following turned.toStanding,
    ev, turned.toStanding⟩

/-- Hooks of follows, and nodes that are connected. By induction on the tasks. -/
theorem invokeAll_pitches (h : Pitched w) {tasks : List Task}
    (calls : ∀ t ∈ tasks, (∃ f, t = .hook (.turning f b) ∧ f.index < w.follows.size) ∨
      ∃ n, t = .connect n b ∧ n.index < w.nodes.size) :
    Ensures run (invokeAll tasks) w fun _ w' => Pitched w' ∧ Evolves w w' ∧ Standing w w' := by
  induction tasks generalizing w with
  | nil => exact (ensures_pure ..).2 ⟨h, .refl w, .refl w⟩
  | cons t tasks ih =>
    obtain ⟨call, rest⟩ := List.forall_mem_cons.1 calls
    have first : Ensures run (invoke t) w fun _ w₁ =>
        Pitched w₁ ∧ Evolves w w₁ ∧ Standing w w₁ := by
      rcases call with ⟨f, rfl, hf⟩ | ⟨n, rfl, known⟩
      · exact turn_pitches h hf
      · exact connectOne_pitches h known
    refine (ensures_bind ..).2 (first.mono ?_)
    rintro _ w₁ ⟨h₁, ev₁, standing₁⟩
    refine (ih h₁ fun t ht => ?_).mono ?_
    · refine (rest t ht).imp (fun ⟨f, eq, hf⟩ => ⟨f, eq, ?_⟩) fun ⟨n, eq, known⟩ => ⟨n, eq, ?_⟩
      · rw [standing₁.followCount]
        exact hf
      · exact Nat.lt_of_lt_of_le known standing₁.nodes.size
    · rintro _ w₂ ⟨h₂, ev₂, standing₂⟩
      exact ⟨h₂, ev₁.trans ev₂, standing₁.trans standing₂⟩

theorem Pitched.hookCalls (h : Pitched w) : ∀ t ∈ hooksOf n (w.hooks b),
    (∃ f, t = Task.hook (.turning f b) ∧ f.index < w.follows.size) ∨
      ∃ m, t = Task.connect m b ∧ m.index < w.nodes.size := by
  intro t ht
  obtain ⟨hook, rfl, mem⟩ := mem_hooksOf.1 ht
  obtain ⟨f, rfl, hf⟩ := h.turns b n hook mem
  exact .inl ⟨f, rfl, hf⟩

theorem Pitched.childCalls (h : Pitched w) : ∀ t ∈ (w.nodes.get n).children.map (Task.connect · b),
    (∃ f, t = Task.hook (.turning f b) ∧ f.index < w.follows.size) ∨
      ∃ m, t = Task.connect m b ∧ m.index < w.nodes.size := by
  intro t ht
  obtain ⟨m, mem, rfl⟩ := List.mem_map.1 ht
  exact .inr ⟨m, rfl, Dom.Forest.Linked.known ((h.linked.child n m).1 mem)⟩

/-- By whether the node is to be mounted: its hooks come before its children, or after them. -/
theorem connect_pitches (h : Pitched w) (n : NodeId) (b : Bool) :
    Ensures run (Mount.connect n b) w fun _ w' => Pitched w' ∧ Evolves w w' ∧ Standing w w' := by
  by_cases same : (w.nodes.get n).connected = b
  · intro _ w' hw'
    rw [Mount.connect_same same] at hw'
    cases hw'
    exact ⟨h, .refl w, .refl w⟩
  have aside : Aside w (Mount.flagged n b w) := ⟨rfl, rfl, rfl, rfl, rfl, rfl⟩
  have standing₁ : Standing w (Mount.flagged n b w) := Mount.flagged_standing n b w
  have h₁ : Pitched (Mount.flagged n b w) :=
    h.next (h.toReady.aside aside) (h.following.of_nodes _) standing₁
  have ev₁ := aside.evolves
  cases b with
  | true =>
    intro _ w' hw'
    rw [Mount.connect_true same] at hw'
    revert hw'
    suffices ensured : Ensures run (do
        invokeAll (hooksOf n (← get).mountHooks)
        invokeAll (((← get).nodes.get n).children.map fun c => .connect c true) : Op Unit)
        (Mount.flagged n true w) fun _ w' => Pitched w' ∧ Evolves w w' ∧ Standing w w' from
      ensured () w'
    simp only [ensures_bind, ensures_get]
    refine (invokeAll_pitches h₁ (h₁.hookCalls (b := true))).mono ?_
    rintro _ w₂ ⟨h₂, ev₂, standing₂⟩
    refine (invokeAll_pitches h₂ h₂.childCalls).mono ?_
    rintro _ w₃ ⟨h₃, ev₃, standing₃⟩
    exact ⟨h₃, (ev₁.trans ev₂).trans ev₃, (standing₁.trans standing₂).trans standing₃⟩
  | false =>
    intro _ w' hw'
    rw [Mount.connect_false same] at hw'
    revert hw'
    suffices ensured : Ensures run (do
        invokeAll (((← get).nodes.get n).children.map fun c => .connect c false)
        invokeAll (hooksOf n (← get).unmountHooks) : Op Unit)
        (Mount.flagged n false w) fun _ w' => Pitched w' ∧ Evolves w w' ∧ Standing w w' from
      ensured () w'
    simp only [ensures_bind, ensures_get]
    refine (invokeAll_pitches h₁ h₁.childCalls).mono ?_
    rintro _ w₂ ⟨h₂, ev₂, standing₂⟩
    refine (invokeAll_pitches h₂ (h₂.hookCalls (b := false))).mono ?_
    rintro _ w₃ ⟨h₃, ev₃, standing₃⟩
    exact ⟨h₃, (ev₁.trans ev₂).trans ev₃, (standing₁.trans standing₂).trans standing₃⟩

end

/-- However deeply callbacks are nested. -/
instance sustains_exec (fuel : Nat) : Sustains (exec fuel) := by
  induction fuel with
  | zero => constructor <;> intros <;> contradiction
  | succ fuel ih =>
    constructor
    · intro w w' f b h hf hx
      cases b with
      | true => exact startFollow_works h hf () w' hx
      | false => exact endFollow_works h hf () w' hx
    · intro w w' n b h _ hx
      obtain ⟨h', ev, -⟩ := connect_pitches h n b () w' hx
      exact ⟨h'.toWired, ev⟩

end LiveMarkup.Live
