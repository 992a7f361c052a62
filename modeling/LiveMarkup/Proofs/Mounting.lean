import LiveMarkup.Proofs.Following

/-!
Mounting: what comes of taking a node and everything below it to be mounted, or not. Where hooks
leave the tree alone, whatever stood in order is in order again, and the follows of every node listen
while it is mounted.
-/
namespace LiveMarkup.Live

/-- The hooks for mounts, and those for unmounts. -/
def World.hooks (w : World) : Bool → List (NodeId × Hook)
  | true => w.mountHooks
  | false => w.unmountHooks

/-- The hook of a follow for mounts, and that for unmounts. -/
def Hook.turning (f : FollowId) : Bool → Hook
  | true => .follow f
  | false => .unfollow f

/-- A follow is that of a node, and of no other. -/
def Owns (w : World) (n : NodeId) (f : FollowId) : Prop :=
  ∀ b m, (m, Hook.turning f b) ∈ w.hooks b ↔ m = n

/-- Hooks leave the tree alone or are those of follows, and every follow is that of a node. -/
structure Hooked (w : World) : Prop where
  calls : ∀ b n h, (n, h) ∈ w.hooks b →
    h.Aloof ∨ ∃ f, h = Hook.turning f b ∧ f.index < w.follows.size
  owner : ∀ f, f.index < w.follows.size → ∃ n, Owns w n f

/-- A follow has a subscription if, and only if, its node is mounted. -/
def Timely (w : World) (n : NodeId) (f : FollowId) : Prop :=
  (w.follows.get f).slot.isSome = (w.nodes.get n).connected

/-- What comes of taking the nodes of `l`, and those below them, to be mounted or not: whatever nodes
were alike, parent and child, are so again, and whatever follow was timely. -/
structure Turned (l : List NodeId) (b : Bool) (w w' : World) : Prop extends Standing w w' where
  following : Following w'
  toward : ∀ n, (w'.nodes.get n).connected = (w.nodes.get n).connected ∨
    (w'.nodes.get n).connected = b
  turned : ∀ n ∈ l, (w'.nodes.get n).connected = b
  even : ∀ c p, (w.nodes.get c).parent = some p → c ∉ l →
    (w.nodes.get c).connected = (w.nodes.get p).connected →
      (w'.nodes.get c).connected = (w'.nodes.get p).connected
  top : ∀ n, (w.nodes.get n).parent = none → n ∉ l →
    (w'.nodes.get n).connected = (w.nodes.get n).connected
  timely : ∀ n f, Owns w n f → Timely w n f → Timely w' n f

variable {w w₁ w₂ w₃ w₄ w' : World} {n m : NodeId} {f : FollowId} {b : Bool} {l : List NodeId}

theorem mem_hooksOf {hooks : List (NodeId × Hook)} {t : Task} :
    t ∈ hooksOf n hooks ↔ ∃ h, t = .hook h ∧ (n, h) ∈ hooks := by
  unfold hooksOf
  rw [List.mem_filterMap]
  constructor
  · rintro ⟨⟨m, hook⟩, mem, eq⟩
    dsimp only at eq
    split at eq
    case isTrue here =>
      cases eq
      subst here
      exact ⟨hook, rfl, mem⟩
    case isFalse => cases eq
  · rintro ⟨h, rfl, mem⟩
    exact ⟨(n, h), mem, if_pos rfl⟩

theorem Standing.hooks (h : Standing w w') (b : Bool) : w'.hooks b = w.hooks b := by
  cases b with
  | true => exact h.mountHooks
  | false => exact h.unmountHooks

theorem Standing.owns (h : Standing w w') : Owns w' n f ↔ Owns w n f := by
  unfold Owns
  exact forall_congr' fun b => forall_congr' fun m => by rw [h.hooks]

theorem Hooked.standing (h : Hooked w) (st : Standing w w') : Hooked w' := by
  refine ⟨fun b n hook mem => ?_, fun f hf => ?_⟩
  · rw [st.hooks] at mem
    rw [st.followCount]
    exact h.calls b n hook mem
  · rw [st.followCount] at hf
    obtain ⟨n, owns⟩ := h.owner f hf
    exact ⟨n, st.owns.2 owns⟩

namespace Turned

theorem refl (h : Following w) (turned : ∀ n ∈ l, (w.nodes.get n).connected = b) :
    Turned l b w w :=
  ⟨.refl w, h, fun _ => .inl rfl, turned, fun _ _ _ _ same => same, fun _ _ _ => rfl,
    fun _ _ _ timely => timely⟩

theorem cons (h : Turned [n] b w w₁) (h' : Turned l b w₁ w₂) : Turned (n :: l) b w w₂ where
  toStanding := h.toStanding.trans h'.toStanding
  following := h'.following
  toward m := by
    rcases h'.toward m with same | turned
    · rw [same]
      exact h.toward m
    · exact .inr turned
  turned m hm := by
    rcases h'.toward m with same | turned
    · rcases List.mem_cons.1 hm with rfl | hm
      · exact same.trans (h.turned m (List.mem_singleton_self m))
      · exact h'.turned m hm
    · exact turned
  even c p parent hc same := by
    obtain ⟨hn, hl⟩ := List.ne_and_not_mem_of_not_mem_cons hc
    refine h'.even c p ((h.nodes.parent c).trans parent) hl ?_
    exact h.even c p parent (by simpa using hn) same
  top m orphan hm := by
    obtain ⟨hn, hl⟩ := List.ne_and_not_mem_of_not_mem_cons hm
    exact (h'.top m ((h.nodes.parent m).trans orphan) hl).trans
      (h.top m orphan (by simpa using hn))
  timely m f owns timely := h'.timely m f (h.owns.2 owns) (h.timely m f owns timely)

end Turned

/-- A runner of tasks under which follows listen and fall silent, and nodes are mounted and unmounted
in order. -/
class Tends (run : Runner) : Prop extends Discreet run where
  turn : ∀ {w w' f b}, Following w → f.index < w.follows.size →
    run (.hook (.turning f b)) w = .ok ((), w') →
      Following w' ∧ Unmoved (· = f) w w' ∧ (w'.follows.get f).slot.isSome = b
  connect : ∀ {w w' n b}, Following w → Hooked w → w.nodes.Linked → n.index < w.nodes.size →
    run (.connect n b) w = .ok ((), w') → Turned [n] b w w'

section
variable {run : Runner} [Tends run]

/-- By induction on the hooks. -/
theorem invokeHooks (h : Following w) {tasks : List Task}
    (calls : ∀ t ∈ tasks, ∃ hook, t = .hook hook ∧
      (hook.Aloof ∨ ∃ f, hook = Hook.turning f b ∧ f.index < w.follows.size)) :
    Ensures run (invokeAll tasks) w fun _ w' => Following w' ∧
      Unmoved (fun f => .hook (.turning f b) ∈ tasks) w w' ∧
        ∀ f, .hook (.turning f b) ∈ tasks → (w'.follows.get f).slot.isSome = b := by
  induction tasks generalizing w with
  | nil => exact (ensures_pure ..).2 ⟨h, .refl w, fun f hf => (List.not_mem_nil hf).elim⟩
  | cons t tasks ih =>
    obtain ⟨⟨hook, rfl, call⟩, rest⟩ := List.forall_mem_cons.1 calls
    have first : Ensures run (invoke (.hook hook)) w fun _ w₁ => Following w₁ ∧
        Unmoved (fun f => hook = .turning f b) w w₁ ∧
          ∀ f, hook = .turning f b → (w₁.follows.get f).slot.isSome = b := by
      rcases call with aloof | ⟨f, rfl, hf⟩
      · refine (h.minds _ (Ward.minds_invoke (t := .hook hook) aloof)).mono fun _ w₁ both =>
          ⟨both.1, both.2, fun f hf => ?_⟩
        subst hf
        cases b with
        | true => exact aloof.elim
        | false => exact aloof.elim
      · refine (ensures_invoke ..).2 fun w₁ hw₁ => ?_
        obtain ⟨h₁, unmoved, slot⟩ := Tends.turn h hf hw₁
        have one : ∀ g, Hook.turning f b = .turning g b → g = f := by
          intro g eq
          cases b with
          | true => exact (Hook.follow.inj eq).symm
          | false => exact (Hook.unfollow.inj eq).symm
        refine ⟨h₁, unmoved.mono fun g hg => hg ▸ rfl, fun g hg => ?_⟩
        rw [one g hg]
        exact slot
    refine (ensures_bind ..).2 (first.mono ?_)
    rintro _ w₁ ⟨h₁, unmoved₁, slot₁⟩
    have calls₁ : ∀ t ∈ tasks, ∃ hook, t = .hook hook ∧
        (hook.Aloof ∨ ∃ f, hook = Hook.turning f b ∧ f.index < w₁.follows.size) := by
      rw [unmoved₁.followCount]
      exact rest
    refine (ih h₁ calls₁).mono ?_
    rintro _ w₂ ⟨h₂, unmoved₂, slot₂⟩
    refine ⟨h₂, ?_, fun f hf => ?_⟩
    · refine (unmoved₁.mono ?_).trans (unmoved₂.mono fun f hf => List.mem_cons_of_mem _ hf)
      rintro f rfl
      exact List.mem_cons_self
    · by_cases later : Task.hook (.turning f b) ∈ tasks
      · exact slot₂ f later
      · rw [unmoved₂.slot f later]
        exact slot₁ f (Task.hook.inj ((List.mem_cons.1 hf).resolve_right later)).symm

/-- The hooks of a node. -/
theorem callHooks (h : Following w) (hooked : Hooked w) (n : NodeId) (b : Bool) :
    Ensures run (invokeAll (hooksOf n (w.hooks b))) w fun _ w' => Following w' ∧
      Unmoved (fun f => (n, Hook.turning f b) ∈ w.hooks b) w w' ∧
        ∀ f, (n, Hook.turning f b) ∈ w.hooks b → (w'.follows.get f).slot.isSome = b := by
  have mem : ∀ f, Task.hook (.turning f b) ∈ hooksOf n (w.hooks b) ↔
      (n, Hook.turning f b) ∈ w.hooks b := by
    intro f
    rw [mem_hooksOf]
    constructor
    · rintro ⟨hook, eq, here⟩
      cases eq
      exact here
    · exact fun here => ⟨_, rfl, here⟩
  refine (invokeHooks h (b := b) fun t ht => ?_).mono ?_
  · obtain ⟨hook, rfl, here⟩ := mem_hooksOf.1 ht
    exact ⟨hook, rfl, hooked.calls b n hook here⟩
  · rintro _ w' ⟨h', unmoved, slot⟩
    exact ⟨h', unmoved.mono fun f hf => (mem f).1 hf, fun f hf => slot f ((mem f).2 hf)⟩

/-- Nodes one after another. By induction on their list. -/
theorem connectEach (h : Following w) (hooked : Hooked w) (linked : w.nodes.Linked)
    (known : ∀ n ∈ l, n.index < w.nodes.size) (b : Bool) :
    Ensures run (invokeAll (l.map fun n => .connect n b)) w fun _ w' => Turned l b w w' := by
  induction l generalizing w with
  | nil => exact (ensures_pure ..).2 (.refl h fun n hn => (List.not_mem_nil hn).elim)
  | cons n l ih =>
    obtain ⟨here, rest⟩ := List.forall_mem_cons.1 known
    refine (ensures_bind ..).2 ((ensures_invoke ..).2 fun w₁ hw₁ => ?_)
    have first := Tends.connect h hooked linked here hw₁
    refine (ih first.following (hooked.standing first.toStanding) (linked.extended first.nodes)
      fun m hm => Nat.lt_of_lt_of_le (rest m hm) first.nodes.size).mono fun _ w₂ more => ?_
    exact first.cons more

end

theorem Mount.flagged_standing (n : NodeId) (connected : Bool) (w : World) :
    Standing w (Mount.flagged n connected w) :=
  { Standing.refl w with
    nodes := ⟨Nat.le_of_eq (Heap.size_modify ..).symm,
      fun m => Heap.get_modify_same w.nodes n m _ Dom.Node.parent fun _ => rfl,
      fun m => Heap.get_modify_same w.nodes n m _ Dom.Node.children fun _ => rfl,
      fun m _ => Heap.get_modify_same w.nodes n m _ Dom.Node.isFragment fun _ => rfl⟩ }

/-- A node is visited: its own state is changed, then its mount hooks run, then its children are
visited, then its unmount hooks run. By cases on whether it is the child or the parent. -/
theorem Turned.visit (h : Following w₄) (linked : w.nodes.Linked) (known : n.index < w.nodes.size)
    (before : Unmoved (fun f => (n, Hook.turning f b) ∈ w.hooks b) (Mount.flagged n b w) w₂)
    (below : Turned (w.nodes.get n).children b w₂ w₃)
    (after : Unmoved (fun f => (n, Hook.turning f b) ∈ w.hooks b) w₃ w₄)
    (slots : ∀ f, Owns w n f → b = true ∧ (w₂.follows.get f).slot.isSome = b ∨
      (w₄.follows.get f).slot.isSome = b) (settled : b = true → w₄ = w₃) :
    Turned [n] b w w₄ := by
  have flag : ∀ m, ((Mount.flagged n b w).nodes.get m).connected =
      if m = n then b else (w.nodes.get m).connected := by
    intro m
    unfold Mount.flagged
    split
    case isTrue hm =>
      subst hm
      rw [Heap.get_modify_self _ _ _ known]
    case isFalse hm => rw [Heap.get_modify_of_ne _ _ _ _ (Ne.symm hm)]
  have first : Standing w (Mount.flagged n b w) := Mount.flagged_standing n b w
  have standing₂ : Standing w w₂ := first.trans before.toStanding
  have flag₂ : ∀ m, (w₂.nodes.get m).connected = if m = n then b else (w.nodes.get m).connected :=
    fun m => (before.connected m).trans (flag m)
  have here₂ : (w₂.nodes.get n).connected = b := by rw [flag₂, if_pos rfl]
  have here₃ : (w₃.nodes.get n).connected = b :=
    (below.toward n).elim (fun same => same.trans here₂) id
  refine ⟨(standing₂.trans below.toStanding).trans after.toStanding, h, fun m => ?_, fun m hm => ?_,
    fun c p parent hc same => ?_, fun m orphan hm => ?_, fun m f owns timely => ?_⟩
  · rw [after.connected]
    rcases below.toward m with same | turned
    · rw [same, flag₂]
      split
      · exact .inr rfl
      · exact .inl rfl
    · exact .inr turned
  · rw [after.connected, List.mem_singleton.1 hm]
    exact here₃
  · rw [after.connected, after.connected]
    have hcn : c ≠ n := by simpa using hc
    by_cases hcl : c ∈ (w.nodes.get n).children
    · have up := (linked.child n c).1 hcl
      rw [parent] at up
      cases up
      rw [below.turned c hcl, here₃]
    · have hpn : p ≠ n := by
        rintro rfl
        exact hcl ((linked.child p c).2 parent)
      refine below.even c p ((standing₂.nodes.parent c).trans parent) hcl ?_
      rw [flag₂, flag₂, if_neg hcn, if_neg hpn]
      exact same
  · have hmn : m ≠ n := by simpa using hm
    rw [after.connected, below.top m ((standing₂.nodes.parent m).trans orphan)
      (linked.not_mem_of_orphan orphan n), flag₂, if_neg hmn]
  · unfold Timely at timely ⊢
    by_cases hm : m = n
    · subst hm
      rw [after.connected, here₃]
      rcases slots f owns with ⟨on, slot⟩ | slot
      · have timely₃ : Timely w₃ m f :=
          below.timely m f (standing₂.owns.2 owns) (slot.trans here₂.symm)
        rw [settled on]
        exact timely₃.trans here₃
      · exact slot
    · have other : ¬ (n, Hook.turning f b) ∈ w.hooks b := fun mem => hm ((owns b n).1 mem).symm
      have timely₂ : Timely w₂ m f := by
        unfold Timely
        rw [flag₂, if_neg hm, before.slot f other]
        exact timely
      have timely₃ := below.timely m f (standing₂.owns.2 owns) timely₂
      unfold Timely at timely₃
      rw [after.slot f other, after.connected]
      exact timely₃

section
variable {run : Runner} [Tends run]

/-- By whether the node is to be mounted: the hooks come before the children or after them. -/
theorem connect_turns (h : Following w) (hooked : Hooked w) (linked : w.nodes.Linked)
    (known : n.index < w.nodes.size) (b : Bool) :
    Ensures run (Mount.connect n b) w fun _ w' => Turned [n] b w w' := by
  by_cases same : (w.nodes.get n).connected = b
  · intro _ w' hw'
    rw [Mount.connect_same same] at hw'
    cases hw'
    exact .refl h fun m hm => List.mem_singleton.1 hm ▸ same
  -- From here on the node is flagged.
  let w₁ := Mount.flagged n b w
  have flagged : Standing w w₁ := Mount.flagged_standing n b w
  have h₁ : Following w₁ := h.of_nodes _
  have hooked₁ : Hooked w₁ := hooked.standing flagged
  have linked₁ : w₁.nodes.Linked := linked.extended flagged.nodes
  have children : ∀ m ∈ (w.nodes.get n).children, m.index < w.nodes.size :=
    fun m hm => Dom.Forest.Linked.known ((linked.child n m).1 hm)
  cases b with
  | true =>
    intro _ w' hw'
    rw [Mount.connect_true same] at hw'
    revert hw'
    suffices ensured : Ensures run (do
        invokeAll (hooksOf n (← get).mountHooks)
        invokeAll (((← get).nodes.get n).children.map fun c => .connect c true) : Op Unit) w₁
        fun _ w' => Turned [n] true w w' from ensured () w'
    simp only [ensures_bind, ensures_get]
    refine (callHooks h₁ hooked₁ n true).mono ?_
    rintro _ w₂ ⟨h₂, before, slots⟩
    have standing₂ : Standing w w₂ := flagged.trans before.toStanding
    rw [standing₂.nodes.children n]
    refine (connectEach h₂ (hooked.standing standing₂) (linked.extended standing₂.nodes)
      (fun m hm => Nat.lt_of_lt_of_le (children m hm) standing₂.nodes.size) true).mono ?_
    intro _ w₃ below
    exact .visit below.following linked known before below (.refl w₃)
      (fun f owns => .inl ⟨rfl, slots f ((owns true n).2 rfl)⟩) fun _ => rfl
  | false =>
    intro _ w' hw'
    rw [Mount.connect_false same] at hw'
    revert hw'
    suffices ensured : Ensures run (do
        invokeAll (((← get).nodes.get n).children.map fun c => .connect c false)
        invokeAll (hooksOf n (← get).unmountHooks) : Op Unit) w₁
        fun _ w' => Turned [n] false w w' from ensured () w'
    simp only [ensures_bind, ensures_get]
    rw [flagged.nodes.children n]
    refine (connectEach h₁ hooked₁ linked₁
      (fun m hm => Nat.lt_of_lt_of_le (children m hm) flagged.nodes.size) false).mono ?_
    intro _ w₃ below
    have standing₃ : Standing w w₃ := flagged.trans below.toStanding
    have hooks : w₃.unmountHooks = w₃.hooks false := rfl
    rw [hooks]
    refine (callHooks below.following (hooked.standing standing₃) n false).mono ?_
    rintro _ w₄ ⟨h₄, after, slots⟩
    rw [standing₃.hooks] at after slots
    exact .visit h₄ linked known (.refl w₁) below after
      (fun f owns => .inr (slots f ((owns false n).2 rfl))) Bool.noConfusion

end

/-- However deeply callbacks are nested. -/
instance tends_exec (fuel : Nat) : Tends (exec fuel) := by
  induction fuel with
  | zero =>
    constructor
    · intro _ _ _ _ _ _ hx
      cases hx
    · intro _ _ _ _ _ _ _ _ hx
      cases hx
  | succ fuel ih =>
    constructor
    · intro w w' f b h hf hx
      cases b with
      | true => exact h.startFollow hf () w' hx
      | false => exact h.endFollow hf () w' hx
    · intro w w' n b h hooked linked known hx
      exact connect_turns h hooked linked known b () w' hx

end LiveMarkup.Live
