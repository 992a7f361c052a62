import LiveMarkup.Proofs.Mounting
import LiveMarkup.Proofs.Bodies

/-!
Callbacks of mounts: which of them run when trees are taken to be mounted or not, and in what order.
The callbacks are any that leave the tree alone. A visit to a node runs those of its callbacks that
are for mounts, or those for unmounts; what happens besides visits changes nothing but nodes.
-/
namespace LiveMarkup.Live
open Dom (Forest)

/-- What callbacks may do that perform no operation on the tree: nodes stay where they are and
connected or not, and no callback is taken away. There may be new nodes, which stand alone. -/
structure Untouched (w w' : World) : Prop where
  nodes : w.nodes.Enlarged w'.nodes
  hooks : ∀ b x, x ∈ w.hooks b → x ∈ w'.hooks b

/-- Where `I` holds, the callbacks of mounts perform no operation on the tree. It holds whatever is done
to nodes, and after each of the callbacks. -/
structure Passive (I : World → Prop) : Prop where
  moves : ∀ w nodes, I w → I { w with nodes }
  calls : ∀ w fuel b n h, I w → (n, h) ∈ w.hooks b →
    Ensures (exec fuel) (invoke (.hook h)) w fun _ w' => I w' ∧ Untouched w w'

/-- Where `I` holds, the callbacks of mounts come to an end with so many nested calls. -/
def Prompt (I : World → Prop) (depth : Nat) : Prop :=
  ∀ w fuel b n h, I w → (n, h) ∈ w.hooks b → depth ≤ fuel →
    ∃ w', exec fuel (.hook h) w = .ok ((), w')

/-- A way from one world to another on which nodes are changed and the callbacks of nodes run, in the
order of the visits and at each visit in that of their registration. Nothing else happens. -/
inductive Course : World → List (NodeId × Bool) → World → Prop
  | done {w : World} : Course w [] w
  | moved {w w' : World} {nodes : Forest} {visits : List (NodeId × Bool)} :
    Course { w with nodes } visits w' → Course w visits w'
  | called {w w₁ w' : World} {fuel : Nat} {n : NodeId} {b : Bool} {visits : List (NodeId × Bool)} :
    invokeAll (hooksOf n (w.hooks b)) (exec fuel) w = .ok ((), w₁) → Course w₁ visits w' →
      Course w ((n, b) :: visits) w'

/-- Of two visits for mounts the later is not to a node above, of two for unmounts it is not to a node
below. No node is visited twice for the same. -/
def Orderly (f : Forest) (x y : NodeId × Bool) : Prop :=
  (x.2 = true → y.2 = true → ¬ f.Under y.1 x.1) ∧ (x.2 = false → y.2 = false → ¬ f.Under x.1 y.1)

/-- The visits are to the nodes that became connected or unconnected, all below the roots and in
order. -/
structure Performed (roots : List NodeId) (w : World) (visits : List (NodeId × Bool))
    (w' : World) : Prop where
  course : Course w visits w'
  turned : ∀ m b, (m, b) ∈ visits ↔
    (w.nodes.get m).connected = !b ∧ (w'.nodes.get m).connected = b
  ordered : visits.Pairwise (Orderly w'.nodes)
  within : ∀ x ∈ visits, ∃ r ∈ roots, w'.nodes.Under r x.1

/-- Links are as they were, everything below a root is connected as is said of the root, and all else
is as it was. -/
structure Switched (roots : List (NodeId × Bool)) (w : World) (visits : List (NodeId × Bool))
    (w' : World) : Prop extends Performed (roots.map (·.1)) w visits w' where
  links : w.nodes.Extended w'.nodes
  inside : ∀ x ∈ roots, ∀ m, w.nodes.Under x.1 m → (w'.nodes.get m).connected = x.2
  outside : ∀ m, (∀ x ∈ roots, ¬ w.nodes.Under x.1 m) →
    (w'.nodes.get m).connected = (w.nodes.get m).connected

variable {I : World → Prop} {w w₁ w₂ w₃ w₄ w' : World} {n m r : NodeId} {b : Bool}
  {visits visits₁ visits₂ : List (NodeId × Bool)} {depth fuel : Nat}

namespace Untouched

theorem refl (w : World) : Untouched w w :=
  ⟨.refl _, fun _ _ => id⟩

theorem trans (h : Untouched w w₁) (h' : Untouched w₁ w₂) : Untouched w w₂ :=
  ⟨h.nodes.trans h'.nodes, fun b x hx => h'.hooks b x (h.hooks b x hx)⟩

end Untouched

/-- Scripts of steps that leave the tree alone are such callbacks, where all other callbacks that they
can come to do so as well, and the callbacks of follows are. -/
theorem passive_following : Passive fun w => Following w ∧ Hooked w where
  moves w nodes := fun ⟨following, hooked⟩ =>
    ⟨following.of_nodes nodes, hooked.calls, hooked.owner⟩
  calls w fuel b n h := by
    rintro ⟨following, hooked⟩ mem
    have called : Ensures (exec fuel) (invokeAll [.hook h]) w _ :=
      invokeHooks following (b := b) fun t ht => by
        obtain rfl := List.mem_singleton.1 ht
        exact ⟨h, rfl, hooked.calls b n h mem⟩
    intro _ w' ran
    have all : invokeAll [.hook h] (exec fuel) w = .ok ((), w') := by
      have first : invokeAll [.hook h] (exec fuel) w =
          (invoke (.hook h) (exec fuel) w).bind fun p => .ok ((), p.2) := rfl
      rw [first, ran]
      rfl
    obtain ⟨following', unmoved, -⟩ := called () w' all
    exact ⟨⟨following', hooked.standing unmoved.toStanding⟩, ⟨unmoved.nodes, unmoved.connected⟩,
      fun b x hx => unmoved.toStanding.hooks b ▸ hx⟩

theorem Course.trans (h : Course w visits₁ w₁) (h' : Course w₁ visits₂ w₂) :
    Course w (visits₁ ++ visits₂) w₂ := by
  induction h with
  | done => exact h'
  | moved _ ih => exact .moved (ih h')
  | called ran _ ih => exact .called ran (ih h')

/-- Who was connected decides which visits there can be. -/
theorem Performed.same {roots : List NodeId} (h : Performed roots w visits w')
    (none : ∀ b, (m, b) ∉ visits) : (w'.nodes.get m).connected = (w.nodes.get m).connected := by
  have no := fun b => mt (h.turned m b).2 (none b)
  cases before : (w.nodes.get m).connected with
  | true =>
    cases after : (w'.nodes.get m).connected with
    | true => rfl
    | false => exact absurd ⟨before, after⟩ (no false)
  | false =>
    cases after : (w'.nodes.get m).connected with
    | true => exact absurd ⟨before, after⟩ (no true)
    | false => rfl

/-- What was done below some roots and then below others, where all those trees are apart and the
former have stayed as they were. No node is in two of them, so each is visited in one part only. -/
theorem Performed.append {roots₁ roots₂ : List NodeId} (h₁ : Performed roots₁ w visits₁ w₁)
    (h₂ : Performed roots₂ w₁ visits₂ w₂) (linked : w₂.nodes.Linked)
    (stay : ∀ r ∈ roots₁, w₁.nodes.SameBelow w₂.nodes r)
    (apart : w₂.nodes.Apart (roots₁ ++ roots₂)) :
    Performed (roots₁ ++ roots₂) w (visits₁ ++ visits₂) w₂ := by
  obtain ⟨apart₁, -, between⟩ := List.pairwise_append.1 apart
  have within₁ : ∀ x ∈ visits₁, ∃ r ∈ roots₁, w₁.nodes.Under r x.1 ∧ w₂.nodes.Under r x.1 := by
    intro x hx
    obtain ⟨r, hr, under⟩ := h₁.within x hx
    exact ⟨r, hr, under, (stay r hr).under under⟩
  -- What is above or below a node of the first part, in one of the trees, is in the same tree.
  have back : ∀ x ∈ visits₁, ∀ y ∈ visits₁, w₂.nodes.Under y.1 x.1 → w₁.nodes.Under y.1 x.1 := by
    intro x hx y hy under
    obtain ⟨r, hr, hrx, hrx'⟩ := within₁ x hx
    obtain ⟨s, hs, hsy, hsy'⟩ := within₁ y hy
    have same : s = r := ((hsy'.trans under).comparable hrx').elim
      (fun hsr => Forest.Apart.eq_of_under apart₁ hs hr hsr)
      fun hrs => (Forest.Apart.eq_of_under apart₁ hr hs hrs).symm
    subst same
    exact (stay s hs).above linked hrx hsy under
  have across : ∀ x ∈ visits₁, ∀ y ∈ visits₂,
      ¬ w₂.nodes.Under x.1 y.1 ∧ ¬ w₂.nodes.Under y.1 x.1 := by
    intro x hx y hy
    obtain ⟨r, hr, -, hrx⟩ := within₁ x hx
    obtain ⟨s, hs, hsy⟩ := h₂.within y hy
    obtain ⟨hrs, hsr⟩ := between r hr s hs
    refine ⟨fun under => ?_, fun under => ?_⟩
    · exact ((hrx.trans under).comparable hsy).elim hrs hsr
    · exact ((hsy.trans under).comparable hrx).elim hsr hrs
  have either : ∀ m, (∀ b, (m, b) ∉ visits₁) ∨ ∀ b, (m, b) ∉ visits₂ := by
    intro m
    by_cases first : ∃ b, (m, b) ∈ visits₁
    · obtain ⟨b, hb⟩ := first
      exact .inr fun b' hb' => (across _ hb _ hb').1 .here
    · exact .inl fun b hb => first ⟨b, hb⟩
  refine ⟨h₁.course.trans h₂.course, fun m b => ?_, ?_, fun x hx => ?_⟩
  · rw [List.mem_append]
    rcases either m with none | none
    · rw [or_iff_right (none b), h₂.turned, h₁.same none]
    · rw [or_iff_left (none b), h₁.turned, h₂.same none]
  · refine List.pairwise_append.2 ⟨?_, h₂.ordered, fun x hx y hy => ?_⟩
    · refine h₁.ordered.imp_of_mem fun {x y} hx hy orderly => ?_
      exact ⟨fun bx bY under => orderly.1 bx bY (back x hx y hy under),
        fun bx bY under => orderly.2 bx bY (back y hy x hx under)⟩
    · exact ⟨fun _ _ => (across x hx y hy).2, fun _ _ => (across x hx y hy).1⟩
  · rcases List.mem_append.1 hx with hx | hx
    · obtain ⟨r, hr, -, under⟩ := within₁ x hx
      exact ⟨r, List.mem_append_left _ hr, under⟩
    · obtain ⟨r, hr, under⟩ := h₂.within x hx
      exact ⟨r, List.mem_append_right _ hr, under⟩

/-- Before anything is done nodes may move. -/
theorem Performed.after_move {roots : List NodeId} {nodes : Forest}
    (h : Performed roots { w with nodes } visits w')
    (connected : ∀ m, (nodes.get m).connected = (w.nodes.get m).connected) :
    Performed roots w visits w' where
  course := .moved h.course
  turned m b := by
    rw [h.turned]
    show (nodes.get m).connected = _ ∧ _ ↔ _
    rw [connected]
  ordered := h.ordered
  within := h.within

/-! Callbacks of one node. -/

theorem Sure.ran {α : Type} {enough : Prop} {run : Runner} {x : Op α} {Q : α → World → Prop}
    (h : Sure enough run x w Q) :
    Sure enough run x w fun a w' => x run w = .ok (a, w') ∧ Q a w' :=
  ⟨fun a w' ran => ⟨ran, h.ensures a w' ran⟩, h.returns⟩

section
variable (passive : Passive I)
include passive

/-- By induction on the callbacks: those that are left stay registered. -/
theorem callEach_untouched (hw : I w) {tasks : List Task}
    (calls : ∀ t ∈ tasks, ∃ h, t = .hook h ∧ (n, h) ∈ w.hooks b) :
    Sure (Prompt I depth ∧ depth ≤ fuel) (exec fuel) (invokeAll tasks) w fun _ w' =>
      I w' ∧ Untouched w w' := by
  induction tasks generalizing w with
  | nil => exact .pure ⟨hw, .refl w⟩
  | cons t tasks ih =>
    obtain ⟨⟨h, rfl, mem⟩, rest⟩ := List.forall_mem_cons.1 calls
    have first : Sure (Prompt I depth ∧ depth ≤ fuel) (exec fuel) (invoke (.hook h)) w
        fun _ w' => I w' ∧ Untouched w w' := by
      refine ⟨passive.calls w fuel b n h hw mem, fun ⟨prompt, le⟩ => ?_⟩
      obtain ⟨w', ran⟩ := prompt w fuel b n h hw mem le
      exact ⟨(), w', ran⟩
    refine first.bind ?_
    rintro _ w₁ ⟨hw₁, untouched⟩
    refine (ih hw₁ fun t ht => ?_).mono ?_
    · obtain ⟨h', eq, mem'⟩ := rest t ht
      exact ⟨h', eq, untouched.hooks b _ mem'⟩
    · rintro _ w₂ ⟨hw₂, untouched'⟩
      exact ⟨hw₂, untouched.trans untouched'⟩

theorem callHooks_course (hw : I w) (n : NodeId) (b : Bool) :
    Sure (Prompt I depth ∧ depth ≤ fuel) (exec fuel) (invokeAll (hooksOf n (w.hooks b))) w
      fun _ w' => I w' ∧ w.nodes.Enlarged w'.nodes ∧ Course w [(n, b)] w' := by
  refine (callEach_untouched passive hw fun t ht => mem_hooksOf.1 ht).ran.mono ?_
  rintro _ w' ⟨ran, hw', untouched⟩
  exact ⟨hw', untouched.nodes, .called ran .done⟩

end

/-! Trees. -/

/-- How many of some nodes are not taken to be as `b` says. -/
def unsettled (l : List NodeId) (f : Forest) (b : Bool) : Nat :=
  l.countP fun n => (f.get n).connected != b

theorem unsettled_le {l : List NodeId} {f f' : Forest}
    (toward : ∀ n, (f'.get n).connected = (f.get n).connected ∨ (f'.get n).connected = b) :
    unsettled l f' b ≤ unsettled l f b := by
  refine List.countP_mono_left fun n _ left => ?_
  rcases toward n with same | turned
  · rwa [same] at left
  · simp [turned] at left

theorem unsettled_flag {l : List NodeId} {f : Forest} (mem : n ∈ l) (known : n.index < f.size)
    (other : (f.get n).connected ≠ b) :
    unsettled l (f.modify n fun node => { node with connected := b }) b < unsettled l f b := by
  have toward := (Forest.Reflagged.flag f n b).toward
  have here : (f.modify n fun node => { node with connected := b }).get n =
      { f.get n with connected := b } := Heap.get_modify_self _ _ _ known
  obtain ⟨before, after, rfl⟩ := List.append_of_mem mem
  have left := unsettled_le (l := before) toward
  have right := unsettled_le (l := after) toward
  unfold unsettled at left right ⊢
  simp only [List.countP_append, List.countP_cons, here, bne_self_eq_false, bne_iff_ne, ne_eq, other,
    not_false_eq_true, if_true, Bool.false_eq_true, if_false]
  omega

namespace Switched

/-- Nothing is to be done for trees that are as they are to be. -/
theorem nothing {roots : List (NodeId × Bool)}
    (same : ∀ x ∈ roots, ∀ m, w.nodes.Under x.1 m → (w.nodes.get m).connected = x.2) :
    Switched roots w [] w where
  course := .done
  turned m b' := by
    refine ⟨fun h => (List.not_mem_nil h).elim, fun ⟨before, after⟩ => ?_⟩
    rw [before] at after
    cases b' <;> cases after
  ordered := .nil
  within x hx := (List.not_mem_nil hx).elim
  links := (Forest.Enlarged.refl _).toExtended
  inside := same
  outside _ _ := rfl

theorem toward {roots : List (NodeId × Bool)} (h : Switched roots w visits w')
    (all : ∀ x ∈ roots, x.2 = b) (m : NodeId) :
    (w'.nodes.get m).connected = (w.nodes.get m).connected ∨ (w'.nodes.get m).connected = b := by
  by_cases below : ∃ x ∈ roots, w.nodes.Under x.1 m
  · obtain ⟨x, hx, under⟩ := below
    exact .inr ((h.inside x hx m under).trans (all x hx))
  · exact .inl (h.outside m fun x hx under => below ⟨x, hx, under⟩)

/-- Trees that are apart, one after another. -/
theorem append {roots₁ roots₂ : List (NodeId × Bool)} (h₁ : Switched roots₁ w visits₁ w₁)
    (h₂ : Switched roots₂ w₁ visits₂ w₂) (linked : w.nodes.Linked)
    (apart : w.nodes.Apart ((roots₁ ++ roots₂).map (·.1))) :
    Switched (roots₁ ++ roots₂) w (visits₁ ++ visits₂) w₂ := by
  have links := h₁.links.trans h₂.links
  have stay : ∀ r, w₁.nodes.SameBelow w₂.nodes r := fun r => .of_parents h₂.links.parent
  rw [List.map_append] at apart
  obtain ⟨-, -, between⟩ := List.pairwise_append.1 apart
  have between : ∀ x ∈ roots₁, ∀ y ∈ roots₂, ¬ w.nodes.Under x.1 y.1 ∧ ¬ w.nodes.Under y.1 x.1 :=
    fun x hx y hy => between _ (List.mem_map_of_mem hx) _ (List.mem_map_of_mem hy)
  refine ⟨?_, links, fun x hx m under => ?_, fun m out => ?_⟩
  · rw [List.map_append]
    refine h₁.toPerformed.append h₂.toPerformed (linked.extended links) (fun r _ => stay r) ?_
    exact apart.imp fun ⟨hrs, hsr⟩ => ⟨mt links.under.1 hrs, mt links.under.1 hsr⟩
  · rcases List.mem_append.1 hx with hx | hx
    · rw [h₂.outside m fun y hy below => ?_, h₁.inside x hx m under]
      obtain ⟨hxy, hyx⟩ := between x hx y hy
      exact (under.comparable (h₁.links.under.1 below)).elim hxy hyx
    · exact h₂.inside x hx m (h₁.links.under.2 under)
  · rw [h₂.outside m fun y hy below => out y (List.mem_append_right _ hy) (h₁.links.under.1 below),
      h₁.outside m fun x hx below => out x (List.mem_append_left _ hx) below]

end Switched

/-- The visits that come of one to a node: mounts go down the tree, unmounts come up. -/
def visitsFrom (n : NodeId) (b : Bool) (below : List (NodeId × Bool)) : List (NodeId × Bool) :=
  if b then (n, b) :: below else below ++ [(n, b)]

theorem mem_visitsFrom {below : List (NodeId × Bool)} {x : NodeId × Bool} :
    x ∈ visitsFrom n b below ↔ x = (n, b) ∨ x ∈ below := by
  cases b with
  | true => simp [visitsFrom]
  | false => simp [visitsFrom, or_comm]

/-- A node and, before or after it, the trees below it. -/
theorem Switched.visit (linked : w.nodes.Linked) (known : n.index < w.nodes.size)
    (other : (w.nodes.get n).connected ≠ b)
    (before : (Mount.flagged n b w).nodes.Enlarged w₂.nodes)
    (below : Switched ((w.nodes.get n).children.map fun c => (c, b)) w₂ visits w₃)
    (after : w₃.nodes.Enlarged w₄.nodes) (course : Course w (visitsFrom n b visits) w₄) :
    Switched [(n, b)] w (visitsFrom n b visits) w₄ := by
  have flagged := Forest.Reflagged.flag w.nodes n b
  have links₂ : w.nodes.Extended w₂.nodes := flagged.extended.trans before.toExtended
  have links : w.nodes.Extended w₄.nodes := (links₂.trans below.links).trans after.toExtended
  have here₂ : (w₂.nodes.get n).connected = b := by
    rw [before.connected]
    show ((w.nodes.modify n _).get n).connected = b
    rw [Heap.get_modify_self _ _ _ known]
  have rest₂ : ∀ m, m ≠ n → (w₂.nodes.get m).connected = (w.nodes.get m).connected := by
    intro m hm
    rw [before.connected]
    show ((w.nodes.modify n _).get m).connected = _
    rw [Heap.get_modify_of_ne _ _ _ _ (Ne.symm hm)]
  have root : ∀ {c m}, (c, b) ∈ (w.nodes.get n).children.map (fun c => (c, b)) →
      w₂.nodes.Under c m → (w.nodes.get c).parent = some n ∧ w.nodes.Under c m := by
    intro c m hc under
    obtain ⟨c', hc', eq⟩ := List.mem_map.1 hc
    cases eq
    exact ⟨(linked.child n c).1 hc', links₂.under.1 under⟩
  -- The node itself is below none of its children.
  have apart : ∀ x ∈ (w.nodes.get n).children.map (fun c => (c, b)), ¬ w₂.nodes.Under x.1 n := by
    intro x hx under
    obtain ⟨c, hc, rfl⟩ := List.mem_map.1 hx
    obtain ⟨parent, above⟩ := root hx under
    exact linked.acyclic parent above
  have here₃ : (w₃.nodes.get n).connected = b := (below.outside n apart).trans here₂
  have lower : ∀ x ∈ visits, w.nodes.Under n x.1 ∧ ¬ w.nodes.Under x.1 n := by
    intro x hx
    obtain ⟨c, hc, under⟩ := below.within x hx
    rw [List.map_map] at hc
    obtain ⟨c', hc', rfl⟩ := List.mem_map.1 hc
    have parent := (linked.child n c').1 hc'
    have above : w.nodes.Under c' x.1 := (links₂.trans below.links).under.1 under
    exact ⟨(Forest.Under.up parent .here).trans above,
      fun up => linked.acyclic parent (above.trans up)⟩
  refine ⟨⟨course, fun m b' => ?_, ?_, fun x hx => ?_⟩, links, fun x hx m under => ?_,
    fun m out => ?_⟩
  · rw [mem_visitsFrom, after.connected, below.turned]
    by_cases hm : m = n
    · subst hm
      rw [here₂, here₃]
      cases before : (w.nodes.get m).connected <;> cases b <;> cases b' <;> simp_all
    · rw [rest₂ m hm]
      simp [hm]
  · have ordered : visits.Pairwise (Orderly w₄.nodes) := below.ordered.imp fun orderly =>
      ⟨fun bx hb under => orderly.1 bx hb (after.toExtended.under.1 under),
        fun bx hb under => orderly.2 bx hb (after.toExtended.under.1 under)⟩
    cases b with
    | true =>
      refine List.pairwise_cons.2 ⟨fun y hy => ⟨fun _ _ under => ?_, nofun⟩, ordered⟩
      exact (lower y hy).2 (links.under.1 under)
    | false =>
      refine List.pairwise_append.2 ⟨ordered, List.pairwise_singleton _ _, fun x hx y hy => ?_⟩
      cases List.mem_singleton.1 hy
      exact ⟨fun _ => nofun, fun _ _ under => (lower x hx).2 (links.under.1 under)⟩
  · refine ⟨n, List.mem_singleton_self n, links.under.2 ?_⟩
    rcases mem_visitsFrom.1 hx with rfl | hx
    · exact .here
    · exact (lower x hx).1
  · cases List.mem_singleton.1 hx
    rw [after.connected]
    rcases under.last with rfl | ⟨c, parent, above⟩
    · exact here₃
    · exact below.inside (c, b) (List.mem_map_of_mem ((linked.child n c).2 parent)) m
        (links₂.under.2 above)
  · have hm : ¬ w.nodes.Under n m := out (n, b) (List.mem_singleton_self _)
    rw [after.connected, below.outside m fun x hx under => ?_, rest₂ m fun eq => hm (eq ▸ .here)]
    obtain ⟨c, hc, rfl⟩ := List.mem_map.1 hx
    obtain ⟨parent, above⟩ := root hx under
    exact hm ((Forest.Under.up parent .here).trans above)

/-- A tree that there is, with all its nodes in `l`, and all of them connected or none. -/
structure Switchable (l : List NodeId) (f : Forest) (n : NodeId) : Prop where
  known : n.index < f.size
  uniform : f.Uniform n
  covered : ∀ m, f.Under n m → m ∈ l

/-- What is done to other trees does not matter. -/
theorem Switchable.elsewhere {l : List NodeId} {roots : List (NodeId × Bool)} (h : Switchable l w.nodes n)
    (s : Switched roots w visits w')
    (apart : ∀ x ∈ roots, ¬ w.nodes.Under x.1 n ∧ ¬ w.nodes.Under n x.1) : Switchable l w'.nodes n where
  known := Nat.lt_of_lt_of_le h.known s.links.size
  uniform := by
    refine h.uniform.congr s.links.parent fun m under => s.outside m fun x hx below => ?_
    obtain ⟨hxn, hnx⟩ := apart x hx
    exact (below.comparable under).elim hxn hnx
  covered m under := h.covered m (s.links.under.1 under)

/-- An operation that switches trees, given as much fuel as nodes of `l` are to be switched. -/
def Switches (I : World → Prop) (l : List NodeId) (enough : Nat → Prop) (run : Runner) (b : Bool)
    (x : NodeId → Op Unit) : Prop :=
  ∀ w n, I w → w.nodes.Linked → Switchable l w.nodes n →
    Sure (enough (unsettled l w.nodes b)) run (x n) w fun _ w' =>
      I w' ∧ ∃ visits, Switched [(n, b)] w visits w'

/-- Trees one after another. By induction on their list. -/
theorem Switches.each {l : List NodeId} {enough : Nat → Prop} {run : Runner} {x : NodeId → Op Unit}
    (h : Switches I l enough run b x) (less : ∀ {i j}, i ≤ j → enough j → enough i) (hw : I w)
    (linked : w.nodes.Linked) {roots : List NodeId} (ready : ∀ n ∈ roots, Switchable l w.nodes n)
    (apart : w.nodes.Apart roots) :
    Sure (enough (unsettled l w.nodes b)) run (roots.forM x) w fun _ w' =>
      I w' ∧ ∃ visits, Switched (roots.map fun n => (n, b)) w visits w' := by
  induction roots generalizing w with
  | nil => exact .pure ⟨hw, [], .nothing fun x hx => (List.not_mem_nil hx).elim⟩
  | cons n roots ih =>
    obtain ⟨here, rest⟩ := List.forall_mem_cons.1 ready
    obtain ⟨others, apart'⟩ := List.pairwise_cons.1 apart
    refine (h w n hw linked here).bind ?_
    rintro _ w₁ ⟨hw₁, visits₁, first⟩
    have ready₁ : ∀ m ∈ roots, Switchable l w₁.nodes m := by
      refine fun m hm => (rest m hm).elsewhere first fun x hx => ?_
      cases List.mem_singleton.1 hx
      exact others m hm
    have apart₁ : w₁.nodes.Apart roots := apart'.imp fun ⟨hrs, hsr⟩ =>
      ⟨mt first.links.under.1 hrs, mt first.links.under.1 hsr⟩
    have fewer : unsettled l w₁.nodes b ≤ unsettled l w.nodes b :=
      unsettled_le (first.toward fun x hx => by rw [List.mem_singleton.1 hx])
    refine ((ih hw₁ (linked.extended first.links) ready₁ apart₁).weaken (less fewer)).mono ?_
    rintro _ w₂ ⟨hw₂, visits₂, more⟩
    refine ⟨hw₂, visits₁ ++ visits₂, first.append more linked ?_⟩
    simpa [Function.comp_def] using apart

theorem Switchable.children {l : List NodeId} (linked : w.nodes.Linked) (h : Switchable l w.nodes n) :
    ∀ c ∈ (w.nodes.get n).children, w.nodes.Under n c ∧ c.index < w.nodes.size ∧
      ∀ m, w.nodes.Under c m → m ∈ l := by
  intro c hc
  have parent := (linked.child n c).1 hc
  have under : w.nodes.Under n c := .up parent .here
  exact ⟨under, Forest.Linked.known parent, fun m hm => h.covered m (under.trans hm)⟩

theorem invokeAll_map {α : Type} (l : List α) (g : α → Task) :
    invokeAll (l.map g) = l.forM fun a => invoke (g a) := by
  induction l with
  | nil => rfl
  | cons a l ih =>
    have rest : invokeAll ((a :: l).map g) = (do invoke (g a); invokeAll (l.map g)) := rfl
    rw [rest, ih]
    rfl

/-- What is below a node that was just flagged. -/
theorem children_switch {l : List NodeId}
    (h : Switches I l (fun k => Prompt I depth ∧ depth + k < fuel) (exec fuel) b
      fun n => invoke (.connect n b)) (linked : w.nodes.Linked) (ready : Switchable l w.nodes n)
    (other : (w.nodes.get n).connected ≠ b) (hw : I w₂)
    (before : (Mount.flagged n b w).nodes.Enlarged w₂.nodes) :
    Sure (Prompt I depth ∧ depth + unsettled l w.nodes b ≤ fuel) (exec fuel)
      (invokeAll ((w.nodes.get n).children.map fun c => .connect c b)) w₂ fun _ w' =>
        I w' ∧ ∃ visits, Switched ((w.nodes.get n).children.map fun c => (c, b)) w₂ visits w' := by
  have flagged := Forest.Reflagged.flag w.nodes n b
  have links : w.nodes.Extended w₂.nodes := flagged.extended.trans before.toExtended
  have ready₂ : ∀ c ∈ (w.nodes.get n).children, Switchable l w₂.nodes c := by
    intro c hc
    obtain ⟨under, known, covered⟩ := ready.children linked c hc
    refine ⟨Nat.lt_of_lt_of_le known links.size, ?_, fun m hm => covered m (links.under.1 hm)⟩
    have uniform : w.nodes.Uniform c :=
      fun m hm => (ready.uniform m (under.trans hm)).trans (ready.uniform c under).symm
    refine uniform.congr links.parent fun m hm => ?_
    have ne : n ≠ m := by
      rintro rfl
      exact linked.acyclic ((linked.child n c).1 hc) hm
    rw [before.connected]
    show ((w.nodes.modify n _).get m).connected = _
    rw [Heap.get_modify_of_ne _ _ _ _ ne]
  have apart₂ : w₂.nodes.Apart (w.nodes.get n).children :=
    (linked.apart_children n).imp fun ⟨hrs, hsr⟩ =>
      ⟨mt links.under.1 hrs, mt links.under.1 hsr⟩
  have fewer : unsettled l w₂.nodes b < unsettled l w.nodes b := by
    refine Nat.lt_of_le_of_lt (unsettled_le fun m => .inl (before.connected m)) ?_
    exact unsettled_flag (ready.covered n .here) ready.known other
  have all := h.each (fun le ⟨prompt, lt⟩ => ⟨prompt, by omega⟩) hw (linked.extended links) ready₂
    apart₂
  rw [invokeAll_map]
  exact all.weaken fun ⟨prompt, le⟩ => ⟨prompt, by omega⟩

section
variable (passive : Passive I)
include passive

/-- A node with everything below it. -/
theorem connect_switches {l : List NodeId}
    (h : Switches I l (fun k => Prompt I depth ∧ depth + k < fuel) (exec fuel) b
      fun n => invoke (.connect n b)) :
    Switches I l (fun k => Prompt I depth ∧ depth + k ≤ fuel) (exec fuel) b
      fun n => Mount.connect n b := by
  intro w n hw linked ready
  by_cases same : (w.nodes.get n).connected = b
  · refine .of_eq (Mount.connect_same same (exec fuel)) ⟨hw, [], .nothing fun x hx m under => ?_⟩
    cases List.mem_singleton.1 hx
    exact (ready.uniform m under).trans same
  let w₁ := Mount.flagged n b w
  have hw₁ : I w₁ := passive.moves w _ hw
  have children : (w₁.nodes.get n).children = (w.nodes.get n).children :=
    (Forest.Reflagged.flag w.nodes n b).children n
  have enough : Prompt I depth ∧ depth + unsettled l w.nodes b ≤ fuel → Prompt I depth ∧ depth ≤ fuel :=
    fun ⟨prompt, le⟩ => ⟨prompt, Nat.le_trans (Nat.le_add_right ..) le⟩
  cases b with
  | true =>
    refine Sure.congr ?_ (Mount.connect_true same (exec fuel))
    refine Sure.get_bind (((callHooks_course passive hw₁ n true).weaken enough).bind ?_)
    rintro _ w₂ ⟨hw₂, before, called⟩
    refine Sure.get_bind ?_
    rw [before.children, children]
    refine (children_switch h linked ready same hw₂ before).mono ?_
    rintro _ w₃ ⟨hw₃, visits, below⟩
    exact ⟨hw₃, _, .visit linked ready.known same before below (.refl _)
      (.moved (called.trans below.course))⟩
  | false =>
    refine Sure.congr ?_ (Mount.connect_false same (exec fuel))
    refine Sure.get_bind ?_
    rw [children]
    refine (children_switch h linked ready same hw₁ (.refl _)).bind ?_
    rintro _ w₃ ⟨hw₃, visits, below⟩
    refine Sure.get_bind (((callHooks_course passive hw₃ n false).weaken enough).mono ?_)
    rintro _ w₄ ⟨hw₄, after, called⟩
    exact ⟨hw₄, _, .visit linked ready.known same (.refl _) below after
      (.moved (below.course.trans called))⟩

/-- By induction on the fuel. -/
theorem switches_exec (l : List NodeId) (b : Bool) (fuel : Nat) :
    Switches I l (fun k => Prompt I depth ∧ depth + k < fuel) (exec fuel) b
      fun n => invoke (.connect n b) := by
  induction fuel with
  | zero =>
    exact fun w n _ _ _ => ⟨(ensures_invoke ..).2 (fun _ ran => nomatch ran),
      fun ⟨_, lt⟩ => absurd lt (Nat.not_lt_zero _)⟩
  | succ fuel ih =>
    intro w n hw linked ready
    have connected := connect_switches passive ih w n hw linked ready
    exact ⟨connected.ensures, fun ⟨prompt, lt⟩ =>
      connected.returns ⟨prompt, Nat.le_of_lt_succ lt⟩⟩

theorem connect_run (depth : Nat) (l : List NodeId) (b : Bool) (fuel : Nat) :
    Switches I l (fun k => Prompt I depth ∧ depth + k ≤ fuel) (exec fuel) b
      fun n => Mount.connect n b :=
  connect_switches passive (switches_exec passive l b fuel)

end

end LiveMarkup.Live
