import LiveMarkup.Proofs.Callbacks

/-!
Transitions: the callbacks that an operation on the tree runs. Nodes are moved first and then switched
tree by tree, so that afterwards each node is connected if it is below a body. Whatever nodes have
become connected or unconnected meanwhile were visited once, and no others.
-/
namespace LiveMarkup.Dom.Forest
variable {f f' : Forest} {c m n p q r : NodeId} {body : NodeId → Prop} {out into : List NodeId}

/-- Nodes without a parent are apart. -/
theorem Apart.of_roots {l : List NodeId} (once : l.Nodup)
    (orphan : ∀ c ∈ l, (f.get c).parent = none) : f.Apart l := by
  refine once.imp_of_mem fun {c d} hc hd ne => ?_
  exact ⟨fun under => ne (under.eq_of_root (orphan d hd)),
    fun under => ne (under.eq_of_root (orphan c hc)).symm⟩

/-- What has come below `p`, or left it, is not above it. By induction on the way up from `p`, on which
no node has moved. -/
theorem Moved.aside (moved : Moved f f' out p into) (linked : f.Linked)
    (left : ∀ n ∈ out, (f.get n).parent = some p) (hr : r ∈ out ++ into) : ¬ f'.Under r p := by
  have below : ∀ c ∈ into, ¬ f'.Under c p := fun c hc => moved.linked.acyclic (moved.below c hc)
  rcases List.mem_append.1 hr with hr | hr
  · intro under
    suffices general : ∀ {m}, f'.Under r m → f'.Under m p → f.Under r m from
      linked.acyclic (left r hr) (general under .here)
    intro m above
    induction above with
    | here => exact fun _ => .here
    | @up m q parent _ ih =>
      intro up
      have stays : m ∉ into := fun hm => below m hm up
      have away : m ∉ out := by
        intro hm
        rw [moved.left m hm] at parent
        cases parent
      exact .up (moved.other m away stays ▸ parent) (ih ((Under.up parent .here).trans up))
  · exact below r hr

/-- Where nodes have moved, but none above itself, the trees of those that have are connected as a
whole. -/
theorem InPlace.uniform_moved (h : f.InPlace body) (moved : Moved f f' out p into)
    (aside : ¬ f'.Under r p) : f'.Uniform r := by
  refine .of_links fun m q under parent => ?_
  rw [moved.relinked.connected, moved.relinked.connected]
  have stays : m ∉ into := by
    intro hm
    obtain rfl : p = q := Option.some.inj ((moved.below m hm).symm.trans parent)
    exact aside under
  have left : m ∉ out := by
    intro hm
    rw [moved.left m hm] at parent
    cases parent
  exact h.even (moved.other m left stays ▸ parent)

/-- A fragment that gives its children away. It was no body, so they were not connected. -/
theorem InPlace.takeForInsertion (h : f.InPlace body) (free : ¬ body n) :
    (f.takeForInsertion n).2.InPlace body := by
  cases fragment : (f.get n).isFragment with
  | false =>
    rw [takeForInsertion_other fragment]
    exact h
  | true =>
    have relinked : f.Relinked (f.takeForInsertion n).2 := .takeForInsertion n
    have linked := h.linked.takeForInsertion n
    have taken : ∀ m, m ∈ (f.get n).children ↔ (f.get m).parent = some n := h.linked.child n
    have cut : ∀ m q, ((f.takeForInsertion n).2.get m).parent = some q →
        (f.get m).parent = some q := by
      intro m q parent
      by_cases hm : m ∈ (f.get n).children
      · rw [parent_takeForInsertion_of_mem fragment hm] at parent
        cases parent
      · rwa [parent_takeForInsertion_of_notMem fragment hm] at parent
    have outside : (f.get n).connected = false := by
      have orphan : (f.get n).parent = none := by
        cases parent : (f.get n).parent with
        | none => rfl
        | some q =>
          rw [h.linked.whole n q parent] at fragment
          cases fragment
      cases connected : (f.get n).connected with
      | false => rfl
      | true => exact absurd ((h.root orphan).1 connected) free
    refine .of_links linked (fun m hm => relinked.size ▸ h.known m hm) (fun m hm => ?_)
      (fun m orphan => ?_) fun m q parent => ?_
    · have none := h.top m hm
      rw [parent_takeForInsertion_of_notMem fragment fun mem => ?_]
      · exact none
      · rw [(taken m).1 mem] at none
        cases none
    · rw [relinked.connected]
      by_cases hm : m ∈ (f.get n).children
      · have parent := (taken m).1 hm
        rw [h.even parent, outside]
        refine ⟨nofun, fun hb => ?_⟩
        rw [h.top m hb] at parent
        cases parent
      · rw [parent_takeForInsertion_of_notMem fragment hm] at orphan
        exact h.root orphan
    · rw [relinked.connected, relinked.connected]
      exact h.even (cut m q parent)

end LiveMarkup.Dom.Forest

namespace LiveMarkup.Live
open Dom (Forest)

variable {I : World → Prop} {body : NodeId → Prop} {w w₁ w₂ w' : World} {n m p : NodeId}
  {visits : List (NodeId × Bool)} {depth fuel : Nat} {l out into : List NodeId}

/-- Nodes have moved, and then the trees of those that have were switched, away from below `p` and to
where it is. -/
theorem Switched.inPlace {moved : World} (h : w.nodes.InPlace body)
    (moves : Forest.Moved w.nodes moved.nodes out p into)
    (aside : ∀ r ∈ out ++ into, ¬ moved.nodes.Under r p) (left : ∀ n ∈ out, ¬ body n)
    (free : ∀ c ∈ into, ¬ body c)
    (s : Switched (out.map (fun n => (n, false)) ++
      into.map fun c => (c, (moved.nodes.get p).connected)) moved visits w') :
    w'.nodes.InPlace body := by
  let roots := out.map (fun n => (n, false)) ++
    into.map fun c => (c, (moved.nodes.get p).connected)
  have mem : ∀ x ∈ roots, x.1 ∈ out ∧ x.2 = false ∨
      x.1 ∈ into ∧ x.2 = (moved.nodes.get p).connected := by
    intro x hx
    rcases List.mem_append.1 hx with hx | hx
    · obtain ⟨n, hn, rfl⟩ := List.mem_map.1 hx
      exact .inl ⟨hn, rfl⟩
    · obtain ⟨c, hc, rfl⟩ := List.mem_map.1 hx
      exact .inr ⟨hc, rfl⟩
  have outs : ∀ n ∈ out, (n, false) ∈ roots :=
    fun n hn => List.mem_append_left _ (List.mem_map_of_mem hn)
  have intos : ∀ c ∈ into, (c, (moved.nodes.get p).connected) ∈ roots :=
    fun c hc => List.mem_append_right _ (List.mem_map_of_mem hc)
  have beside : ∀ x ∈ roots, ¬ moved.nodes.Under x.1 p := by
    intro x hx
    refine aside x.1 (List.mem_append.2 ?_)
    exact (mem x hx).imp And.left And.left
  have flag : ∀ m, (moved.nodes.get m).connected = (w.nodes.get m).connected :=
    moves.relinked.connected
  have size : w.nodes.size ≤ w'.nodes.size := moves.relinked.size ▸ s.links.size
  refine .of_links (moves.linked.extended s.links) (fun n hn => Nat.lt_of_lt_of_le (h.known n hn) size)
    (fun n hn => ?_) (fun n orphan => ?_) fun m q parent => ?_
  · rw [s.links.parent, moves.other n (fun hm => left n hm hn) fun hm => free n hm hn]
    exact h.top n hn
  · rw [s.links.parent] at orphan
    have stays : n ∉ into := by
      intro hn
      rw [moves.below n hn] at orphan
      cases orphan
    by_cases hn : n ∈ out
    · rw [s.inside _ (outs n hn) n .here]
      exact ⟨nofun, fun hb => absurd hb (left n hn)⟩
    · rw [s.outside n fun x hx under => ?_, flag]
      · exact h.root ((moves.other n hn stays).symm.trans orphan)
      · have top := under.eq_of_root orphan
        rcases mem x hx with ⟨here, -⟩ | ⟨here, -⟩
        · exact hn (top ▸ here)
        · exact stays (top ▸ here)
  · rw [s.links.parent] at parent
    by_cases hm : m ∈ into
    · obtain rfl : p = q := Option.some.inj ((moves.below m hm).symm.trans parent)
      rw [s.inside _ (intos m hm) m .here, s.outside p beside]
    · have away : m ∉ out := by
        intro hn
        rw [moves.left m hn] at parent
        cases parent
      have even : (moved.nodes.get m).connected = (moved.nodes.get q).connected := by
        rw [flag, flag]
        exact h.even ((moves.other m away hm).symm.trans parent)
      by_cases below : ∃ x ∈ roots, moved.nodes.Under x.1 q
      · obtain ⟨x, hx, under⟩ := below
        rw [s.inside x hx m (.up parent under), s.inside x hx q under]
      · have none : ∀ x ∈ roots, ¬ moved.nodes.Under x.1 q :=
          fun x hx under => below ⟨x, hx, under⟩
        rw [s.outside m fun x hx under => none x hx (under.of_child ?_ parent), s.outside q none,
          even]
        rintro rfl
        rcases mem x hx with ⟨here, -⟩ | ⟨here, -⟩
        · exact away here
        · exact hm here

/-- Callbacks leave the tree alone, and every node is connected if it is below a body. All nodes that
have a parent are in `l`. -/
structure InOrder (I : World → Prop) (body : NodeId → Prop) (l : List NodeId) (w : World) : Prop where
  holds : I w
  place : w.nodes.InPlace body
  covered : ∀ m q, (w.nodes.get m).parent = some q → m ∈ l

/-- The nodes in `out` have lost their parents, those in `into` have come below `p`, and all others are
where they were. -/
structure Shifted (out : List NodeId) (p : NodeId) (into : List NodeId) (w w' : World) : Prop where
  size : w.nodes.size ≤ w'.nodes.size
  isFragment : ∀ n, n.index < w.nodes.size →
    (w'.nodes.get n).isFragment = (w.nodes.get n).isFragment
  left : ∀ n ∈ out, (w'.nodes.get n).parent = none
  below : ∀ c ∈ into, (w'.nodes.get c).parent = some p
  other : ∀ m, m ∉ out → m ∉ into → (w'.nodes.get m).parent = (w.nodes.get m).parent

/-- What an operation comes to that moves nodes: everything is in order again, and the callbacks of the
nodes that are connected no longer, or newly, have run. -/
structure Carried (I : World → Prop) (body : NodeId → Prop) (l out : List NodeId) (p : NodeId)
    (into : List NodeId) (w w' : World) : Prop where
  order : InOrder I body l w'
  shifted : Shifted out p into w w'
  performed : ∃ visits, Performed (out ++ into) w visits w'

section
variable (order : InOrder I body l w) {moved : World}
  (moves : Forest.Moved w.nodes moved.nodes out p into)
include order moves

theorem covered_moved (mem : ∀ c ∈ into, c ∈ l) {q : NodeId}
    (parent : (moved.nodes.get m).parent = some q) : m ∈ l := by
  by_cases hm : m ∈ into
  · exact mem m hm
  · have away : m ∉ out := by
      intro hn
      rw [moves.left m hn] at parent
      cases parent
    exact order.covered m q ((moves.other m away hm).symm.trans parent)

theorem switchable_moved (mem : ∀ c ∈ into, c ∈ l) (hn : n ∈ l) (known : n.index < w.nodes.size)
    (aside : ¬ moved.nodes.Under n p) : Switchable l moved.nodes n where
  known := moves.relinked.size ▸ known
  uniform := order.place.uniform_moved moves aside
  covered m under := by
    cases under with
    | here => exact hn
    | up parent _ => exact covered_moved order moves mem parent

theorem Switched.carried (mem : ∀ c ∈ into, c ∈ l)
    (aside : ∀ r ∈ out ++ into, ¬ moved.nodes.Under r p) (left : ∀ n ∈ out, ¬ body n)
    (free : ∀ c ∈ into, ¬ body c) (same : moved = { w with nodes := moved.nodes }) (holds : I w')
    (s : Switched (out.map (fun n => (n, false)) ++
      into.map fun c => (c, (moved.nodes.get p).connected)) moved visits w') :
    Carried I body l out p into w w' where
  order :=
    { holds
      place := s.inPlace order.place moves aside left free
      covered := fun m q parent => covered_moved order moves mem (s.links.parent m ▸ parent) }
  shifted :=
    { size := moves.relinked.size ▸ s.links.size
      isFragment := fun n known =>
        (s.links.isFragment n (moves.relinked.size ▸ known)).trans
          (Forest.Linked.relinked_whole moves.relinked n)
      left := fun n hn => (s.links.parent n).trans (moves.left n hn)
      below := fun c hc => (s.links.parent c).trans (moves.below c hc)
      other := fun m hn hm => (s.links.parent m).trans (moves.other m hn hm) }
  performed := by
    have performed := s.toPerformed
    rw [same] at performed
    simp only [List.map_append, List.map_map, Function.comp_def, List.map_id'] at performed
    exact ⟨visits, performed.after_move moves.relinked.connected⟩

end

theorem Shifted.sameBelow {r : NodeId} (h : Shifted out p into w w')
    (apart : ∀ m ∈ out ++ into, w.nodes.Under r m → m = r) : w.nodes.SameBelow w'.nodes r := by
  intro m under ne
  have stays : m ∉ out ++ into := fun hm => ne (apart m hm under)
  obtain ⟨hn, hm⟩ := not_or.1 (mt List.mem_append.2 stays)
  exact h.other m hn hm

theorem Performed.mono {roots roots' : List NodeId} (h : Performed roots w visits w')
    (sub : ∀ r ∈ roots, r ∈ roots') : Performed roots' w visits w' :=
  ⟨h.course, h.turned, h.ordered, fun x hx =>
    let ⟨r, hr, under⟩ := h.within x hx
    ⟨r, sub r hr, under⟩⟩

namespace Carried
variable {l₁ l₂ out₁ out₂ into₁ into₂ : List NodeId}

theorem refl (order : InOrder I body l w) : Carried I body l [] p [] w w where
  order := order
  shifted := ⟨Nat.le_refl _, fun _ _ => rfl, fun _ hn => (List.not_mem_nil hn).elim,
    fun _ hc => (List.not_mem_nil hc).elim, fun _ _ _ => rfl⟩
  performed := by
    have nothing : Switched [] w [] w := .nothing fun _ hx => (List.not_mem_nil hx).elim
    exact ⟨[], nothing.toPerformed⟩

/-- Operations one after another, where what was moved by the first is apart from what is moved by the
second. -/
theorem trans (h₁ : Carried I body l₁ out₁ p into₁ w w₁) (h₂ : Carried I body l₂ out₂ p into₂ w₁ w₂)
    (stay : ∀ r ∈ out₁ ++ into₁, ∀ m ∈ out₂ ++ into₂, w₁.nodes.Under r m → m = r)
    (apart : w₂.nodes.Apart ((out₁ ++ into₁) ++ (out₂ ++ into₂))) :
    Carried I body l₂ (out₁ ++ out₂) p (into₁ ++ into₂) w w₂ := by
  have between : ∀ r ∈ out₁ ++ into₁, r ∉ out₂ ++ into₂ := fun r hr hs =>
    ((List.pairwise_append.1 apart).2.2 r hr r hs).1 .here
  have first := h₁.shifted
  have second := h₂.shifted
  have later : ∀ r ∈ out₁ ++ into₁, (w₂.nodes.get r).parent = (w₁.nodes.get r).parent := by
    intro r hr
    obtain ⟨hn, hm⟩ := not_or.1 (mt List.mem_append.2 (between r hr))
    exact second.other r hn hm
  refine ⟨h₂.order, ⟨Nat.le_trans first.size second.size, fun n known => ?_, fun n hn => ?_,
    fun c hc => ?_, fun m hn hm => ?_⟩, ?_⟩
  · exact (second.isFragment n (Nat.lt_of_lt_of_le known first.size)).trans (first.isFragment n known)
  · rcases List.mem_append.1 hn with hn | hn
    · rw [later n (List.mem_append_left _ hn)]
      exact first.left n hn
    · exact second.left n hn
  · rcases List.mem_append.1 hc with hc | hc
    · rw [later c (List.mem_append_right _ hc)]
      exact first.below c hc
    · exact second.below c hc
  · obtain ⟨hn₁, hn₂⟩ := not_or.1 (mt List.mem_append.2 hn)
    obtain ⟨hm₁, hm₂⟩ := not_or.1 (mt List.mem_append.2 hm)
    exact (second.other m hn₂ hm₂).trans (first.other m hn₁ hm₁)
  · obtain ⟨visits₁, performed₁⟩ := h₁.performed
    obtain ⟨visits₂, performed₂⟩ := h₂.performed
    refine ⟨visits₁ ++ visits₂, (performed₁.append performed₂ h₂.order.place.linked
      (fun r hr => second.sameBelow (stay r hr)) apart).mono fun r hr => ?_⟩
    simp only [List.mem_append] at hr ⊢
    grind

/-- Before the operation nodes were made or taken out of their places, all of which it moves. -/
theorem after {nodes : Forest} (h : Carried I body l out p into { w with nodes } w')
    (size : w.nodes.size ≤ nodes.size)
    (isFragment : ∀ n, n.index < w.nodes.size → (nodes.get n).isFragment = (w.nodes.get n).isFragment)
    (connected : ∀ m, (nodes.get m).connected = (w.nodes.get m).connected)
    (other : ∀ m, m ∉ out → m ∉ into → (nodes.get m).parent = (w.nodes.get m).parent) :
    Carried I body l out p into w w' where
  order := h.order
  shifted :=
    { size := Nat.le_trans size h.shifted.size
      isFragment := fun n known =>
        (h.shifted.isFragment n (Nat.lt_of_lt_of_le known size)).trans (isFragment n known)
      left := h.shifted.left
      below := h.shifted.below
      other := fun m hn hm => (h.shifted.other m hn hm).trans (other m hn hm) }
  performed := by
    obtain ⟨visits, performed⟩ := h.performed
    exact ⟨visits, performed.after_move connected⟩

end Carried

section
variable (passive : Passive I)
include passive

/-- As much fuel as callbacks need, and one for each node. -/
def Enough (I : World → Prop) (depth : Nat) (l : List NodeId) (fuel : Nat) : Prop :=
  Prompt I depth ∧ depth + l.length ≤ fuel

omit passive in
theorem Enough.connect {b : Bool} (h : Enough I depth l fuel) (f : Forest) :
    Prompt I depth ∧ depth + unsettled l f b ≤ fuel :=
  ⟨h.1, Nat.le_trans (Nat.add_le_add_left List.countP_le_length depth) h.2⟩

theorem InOrder.enlarged (h : InOrder I body l w) {nodes : Forest} (g : w.nodes.Enlarged nodes) :
    InOrder I body l { w with nodes } :=
  ⟨passive.moves w nodes h.holds, h.place.enlarged g,
    fun m q parent => h.covered m q (g.parent m ▸ parent)⟩

theorem appendOne_carried (order : InOrder I body l w) (mem : n ∈ l)
    (known : n.index < w.nodes.size) (hp : p.index < w.nodes.size)
    (whole : (w.nodes.get n).isFragment = false) (apart : ¬ w.nodes.Under n p) (free : ¬ body n) :
    Sure (Enough I depth l fuel) (exec fuel) (Mount.appendOne p n) w fun _ w' =>
      Carried I body l [] p [n] w w' := by
  have moves := Forest.Moved.attach order.place.linked known hp whole apart
  let moved : World := { w with nodes := (w.nodes.detach n).attach p n }
  have mem' : ∀ c ∈ [n], c ∈ l := by simpa using mem
  have aside : ∀ r ∈ [] ++ [n], ¬ moved.nodes.Under r p := fun r hr =>
    moves.aside order.place.linked (fun _ hn => (List.not_mem_nil hn).elim) hr
  refine Sure.bind (Q := fun _ w' => w' = moved) (.of_eq rfl rfl) ?_
  rintro _ _ rfl
  refine Sure.get_bind ?_
  have switched := connect_run passive depth l (moved.nodes.get p).connected fuel moved n
    (passive.moves w _ order.holds) moves.linked
    (switchable_moved order moves mem' mem known (aside n (List.mem_singleton_self n)))
  refine (switched.weaken fun enough => enough.connect _).mono ?_
  rintro _ w' ⟨holds, visits, s⟩
  exact Switched.carried order moves mem' aside (by simp) (by simpa using free) rfl holds s

theorem remove_carried (order : InOrder I body l w) {q : NodeId}
    (parent : (w.nodes.get n).parent = some q) :
    Sure (Enough I depth l fuel) (exec fuel) (Mount.remove n) w fun _ w' =>
      Carried I body l [n] q [] w w' := by
  have moves : Forest.Moved w.nodes (w.nodes.detach n) [n] q [] := .detach order.place.linked n
  let moved : World := { w with nodes := w.nodes.detach n }
  have aside : ∀ r ∈ [n] ++ [], ¬ moved.nodes.Under r q := fun r hr =>
    moves.aside order.place.linked (by simpa using parent) hr
  have left : ¬ body n := by
    intro hb
    rw [order.place.top n hb] at parent
    cases parent
  refine Sure.get_bind ?_
  rw [parent]
  refine Sure.bind (Q := fun _ w' => w' = moved) (.of_eq rfl rfl) ?_
  rintro _ _ rfl
  have switched := connect_run passive depth l false fuel moved n
    (passive.moves w _ order.holds) moves.linked
    (switchable_moved order moves (by simp) (order.covered n q parent)
      (Forest.Linked.known parent) (aside n (List.mem_singleton_self n)))
  refine (switched.weaken fun enough => enough.connect _).mono ?_
  rintro _ w' ⟨holds, visits, s⟩
  exact Switched.carried order moves (by simp) aside (by simpa using left) (by simp) rfl holds s

/-- One after another: those that are left have no parent yet. By induction on their list. -/
theorem appendAll_carried (order : InOrder I body l w) (hp : p.index < w.nodes.size)
    {roots : List NodeId} (mem : ∀ c ∈ roots, c ∈ l) (known : ∀ c ∈ roots, c.index < w.nodes.size)
    (whole : ∀ c ∈ roots, (w.nodes.get c).isFragment = false)
    (apart : ∀ c ∈ roots, ¬ w.nodes.Under c p) (free : ∀ c ∈ roots, ¬ body c) (once : roots.Nodup)
    (orphans : ∀ c ∈ roots.tail, (w.nodes.get c).parent = none) :
    Sure (Enough I depth l fuel) (exec fuel) (roots.forM (Mount.appendOne p)) w fun _ w' =>
      Carried I body l [] p roots w w' := by
  induction roots generalizing w with
  | nil => exact .pure (.refl order)
  | cons n roots ih =>
    obtain ⟨memHere, mem⟩ := List.forall_mem_cons.1 mem
    obtain ⟨knownHere, known⟩ := List.forall_mem_cons.1 known
    obtain ⟨wholeHere, whole⟩ := List.forall_mem_cons.1 whole
    obtain ⟨apartHere, apart⟩ := List.forall_mem_cons.1 apart
    obtain ⟨freeHere, free⟩ := List.forall_mem_cons.1 free
    obtain ⟨new, once'⟩ := List.nodup_cons.1 once
    refine (appendOne_carried passive order memHere knownHere hp wholeHere apartHere freeHere).bind ?_
    intro _ w₁ first
    have shifted := first.shifted
    have other : ∀ m, m ≠ n → (w₁.nodes.get m).parent = (w.nodes.get m).parent :=
      fun m hm => shifted.other m List.not_mem_nil (by simpa using hm)
    have orphans₁ : ∀ c ∈ roots, (w₁.nodes.get c).parent = none := fun c hc =>
      (other c fun eq => new (eq ▸ hc)).trans (orphans c hc)
    have elsewhere : ∀ m, m ∉ [n] → (w₁.nodes.get m).parent = (w.nodes.get m).parent :=
      fun m hm => other m (by simpa using hm)
    have apart₁ : ∀ c ∈ roots, ¬ w₁.nodes.Under c p := fun c hc under =>
      apart c hc (under.of_below elsewhere (by simpa using apartHere))
    refine (ih first.order (Nat.lt_of_lt_of_le hp shifted.size) mem
      (fun c hc => Nat.lt_of_lt_of_le (known c hc) shifted.size)
      (fun c hc => (shifted.isFragment c (known c hc)).trans (whole c hc)) apart₁ free once'
      fun c hc => orphans₁ c (List.mem_of_mem_tail hc)).mono ?_
    intro _ w₂ rest
    have below : ∀ c ∈ n :: roots, (w₂.nodes.get c).parent = some p := by
      intro c hc
      rcases List.mem_cons.1 hc with rfl | hc
      · rw [rest.shifted.other c List.not_mem_nil new]
        exact shifted.below c (List.mem_singleton_self c)
      · exact rest.shifted.below c hc
    refine first.trans rest (fun r _ m hm under => ?_)
      (rest.order.place.linked.apart_of_siblings once below)
    exact (under.eq_of_root (orphans₁ m (by simpa using hm))).symm

/-- A node, or the children of a fragment. -/
theorem append_carried (order : InOrder I body l w)
    (mem : ∀ c ∈ (w.nodes.takeForInsertion n).1, c ∈ l) (hp : p.index < w.nodes.size)
    (hn : n.index < w.nodes.size) (free : ¬ body n)
    (apart : ∀ c ∈ (w.nodes.takeForInsertion n).1, ¬ w.nodes.Under c p) :
    Sure (Enough I depth l fuel) (exec fuel) (Mount.append p n) w fun _ w' =>
      Carried I body l [] p (w.nodes.takeForInsertion n).1 w w' := by
  have gathered := Forest.Gathered.takeForInsertion order.place.linked hn
  let w₁ : World := { w with nodes := (w.nodes.takeForInsertion n).2 }
  have size : w₁.nodes.size = w.nodes.size := gathered.relinked.size
  have isFragment : ∀ m, (w₁.nodes.get m).isFragment = (w.nodes.get m).isFragment :=
    Forest.Linked.relinked_whole gathered.relinked
  have cut : ∀ m q, (w₁.nodes.get m).parent = some q → (w.nodes.get m).parent = some q := by
    intro m q parent
    rcases gathered.cut m with same | none
    · exact same ▸ parent
    · rw [none] at parent
      cases parent
  have order₁ : InOrder I body l w₁ := ⟨passive.moves w _ order.holds, order.place.takeForInsertion free,
    fun m q parent => order.covered m q (cut m q parent)⟩
  have taken : (w.nodes.takeForInsertion n).1.Nodup ∧
      (∀ c ∈ (w.nodes.takeForInsertion n).1, ¬ body c) ∧
        ∀ c ∈ (w.nodes.takeForInsertion n).1.tail, (w₁.nodes.get c).parent = none := by
    cases fragment : (w.nodes.get n).isFragment with
    | false =>
      rw [Forest.takeForInsertion_other fragment]
      exact ⟨List.pairwise_singleton _ n, by simpa using free, fun c hc => (List.not_mem_nil hc).elim⟩
    | true =>
      have children : (w.nodes.takeForInsertion n).1 = (w.nodes.get n).children := by
        rw [Forest.takeForInsertion_fragment fragment]
      rw [children]
      refine ⟨order.place.linked.nodup n, fun c hc hb => ?_, fun c hc =>
        Forest.parent_takeForInsertion_of_mem fragment (List.mem_of_mem_tail hc)⟩
      have parent := (order.place.linked.child n c).1 hc
      rw [order.place.top c hb] at parent
      cases parent
  obtain ⟨once, freed, orphans⟩ := taken
  refine Sure.bind (Q := fun l w' => l = (w.nodes.takeForInsertion n).1 ∧ w' = w₁)
    (.of_eq rfl ⟨rfl, rfl⟩) ?_
  rintro _ _ ⟨rfl, rfl⟩
  refine (appendAll_carried passive order₁ (size ▸ hp) mem
    (fun c hc => size ▸ gathered.known c hc)
    (fun c hc => (isFragment c).trans (gathered.whole c hc))
    (fun c hc under => apart c hc (under.mono cut)) freed once orphans).mono fun _ w' carried => ?_
  exact carried.after (Nat.le_of_eq size.symm) (fun m _ => isFragment m) gathered.relinked.connected
    fun m _ hm => gathered.parent m hm

/-- The nodes in a list, all of which are below `p`. By induction on the list: once one has left, no
other is below it. -/
theorem removeAll_carried (order : InOrder I body l w) {roots : List NodeId} (once : roots.Nodup)
    (below : ∀ c ∈ roots, (w.nodes.get c).parent = some p) :
    Sure (Enough I depth l fuel) (exec fuel) (roots.forM Mount.remove) w fun _ w' =>
      Carried I body l roots p [] w w' := by
  induction roots generalizing w with
  | nil => exact .pure (.refl order)
  | cons n roots ih =>
    obtain ⟨here, below⟩ := List.forall_mem_cons.1 below
    obtain ⟨new, once'⟩ := List.nodup_cons.1 once
    refine (remove_carried passive order here).bind fun _ w₁ first => ?_
    have other : ∀ m, m ≠ n → (w₁.nodes.get m).parent = (w.nodes.get m).parent :=
      fun m hm => first.shifted.other m (by simpa using hm) List.not_mem_nil
    have below₁ : ∀ c ∈ roots, (w₁.nodes.get c).parent = some p := fun c hc =>
      (other c fun eq => new (eq ▸ hc)).trans (below c hc)
    refine (ih first.order once' below₁).mono fun _ w₂ rest => ?_
    have orphan : (w₁.nodes.get n).parent = none :=
      first.shifted.left n (List.mem_singleton_self n)
    have left : ∀ c ∈ n :: roots, (w₂.nodes.get c).parent = none := by
      intro c hc
      rcases List.mem_cons.1 hc with rfl | hc
      · rw [rest.shifted.other c new List.not_mem_nil]
        exact orphan
      · exact rest.shifted.left c hc
    refine first.trans rest (fun r hr m hm under => ?_) (by simpa using Forest.Apart.of_roots once left)
    obtain rfl : r = n := by simpa using hr
    have hm : m ∈ roots := by simpa using hm
    cases under with
    | here => rfl
    | @up _ q parent above =>
      obtain rfl : p = q := Option.some.inj ((below₁ m hm).symm.trans parent)
      have above' : w.nodes.Under r p := above.mono fun a b hab => by
        rwa [← other a fun eq => by
          rw [eq, orphan] at hab
          cases hab]
      exact absurd above' (order.place.linked.acyclic here)

/-- The node leaves its place first, and then those that have come there are switched. -/
theorem replace_carried (order : InOrder I body l w) (all : ∀ m, m.index < w.nodes.size → m ∈ l)
    (parent : (w.nodes.get n).parent = some p) {replacements : List NodeId}
    (known : ∀ r ∈ replacements, r.index < w.nodes.size) (free : ∀ r ∈ replacements, ¬ body r)
    (once : (w.nodes.takeAll (replacements.filter (· != n))).1.Nodup)
    (apart : ∀ r ∈ replacements, r ≠ n → ¬ w.nodes.Under r p) :
    Sure (Enough I depth l fuel) (exec fuel) (Mount.replace n replacements) w fun _ w' =>
      Carried I body l [n] p (w.nodes.takeAll (replacements.filter (· != n))).1 w w' := by
  let incoming := (w.nodes.takeAll (replacements.filter (· != n))).1
  let moved : World := { w with nodes := (w.nodes.splice n replacements).1 }
  obtain ⟨spliced, moves⟩ : _ ∧ Forest.Moved w.nodes moved.nodes [n] p incoming :=
    Forest.Moved.splice order.place.linked parent known once apart
  have taken := Forest.Gathered.takeAll order.place.linked (l := replacements.filter (· != n))
    fun r hr => known r (List.mem_filter.1 hr).1
  have mem : ∀ c ∈ incoming, c ∈ l := fun c hc => all c (taken.known c hc)
  have left : ∀ m ∈ [n], ¬ body m := by
    intro m hm hb
    obtain rfl := List.mem_singleton.1 hm
    rw [order.place.top m hb] at parent
    cases parent
  have freed : ∀ c ∈ incoming, ¬ body c := by
    intro c hc hb
    obtain ⟨r, hr, rfl | above⟩ := taken.source c hc
    · exact free c (List.mem_filter.1 hr).1 hb
    · rw [order.place.top c hb] at above
      cases above
  have aside : ∀ r ∈ [n] ++ incoming, ¬ moved.nodes.Under r p := fun r hr =>
    moves.aside order.place.linked (by simpa using parent) hr
  have orphan : (moved.nodes.get n).parent = none := moves.left n (List.mem_singleton_self n)
  -- The node that has left is on top, and what has come in is below `p`.
  have asideN : ∀ c ∈ incoming, ¬ moved.nodes.Under n c ∧ ¬ moved.nodes.Under c n := by
    intro c hc
    refine ⟨fun under => ?_, fun under => ?_⟩
    · cases under with
      | here =>
        rw [moves.below n hc] at orphan
        cases orphan
      | @up _ q parent' above =>
        obtain rfl : p = q := Option.some.inj ((moves.below c hc).symm.trans parent')
        exact aside n List.mem_cons_self above
    · rw [← under.eq_of_root orphan, moves.below c hc] at orphan
      cases orphan
  have siblings : moved.nodes.Apart incoming := moves.linked.apart_of_siblings once moves.below
  have switchable : ∀ r ∈ [n] ++ incoming, r ∈ l → r.index < w.nodes.size →
      Switchable l moved.nodes r :=
    fun r hr memR knownR => switchable_moved order moves mem memR knownR (aside r hr)
  refine Sure.bind (Q := fun s w' => s = some (p, incoming) ∧ w' = moved) (.of_eq rfl ⟨spliced, rfl⟩) ?_
  rintro _ _ ⟨rfl, rfl⟩
  have out := connect_run passive depth l false fuel moved n (passive.moves w _ order.holds) moves.linked
    (switchable n List.mem_cons_self (order.covered n p parent) (Forest.Linked.known parent))
  refine (out.weaken fun enough => enough.connect _).bind ?_
  rintro _ w₁ ⟨holds₁, visits₁, first⟩
  refine Sure.get_bind ?_
  have same : Mount.isConnected w₁ p = (moved.nodes.get p).connected := by
    refine first.outside p fun x hx => ?_
    cases List.mem_singleton.1 hx
    exact aside n List.mem_cons_self
  have switchable₁ : ∀ c ∈ incoming, Switchable l w₁.nodes c := by
    intro c hc
    refine (switchable c (List.mem_cons_of_mem n hc) (mem c hc) (taken.known c hc)).elsewhere first
      fun x hx => ?_
    cases List.mem_singleton.1 hx
    exact asideN c hc
  have siblings₁ : w₁.nodes.Apart incoming := siblings.imp fun ⟨hrs, hsr⟩ =>
    ⟨mt first.links.under.1 hrs, mt first.links.under.1 hsr⟩
  have each := (connect_run passive depth l (Mount.isConnected w₁ p) fuel).each
    (fun le ⟨prompt, enough⟩ => ⟨prompt, by omega⟩) holds₁ (moves.linked.extended first.links)
    switchable₁ siblings₁
  refine (each.weaken fun enough => enough.connect _).mono ?_
  rintro _ w₂ ⟨holds₂, visits₂, second⟩
  rw [same] at second
  have whole : moved.nodes.Apart (n :: incoming) := List.pairwise_cons.2 ⟨asideN, siblings⟩
  exact Switched.carried order moves mem aside left freed rfl holds₂
    (first.append second moves.linked (by simpa [Function.comp_def] using whole))

omit passive in
/-- The children of a node that have left it, and one that has come instead. -/
theorem apart_of_text {t : NodeId} (linked : w.nodes.Linked)
    (first : Shifted (w.nodes.get n).children n [] w w₁) (second : Shifted [] n [t] w₁ w₂)
    (new : t ∉ (w.nodes.get n).children) (apart : ∀ c ∈ [t], ¬ w₁.nodes.Under c n) :
    w₂.nodes.Apart ((w.nodes.get n).children ++ [t]) := by
  have other : ∀ m, m ∉ [t] → (w₂.nodes.get m).parent = (w₁.nodes.get m).parent :=
    fun m hm => second.other m List.not_mem_nil hm
  have orphan : ∀ c ∈ (w.nodes.get n).children, (w₂.nodes.get c).parent = none := by
    intro c hc
    rw [other c fun eq => new (List.mem_singleton.1 eq ▸ hc)]
    exact first.left c hc
  refine List.pairwise_append.2 ⟨Forest.Apart.of_roots (linked.nodup n) orphan, List.pairwise_singleton _ t,
    fun c hc s hs => ?_⟩
  obtain rfl := List.mem_singleton.1 hs
  refine ⟨fun under => ?_, fun under => new (under.eq_of_root (orphan c hc) ▸ hc)⟩
  cases under with
  | here => exact new hc
  | @up _ q parent above =>
    obtain rfl : n = q := Option.some.inj ((second.below s hs).symm.trans parent)
    have above₁ : w₁.nodes.Under c n := above.of_below other apart
    refine linked.acyclic ((linked.child n c).1 hc) (above₁.mono fun m q hq => ?_)
    by_cases hm : m ∈ (w.nodes.get n).children
    · rw [first.left m hm] at hq
      cases hq
    · exact first.other m hm List.not_mem_nil ▸ hq

/-- The children leave, and a new text comes, which is apart from them all. -/
theorem setText_carried (order : InOrder I body l w) (hn : n.index < w.nodes.size) (text : String)
    (length : l.length ≤ w.nodes.size) :
    Sure (Prompt I depth ∧ depth + w.nodes.size < fuel) (exec fuel) (Mount.setText n text) w
      fun _ w' => ∃ l out into, Carried I body l out n into w w' := by
  have data : Sure (Prompt I depth ∧ depth + w.nodes.size < fuel) (exec fuel)
      (Mount.setData n text) w fun _ w' => ∃ l out into, Carried I body l out n into w w' := by
    have enlarged := Forest.Enlarged.withData (f := w.nodes) n text
    refine .of_eq rfl ⟨l, [], [], (Carried.refl (order.enlarged passive enlarged)).after enlarged.size
      enlarged.isFragment enlarged.connected fun m _ _ => enlarged.parent m⟩
  have children : Sure (Prompt I depth ∧ depth + w.nodes.size < fuel) (exec fuel) (do
      (w.nodes.get n).children.forM Mount.remove
      Mount.append n (← onNodes (·.create (.text text)))) w
      fun _ w' => ∃ l out into, Carried I body l out n into w w' := by
    have linked := order.place.linked
    have removed : Sure (Enough I depth l fuel) (exec fuel)
        ((w.nodes.get n).children.forM Mount.remove) w fun _ w' =>
          Carried I body l (w.nodes.get n).children n [] w w' :=
      removeAll_carried passive order (linked.nodup n) fun c hc => (linked.child n c).1 hc
    refine (removed.weaken fun ⟨prompt, lt⟩ => ⟨prompt, by omega⟩).bind fun _ w₁ first => ?_
    have size₁ := first.shifted.size
    let t := w₁.nodes.next
    let w₂ : World := { w₁ with nodes := (w₁.nodes.create (.text text)).2 }
    have enlarged : w₁.nodes.Enlarged w₂.nodes := Forest.Enlarged.create w₁.nodes (.text text)
    have unknown : (w₁.nodes.get t).parent = none := by rw [Heap.get_next]; rfl
    have size₂ : w₂.nodes.size = w₁.nodes.size + 1 := Forest.size_create _
    have order₂ : InOrder I body (t :: l) w₂ :=
      { first.order.enlarged passive enlarged with
        covered := fun m q parent => List.mem_cons_of_mem t
          (first.order.covered m q (enlarged.parent m ▸ parent)) }
    have new : w₂.nodes.get t = .alone (.text text) := Forest.get_create_next _
    have whole : (w₂.nodes.get t).isFragment = false := by
      rw [new]
      rfl
    have itself : (w₂.nodes.takeForInsertion t).1 = [t] := by
      rw [Forest.takeForInsertion_other whole]
    have free : ¬ body t := fun hb => Nat.lt_irrefl _ (first.order.place.known t hb)
    have ne : n ≠ t := by
      intro eq
      rw [eq] at hn
      exact Nat.lt_irrefl _ (Nat.lt_of_lt_of_le hn size₁)
    have fresh : t ∉ (w.nodes.get n).children := by
      intro mem
      have known := Forest.Linked.known ((linked.child n t).1 mem)
      exact Nat.lt_irrefl _ (Nat.lt_of_lt_of_le known size₁)
    have apart : ∀ c ∈ [t], ¬ w₂.nodes.Under c n := by
      intro c hc under
      obtain rfl := List.mem_singleton.1 hc
      refine ne (under.eq_of_childless fun m parent => ?_)
      have mem := (order₂.place.linked.child _ m).2 parent
      rw [new] at mem
      exact List.not_mem_nil mem
    refine Sure.bind (Q := fun c w' => c = t ∧ w' = w₂) (.of_eq rfl ⟨rfl, rfl⟩) ?_
    rintro _ _ ⟨rfl, rfl⟩
    have appended : Sure (Enough I depth (t :: l) fuel) (exec fuel) (Mount.append n t) w₂
        fun _ w' => Carried I body (t :: l) [] n (w₂.nodes.takeForInsertion t).1 w₂ w' :=
      append_carried passive order₂ (by rw [itself]; simp) (by omega)
        (by rw [size₂]; exact Nat.lt_succ_self _) free (by rw [itself]; exact apart)
    have fueled : Prompt I depth ∧ depth + w.nodes.size < fuel → Enough I depth (t :: l) fuel :=
      fun ⟨prompt, lt⟩ => ⟨prompt, by rw [List.length_cons]; omega⟩
    refine (appended.weaken fueled).mono fun _ w₃ second => ?_
    rw [itself] at second
    have second := second.after enlarged.size enlarged.isFragment enlarged.connected
      fun m _ _ => enlarged.parent m
    refine ⟨_, _, _, first.trans second (fun r _ m hm under => ?_) ?_⟩
    · obtain rfl : m = t := by simpa using hm
      exact (under.eq_of_root unknown).symm
    · have apart₁ : ∀ c ∈ [t], ¬ w₁.nodes.Under c n := fun c hc under =>
        apart c hc (enlarged.toExtended.under.2 under)
      have apart₃ := apart_of_text linked first.shifted second.shifted fresh apart₁
      simpa using apart₃
  refine Sure.get_bind ?_
  dsimp only
  cases (w.nodes.get n).content with
  | text _ => exact data
  | comment _ => exact data
  | fragment => exact children
  | element _ => exact children

end

/-! Operations. -/

/-- An operation that moves nodes. -/
inductive Rearrangement where
  | append (p n : NodeId)
  | remove (n : NodeId)
  | replace (n : NodeId) (replacements : List NodeId)
  | setText (n : NodeId) (text : String)

namespace Rearrangement

/-- What is done. -/
def run : Rearrangement → Op Unit
  | .append p n => Mount.append p n
  | .remove n => Mount.remove n
  | .replace n replacements => Mount.replace n replacements
  | .setText n text => Mount.setText n text

/-- The operation names nodes that there are. It moves no body, inserts no node under itself, and the
replacements for a node yield no node twice. A fragment may be appended to itself, where its children
come last again, but it is not to replace a node that is in it. -/
def Fair (body : NodeId → Prop) (f : Forest) : Rearrangement → Prop
  | .append p n => p.index < f.size ∧ n.index < f.size ∧ ¬ body n ∧
    ∀ c ∈ (f.takeForInsertion n).1, ¬ f.Under c p
  | .remove _ => True
  | .replace n replacements => (∀ r ∈ replacements, r.index < f.size ∧ ¬ body r) ∧
    (f.takeAll (replacements.filter (· != n))).1.Nodup ∧
    ∀ p, (f.get n).parent = some p → ∀ r ∈ replacements, r ≠ n → ¬ f.Under r p
  | .setText n _ => n.index < f.size

end Rearrangement

theorem replace_orphan {replacements : List NodeId} (orphan : (w.nodes.get n).parent = none)
    (run : Runner) : Mount.replace n replacements run w = .ok ((), w) := by
  have spliced : onNodes (fun f => ((f.splice n replacements).2, (f.splice n replacements).1)) run w =
      .ok ((w.nodes.splice n replacements).2,
        { w with nodes := (w.nodes.splice n replacements).1 }) := rfl
  rw [Forest.splice_orphan orphan] at spliced
  unfold Mount.replace
  exact bind_of_ok spliced

/-- The first nodes that were made. -/
def firstNodes (count : Nat) : List NodeId :=
  (List.range count).map Id.mk

theorem mem_firstNodes {count : Nat} (known : n.index < count) : n ∈ firstNodes count :=
  List.mem_map.2 ⟨n.index, List.mem_range.2 known, rfl⟩

/-- By cases on the operation. -/
theorem rearrangement_carried (passive : Passive I) (hw : I w) (place : w.nodes.InPlace body)
    {r : Rearrangement} (fair : r.Fair body w.nodes) :
    Sure (Prompt I depth ∧ depth + w.nodes.size < fuel) (exec fuel) r.run w fun _ w' =>
      ∃ l out p into, Carried I body l out p into w w' := by
  let l := firstNodes w.nodes.size
  have length : l.length = w.nodes.size := by simp [l, firstNodes]
  have order : InOrder I body l w := ⟨hw, place, fun m q parent =>
    mem_firstNodes (Forest.Linked.known parent)⟩
  have enough : Prompt I depth ∧ depth + w.nodes.size < fuel → Enough I depth l fuel :=
    fun ⟨prompt, lt⟩ => ⟨prompt, by omega⟩
  cases r with
  | append p n =>
    obtain ⟨hp, hn, free, apart⟩ := fair
    have taken := Forest.Gathered.takeForInsertion place.linked hn
    exact ((append_carried passive order (fun c hc => mem_firstNodes (taken.known c hc)) hp hn free
      apart).weaken enough).mono fun _ _ carried => ⟨l, _, _, _, carried⟩
  | remove n =>
    cases parent : (w.nodes.get n).parent with
    | none =>
      refine Sure.get_bind ?_
      rw [parent]
      exact .pure ⟨l, [], n, [], .refl order⟩
    | some p =>
      exact ((remove_carried passive order parent).weaken enough).mono
        fun _ _ carried => ⟨l, _, _, _, carried⟩
  | replace n replacements =>
    obtain ⟨each, once, apart⟩ := fair
    cases parent : (w.nodes.get n).parent with
    | none =>
      exact .of_eq (replace_orphan parent (exec fuel)) ⟨l, [], n, [], .refl order⟩
    | some p =>
      exact ((replace_carried passive order (fun m hm => mem_firstNodes hm) parent
        (fun r hr => (each r hr).1) (fun r hr => (each r hr).2) once (apart p parent)).weaken
          enough).mono fun _ _ carried => ⟨l, _, _, _, carried⟩
  | setText n text =>
    refine (setText_carried passive order fair text (Nat.le_of_eq length)).mono ?_
    rintro _ w' ⟨l', out, into, carried⟩
    exact ⟨l', out, n, into, carried⟩

/-- An operation on a forest with bodies, under callbacks that leave the tree alone, leaves every node
connected if, and only if, its topmost ancestor is a body. Besides moving nodes it has run the mount
callbacks of just the nodes that have become connected, once for each and from the top down, and the
unmount callbacks of just those that have become unconnected, from the bottom up. If callbacks come to
an end, so does the operation. -/
theorem callbacks_fire_on_transitions (passive : Passive I) (hw : I w) (place : w.nodes.InPlace body)
    {r : Rearrangement} (fair : r.Fair body w.nodes) :
    (∀ w', runFrom fuel w r.run = .ok ((), w') →
      I w' ∧ w'.nodes.InPlace body ∧ ∃ visits, Course w visits w' ∧
        (∀ n b, (n, b) ∈ visits ↔
          (w.nodes.get n).connected = !b ∧ (w'.nodes.get n).connected = b) ∧
        visits.Pairwise (Orderly w'.nodes)) ∧
    ∀ depth, Prompt I depth → depth + w.nodes.size < fuel →
      ∃ w', runFrom fuel w r.run = .ok ((), w') := by
  refine ⟨fun w' ran => ?_, fun depth prompt fueled => ?_⟩
  · have sure : Sure (Prompt I 0 ∧ 0 + w.nodes.size < fuel) (exec fuel) r.run w fun _ w' =>
        ∃ l out p into, Carried I body l out p into w w' :=
      rearrangement_carried passive hw place fair
    obtain ⟨l, out, p, into, carried⟩ := sure.ensures _ _ ran
    obtain ⟨visits, performed⟩ := carried.performed
    exact ⟨carried.order.holds, carried.order.place, visits, performed.course, performed.turned,
      performed.ordered⟩
  · obtain ⟨_, w', ran⟩ :=
      (rearrangement_carried passive hw place fair).returns ⟨prompt, fueled⟩
    exact ⟨w', ran⟩

/-- All callbacks of mounts only report that they run. -/
def Reporting (w : World) : Prop :=
  ∀ b x, x ∈ w.hooks b → ∃ name, x.2 = .mounted name [] ∨ x.2 = .unmounted name []

theorem report_run {h : Hook} (is : ∃ name, h = .mounted name [] ∨ h = .unmounted name [])
    (w : World) (fuel : Nat) :
    ∃ log, exec (fuel + 1) (.hook h) w = .ok ((), { w with log }) := by
  obtain ⟨name, rfl | rfl⟩ := is
  · exact ⟨_, rfl⟩
  · exact ⟨_, rfl⟩

theorem passive_reporting : Passive Reporting where
  moves _ _ hw := hw
  calls w fuel b n h hw mem := by
    intro _ w' ran
    cases fuel with
    | zero => cases ran
    | succ fuel =>
      obtain ⟨log, ran'⟩ := report_run (hw b (n, h) mem) w fuel
      have same : Except.ok ((), { w with log }) = .ok ((), w') := ran'.symm.trans ran
      cases same
      exact ⟨hw, .refl _, fun _ _ hx => hx⟩

theorem prompt_reporting : Prompt Reporting 1 := by
  intro w fuel b n h hw mem enough
  obtain ⟨fuel, rfl⟩ : ∃ k, fuel = k + 1 := ⟨fuel - 1, by omega⟩
  obtain ⟨log, ran⟩ := report_run (hw b (n, h) mem) w fuel
  exact ⟨_, ran⟩

/-- The body of a document, a paragraph, a text and an image, none of which is in another. The paragraph
reports that it leaves, the text that it comes or leaves, and the image twice that it comes. -/
def unhung : World :=
  { World.empty with
    nodes := ⟨#[{ Dom.Node.alone (.element (.ofTag "body")) with connected := true },
      .alone (.element (.ofTag "p")), .alone (.text "one"), .alone (.element (.ofTag "img"))]⟩
    mountHooks := [(⟨2⟩, .mounted "text" []), (⟨3⟩, .mounted "img" []), (⟨3⟩, .mounted "again" [])]
    unmountHooks := [(⟨1⟩, .unmounted "p" []), (⟨2⟩, .unmounted "text" [])] }

/-- The paragraph is mounted with its text, and then the text and the image take its place. The text, which
moves from one place in the document to another, reports nothing. -/
theorem callbacks_fire_on_transitions_unhung : ∃ w w' visits,
    runFrom 10 w (Rearrangement.run (.replace ⟨1⟩ [⟨2⟩, ⟨3⟩])) = .ok ((), w') ∧
      Course w visits w' ∧ (⟨1⟩, false) ∈ visits ∧ (⟨3⟩, true) ∈ visits ∧
        (∀ b, (⟨2⟩, b) ∉ visits) ∧ w.log = [.mounted "text"] ∧
          w'.log = [.mounted "again", .mounted "img", .unmounted "p", .mounted "text"] := by
  let body : NodeId → Prop := (· = ⟨0⟩)
  let r₁ : Rearrangement := .append ⟨1⟩ ⟨2⟩
  let r₂ : Rearrangement := .append ⟨0⟩ ⟨1⟩
  let r₃ : Rearrangement := .replace ⟨1⟩ [⟨2⟩, ⟨3⟩]
  let w₁ := afterwards unhung r₁.run
  let w₂ := afterwards w₁ r₂.run
  let w₃ := afterwards w₂ r₃.run
  have ran₁ := runFrom_afterwards unhung r₁.run (by decide +kernel)
  have ran₂ := runFrom_afterwards w₁ r₂.run (by decide +kernel)
  have ran₃ := runFrom_afterwards w₂ r₃.run (by decide +kernel)
  have reporting : Reporting unhung := by
    intro b x hx
    cases b with
    | true =>
      have all : ∀ x ∈ unhung.mountHooks, ∃ name, x.2 = .mounted name [] ∨ x.2 = .unmounted name [] := by
        simp [unhung]
      exact all x hx
    | false =>
      have all : ∀ x ∈ unhung.unmountHooks,
          ∃ name, x.2 = .mounted name [] ∨ x.2 = .unmounted name [] := by
        simp [unhung]
      exact all x hx
  have place : unhung.nodes.InPlace body := by
    refine .of_alone ?_ ?_ ?_
    · rintro ⟨i⟩
      match i with
      | 0 | 1 | 2 | 3 => exact ⟨rfl, rfl⟩
      | _ + 4 => exact ⟨rfl, rfl⟩
    · rintro _ rfl
      decide +kernel
    · rintro ⟨i⟩
      match i with
      | 0 => exact ⟨fun _ => rfl, fun _ => rfl⟩
      | 1 | 2 | 3 => exact ⟨nofun, nofun⟩
      | _ + 4 => exact ⟨nofun, nofun⟩
  -- Every node that something is put into stands alone at that time.
  have fair₁ : r₁.Fair body unhung.nodes := by
    refine ⟨by decide +kernel, by decide +kernel, nofun, fun c hc under => ?_⟩
    obtain rfl := under.eq_of_root (by decide +kernel)
    revert hc
    decide +kernel
  obtain ⟨reporting₁, place₁, -⟩ :=
    (callbacks_fire_on_transitions passive_reporting reporting place fair₁).1 w₁ ran₁
  have fair₂ : r₂.Fair body w₁.nodes := by
    refine ⟨by decide +kernel, by decide +kernel, nofun, fun c hc under => ?_⟩
    obtain rfl := under.eq_of_root (by decide +kernel)
    revert hc
    decide +kernel
  obtain ⟨reporting₂, place₂, -⟩ :=
    (callbacks_fire_on_transitions passive_reporting reporting₁ place₁ fair₂).1 w₂ ran₂
  have fair₃ : r₃.Fair body w₂.nodes := by
    refine ⟨?_, by decide +kernel, fun p parent c hc _ under => ?_⟩
    · intro c hc
      have known : ∀ c ∈ [(⟨2⟩ : NodeId), ⟨3⟩], c.index < w₂.nodes.size ∧ c ≠ ⟨0⟩ := by
        decide +kernel
      exact known c hc
    · have here : (w₂.nodes.get ⟨1⟩).parent = some ⟨0⟩ := by decide +kernel
      obtain rfl := Option.some.inj (here.symm.trans parent)
      obtain rfl := under.eq_of_root (by decide +kernel)
      revert hc
      decide +kernel
  obtain ⟨-, -, visits, course, turned, -⟩ :=
    (callbacks_fire_on_transitions passive_reporting reporting₂ place₂ fair₃).1 w₃ ran₃
  have stays : ∀ b, ¬ ((w₂.nodes.get ⟨2⟩).connected = !b ∧ (w₃.nodes.get ⟨2⟩).connected = b) := by
    decide +kernel
  refine ⟨w₂, w₃, visits, ran₃, course, (turned ⟨1⟩ false).2 (by decide +kernel),
    (turned ⟨3⟩ true).2 (by decide +kernel), fun b hb => stays b ((turned ⟨2⟩ b).1 hb),
    by decide +kernel, by decide +kernel⟩

end LiveMarkup.Live
