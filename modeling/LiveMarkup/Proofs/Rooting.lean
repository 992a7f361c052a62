import LiveMarkup.Proofs.Splicing

/-!
Rooting: forests in which the links to parents and to children agree and every node has a topmost
one above it. Moving nodes leaves such forests behind, as long as no node comes below itself.
-/
namespace LiveMarkup.Dom
namespace Forest
variable {f f' f₁ f₂ : Forest} {a c m n p q r t : NodeId}

/-- A node, or one whose parents lead up to it. -/
inductive Under (f : Forest) (a : NodeId) : NodeId → Prop
  | here : Under f a a
  | up {n p : NodeId} (parent : (f.get n).parent = some p) (above : Under f a p) : Under f a n

/-- The topmost node above a node. -/
structure Topmost (f : Forest) (n t : NodeId) : Prop where
  under : f.Under t n
  root : (f.get t).parent = none

namespace Under

theorem trans (h : f.Under a m) (h' : f.Under m n) : f.Under a n := by
  induction h' with
  | here => exact h
  | up parent _ ih => exact .up parent ih

/-- Where more nodes have a parent. -/
theorem mono (h : f.Under a n)
    (kept : ∀ m p, (f.get m).parent = some p → (f'.get m).parent = some p) : f'.Under a n := by
  induction h with
  | here => exact .here
  | up parent _ ih => exact .up (kept _ _ parent) ih

/-- By induction on the way up: a node without children is above itself only. -/
theorem eq_of_childless (h : f.Under a n) (childless : ∀ m, (f.get m).parent ≠ some a) :
    n = a := by
  induction h with
  | here => rfl
  | up parent _ ih =>
    rw [ih] at parent
    exact absurd parent (childless _)

end Under

/-- Links that agree, and no way up without an end. -/
structure Linked (f : Forest) : Prop where
  child : ∀ p c, c ∈ (f.get p).children ↔ (f.get c).parent = some p
  nodup : ∀ p, (f.get p).children.Nodup
  /-- Fragments are in no other node. -/
  whole : ∀ c p, (f.get c).parent = some p → (f.get c).isFragment = false
  rooted : ∀ n, ∃ t, f.Topmost n t

/-- Nodes that had no parent may have come below `p`, but not those that it is under, and others may
have lost theirs. -/
def Rehung (f f' : Forest) (p : NodeId) : Prop :=
  ∀ m, (f'.get m).parent = (f.get m).parent ∨ (f'.get m).parent = none ∨
    (f.get m).parent = none ∧ (f'.get m).parent = some p ∧ ¬ f.Under m p

/-- By induction on the way up: the nodes above `p` lead to the top still. -/
theorem Rehung.rooted_above (h : f.Rehung f' p) (above : f.Topmost n t) (hn : f.Under n p) :
    ∃ t, f'.Topmost n t := by
  obtain ⟨under, root⟩ := above
  induction under with
  | here =>
    rcases h t with same | none | ⟨-, -, apart⟩
    · exact ⟨t, .here, same.trans root⟩
    · exact ⟨t, .here, none⟩
    · exact absurd hn apart
  | @up n q parent _ ih =>
    rcases h n with same | none | ⟨-, -, apart⟩
    · obtain ⟨t', under', root'⟩ := ih ((Under.up parent .here).trans hn)
      exact ⟨t', .up (same.trans parent) under', root'⟩
    · exact ⟨n, .here, none⟩
    · exact absurd hn apart

/-- By induction on the way up to the old top, which may have come below `p`. -/
theorem Rehung.rooted (h : f.Rehung f' p) (rooted : ∀ n, ∃ t, f.Topmost n t) (n : NodeId) :
    ∃ t, f'.Topmost n t := by
  obtain ⟨t, under, root⟩ := rooted n
  induction under with
  | here =>
    rcases h t with same | none | ⟨-, below, -⟩
    · exact ⟨t, .here, same.trans root⟩
    · exact ⟨t, .here, none⟩
    · obtain ⟨s, hs⟩ := rooted p
      obtain ⟨t', under', root'⟩ := h.rooted_above hs .here
      exact ⟨t', .up below under', root'⟩
  | @up n q parent _ ih =>
    rcases h n with same | none | ⟨orphan, -, -⟩
    · obtain ⟨t', under', root'⟩ := ih
      exact ⟨t', .up (same.trans parent) under', root'⟩
    · exact ⟨n, .here, none⟩
    · rw [parent] at orphan
      cases orphan

/-- Where nodes only lose their parents. -/
theorem rehung_of_cut (cut : ∀ m, (f'.get m).parent = (f.get m).parent ∨ (f'.get m).parent = none) :
    f.Rehung f' p :=
  fun m => (cut m).imp_right .inl

/-- New nodes stand alone; beyond that no link and no fragment is another one. -/
structure Extended (f f' : Forest) : Prop where
  size : f.size ≤ f'.size
  parent : ∀ n, (f'.get n).parent = (f.get n).parent
  children : ∀ n, (f'.get n).children = (f.get n).children
  isFragment : ∀ n, n.index < f.size → (f'.get n).isFragment = (f.get n).isFragment

theorem Extended.trans (h : f.Extended f₁) (h' : f₁.Extended f₂) : f.Extended f₂ :=
  ⟨Nat.le_trans h.size h'.size, fun n => (h'.parent n).trans (h.parent n),
    fun n => (h'.children n).trans (h.children n),
    fun n hn => (h'.isFragment n (Nat.lt_of_lt_of_le hn h.size)).trans (h.isFragment n hn)⟩

/-- And what is mounted is so still, and nothing else. -/
structure Enlarged (f f' : Forest) : Prop extends Extended f f' where
  connected : ∀ n, (f'.get n).connected = (f.get n).connected

namespace Enlarged

theorem refl (f : Forest) : f.Enlarged f :=
  ⟨⟨Nat.le_refl _, fun _ => rfl, fun _ => rfl, fun _ _ => rfl⟩, fun _ => rfl⟩

theorem trans (h : f.Enlarged f₁) (h' : f₁.Enlarged f₂) : f.Enlarged f₂ :=
  ⟨h.toExtended.trans h'.toExtended, fun n => (h'.connected n).trans (h.connected n)⟩

theorem create (f : Forest) (content : Content) : f.Enlarged (f.create content).2 := by
  have same : ∀ n, n ≠ f.next → (f.create content).2.get n = f.get n :=
    fun n hn => get_create_of_ne content hn
  have links : ∀ n, ((f.create content).2.get n).parent = (f.get n).parent ∧
      ((f.create content).2.get n).children = (f.get n).children ∧
        ((f.create content).2.get n).connected = (f.get n).connected := by
    intro n
    by_cases hn : n = f.next
    · rw [hn, get_create_next, Heap.get_next]
      exact ⟨rfl, rfl, rfl⟩
    · rw [same n hn]
      exact ⟨rfl, rfl, rfl⟩
  refine ⟨⟨?_, fun n => (links n).1, fun n => (links n).2.1, fun n hn => ?_⟩, fun n => (links n).2.2⟩
  · rw [size_create]
    exact Nat.le_succ _
  · rw [same]
    rintro rfl
    exact Nat.lt_irrefl _ hn

/-- A change of what a node is. -/
theorem content {n : NodeId} {g : Node → Node} (parent : (g (f.get n)).parent = (f.get n).parent)
    (children : (g (f.get n)).children = (f.get n).children)
    (connected : (g (f.get n)).connected = (f.get n).connected)
    (isFragment : (g (f.get n)).isFragment = (f.get n).isFragment) : f.Enlarged (f.modify n g) := by
  have cell : ∀ {β : Type} (field : Node → β), field (g (f.get n)) = field (f.get n) →
      ∀ m, field ((f.modify n g).get m) = field (f.get m) := by
    intro β field same m
    by_cases hm : n = m
    · subst hm
      rcases Nat.lt_or_ge n.index f.size with known | unknown
      · rw [Heap.get_modify_self _ _ _ known, same]
      · rw [Heap.modify_of_size_le _ _ _ unknown]
    · rw [Heap.get_modify_of_ne _ _ _ _ hm]
  exact ⟨⟨Nat.le_of_eq (Heap.size_modify ..).symm, cell Node.parent parent,
    cell Node.children children, fun m _ => cell Node.isFragment isFragment m⟩,
    cell Node.connected connected⟩

theorem mapElement (n : NodeId) (g : Element → Element) : f.Enlarged (f.mapElement n g) := by
  have same : ∀ a : Node, (a.mapElement g).parent = a.parent ∧
      (a.mapElement g).children = a.children ∧ (a.mapElement g).connected = a.connected ∧
        (a.mapElement g).isFragment = a.isFragment := by
    intro a
    unfold Node.mapElement
    split
    case h_1 e is => simp [Node.isFragment, is]
    case h_2 => simp
  obtain ⟨parent, children, connected, isFragment⟩ := same (f.get n)
  exact content parent children connected isFragment

theorem withData (n : NodeId) (data : String) : f.Enlarged (f.modify n (·.withData data)) := by
  have same : ∀ a : Node, (a.withData data).parent = a.parent ∧
      (a.withData data).children = a.children ∧ (a.withData data).connected = a.connected ∧
        (a.withData data).isFragment = a.isFragment := by
    intro a
    unfold Node.withData
    split
    case h_1 is => simp [Node.isFragment, is]
    case h_2 is => simp [Node.isFragment, is]
    case h_3 => simp
  obtain ⟨parent, children, connected, isFragment⟩ := same (f.get n)
  exact content parent children connected isFragment

end Enlarged

namespace Linked

theorem known (h : (f.get c).parent = some p) : c.index < f.size := by
  rcases Nat.lt_or_ge c.index f.size with known | unknown
  · exact known
  · rw [get_unknown unknown] at h
    cases h

theorem not_mem_of_orphan (h : f.Linked) (orphan : (f.get c).parent = none) (p : NodeId) :
    c ∉ (f.get p).children := by
  rw [h.child, orphan]
  exact Option.some_ne_none p |>.symm

/-- Only links matter. -/
theorem extended (h : f.Linked) (g : f.Extended f') : f'.Linked := by
  refine ⟨fun p c => ?_, fun p => ?_, fun c p hc => ?_,
    (rehung_of_cut (p := ⟨0⟩) fun m => .inl (g.parent m)).rooted h.rooted⟩
  · rw [g.children, g.parent]
    exact h.child p c
  · rw [g.children]
    exact h.nodup p
  · rw [g.parent] at hc
    rw [g.isFragment c (known hc)]
    exact h.whole c p hc

theorem relinked_whole (relinked : f.Relinked f') (n : NodeId) :
    (f'.get n).isFragment = (f.get n).isFragment := by
  unfold Node.isFragment
  rw [relinked.content]

theorem detach (h : f.Linked) (n : NodeId) : (f.detach n).Linked := by
  have cut : ∀ m, ((f.detach n).get m).parent = (f.get m).parent ∨
      ((f.detach n).get m).parent = none := by
    intro m
    by_cases hm : m = n
    · subst hm
      exact .inr (parent_detach_self m)
    · exact .inl (parent_detach_of_ne hm)
  refine ⟨fun p c => ?_, fun p => (h.nodup p).sublist (children_detach_sublist n p),
    fun c p hc => ?_, (rehung_of_cut (p := n) cut).rooted h.rooted⟩
  · by_cases hc : c = n
    · subst hc
      rw [parent_detach_self]
      by_cases parent : (f.get c).parent = some p
      · simp [children_detach parent, (h.nodup p).mem_erase_iff]
      · simp [children_detach_of_ne parent, h.child, parent]
    · rw [parent_detach_of_ne hc, ← h.child]
      by_cases parent : (f.get n).parent = some p
      · rw [children_detach parent, List.mem_erase_of_ne hc]
      · rw [children_detach_of_ne parent]
  · rw [relinked_whole (.detach n)]
    rcases cut c with same | none
    · exact h.whole c p (same ▸ hc)
    · rw [none] at hc
      cases hc

theorem detachAll (h : f.Linked) (l : List NodeId) : (l.foldl Forest.detach f).Linked := by
  induction l generalizing f with
  | nil => exact h
  | cons n l ih => exact ih (h.detach n)

/-- A fragment that gives its children away. -/
theorem takeForInsertion (h : f.Linked) (n : NodeId) : (f.takeForInsertion n).2.Linked := by
  cases fragment : (f.get n).isFragment with
  | false =>
    rw [takeForInsertion_other fragment]
    exact h
  | true =>
    have children := children_takeForInsertion fragment
    have taken : ∀ m ∈ (f.get n).children, ((f.takeForInsertion n).2.get m).parent = none :=
      fun m hm => parent_takeForInsertion_of_mem fragment hm
    have other : ∀ m, m ∉ (f.get n).children →
        ((f.takeForInsertion n).2.get m).parent = (f.get m).parent :=
      fun m hm => parent_takeForInsertion_of_notMem fragment hm
    have cut : ∀ m, ((f.takeForInsertion n).2.get m).parent = (f.get m).parent ∨
        ((f.takeForInsertion n).2.get m).parent = none := by
      intro m
      by_cases hm : m ∈ (f.get n).children
      · exact .inr (taken m hm)
      · exact .inl (other m hm)
    refine ⟨fun p c => ?_, fun p => ?_, fun c p hc => ?_,
      (rehung_of_cut (p := n) cut).rooted h.rooted⟩
    · rw [children]
      by_cases hc : c ∈ (f.get n).children
      · rw [taken c hc]
        have parent := (h.child n c).1 hc
        split
        · simp
        case isFalse hp => simp [h.child, parent, Ne.symm hp]
      · rw [other c hc, ← h.child]
        split
        case isTrue hp => simp [hp, hc]
        · rfl
    · rw [children]
      split
      · exact .nil
      · exact h.nodup p
    · rw [relinked_whole (.takeForInsertion n)]
      rcases cut c with same | none
      · exact h.whole c p (same ▸ hc)
      · rw [none] at hc
        cases hc

end Linked

/-- Nodes taken out of their places, for others that stand for them. -/
structure Gathered (f f' : Forest) (l incoming : List NodeId) : Prop where
  relinked : f.Relinked f'
  linked : f'.Linked
  parent : ∀ m, m ∉ incoming → (f'.get m).parent = (f.get m).parent
  cut : ∀ m, (f'.get m).parent = (f.get m).parent ∨ (f'.get m).parent = none
  known : ∀ c ∈ incoming, c.index < f.size
  whole : ∀ c ∈ incoming, (f.get c).isFragment = false
  source : ∀ c ∈ incoming, ∃ r ∈ l, c = r ∨ (f.get c).parent = some r

namespace Gathered
variable {l : List NodeId}

theorem takeForInsertion (h : f.Linked) (known : n.index < f.size) :
    Gathered f (f.takeForInsertion n).2 [n] (f.takeForInsertion n).1 := by
  have linked := h.takeForInsertion n
  have relinked : f.Relinked (f.takeForInsertion n).2 := .takeForInsertion n
  cases fragment : (f.get n).isFragment with
  | false =>
    rw [takeForInsertion_other fragment] at linked relinked ⊢
    refine ⟨relinked, linked, fun _ _ => rfl, fun _ => .inl rfl, ?_, ?_, ?_⟩
    · simpa using known
    · simpa using fragment
    · simp
  | true =>
    have given : (f.takeForInsertion n).1 = (f.get n).children := by
      rw [takeForInsertion_fragment fragment]
    rw [given]
    refine ⟨relinked, linked, fun m hm => parent_takeForInsertion_of_notMem fragment hm, fun m => ?_,
      fun c hc => Linked.known ((h.child n c).1 hc), fun c hc => h.whole c n ((h.child n c).1 hc),
      fun c hc => ⟨n, List.mem_singleton_self n, .inr ((h.child n c).1 hc)⟩⟩
    by_cases hm : m ∈ (f.get n).children
    · exact .inr (parent_takeForInsertion_of_mem fragment hm)
    · exact .inl (parent_takeForInsertion_of_notMem fragment hm)

theorem takeAll (h : f.Linked) (known : ∀ n ∈ l, n.index < f.size) :
    Gathered f (f.takeAll l).2 l (f.takeAll l).1 := by
  induction l generalizing f with
  | nil =>
    refine ⟨.refl f, h, fun _ _ => rfl, fun _ => .inl rfl, ?_, ?_, ?_⟩
    all_goals simp [Forest.takeAll]
  | cons n l ih =>
    obtain ⟨here, rest⟩ := List.forall_mem_cons.1 known
    have first := Gathered.takeForInsertion h here
    have more := ih first.linked fun m hm => first.relinked.size ▸ rest m hm
    refine ⟨first.relinked.trans more.relinked, more.linked, fun m hm => ?_, fun m => ?_,
      fun c hc => ?_, fun c hc => ?_, fun c hc => ?_⟩
    · obtain ⟨hf, hl⟩ := not_or.1 (mt List.mem_append.2 hm)
      exact (more.parent m hl).trans (first.parent m hf)
    · rcases more.cut m with same | none
      · exact (first.cut m).imp same.trans same.trans
      · exact .inr none
    · rcases List.mem_append.1 hc with hc | hc
      · exact first.known c hc
      · exact first.relinked.size ▸ more.known c hc
    · rcases List.mem_append.1 hc with hc | hc
      · exact first.whole c hc
      · exact Linked.relinked_whole first.relinked c ▸ more.whole c hc
    · rcases List.mem_append.1 hc with hc | hc
      · obtain ⟨r, hr, from_r⟩ := first.source c hc
        cases List.mem_singleton.1 hr
        exact ⟨n, List.mem_cons_self, from_r⟩
      · obtain ⟨r, hr, from_r⟩ := more.source c hc
        refine ⟨r, List.mem_cons_of_mem n hr, from_r.imp_right fun parent => ?_⟩
        rcases first.cut c with same | none
        · exact same ▸ parent
        · rw [none] at parent
          cases parent

/-- Those that are taken have no parent afterwards. -/
theorem gather (h : f.Linked) (known : ∀ n ∈ l, n.index < f.size) :
    Gathered f (f.gather l).2 l (f.gather l).1 ∧
      ∀ c ∈ (f.gather l).1, ((f.gather l).2.get c).parent = none := by
  have taken := takeAll h known
  have out : ∀ c ∈ (f.gather l).1, ((f.gather l).2.get c).parent = none :=
    fun c hc => parent_detachAll_of_mem hc
  have other : ∀ m, m ∉ (f.gather l).1 → ((f.gather l).2.get m).parent = (f.get m).parent :=
    fun m hm => (parent_detachAll_of_notMem hm).trans (taken.parent m hm)
  refine ⟨⟨.gather l, taken.linked.detachAll _, other, fun m => ?_, taken.known, taken.whole,
    taken.source⟩, out⟩
  by_cases hm : m ∈ (f.gather l).1
  · exact .inr (out m hm)
  · exact .inl (other m hm)

end Gathered

/-- Once the nodes that replace `n` are gathered, it has its place below `p` still, and what comes in
is not above that place and takes it. -/
structure Seats (f : Forest) (n p : NodeId) (l : List NodeId) (position : Nat) : Prop where
  parent : ((f.gather (l.filter (· != n))).2.get n).parent = some p
  found : ((f.gather (l.filter (· != n))).2.get p).children.idxOf? n = some position
  outside : n ∉ (f.gather (l.filter (· != n))).1
  apart : ∀ c ∈ (f.gather (l.filter (· != n))).1, ¬ (f.gather (l.filter (· != n))).2.Under c p
  spliced : f.splice n l =
    ((f.gather (l.filter (· != n))).2.seat p n position (f.gather (l.filter (· != n))).1,
      some (p, (f.gather (l.filter (· != n))).1))

/-- A node that the parent is under must not come in. -/
theorem Seats.of_linked (h : f.Linked) {l : List NodeId} (parent : (f.get n).parent = some p)
    (known : ∀ r ∈ l, r.index < f.size) (apart : ∀ r ∈ l, r ≠ n → ¬ f.Under r p) :
    ∃ position, f.Seats n p l position := by
  let l' := l.filter (· != n)
  have others : ∀ r ∈ l', r ∈ l ∧ r ≠ n := by
    intro r hr
    simpa [l'] using hr
  obtain ⟨gathered, -⟩ := Gathered.gather (l := l') h fun r hr => known r (others r hr).1
  have linked := gathered.linked
  have up : ∀ {a b : NodeId}, (f.gather l').2.Under a b → f.Under a b := by
    intro a b under
    refine under.mono fun m q hq => ?_
    rcases gathered.cut m with same | none
    · exact same ▸ hq
    · rw [none] at hq
      cases hq
  -- What comes in was one of the nodes, or a child of a fragment among them.
  have apart' : ∀ c ∈ (f.gather l').1, ¬ f.Under c p := by
    intro c hc under
    obtain ⟨r, hr, rfl | above⟩ := gathered.source c hc
    · exact apart c (others c hr).1 (others c hr).2 under
    · exact apart r (others r hr).1 (others r hr).2 ((Under.up above .here).trans under)
  have outside : n ∉ (f.gather l').1 := by
    intro hn
    obtain ⟨r, hr, rfl | above⟩ := gathered.source n hn
    · exact (others n hr).2 rfl
    · rw [parent] at above
      cases above
      exact apart p (others p hr).1 (others p hr).2 .here
  have parent' : ((f.gather l').2.get n).parent = some p :=
    (gathered.parent n outside).trans parent
  obtain ⟨position, found⟩ : ∃ position,
      ((f.gather l').2.get p).children.idxOf? n = some position := by
    have mem := (linked.child p n).2 parent'
    cases found : ((f.gather l').2.get p).children.idxOf? n with
    | some position => exact ⟨position, rfl⟩
    | none => exact absurd mem (List.idxOf?_eq_none_iff.1 found)
  refine ⟨position, parent', found, outside, fun c hc under => apart' c hc (up under), ?_⟩
  rw [splice_child parent]
  dsimp only
  rw [found]

/-- The nodes in `out` have lost their parent, those in `into` have come below `p`, and all others
are where they were. -/
structure Moved (f f' : Forest) (out : List NodeId) (p : NodeId) (into : List NodeId) : Prop where
  relinked : f.Relinked f'
  linked : f'.Linked
  left : ∀ n ∈ out, (f'.get n).parent = none
  below : ∀ c ∈ into, (f'.get c).parent = some p
  other : ∀ m, m ∉ out → m ∉ into → (f'.get m).parent = (f.get m).parent

namespace Moved

/-- A node leaves its parent. -/
theorem detach (h : f.Linked) (n : NodeId) : Moved f (f.detach n) [n] p [] := by
  refine ⟨.detach n, h.detach n, ?_, fun c hc => (List.not_mem_nil hc).elim, fun m hm _ => ?_⟩
  · simpa using parent_detach_self n
  · exact parent_detach_of_ne (by simpa using hm)

/-- A node becomes the last child of another. -/
theorem attach (h : f.Linked) (hn : n.index < f.size) (hp : p.index < f.size)
    (whole : (f.get n).isFragment = false) (apart : ¬ f.Under n p) :
    Moved f ((f.detach n).attach p n) [] p [n] := by
  have linked := h.detach n
  have detached : f.Relinked (f.detach n) := .detach n
  have relinked : (f.detach n).Relinked ((f.detach n).attach p n) := .attach p n
  rw [← detached.size] at hn hp
  rw [← Linked.relinked_whole detached] at whole
  have apart' : ¬ (f.detach n).Under n p := by
    refine fun under => apart (under.mono fun m q parent => ?_)
    by_cases hm : m = n
    · rw [hm, parent_detach_self] at parent
      cases parent
    · rwa [parent_detach_of_ne hm] at parent
  have orphan : ((f.detach n).get n).parent = none := parent_detach_self n
  have other : ∀ m, m ≠ n → (((f.detach n).attach p n).get m).parent =
      ((f.detach n).get m).parent := fun m hm => parent_attach_of_ne hm
  have into : (((f.detach n).attach p n).get n).parent = some p := parent_attach_self hn
  refine ⟨detached.trans relinked, ⟨fun q c => ?_, fun q => ?_, fun c q hc => ?_, ?_⟩,
    fun c hc => (List.not_mem_nil hc).elim, ?_, fun m _ hm => ?_⟩
  · by_cases hq : q = p
    · subst hq
      rw [children_attach_self hp, List.mem_append, List.mem_singleton]
      by_cases hc : c = n
      · simp [hc, into]
      · simp [hc, other c hc, linked.child]
    · rw [children_attach_of_ne hq]
      by_cases hc : c = n
      · simp [hc, into, linked.not_mem_of_orphan orphan q, Ne.symm hq]
      · rw [other c hc, linked.child]
  · by_cases hq : q = p
    · subst hq
      rw [children_attach_self hp]
      refine List.nodup_append.2 ⟨linked.nodup q, List.pairwise_singleton _ n, ?_⟩
      rintro c hc m hm rfl
      cases List.mem_singleton.1 hm
      exact linked.not_mem_of_orphan orphan q hc
    · rw [children_attach_of_ne hq]
      exact linked.nodup q
  · rw [Linked.relinked_whole relinked]
    by_cases hcn : c = n
    · exact hcn ▸ whole
    · exact linked.whole c q (other c hcn ▸ hc)
  · have rehung : (f.detach n).Rehung ((f.detach n).attach p n) p := by
      intro m
      by_cases hm : m = n
      · subst hm
        exact .inr (.inr ⟨orphan, into, apart'⟩)
      · exact .inl (other m hm)
    exact rehung.rooted linked.rooted
  · simpa using into
  · have ne : m ≠ n := by simpa using hm
    exact (other m ne).trans (parent_detach_of_ne ne)

/-- Nodes without a parent take the place of another. -/
theorem seat (h : f.Linked) {position : Nat} {incoming : List NodeId}
    (parent : (f.get n).parent = some p)
    (found : (f.get p).children.idxOf? n = some position) (once : incoming.Nodup)
    (known : ∀ c ∈ incoming, c.index < f.size)
    (whole : ∀ c ∈ incoming, (f.get c).isFragment = false)
    (orphan : ∀ c ∈ incoming, (f.get c).parent = none)
    (apart : ∀ c ∈ incoming, ¬ f.Under c p) :
    Moved f (f.seat p n position incoming) [n] p incoming := by
  have ne : ∀ c ∈ incoming, c ≠ n := by
    rintro c hc rfl
    rw [orphan c hc] at parent
    cases parent
  have seated : Seated f (f.seat p n position incoming) p n incoming :=
    Forest.seated found (h.nodup p) once fun c hc =>
      ⟨ne c hc, known c hc, h.not_mem_of_orphan (orphan c hc) p⟩
  obtain ⟨relinked, out, into, other, children, mem, nodup⟩ := seated
  have stays : ∀ c, c ≠ n → ∀ q, c ∈ (f.get q).children → c ∉ incoming :=
    fun c _ q hq hc => h.not_mem_of_orphan (orphan c hc) q hq
  refine ⟨relinked, ⟨fun q c => ?_, fun q => ?_, fun c q hc => ?_, ?_⟩, by simpa using out, into,
    fun m hm hi => other m (by simpa using hm) hi⟩
  · by_cases hcn : c = n
    · subst hcn
      rw [out]
      by_cases hq : q = p
      · simp [hq, mem]
      · simp [children q hq, h.child, parent, Ne.symm hq]
    · by_cases hc : c ∈ incoming
      · rw [into c hc]
        by_cases hq : q = p
        · simp [hq, mem, hcn, hc]
        · simp [children q hq, h.not_mem_of_orphan (orphan c hc) q, Ne.symm hq]
      · rw [other c hcn hc, ← h.child]
        by_cases hq : q = p
        · simp [hq, mem, hcn, hc]
        · rw [children q hq]
  · by_cases hq : q = p
    · rw [hq]
      exact nodup
    · rw [children q hq]
      exact h.nodup q
  · rw [Linked.relinked_whole relinked]
    by_cases hi : c ∈ incoming
    · exact whole c hi
    · by_cases hcn : c = n
      · rw [hcn, out] at hc
        cases hc
      · exact h.whole c q (other c hcn hi ▸ hc)
  · have rehung : f.Rehung (f.seat p n position incoming) p := by
      intro m
      by_cases hmn : m = n
      · exact .inr (.inl (hmn ▸ out))
      · by_cases hm : m ∈ incoming
        · exact .inr (.inr ⟨orphan m hm, into m hm, apart m hm⟩)
        · exact .inl (other m hmn hm)
    exact rehung.rooted h.rooted

/-- Other nodes take the place of a node. A node that the parent is under must not come in. -/
theorem splice (h : f.Linked) {l : List NodeId} (parent : (f.get n).parent = some p)
    (known : ∀ r ∈ l, r.index < f.size)
    (once : (f.takeAll (l.filter (· != n))).1.Nodup)
    (apart : ∀ r ∈ l, r ≠ n → ¬ f.Under r p) :
    (f.splice n l).2 = some (p, (f.takeAll (l.filter (· != n))).1) ∧
      Moved f (f.splice n l).1 [n] p (f.takeAll (l.filter (· != n))).1 := by
  let l' := l.filter (· != n)
  obtain ⟨gathered, orphan⟩ := Gathered.gather (l := l') h
    fun r hr => known r (List.mem_filter.1 hr).1
  obtain ⟨position, seats⟩ := Seats.of_linked h parent known apart
  have moved : Moved (f.gather l').2 ((f.gather l').2.seat p n position (f.gather l').1) [n] p
      (f.gather l').1 :=
    Moved.seat gathered.linked seats.parent seats.found once
      (fun c hc => gathered.relinked.size ▸ gathered.known c hc)
      (fun c hc => (Linked.relinked_whole gathered.relinked c).trans (gathered.whole c hc)) orphan
      seats.apart
  rw [seats.spliced]
  exact ⟨rfl, gathered.relinked.trans moved.relinked, moved.linked, moved.left, moved.below,
    fun m hm hi => (moved.other m hm hi).trans (gathered.parent m hi)⟩

end Moved
end Forest
end LiveMarkup.Dom
