import LiveMarkup.Proofs.Splicing

/-!
Matching: two forests in which the same nodes stand in the same places, and what they hold goes
together. Whatever moves nodes does the same to both.
-/
namespace LiveMarkup.Dom

/-- Nodes with the same links that hold what goes together. -/
structure Node.Matches (holds : Content → Content → Prop) (a b : Node) : Prop where
  content : holds a.content b.content
  parent : a.parent = b.parent
  children : a.children = b.children
  connected : a.connected = b.connected

namespace Forest

/-- Forests with the same nodes. -/
structure Matches (holds : NodeId → Content → Content → Prop) (f g : Forest) : Prop where
  size : f.size = g.size
  node : ∀ n, (f.get n).Matches (holds n) (g.get n)

/-- A fragment goes with nothing but fragments. -/
def TellsFragments (holds : NodeId → Content → Content → Prop) : Prop :=
  ∀ {n a b}, holds n a b → (Node.alone a).isFragment = (Node.alone b).isFragment

namespace Matches

variable {holds holds' : NodeId → Content → Content → Prop} {n : NodeId} {f g : Forest}

theorem mono (h : f.Matches holds g) (imp : ∀ n c c', holds n c c' → holds' n c c') :
    f.Matches holds' g :=
  ⟨h.size, fun n => ⟨imp n _ _ (h.node n).content, (h.node n).parent, (h.node n).children,
    (h.node n).connected⟩⟩

/-- Changing a node of both forests. -/
theorem modify (h : f.Matches holds g) (n : NodeId) {u v : Node → Node}
    (alike : (u (f.get n)).Matches (holds n) (v (g.get n))) :
    Matches holds (f.modify n u) (g.modify n v) := by
  refine ⟨by rw [Heap.size_modify, Heap.size_modify, h.size], fun m => ?_⟩
  by_cases hm : n = m
  · subst hm
    rcases Nat.lt_or_ge n.index f.size with known | unknown
    · rw [Heap.get_modify_self _ _ _ known, Heap.get_modify_self _ _ _ (h.size ▸ known)]
      exact alike
    · rw [Heap.modify_of_size_le _ _ _ unknown, Heap.modify_of_size_le _ _ _ (h.size ▸ unknown)]
      exact h.node n
  · rw [Heap.get_modify_of_ne _ _ _ _ hm, Heap.get_modify_of_ne _ _ _ _ hm]
    exact h.node m

theorem create (h : f.Matches holds g) {c c' : Content} (alike : holds f.next c c') :
    (f.create c).1 = (g.create c').1 ∧ Matches holds (f.create c).2 (g.create c').2 := by
  have next : f.next = g.next := congrArg Id.mk h.size
  refine ⟨next, ?_, fun m => ?_⟩
  · rw [Forest.size_create, Forest.size_create, h.size]
  · by_cases hm : m = f.next
    · have here : (g.create c').2.get f.next = .alone c' := next ▸ Forest.get_create_next c'
      rw [hm, Forest.get_create_next, here]
      exact ⟨alike, rfl, rfl, rfl⟩
    · rw [Forest.get_create_of_ne c hm, Forest.get_create_of_ne c' (next ▸ hm)]
      exact h.node m

/-! Links. -/

theorem setParent (h : f.Matches holds g) (n : NodeId) (parent : Option NodeId) :
    Matches holds (f.setParent n parent) (g.setParent n parent) :=
  h.modify n ⟨(h.node n).content, rfl, (h.node n).children, (h.node n).connected⟩

theorem setChildren (h : f.Matches holds g) (n : NodeId) (children : List NodeId) :
    Matches holds (f.setChildren n children) (g.setChildren n children) :=
  h.modify n ⟨(h.node n).content, (h.node n).parent, rfl, (h.node n).connected⟩

theorem attach (h : f.Matches holds g) (p n : NodeId) :
    Matches holds (f.attach p n) (g.attach p n) := by
  have placed := h.setParent n (some p)
  obtain ⟨content, parent, children, connected⟩ := placed.node p
  exact placed.modify p ⟨content, parent, congrArg (· ++ [n]) children, connected⟩

theorem detach (h : f.Matches holds g) (n : NodeId) :
    Matches holds (f.detach n) (g.detach n) := by
  unfold Forest.detach
  rw [← (h.node n).parent]
  split
  · exact h
  case h_2 p _ =>
    obtain ⟨content, parent, children, connected⟩ := h.node p
    have left : Matches holds (f.modify p fun node => { node with children := node.children.erase n })
        (g.modify p fun node => { node with children := node.children.erase n }) :=
      h.modify p ⟨content, parent, congrArg (List.erase · n) children, connected⟩
    exact left.setParent n none

theorem foldl (h : f.Matches holds g) {move : Forest → NodeId → Forest}
    (step : ∀ {f g}, Matches holds f g → ∀ n, Matches holds (move f n) (move g n)) (l : List NodeId) :
    Matches holds (l.foldl move f) (l.foldl move g) := by
  induction l generalizing f g with
  | nil => exact h
  | cons n l ih => exact ih (step h n)

section
variable (tells : TellsFragments holds)
include tells

theorem takeForInsertion (h : f.Matches holds g) (n : NodeId) :
    (f.takeForInsertion n).1 = (g.takeForInsertion n).1 ∧
      Matches holds (f.takeForInsertion n).2 (g.takeForInsertion n).2 := by
  have fragment : (f.get n).isFragment = (g.get n).isFragment := tells (h.node n).content
  unfold Forest.takeForInsertion
  dsimp only
  rw [← fragment, ← (h.node n).children]
  split
  · exact ⟨rfl, (h.setChildren n []).foldl (fun h c => h.setParent c none) _⟩
  · exact ⟨rfl, h⟩

theorem takeAll (h : f.Matches holds g) (l : List NodeId) :
    (f.takeAll l).1 = (g.takeAll l).1 ∧ Matches holds (f.takeAll l).2 (g.takeAll l).2 := by
  induction l generalizing f g with
  | nil => exact ⟨rfl, h⟩
  | cons n l ih =>
    obtain ⟨first, h₁⟩ := h.takeForInsertion tells n
    obtain ⟨more, h₂⟩ := ih h₁
    simp only [Forest.takeAll, first, more, h₂, and_self]

/-- Putting nodes in the place of another does the same to both. -/
theorem splice (h : f.Matches holds g) (n : NodeId) (l : List NodeId) :
    (f.splice n l).2 = (g.splice n l).2 ∧ Matches holds (f.splice n l).1 (g.splice n l).1 := by
  cases parent : (f.get n).parent with
  | none =>
    rw [Forest.splice_orphan parent, Forest.splice_orphan ((h.node n).parent ▸ parent)]
    exact ⟨rfl, h⟩
  | some p =>
    rw [Forest.splice_child parent, Forest.splice_child ((h.node n).parent ▸ parent)]
    obtain ⟨same, taken⟩ := h.takeAll tells (l.filter (· != n))
    have gathered : Matches holds (f.gather (l.filter (· != n))).2
        (g.gather (l.filter (· != n))).2 := by
      unfold Forest.gather
      dsimp only
      rw [← same]
      exact taken.foldl (fun h c => h.detach c) _
    have incoming : (f.gather (l.filter (· != n))).1 = (g.gather (l.filter (· != n))).1 := same
    dsimp only
    rw [← (gathered.node p).children, ← incoming]
    split
    · exact ⟨rfl, gathered⟩
    · refine ⟨rfl, ?_⟩
      have seated := gathered.foldl (fun h c => h.setParent c (some p))
        (f.gather (l.filter (· != n))).1
      unfold Forest.seat
      dsimp only
      rw [← (seated.node p).children]
      exact (seated.setChildren p _).setParent n none

end

theorem descendants (h : f.Matches holds g) (n : NodeId) : f.descendants n = g.descendants n := by
  have below : ∀ fuel n, f.descendantsWith fuel n = g.descendantsWith fuel n := by
    intro fuel
    induction fuel with
    | zero => exact fun _ => rfl
    | succ fuel ih =>
      intro n
      simp only [Forest.descendantsWith, (h.node n).children, ih]
  unfold Forest.descendants
  rw [h.size, below]

theorem olderBelow (h : f.Matches holds g) (limit : Nat) (n : NodeId) :
    f.olderBelow limit n = g.olderBelow limit n := by
  have below : ∀ fuel n, f.olderBelowWith limit fuel n = g.olderBelowWith limit fuel n := by
    intro fuel
    induction fuel with
    | zero => exact fun _ => rfl
    | succ fuel ih =>
      intro n
      simp only [Forest.olderBelowWith, (h.node n).children, ih]
  unfold Forest.olderBelow
  rw [h.size, below]

end Matches
end Forest
end LiveMarkup.Dom
