import LiveMarkup.Proofs.Planting

/-!
Splicing: what the operations on links do to a copy into which other nodes are brought. The nodes of
the copy keep their one place below it, or lose it for good; nothing that is neither new nor brought
in comes below the copy.
-/
namespace LiveMarkup.Dom

namespace Forest
variable {f : Forest} {n p m q : NodeId}

theorem children_setParent (n : NodeId) (parent : Option NodeId) (m : NodeId) :
    ((f.setParent n parent).get m).children = (f.get m).children :=
  Heap.get_modify_same f n m (fun node => { node with parent }) Node.children fun _ => rfl

theorem parent_setParent_of_ne (parent : Option NodeId) (h : m ≠ n) :
    ((f.setParent n parent).get m).parent = (f.get m).parent := by
  rw [setParent, Heap.get_modify_of_ne _ _ _ _ h.symm]

theorem parent_setParent_self (parent : Option NodeId) (known : n.index < f.size) :
    ((f.setParent n parent).get n).parent = parent := by
  rw [setParent, Heap.get_modify_self _ _ _ known]

theorem parent_setChildren (n : NodeId) (children : List NodeId) (m : NodeId) :
    ((f.setChildren n children).get m).parent = (f.get m).parent :=
  Heap.get_modify_same f n m (fun node => { node with children }) Node.parent fun _ => rfl

theorem children_setChildren_of_ne (children : List NodeId) (h : m ≠ n) :
    ((f.setChildren n children).get m).children = (f.get m).children := by
  rw [setChildren, Heap.get_modify_of_ne _ _ _ _ h.symm]

theorem children_setChildren_self (children : List NodeId) (known : n.index < f.size) :
    ((f.setChildren n children).get n).children = children := by
  rw [setChildren, Heap.get_modify_self _ _ _ known]

/-- A node that was never made has nothing to say. -/
theorem get_unknown (unknown : f.size ≤ n.index) : f.get n = .alone .fragment :=
  Heap.get_of_size_le f n unknown

theorem known_of_mem_children (h : m ∈ (f.get p).children) : p.index < f.size := by
  rcases Nat.lt_or_ge p.index f.size with known | unknown
  · exact known
  · rw [get_unknown unknown] at h
    cases h

/-- The nodes that replacements stand for, taken out of their places. -/
def gather (f : Forest) (replacements : List NodeId) : List NodeId × Forest :=
  let (incoming, f) := f.takeAll replacements
  (incoming, incoming.foldl detach f)

/-- Puts nodes in the place of the child of `p` at a position. -/
def seat (f : Forest) (p n : NodeId) (position : Nat) (incoming : List NodeId) : Forest :=
  let f := incoming.foldl (fun f c => f.setParent c (some p)) f
  let children := (f.get p).children
  (f.setChildren p (children.take position ++ incoming ++ children.drop (position + 1))).setParent
    n none

theorem takeForInsertion_fragment (h : (f.get n).isFragment = true) :
    f.takeForInsertion n = ((f.get n).children,
      (f.get n).children.foldl (fun f c => f.setParent c none) (f.setChildren n [])) := by
  unfold takeForInsertion
  simp only [h, if_true]

theorem takeForInsertion_other (h : (f.get n).isFragment = false) :
    f.takeForInsertion n = ([n], f) := by
  unfold takeForInsertion
  simp [h]

theorem splice_orphan (h : (f.get n).parent = none) (replacements : List NodeId) :
    f.splice n replacements = (f, none) := by
  unfold splice
  rw [h]

theorem splice_child (h : (f.get n).parent = some p) (replacements : List NodeId) :
    f.splice n replacements =
      let (incoming, f₁) := f.gather (replacements.filter (· != n))
      match (f₁.get p).children.idxOf? n with
      | none => (f₁, none)
      | some position => (f₁.seat p n position incoming, some (p, incoming)) := by
  unfold splice
  rw [h]
  rfl

/-- Two forests have the same nodes, which may be linked differently. -/
structure Relinked (f f' : Forest) : Prop where
  size : f'.size = f.size
  content : ∀ n, (f'.get n).content = (f.get n).content
  connected : ∀ n, (f'.get n).connected = (f.get n).connected

namespace Relinked
variable {f₁ f₂ : Forest}

theorem refl (f : Forest) : Relinked f f :=
  ⟨rfl, fun _ => rfl, fun _ => rfl⟩

theorem trans (h : Relinked f f₁) (h' : Relinked f₁ f₂) : Relinked f f₂ :=
  ⟨h'.size.trans h.size, fun n => (h'.content n).trans (h.content n),
    fun n => (h'.connected n).trans (h.connected n)⟩

theorem modify (n : NodeId) (g : Node → Node) (content : ∀ m, (g m).content = m.content)
    (connected : ∀ m, (g m).connected = m.connected) : Relinked f (f.modify n g) :=
  ⟨Heap.size_modify f n g, fun m => Heap.get_modify_same f n m g Node.content content,
    fun m => Heap.get_modify_same f n m g Node.connected connected⟩

theorem setParent (n : NodeId) (parent : Option NodeId) : Relinked f (f.setParent n parent) :=
  modify n _ (fun _ => rfl) fun _ => rfl

theorem setChildren (n : NodeId) (children : List NodeId) :
    Relinked f (f.setChildren n children) :=
  modify n _ (fun _ => rfl) fun _ => rfl

theorem attach (p n : NodeId) : Relinked f (f.attach p n) :=
  (setParent n (some p)).trans (modify p _ (fun _ => rfl) fun _ => rfl)

theorem detach (n : NodeId) : Relinked f (f.detach n) := by
  unfold Forest.detach
  split
  · exact refl f
  case h_2 p _ =>
    exact (modify p (fun node => { node with children := node.children.erase n })
      (fun _ => rfl) fun _ => rfl).trans
        (modify n (fun node => { node with parent := none }) (fun _ => rfl) fun _ => rfl)

theorem foldl {g : Forest → NodeId → Forest} (step : ∀ f n, Relinked f (g f n))
    (l : List NodeId) : Relinked f (l.foldl g f) := by
  induction l generalizing f with
  | nil => exact refl f
  | cons n l ih => exact (step f n).trans ih

theorem takeForInsertion (n : NodeId) : Relinked f (f.takeForInsertion n).2 := by
  unfold Forest.takeForInsertion
  dsimp only
  split
  · exact (setChildren n []).trans (foldl (fun f c => setParent c none) _)
  · exact refl f

theorem takeAll (l : List NodeId) : Relinked f (f.takeAll l).2 := by
  induction l generalizing f with
  | nil => exact refl f
  | cons n l ih => exact (takeForInsertion n).trans ih

theorem setParents (l : List NodeId) (parent : Option NodeId) :
    Relinked f (l.foldl (fun f c => f.setParent c parent) f) :=
  foldl (fun f c => setParent (f := f) c parent) l

theorem gather (l : List NodeId) : Relinked f (f.gather l).2 :=
  (takeAll l).trans (foldl (fun f c => detach (f := f) c) _)

theorem seat (p n : NodeId) (position : Nat) (incoming : List NodeId) :
    Relinked f (f.seat p n position incoming) :=
  (setParents incoming (some p)).trans ((setChildren p _).trans (setParent n none))

theorem splice (n : NodeId) (replacements : List NodeId) :
    Relinked f (f.splice n replacements).1 := by
  cases parent : (f.get n).parent with
  | none =>
    rw [splice_orphan parent]
    exact refl f
  | some p =>
    rw [splice_child parent]
    dsimp only
    split
    · exact gather _
    · exact (gather _).trans (seat _ _ _ _)

theorem carries (h : Relinked f f₁) (name value : String) (n : NodeId) :
    f₁.Carries name value n ↔ f.Carries name value n := by
  unfold Carries
  rw [h.content]

end Relinked

/-! What single operations do to links. -/

theorem parent_detach_self (n : NodeId) : ((f.detach n).get n).parent = none := by
  unfold detach
  split
  case h_1 parent => exact parent
  case h_2 p parent =>
    rcases Nat.lt_or_ge n.index f.size with known | unknown
    · rw [Heap.get_modify_self]
      rwa [Heap.size_modify]
    · rw [get_unknown unknown] at parent
      cases parent

theorem parent_detach_of_ne (h : m ≠ n) : ((f.detach n).get m).parent = (f.get m).parent := by
  unfold detach
  split
  · rfl
  · rw [Heap.get_modify_of_ne _ _ _ _ h.symm]
    exact Heap.get_modify_same f _ m _ Node.parent fun _ => rfl

theorem children_detach_of_ne (h : (f.get n).parent ≠ some p) :
    ((f.detach n).get p).children = (f.get p).children := by
  unfold detach
  split
  · rfl
  case h_2 q parent =>
    have ne : q ≠ p := by
      rintro rfl
      exact h parent
    have linked := Heap.get_modify_same (f.modify q fun node =>
      { node with children := node.children.erase n }) n p
      (fun node => { node with parent := none }) Node.children fun _ => rfl
    rw [linked, Heap.get_modify_of_ne _ _ _ _ ne]

theorem children_detach (h : (f.get n).parent = some p) :
    ((f.detach n).get p).children = (f.get p).children.erase n := by
  unfold detach
  rw [h]
  have linked := Heap.get_modify_same (f.modify p fun node =>
    { node with children := node.children.erase n }) n p
    (fun node => { node with parent := none }) Node.children fun _ => rfl
  refine linked.trans ?_
  rcases Nat.lt_or_ge p.index f.size with known | unknown
  · rw [Heap.get_modify_self _ _ _ known]
  · rw [Heap.modify_of_size_le _ _ _ unknown, get_unknown unknown]
    rfl

/-- Taking a node out of its parent makes no list of children longer. -/
theorem children_detach_sublist (n p : NodeId) :
    ((f.detach n).get p).children.Sublist (f.get p).children := by
  by_cases h : (f.get n).parent = some p
  · rw [children_detach h]
    exact List.erase_sublist
  · simp only [children_detach_of_ne h, List.Sublist.refl]

/-- Only the node itself leaves a list of children. -/
theorem count_children_detach (h : m ≠ n) :
    ((f.detach n).get p).children.count m = (f.get p).children.count m := by
  by_cases parent : (f.get n).parent = some p
  · rw [children_detach parent, List.count_erase_of_ne h]
  · rw [children_detach_of_ne parent]

theorem children_attach_of_ne (h : q ≠ p) :
    ((f.attach p n).get q).children = (f.get q).children := by
  have other : (f.attach p n).get q = (f.setParent n (some p)).get q :=
    Heap.get_modify_of_ne _ _ _ _ h.symm
  rw [other, children_setParent]

theorem children_attach_self (known : p.index < f.size) :
    ((f.attach p n).get p).children = (f.get p).children ++ [n] := by
  have known' : p.index < (f.setParent n (some p)).size := by
    rw [(Relinked.setParent n (some p)).size]
    exact known
  have here : (f.attach p n).get p =
      { (f.setParent n (some p)).get p with
        children := ((f.setParent n (some p)).get p).children ++ [n] } :=
    Heap.get_modify_self _ _ _ known'
  rw [here, children_setParent]

theorem parent_attach_of_ne (h : m ≠ n) :
    ((f.attach p n).get m).parent = (f.get m).parent := by
  have linked := Heap.get_modify_same (f.setParent n (some p)) p m
    (fun node => { node with children := node.children ++ [n] }) Node.parent fun _ => rfl
  exact linked.trans (parent_setParent_of_ne _ h)

theorem parent_attach_self (known : n.index < f.size) :
    ((f.attach p n).get n).parent = some p := by
  have linked := Heap.get_modify_same (f.setParent n (some p)) p n
    (fun node => { node with children := node.children ++ [n] }) Node.parent fun _ => rfl
  exact linked.trans (parent_setParent_self _ known)

theorem children_setParents (l : List NodeId) (parent : Option NodeId) (m : NodeId) :
    ((l.foldl (fun f c => f.setParent c parent) f).get m).children = (f.get m).children := by
  induction l generalizing f with
  | nil => rfl
  | cons c l ih => exact (ih (f := f.setParent c parent)).trans (children_setParent c parent m)

theorem parent_setParents_of_notMem {l : List NodeId} (parent : Option NodeId) (h : m ∉ l) :
    ((l.foldl (fun f c => f.setParent c parent) f).get m).parent = (f.get m).parent := by
  induction l generalizing f with
  | nil => rfl
  | cons c l ih =>
    obtain ⟨ne, notMem⟩ := List.ne_and_not_mem_of_not_mem_cons h
    exact (ih (f := f.setParent c parent) notMem).trans (parent_setParent_of_ne parent ne)

theorem parent_setParents_of_mem {l : List NodeId} (parent : Option NodeId) (h : m ∈ l)
    (known : m.index < f.size) :
    ((l.foldl (fun f c => f.setParent c parent) f).get m).parent = parent := by
  induction l generalizing f with
  | nil => cases h
  | cons c l ih =>
    have known' : m.index < (f.setParent c parent).size := by
      rw [(Relinked.setParent c parent).size]
      exact known
    by_cases hl : m ∈ l
    · exact ih (f := f.setParent c parent) hl known'
    · have here : m = c := by
        rcases List.mem_cons.1 h with here | there
        · exact here
        · exact absurd there hl
      subst here
      refine (parent_setParents_of_notMem (f := f.setParent m parent) parent hl).trans ?_
      exact parent_setParent_self parent known

/-! What a fragment gives away. -/

theorem children_takeForInsertion (fragment : (f.get n).isFragment = true) (q : NodeId) :
    ((f.takeForInsertion n).2.get q).children = if q = n then [] else (f.get q).children := by
  rw [takeForInsertion_fragment fragment]
  dsimp only
  rw [children_setParents]
  split
  case isTrue hq =>
    subst hq
    rcases Nat.lt_or_ge q.index f.size with known | unknown
    · exact children_setChildren_self [] known
    · have unknown' : (f.setChildren q []).size ≤ q.index := by
        rw [(Relinked.setChildren q []).size]
        exact unknown
      rw [get_unknown unknown']
      rfl
  case isFalse hq => exact children_setChildren_of_ne [] hq

theorem parent_takeForInsertion_of_mem (fragment : (f.get n).isFragment = true)
    (h : m ∈ (f.get n).children) : ((f.takeForInsertion n).2.get m).parent = none := by
  have relinked : f.Relinked (f.takeForInsertion n).2 := .takeForInsertion n
  rcases Nat.lt_or_ge m.index f.size with known | unknown
  · have known' : m.index < (f.setChildren n []).size := by
      rw [(Relinked.setChildren n []).size]
      exact known
    rw [takeForInsertion_fragment fragment]
    exact parent_setParents_of_mem none h known'
  · rw [get_unknown (relinked.size ▸ unknown)]
    rfl

theorem parent_takeForInsertion_of_notMem (fragment : (f.get n).isFragment = true)
    (h : m ∉ (f.get n).children) :
    ((f.takeForInsertion n).2.get m).parent = (f.get m).parent := by
  rw [takeForInsertion_fragment fragment]
  exact (parent_setParents_of_notMem none h).trans (parent_setChildren n [] m)

/-! What taking several nodes out of their parents does to links. -/

theorem parent_detachAll_of_notMem {l : List NodeId} (h : m ∉ l) :
    ((l.foldl detach f).get m).parent = (f.get m).parent := by
  induction l generalizing f with
  | nil => rfl
  | cons n l ih =>
    obtain ⟨ne, notMem⟩ := List.ne_and_not_mem_of_not_mem_cons h
    exact (ih notMem).trans (parent_detach_of_ne ne)

theorem parent_detachAll_of_mem {l : List NodeId} (h : m ∈ l) :
    ((l.foldl detach f).get m).parent = none := by
  induction l generalizing f with
  | nil => cases h
  | cons n l ih =>
    by_cases later : m ∈ l
    · exact ih later
    · have here : m = n := (List.mem_cons.1 h).resolve_right later
      subst here
      exact (parent_detachAll_of_notMem later).trans (parent_detach_self m)

/-! What seating nodes in the place of another does to links. -/

/-- Around the first place of a member. -/
theorem split_of_idxOf? {l : List NodeId} {position : Nat} (h : l.idxOf? n = some position) :
    l = l.take position ++ n :: l.drop (position + 1) := by
  unfold List.idxOf? at h
  obtain ⟨lt, found, -⟩ := List.findIdx?_eq_some_iff_getElem.1 h
  have cut : l.drop position = l[position] :: l.drop (position + 1) :=
    List.drop_eq_getElem_cons lt
  calc l = l.take position ++ l.drop position := (List.take_append_drop ..).symm
    _ = l.take position ++ n :: l.drop (position + 1) := by rw [cut, eq_of_beq found]

section
variable {position : Nat} {incoming : List NodeId}

theorem mem_of_idxOf? {l : List NodeId} (h : l.idxOf? n = some position) : n ∈ l := by
  rw [split_of_idxOf? h]
  exact List.mem_append_right _ List.mem_cons_self

theorem seat_eq : f.seat p n position incoming =
    ((incoming.foldl (fun f c => f.setParent c (some p)) f).setChildren p
      ((f.get p).children.take position ++ incoming ++
        (f.get p).children.drop (position + 1))).setParent n none := by
  unfold seat
  dsimp only
  rw [children_setParents]

theorem children_seat_of_ne (h : q ≠ p) :
    ((f.seat p n position incoming).get q).children = (f.get q).children := by
  rw [seat_eq, children_setParent, children_setChildren_of_ne _ h, children_setParents]

/-- The place of `n` goes to the nodes that come in. -/
theorem children_seat_self (found : (f.get p).children.idxOf? n = some position)
    (incoming : List NodeId) : ((f.seat p n position incoming).get p).children =
      (f.get p).children.take position ++ incoming ++ (f.get p).children.drop (position + 1) := by
  have known : p.index < (incoming.foldl (fun f c => f.setParent c (some p)) f).size := by
    rw [(Relinked.setParents (f := f) incoming (some p)).size]
    exact known_of_mem_children (mem_of_idxOf? found)
  rw [seat_eq, children_setParent, children_setChildren_self _ known]

theorem count_children_seat (found : (f.get p).children.idxOf? n = some position)
    (incoming : List NodeId) (c : NodeId) :
    ((f.seat p n position incoming).get p).children.count c + (if n = c then 1 else 0) =
      (f.get p).children.count c + incoming.count c := by
  have before := congrArg (List.count c) (split_of_idxOf? found)
  rw [children_seat_self found]
  simp only [List.count_append, List.count_cons, beq_iff_eq] at before ⊢
  omega

theorem parent_seat_of_mem (ne : m ≠ n) (known : m.index < f.size) (h : m ∈ incoming) :
    ((f.seat p n position incoming).get m).parent = some p := by
  rw [seat_eq, parent_setParent_of_ne none ne, parent_setChildren]
  exact parent_setParents_of_mem (some p) h known

theorem parent_seat_of_notMem (ne : m ≠ n) (h : m ∉ incoming) :
    ((f.seat p n position incoming).get m).parent = (f.get m).parent := by
  rw [seat_eq, parent_setParent_of_ne none ne, parent_setChildren]
  exact parent_setParents_of_notMem (some p) h

theorem parent_seat_self : ((f.seat p n position incoming).get n).parent = none := by
  rw [seat_eq]
  rcases Nat.lt_or_ge n.index f.size with known | unknown
  · refine parent_setParent_self none ?_
    rw [(Relinked.setChildren p _).size, (Relinked.setParents incoming (some p)).size]
    exact known
  · have relinked : f.Relinked (f.seat p n position incoming) := .seat p n position incoming
    rw [← seat_eq, get_unknown (relinked.size ▸ unknown)]
    rfl

theorem mem_children_seat (found : (f.get p).children.idxOf? n = some position)
    (h : m ∈ ((f.seat p n position incoming).get q).children) :
    m ∈ (f.get q).children ∨ q = p ∧ m ∈ incoming := by
  by_cases hq : q = p
  · subst hq
    have left := List.count_pos_iff.2 h
    have total := count_children_seat found incoming m
    by_cases hm : m ∈ incoming
    · exact .inr ⟨rfl, hm⟩
    · have none := List.count_eq_zero.2 hm
      exact .inl (List.count_pos_iff.1 (by omega))
  · rw [children_seat_of_ne hq] at h
    exact .inl h

/-- What seating comes to where no node has two places. -/
structure Seated (f f' : Forest) (p n : NodeId) (incoming : List NodeId) : Prop where
  relinked : f.Relinked f'
  out : (f'.get n).parent = none
  into : ∀ c ∈ incoming, (f'.get c).parent = some p
  parent : ∀ c, c ≠ n → c ∉ incoming → (f'.get c).parent = (f.get c).parent
  children : ∀ q, q ≠ p → (f'.get q).children = (f.get q).children
  mem : ∀ c, c ∈ (f'.get p).children ↔ c ≠ n ∧ (c ∈ (f.get p).children ∨ c ∈ incoming)
  nodup : (f'.get p).children.Nodup

theorem seated (found : (f.get p).children.idxOf? n = some position)
    (once : (f.get p).children.Nodup) (fresh : incoming.Nodup)
    (apart : ∀ c ∈ incoming, c ≠ n ∧ c.index < f.size ∧ c ∉ (f.get p).children) :
    Seated f (f.seat p n position incoming) p n incoming := by
  have none : incoming.count n = 0 := List.count_eq_zero.2 fun h => (apart n h).1 rfl
  have total := fun c => count_children_seat found incoming c
  have once := List.nodup_iff_count.1 once
  have fresh := List.nodup_iff_count.1 fresh
  have exclusive : ∀ c, c ∈ incoming → (f.get p).children.count c = 0 :=
    fun c hc => List.count_eq_zero.2 (apart c hc).2.2
  refine ⟨.seat p n position incoming, parent_seat_self,
    fun c hc => parent_seat_of_mem (apart c hc).1 (apart c hc).2.1 hc,
    fun c ne hc => parent_seat_of_notMem ne hc, fun q hq => children_seat_of_ne hq, fun c => ?_,
    List.nodup_iff_count.2 fun c => ?_⟩
  · rw [← List.count_pos_iff, ← List.count_pos_iff, ← List.count_pos_iff]
    have here := total c
    by_cases hc : n = c
    · subst hc
      have before := once n
      rw [if_pos rfl] at here
      simp only [ne_eq, not_true_eq_false, false_and, iff_false]
      omega
    · rw [if_neg hc] at here
      simp only [ne_eq, Ne.symm hc, not_false_eq_true, true_and]
      omega
  · have here := total c
    have before := once c
    have more := fresh c
    by_cases hc : c ∈ incoming
    · have := exclusive c hc
      omega
    · have := List.count_eq_zero.2 hc
      omega

end

end Forest

open Forest

/-- A copy, and the nodes that are brought into it. -/
structure Scene where
  /-- The copy has the nodes from `first` on and before `last`. -/
  first : Nat
  last : Nat
  ordered : first ≤ last
  brought : NodeId → Prop
  old : ∀ n, brought n → n.index < first

namespace Scene
variable (sc : Scene)

/-- The nodes of the copy. -/
def Copied (n : NodeId) : Prop :=
  sc.first ≤ n.index ∧ n.index < sc.last

/-- The nodes that may come below the copy: new ones and those brought in. -/
def Inside (n : NodeId) : Prop :=
  sc.brought n ∨ sc.first ≤ n.index

/-- The nodes that may come below the copy and are not of it. -/
def Foreign (n : NodeId) : Prop :=
  sc.Inside n ∧ ¬ sc.Copied n

/-- No node that may come below the copy has this one as its child. -/
def Astray (f : Forest) (n : NodeId) : Prop :=
  ∀ p, sc.Inside p → n ∉ (f.get p).children

/-- Nothing comes below the copy from outside, and its nodes have one place at most. -/
structure Tidy (f : Forest) : Prop where
  size : sc.last ≤ f.size
  closed : ∀ p, sc.Inside p → ∀ c ∈ (f.get p).children, sc.Inside c
  parent : ∀ p, sc.Inside p → ∀ c, sc.Copied c → c ∈ (f.get p).children →
    (f.get c).parent = some p
  once : ∀ p, sc.Inside p → ∀ c, sc.Copied c → (f.get p).children.count c ≤ 1

/-- Neither a node that may come below the copy nor its parent is mounted. -/
def Unmounted (f : Forest) : Prop :=
  ∀ n, sc.Inside n → (f.get n).connected = false ∧
    ∀ p, (f.get n).parent = some p → (f.get p).connected = false

variable {sc : Scene} {f f' f₁ f₂ : Forest} {n p c : NodeId}

theorem Inside.of_copied (h : sc.Copied n) : sc.Inside n :=
  .inr h.1

theorem Foreign.of_brought (h : sc.brought n) : sc.Foreign n :=
  ⟨.inl h, fun copied => Nat.lt_irrefl _ (Nat.lt_of_lt_of_le (sc.old n h) copied.1)⟩

theorem Foreign.of_last_le (h : sc.last ≤ n.index) : sc.Foreign n :=
  ⟨.inr (Nat.le_trans sc.ordered h), fun copied => absurd copied.2 (Nat.not_lt.2 h)⟩

theorem Tidy.known (h : sc.Tidy f) (copied : sc.Copied n) : n.index < f.size :=
  Nat.lt_of_lt_of_le copied.2 h.size

/-- What a change of links comes to that keeps the order below a copy. -/
structure Moved (sc : Scene) (f f' : Forest) : Prop where
  relinked : f.Relinked f'
  tidy : sc.Tidy f'
  astray : ∀ n, sc.Copied n → sc.Astray f n → sc.Astray f' n
  unmounted : sc.Unmounted f → sc.Unmounted f'

theorem Moved.refl (h : sc.Tidy f) : sc.Moved f f :=
  ⟨.refl f, h, fun _ _ hn => hn, fun hu => hu⟩

theorem Moved.trans (h : sc.Moved f f₁) (h' : sc.Moved f₁ f₂) : sc.Moved f f₂ :=
  ⟨h.relinked.trans h'.relinked, h'.tidy, fun n hc hn => h'.astray n hc (h.astray n hc hn),
    fun hu => h'.unmounted (h.unmounted hu)⟩

/-- What a change of links comes to that only takes links away. -/
structure Thinned (sc : Scene) (f f' : Forest) : Prop where
  relinked : f.Relinked f'
  children : ∀ p, (f'.get p).children.Sublist (f.get p).children
  parent : ∀ n, (f'.get n).parent = (f.get n).parent ∨ (f'.get n).parent = none
  kept : ∀ p, sc.Inside p → ∀ c, sc.Copied c → c ∈ (f'.get p).children →
    (f'.get c).parent = (f.get c).parent

namespace Thinned

theorem refl (f : Forest) : sc.Thinned f f :=
  ⟨.refl f, fun _ => List.Sublist.refl _, fun _ => .inl rfl, fun _ _ _ _ _ => rfl⟩

theorem trans (h : sc.Thinned f f₁) (h' : sc.Thinned f₁ f₂) : sc.Thinned f f₂ := by
  refine ⟨h.relinked.trans h'.relinked, fun p => (h'.children p).trans (h.children p),
    fun n => ?_, fun p hp c hc hm => ?_⟩
  · rcases h'.parent n with same | gone
    · rw [same]
      exact h.parent n
    · exact .inr gone
  · rw [h'.kept p hp c hc hm]
    exact h.kept p hp c hc ((h'.children p).subset hm)

theorem astray (h : sc.Thinned f f') (hn : sc.Astray f n) : sc.Astray f' n :=
  fun p hp hm => hn p hp ((h.children p).subset hm)

theorem tidy (h : sc.Thinned f f') (tidy : sc.Tidy f) : sc.Tidy f' := by
  refine ⟨?_, fun p hp c hc => ?_, fun p hp c hc hm => ?_, fun p hp c hc => ?_⟩
  · rw [h.relinked.size]
    exact tidy.size
  · exact tidy.closed p hp c ((h.children p).subset hc)
  · rw [h.kept p hp c hc hm]
    exact tidy.parent p hp c hc ((h.children p).subset hm)
  · exact Nat.le_trans ((h.children p).count_le c) (tidy.once p hp c hc)

theorem unmounted (h : sc.Thinned f f') (hu : sc.Unmounted f) : sc.Unmounted f' := by
  intro n hn
  obtain ⟨here, above⟩ := hu n hn
  refine ⟨by rw [h.relinked.connected, here], fun p hp => ?_⟩
  rw [h.relinked.connected]
  rcases h.parent n with same | gone
  · exact above p (same ▸ hp)
  · rw [gone] at hp
    cases hp

theorem moved (h : sc.Thinned f f') (tidy : sc.Tidy f) : sc.Moved f f' :=
  ⟨h.relinked, h.tidy tidy, fun _ _ hn => h.astray hn, h.unmounted⟩

end Thinned

/-- The nodes that are taken for an insertion: what they were before and what they are now. -/
structure Taken (sc : Scene) (f : Forest) (incoming : List NodeId) (f' : Forest) : Prop where
  thinned : sc.Thinned f f'
  inside : ∀ c ∈ incoming, sc.Inside c
  placed : ∀ c ∈ incoming, sc.Copied c → ¬ sc.Astray f c
  free : ∀ c ∈ incoming, sc.Copied c → sc.Astray f' c
  once : ∀ c, sc.Copied c → incoming.count c ≤ 1

namespace Tidy

theorem detach (h : sc.Tidy f) (n : NodeId) : sc.Thinned f (f.detach n) := by
  refine ⟨.detach n, fun p => children_detach_sublist n p, fun m => ?_, fun p hp c hc hm => ?_⟩
  · by_cases hmn : m = n
    · subst hmn
      exact .inr (parent_detach_self m)
    · exact .inl (parent_detach_of_ne hmn)
  · by_cases hcn : c = n
    · subst hcn
      have mem := (children_detach_sublist c p).subset hm
      rw [children_detach (h.parent p hp c hc mem)] at hm
      have erased : ((f.get p).children.erase c).count c = (f.get p).children.count c - 1 :=
        List.count_erase_self
      have once := h.once p hp c hc
      have left := List.count_pos_iff.2 hm
      omega
    · exact parent_detach_of_ne hcn

theorem astray_detach (h : sc.Tidy f) (copied : sc.Copied n) : sc.Astray (f.detach n) n := by
  intro p hp hm
  have kept := (h.detach n).kept p hp n copied hm
  have mem := (children_detach_sublist n p).subset hm
  rw [parent_detach_self, h.parent p hp n copied mem] at kept
  cases kept

theorem detachAll (h : sc.Tidy f) (l : List NodeId) :
    sc.Thinned f (l.foldl Forest.detach f) := by
  induction l generalizing f with
  | nil => exact .refl f
  | cons n l ih =>
    have first := h.detach n
    exact first.trans (ih (first.tidy h))

theorem attach (h : sc.Tidy f) (hp : sc.Inside p) (known : p.index < f.size) (hn : sc.Inside n)
    (free : sc.Copied n → sc.Astray f n) :
    sc.Tidy (f.attach p n) ∧ (sc.Unmounted f → sc.Unmounted (f.attach p n)) := by
  have mem : ∀ q c, c ∈ ((f.attach p n).get q).children →
      c ∈ (f.get q).children ∨ q = p ∧ c = n := by
    intro q c hc
    by_cases hq : q = p
    · subst hq
      rw [children_attach_self known] at hc
      rcases List.mem_append.1 hc with hc | hc
      · exact .inl hc
      · exact .inr ⟨rfl, List.mem_singleton.1 hc⟩
    · rw [children_attach_of_ne hq] at hc
      exact .inl hc
  constructor
  · refine ⟨?_, fun q hq c hc => ?_, fun q hq c hc hm => ?_, fun q hq c hc => ?_⟩
    · rw [size_attach]
      exact h.size
    · rcases mem q c hc with hc | ⟨-, rfl⟩
      · exact h.closed q hq c hc
      · exact hn
    · rcases mem q c hm with before | ⟨rfl, rfl⟩
      · have ne : c ≠ n := by
          rintro rfl
          exact free hc q hq before
        rw [parent_attach_of_ne ne]
        exact h.parent q hq c hc before
      · exact parent_attach_self (h.known hc)
    · by_cases hqp : q = p
      · subst hqp
        rw [children_attach_self known, List.count_append]
        by_cases hcn : c = n
        · subst hcn
          have none := List.count_eq_zero.2 (free hc q hq)
          simp [none]
        · have other : [n].count c = 0 := List.count_eq_zero.2 (by simp [hcn])
          have once := h.once q hq c hc
          omega
      · rw [children_attach_of_ne hqp]
        exact h.once q hq c hc
  · intro hu m hm
    have connected := (Relinked.attach (f := f) p n).connected
    rw [connected]
    refine ⟨(hu m hm).1, fun q hq => ?_⟩
    rw [connected]
    by_cases hmn : m = n
    · subst hmn
      rcases Nat.lt_or_ge m.index f.size with hlt | hge
      · rw [parent_attach_self hlt] at hq
        cases hq
        exact (hu p hp).1
      · have unknown : (f.attach p m).size ≤ m.index := by
          rw [size_attach]
          exact hge
        rw [get_unknown unknown] at hq
        cases hq
    · rw [parent_attach_of_ne hmn] at hq
      exact (hu m hm).2 q hq

/-- A fragment gives its children away. -/
theorem takeChildren (h : sc.Tidy f) (hn : sc.Inside n) (fragment : (f.get n).isFragment = true) :
    sc.Taken f (f.takeForInsertion n).1 (f.takeForInsertion n).2 := by
  have relinked : f.Relinked (f.takeForInsertion n).2 := .takeForInsertion n
  have children := children_takeForInsertion fragment
  have taken : ∀ m ∈ (f.get n).children, ((f.takeForInsertion n).2.get m).parent = none :=
    fun m hm => parent_takeForInsertion_of_mem fragment hm
  have other : ∀ m, m ∉ (f.get n).children →
      ((f.takeForInsertion n).2.get m).parent = (f.get m).parent :=
    fun m hm => parent_takeForInsertion_of_notMem fragment hm
  rw [takeForInsertion_fragment fragment] at relinked children taken other ⊢
  let f₂ := (f.get n).children.foldl (fun f c => f.setParent c none) (f.setChildren n [])
  have mem : ∀ q c, c ∈ (f₂.get q).children → q ≠ n ∧ c ∈ (f.get q).children := by
    intro q c hc
    rw [children] at hc
    split at hc
    · cases hc
    case isFalse hq => exact ⟨hq, hc⟩
  -- A node has one parent, so what stays in its place was no child of `n`.
  have elsewhere : ∀ q, sc.Inside q → ∀ c, sc.Copied c → c ∈ (f₂.get q).children →
      c ∉ (f.get n).children := by
    intro q hq c hc hm below
    obtain ⟨ne, before⟩ := mem q c hm
    have here := h.parent q hq c hc before
    rw [h.parent n hn c hc below] at here
    exact ne (Option.some.inj here).symm
  refine ⟨⟨relinked, fun q => ?_, fun m => ?_, fun q hq c hc hm => ?_⟩, fun c hc => ?_,
    fun c hc copied => ?_, fun c hc copied => ?_, fun c hc => ?_⟩
  · rw [children]
    split
    · exact List.nil_sublist _
    · exact List.Sublist.refl _
  · by_cases hm : m ∈ (f.get n).children
    · exact .inr (taken m hm)
    · exact .inl (other m hm)
  · exact other c (elsewhere q hq c hc hm)
  · exact h.closed n hn c hc
  · exact fun astray => astray n hn hc
  · exact fun q hq hm => elsewhere q hq c copied hm hc
  · exact h.once n hn c hc

theorem takeForInsertion (h : sc.Tidy f) (foreign : sc.Foreign n) :
    sc.Taken f (f.takeForInsertion n).1 (f.takeForInsertion n).2 := by
  cases fragment : (f.get n).isFragment with
  | true => exact h.takeChildren foreign.1 fragment
  | false =>
    rw [takeForInsertion_other fragment]
    refine ⟨.refl f, ?_, ?_, ?_, fun c hc => ?_⟩
    · simpa using foreign.1
    · simpa using fun copied => absurd copied foreign.2
    · simpa using fun copied => absurd copied foreign.2
    · have ne : c ≠ n := by
        rintro rfl
        exact foreign.2 hc
      simp [ne.symm]

theorem takeAll (h : sc.Tidy f) {l : List NodeId} (hl : ∀ n ∈ l, sc.Foreign n) :
    sc.Taken f (f.takeAll l).1 (f.takeAll l).2 := by
  induction l generalizing f with
  | nil =>
    refine ⟨.refl f, ?_, ?_, ?_, ?_⟩
    all_goals simp [Forest.takeAll]
  | cons n l ih =>
    obtain ⟨foreign, rest⟩ := List.forall_mem_cons.1 hl
    have first := h.takeForInsertion foreign
    have more := ih (first.thinned.tidy h) rest
    have apart : ∀ c, sc.Copied c → c ∈ (f.takeForInsertion n).1 →
        c ∉ ((f.takeForInsertion n).2.takeAll l).1 := by
      intro c copied hc hm
      exact more.placed c hm copied (first.free c hc copied)
    refine ⟨first.thinned.trans more.thinned, fun c hc => ?_, fun c hc copied => ?_,
      fun c hc copied => ?_, fun c copied => ?_⟩
    · rcases List.mem_append.1 hc with hc | hc
      · exact first.inside c hc
      · exact more.inside c hc
    · rcases List.mem_append.1 hc with hc | hc
      · exact first.placed c hc copied
      · exact fun astray => more.placed c hc copied (first.thinned.astray astray)
    · rcases List.mem_append.1 hc with hc | hc
      · exact more.thinned.astray (first.free c hc copied)
      · exact more.free c hc copied
    · have appended : (f.takeAll (n :: l)).1 =
          (f.takeForInsertion n).1 ++ ((f.takeForInsertion n).2.takeAll l).1 := rfl
      rw [appended, List.count_append]
      have once := first.once c copied
      have once' := more.once c copied
      by_cases hc : c ∈ (f.takeForInsertion n).1
      · have none := List.count_eq_zero.2 (apart c copied hc)
        omega
      · have none := List.count_eq_zero.2 hc
        omega

theorem gather (h : sc.Tidy f) {l : List NodeId} (hl : ∀ n ∈ l, sc.Foreign n) :
    sc.Taken f (f.gather l).1 (f.gather l).2 := by
  have taken := h.takeAll hl
  have out := (taken.thinned.tidy h).detachAll (f.takeAll l).1
  exact ⟨taken.thinned.trans out, taken.inside, taken.placed,
    fun c hc copied => out.astray (taken.free c hc copied), taken.once⟩

/-- Seating nodes in the place of `n`, which has no place but the one below `p`. -/
theorem seat (h : sc.Tidy f) {position : Nat}
    (found : (f.get p).children.idxOf? n = some position) {incoming : List NodeId}
    (inside : ∀ c ∈ incoming, sc.Inside c)
    (free : ∀ c ∈ incoming, sc.Copied c → sc.Astray f c)
    (once : ∀ c, sc.Copied c → incoming.count c ≤ 1)
    (home : ∀ q, sc.Inside q → sc.Copied n → n ∈ (f.get q).children → q = p) :
    sc.Tidy (f.seat p n position incoming) ∧
      (∀ c, sc.Copied c → sc.Astray f c → c ∉ incoming →
        sc.Astray (f.seat p n position incoming) c) ∧
      (sc.Copied n → sc.Astray (f.seat p n position incoming) n) := by
  have mem : n ∈ (f.get p).children := mem_of_idxOf? found
  have total := fun c => count_children_seat found incoming c
  have gone : sc.Copied n → sc.Astray (f.seat p n position incoming) n := by
    intro copied q hq hm
    have here : q = p := by
      rcases mem_children_seat found hm with before | ⟨here, -⟩
      · exact home q hq copied before
      · exact here
    subst here
    have left := List.count_pos_iff.2 hm
    have here := total n
    rw [if_pos rfl] at here
    have before := h.once q hq n copied
    have none : incoming.count n = 0 := by
      refine List.count_eq_zero.2 fun back => ?_
      exact free n back copied q hq mem
    omega
  refine ⟨⟨?_, fun q hq c hc => ?_, fun q hq c copied hm => ?_, fun q hq c copied => ?_⟩,
    fun c _ astray hc q hq hm => ?_, gone⟩
  · rw [(Relinked.seat p n position incoming).size]
    exact h.size
  · rcases mem_children_seat found hc with before | ⟨-, hc⟩
    · exact h.closed q hq c before
    · exact inside c hc
  · have ne : c ≠ n := by
      rintro rfl
      exact gone copied q hq hm
    rcases mem_children_seat found hm with before | ⟨rfl, hc⟩
    · have notMem : c ∉ incoming := fun hc => free c hc copied q hq before
      rw [parent_seat_of_notMem ne notMem]
      exact h.parent q hq c copied before
    · exact parent_seat_of_mem ne (h.known copied) hc
  · by_cases hqp : q = p
    · subst hqp
      have here := total c
      have before := h.once q hq c copied
      by_cases hc : c ∈ incoming
      · have none := List.count_eq_zero.2 (free c hc copied q hq)
        have one := once c copied
        omega
      · have none := List.count_eq_zero.2 hc
        omega
    · rw [children_seat_of_ne hqp]
      exact h.once q hq c copied
  · rcases mem_children_seat found hm with before | ⟨-, back⟩
    · exact astray q hq before
    · exact hc back

theorem unmounted_seat {position : Nat} {incoming : List NodeId} (hu : sc.Unmounted f)
    (apart : (f.get p).connected = false) :
    sc.Unmounted (f.seat p n position incoming) := by
  intro m hm
  have connected := (Relinked.seat (f := f) p n position incoming).connected
  rw [connected]
  refine ⟨(hu m hm).1, fun q hq => ?_⟩
  rw [connected]
  by_cases hmn : m = n
  · subst hmn
    rw [parent_seat_self] at hq
    cases hq
  · by_cases hin : m ∈ incoming
    · rcases Nat.lt_or_ge m.index f.size with hlt | hge
      · rw [parent_seat_of_mem hmn hlt hin] at hq
        cases hq
        exact apart
      · have unknown : (f.seat p n position incoming).size ≤ m.index := by
          rw [(Relinked.seat p n position incoming).size]
          exact hge
        rw [get_unknown unknown] at hq
        cases hq
    · rw [parent_seat_of_notMem hmn hin] at hq
      exact (hu m hm).2 q hq

/-- What putting nodes in the place of another comes to: the nodes that come in are inside, and the
other one has lost its place. -/
theorem splice (h : sc.Tidy f) (hn : sc.Inside n) {l : List NodeId}
    (foreign : ∀ m ∈ l, sc.Foreign m) :
    sc.Moved f (f.splice n l).1 ∧
      (sc.Copied n → sc.Astray (f.splice n l).1 n) ∧
      ∀ p incoming, (f.splice n l).2 = some (p, incoming) →
        (f.get n).parent = some p ∧ ∀ c ∈ incoming, sc.Inside c := by
  cases parent : (f.get n).parent with
  | none =>
    rw [splice_orphan parent]
    refine ⟨.refl h, fun copied q hq hm => ?_, fun p incoming eq => by cases eq⟩
    rw [h.parent q hq n copied hm] at parent
    cases parent
  | some p =>
    have taken := h.gather (l := l.filter (· != n))
      fun m hm => foreign m (List.mem_filter.1 hm).1
    have tidy := taken.thinned.tidy h
    -- The one place that `n` may still have is below its parent of before.
    have home : ∀ q, sc.Inside q → sc.Copied n →
        n ∈ ((f.gather (l.filter (· != n))).2.get q).children → q = p := by
      intro q hq copied hm
      have kept := taken.thinned.kept q hq n copied hm
      rw [tidy.parent q hq n copied hm, parent] at kept
      exact Option.some.inj kept
    rw [splice_child parent]
    dsimp only
    split
    case h_1 missing =>
      refine ⟨taken.thinned.moved h, fun copied q hq hm => ?_, fun _ _ eq => by cases eq⟩
      have here := home q hq copied hm
      subst here
      exact List.idxOf?_eq_none_iff.1 missing hm
    case h_2 position found =>
      have seated := tidy.seat found taken.inside taken.free taken.once home
      refine ⟨⟨?_, seated.1, fun c copied astray => ?_, fun hu => ?_⟩, seated.2.2,
        fun q incoming eq => ?_⟩
      · exact taken.thinned.relinked.trans (.seat p n position _)
      · exact seated.2.1 c copied (taken.thinned.astray astray)
          fun hm => taken.placed c hm copied astray
      · have below := taken.thinned.unmounted hu
        refine unmounted_seat below ?_
        rw [taken.thinned.relinked.connected]
        exact (hu n hn).2 p parent
      · cases eq
        exact ⟨rfl, taken.inside⟩

/-- Appending moves a node, and no other. -/
theorem append (h : sc.Tidy f) (hp : sc.Inside p) (known : p.index < f.size) (hn : sc.Inside n) :
    sc.Tidy ((f.detach n).attach p n) ∧
      (sc.Unmounted f → sc.Unmounted ((f.detach n).attach p n)) ∧
      ∀ c, c ≠ n → sc.Astray f c → sc.Astray ((f.detach n).attach p n) c := by
  have out := h.detach n
  have known' : p.index < (f.detach n).size := by
    rw [(Relinked.detach n).size]
    exact known
  obtain ⟨tidy, unmounted⟩ := (out.tidy h).attach hp known' hn h.astray_detach
  refine ⟨tidy, fun hu => unmounted (out.unmounted hu), fun c ne astray q hq hm => ?_⟩
  by_cases hqp : q = p
  · subst hqp
    rw [children_attach_self known'] at hm
    rcases List.mem_append.1 hm with hm | hm
    · exact out.astray astray q hq hm
    · exact ne (List.mem_singleton.1 hm)
  · rw [children_attach_of_ne hqp] at hm
    exact out.astray astray q hq hm

end Tidy

/-- A fresh copy, and nodes of before that are closed under children. -/
def planted {trees : List Markup.Tree} (h : Planted f trees f') (brought : NodeId → Prop)
    (old : ∀ n, brought n → n.index < f.size) : Scene where
  first := f.size
  last := f'.size
  ordered := Nat.le_of_lt h.size
  brought := brought
  old := old

section
variable {trees : List Markup.Tree} (h : Planted f trees f') {brought : NodeId → Prop}
  {old : ∀ n, brought n → n.index < f.size}

theorem tidy_planted (closed : ∀ p, brought p → ∀ c ∈ (f.get p).children, brought c) :
    (planted h brought old).Tidy f' := by
  refine ⟨Nat.le_refl _, fun p hp c hc => ?_, fun p hp c copied hc => ?_,
    fun p hp c copied => ?_⟩
  · rcases hp with hp | hp
    · rw [h.old p (old p hp)] at hc
      exact .inl (closed p hp c hc)
    · exact .inr (Nat.le_trans hp (Nat.le_of_lt (h.grown.child p hp c hc).1))
  · rcases hp with hp | hp
    · rw [h.old p (old p hp)] at hc
      exact absurd (old c (closed p hp c hc)) (Nat.not_lt.2 copied.1)
    · exact (h.grown.child p hp c hc).2.2
  · rcases hp with hp | hp
    · rw [h.old p (old p hp)]
      have none : (f.get p).children.count c = 0 := by
        refine List.count_eq_zero.2 fun hc => ?_
        exact absurd (old c (closed p hp c hc)) (Nat.not_lt.2 copied.1)
      omega
    · exact List.nodup_iff_count.1 (h.grown.nodup p hp) c

theorem unmounted_planted
    (apart : ∀ n, brought n → (f.get n).connected = false ∧
      ∀ p, (f.get n).parent = some p → (f.get p).connected = false) :
    (planted h brought old).Unmounted f' := by
  have unknown : ∀ n, f.size ≤ n.index → (f'.get n).connected = false := by
    intro n hn
    rw [h.unconnected, get_unknown hn]
    rfl
  intro n hn
  rcases hn with hn | hn
  · rw [h.old n (old n hn)]
    refine ⟨(apart n hn).1, fun p hp => ?_⟩
    rw [h.unconnected]
    exact (apart n hn).2 p hp
  · exact ⟨unknown n hn, fun p hp => unknown p (h.grown.parent n p hn hp).1⟩

end
end Scene
end LiveMarkup.Dom
