import LiveMarkup.Proofs.Transitions
import Mathlib.Data.List.Basic
import Mathlib.Data.List.Flatten
import Mathlib.Data.List.Nodup

/-!
Replacement: what stands where a node was that others have replaced. They stand there in their order,
fragments opened and each node once, and have left the places that they came from, just if no node is
reached in two ways: listed twice, or listed and also in a fragment that is listed.
-/
namespace LiveMarkup.Dom

/-- Part of a list, given by its members. -/
theorem eq_filter_of_sublist {α : Type} {l l' : List α} {P : α → Bool} (sub : l'.Sublist l)
    (nodup : l.Nodup) (mem : ∀ c, c ∈ l' ↔ c ∈ l ∧ P c = true) : l' = l.filter P := by
  have kept : l'.filter P = l' := List.filter_eq_self.2 fun c hc => ((mem c).1 hc).2
  have into : l'.Sublist (l.filter P) := kept ▸ sub.filter P
  have perm : l'.Perm (l.filter P) := by
    refine (List.perm_ext_iff_of_nodup (nodup.sublist sub) (nodup.filter P)).2 fun c => ?_
    rw [mem, List.mem_filter]
  exact into.eq_of_length perm.length_eq

/-- A list without repetitions falls apart in one way at a member. -/
theorem split_unique {α : Type} {n : α} {a b a' b' : List α} (h : a ++ n :: b = a' ++ n :: b')
    (nodup : (a ++ n :: b).Nodup) : a = a' ∧ b = b' := by
  obtain ⟨-, tail, apart⟩ := List.nodup_append.1 nodup
  have left : n ∉ a := fun hn => apart n hn n List.mem_cons_self rfl
  obtain ⟨rfl, -, rfl⟩ := (List.append_cons_inj_of_notMem left (List.nodup_cons.1 tail).1).1 h
  exact ⟨rfl, rfl⟩

namespace Forest
variable {f f' f₂ : Forest} {c m n p q r : NodeId} {l inserted : List NodeId}

/-- A node as it stands somewhere else: a fragment is opened. -/
def opened (f : Forest) (r : NodeId) : List NodeId :=
  if (f.get r).isFragment then (f.get r).children else [r]

/-- The nodes that stand in for a list of nodes in place of `n`, which itself is passed over. -/
def expansion (f : Forest) (n : NodeId) (l : List NodeId) : List NodeId :=
  (l.filter (· != n)).flatMap f.opened

/-- Nodes of a list have taken the place of `n` below `p`. -/
structure Spliced (f f' : Forest) (n p : NodeId) (l inserted : List NodeId) : Prop where
  /-- What was inserted is what stands in for the list, in that order and each node once. -/
  order : inserted.Sublist (f.expansion n l)
  all : ∀ c ∈ f.expansion n l, c ∈ inserted
  once : inserted.Nodup
  place : ∃ left right, (f.get p).children = left ++ n :: right ∧
    (f'.get p).children = left.filter (· ∉ inserted) ++ inserted ++ right.filter (· ∉ inserted)
  below : ∀ c ∈ inserted, (f'.get c).parent = some p
  /-- What was inserted has left all other places. -/
  left : ∀ q, q ≠ p → (f'.get q).children = (f.get q).children.filter (· ∉ inserted)
  emptied : ∀ r ∈ l, (f.get r).isFragment = true → (f'.get r).children = []
  out : (f'.get n).parent = none
  other : ∀ m, m ≠ n → m ∉ inserted → (f'.get m).parent = (f.get m).parent

/-- A node that is no fragment is reached twice: it is in the list twice, or in the list and in a
fragment of the list. -/
def Doubled (f : Forest) (n : NodeId) (l : List NodeId) : Prop :=
  ∃ c ∈ l, c ≠ n ∧ (f.get c).isFragment = false ∧
    (2 ≤ l.count c ∨ ∃ r ∈ l, (f.get r).isFragment = true ∧ (f.get c).parent = some r)

instance : Decidable (f.Doubled n l) :=
  inferInstanceAs (Decidable (∃ c ∈ l, c ≠ n ∧ (f.get c).isFragment = false ∧
    (2 ≤ l.count c ∨ ∃ r ∈ l, (f.get r).isFragment = true ∧ (f.get c).parent = some r)))

/-! What is taken for a list of nodes. -/

theorem takeAll_cons (f : Forest) (r : NodeId) (l : List NodeId) :
    (f.takeAll (r :: l)).1 = (f.takeForInsertion r).1 ++ ((f.takeForInsertion r).2.takeAll l).1 :=
  rfl

theorem fst_takeForInsertion (f : Forest) (r : NodeId) : (f.takeForInsertion r).1 = f.opened r := by
  unfold opened
  cases fragment : (f.get r).isFragment with
  | true => rw [takeForInsertion_fragment fragment, if_pos rfl]
  | false => rw [takeForInsertion_other fragment, if_neg (by simp)]

/-- Taking nodes makes no list of children longer. -/
theorem children_takeForInsertion_sublist (f : Forest) (r q : NodeId) :
    ((f.takeForInsertion r).2.get q).children.Sublist (f.get q).children := by
  cases fragment : (f.get r).isFragment with
  | true =>
    rw [children_takeForInsertion fragment]
    split
    · exact List.nil_sublist _
    · exact List.Sublist.refl _
  | false =>
    rw [takeForInsertion_other fragment]

theorem children_takeAll_sublist (l : List NodeId) (f : Forest) (q : NodeId) :
    ((f.takeAll l).2.get q).children.Sublist (f.get q).children := by
  induction l generalizing f with
  | nil => exact List.Sublist.refl _
  | cons r l ih => exact (ih (f.takeForInsertion r).2).trans (children_takeForInsertion_sublist f r q)

theorem children_gather_sublist (l : List NodeId) (f : Forest) (q : NodeId) :
    ((f.gather l).2.get q).children.Sublist (f.get q).children := by
  have out : ∀ (l : List NodeId) (f : Forest),
      ((l.foldl detach f).get q).children.Sublist (f.get q).children := by
    intro l
    induction l with
    | nil => exact fun _ => List.Sublist.refl _
    | cons n l ih => exact fun f => (ih (f.detach n)).trans (children_detach_sublist n q)
  exact (out _ _).trans (children_takeAll_sublist l f q)

/-- By induction on the list: taking one node leaves the others with what they had, or nothing. -/
theorem takeAll_sublist (l : List NodeId) (f : Forest) :
    (f.takeAll l).1.Sublist (l.flatMap f.opened) := by
  induction l generalizing f with
  | nil => exact List.Sublist.refl _
  | cons r l ih =>
    rw [takeAll_cons, List.flatMap_cons, fst_takeForInsertion]
    refine (List.Sublist.refl _).append ((ih _).trans (.flatMap_right l fun q _ => ?_))
    unfold opened
    rw [Linked.relinked_whole (.takeForInsertion r)]
    split
    · exact children_takeForInsertion_sublist f r q
    · exact List.Sublist.refl _

/-- How often a node is taken. By induction on the list: a node that was taken out of a fragment is in
no other one. -/
theorem count_takeAll (h : f.Linked) (l : List NodeId) (c : NodeId) :
    (f.takeAll l).1.count c = (if (f.get c).isFragment then 0 else l.count c) +
      if ∃ r ∈ l, (f.get r).isFragment = true ∧ (f.get c).parent = some r then 1 else 0 := by
  induction l generalizing f with
  | nil => simp [takeAll]
  | cons r l ih =>
    have whole := fun q => Linked.relinked_whole (f := f) (.takeForInsertion r) q
    have apart : (f.get r).isFragment ≠ (f.get c).isFragment → r ≠ c := by
      rintro ne rfl
      exact ne rfl
    rw [takeAll_cons, List.count_append, ih (h.takeForInsertion r)]
    simp only [whole]
    cases fragment : (f.get r).isFragment with
    | false =>
      have others : (∃ q ∈ r :: l, (f.get q).isFragment = true ∧ (f.get c).parent = some q) ↔
          ∃ q ∈ l, (f.get q).isFragment = true ∧ (f.get c).parent = some q := by
        simp [fragment]
      rw [takeForInsertion_other fragment]
      simp only [others, List.count_cons, List.count_nil, beq_iff_eq]
      cases fragment' : (f.get c).isFragment with
      | true => simp [apart (by simp [fragment, fragment'])]
      | false =>
        simp only [Bool.false_eq_true, if_false]
        omega
    | true =>
      by_cases child : (f.get c).parent = some r
      case pos =>
        have mem := (h.child r c).2 child
        have fragment' : (f.get c).isFragment = false := h.whole c r child
        have once : (f.takeForInsertion r).1.count c = 1 := by
          rw [takeForInsertion_fragment fragment]
          exact List.count_eq_one_of_mem (h.nodup r) mem
        have found : ∃ q ∈ r :: l, (f.get q).isFragment = true ∧ (f.get c).parent = some q :=
          ⟨r, List.mem_cons_self, fragment, child⟩
        rw [once, if_pos found, parent_takeForInsertion_of_mem fragment mem,
          List.count_cons_of_ne (apart (by simp [fragment, fragment']))]
        simp [fragment', Nat.add_comm]
      case neg =>
        have notMem := mt (h.child r c).1 child
        have none : (f.takeForInsertion r).1.count c = 0 := by
          rw [takeForInsertion_fragment fragment]
          exact List.count_eq_zero.2 notMem
        have others : (∃ q ∈ r :: l, (f.get q).isFragment = true ∧ (f.get c).parent = some q) ↔
            ∃ q ∈ l, (f.get q).isFragment = true ∧ (f.get c).parent = some q := by
          simp [child]
        rw [none, parent_takeForInsertion_of_notMem fragment notMem, Nat.zero_add]
        simp only [others]
        cases fragment' : (f.get c).isFragment with
        | true => rfl
        | false => simp [List.count_cons_of_ne (apart (by simp [fragment, fragment']))]

/-- Nothing is taken twice if nothing is reached in two ways. -/
theorem nodup_takeAll (h : f.Linked) (parent : (f.get n).parent = some p) (l : List NodeId) :
    (f.takeAll (l.filter (· != n))).1.Nodup ↔ ¬ f.Doubled n l := by
  have whole : (f.get n).isFragment = false := h.whole n p parent
  have listed : ∀ c, (∃ r ∈ l.filter (· != n), (f.get r).isFragment = true ∧
      (f.get c).parent = some r) ↔
        ∃ r ∈ l, (f.get r).isFragment = true ∧ (f.get c).parent = some r := by
    refine fun c => exists_congr fun r => ⟨fun ⟨hr, rest⟩ => ⟨(List.mem_filter.1 hr).1, rest⟩, ?_⟩
    rintro ⟨hr, fragment, child⟩
    refine ⟨List.mem_filter.2 ⟨hr, ?_⟩, fragment, child⟩
    rw [bne_iff_ne]
    rintro rfl
    rw [whole] at fragment
    cases fragment
  have total := fun c => count_takeAll h (l.filter (· != n)) c
  simp only [listed] at total
  rw [List.nodup_iff_count]
  constructor
  · rintro once ⟨c, hc, ne, fragment, twice⟩
    have here := once c
    have count : (l.filter (· != n)).count c = l.count c := List.count_filter (by simpa using ne)
    have one : 0 < l.count c := List.count_pos_iff.2 hc
    rw [total, fragment, count] at here
    rcases twice with twice | inside
    · simp only [Bool.false_eq_true, if_false] at here
      omega
    · simp only [Bool.false_eq_true, if_false, if_pos inside] at here
      omega
  · intro single c
    by_contra twice
    rw [total] at twice
    cases fragment : (f.get c).isFragment with
    | true =>
      simp only [fragment, if_true] at twice
      split at twice <;> omega
    | false =>
      simp only [fragment, Bool.false_eq_true, if_false] at twice
      have mem : c ∈ l.filter (· != n) := by
        refine List.count_pos_iff.1 ?_
        split at twice <;> omega
      obtain ⟨hc, ne⟩ := List.mem_filter.1 mem
      have count : (l.filter (· != n)).count c = l.count c := List.count_filter ne
      refine single ⟨c, hc, by simpa using ne, fragment, ?_⟩
      split at twice
      case isTrue inside => exact .inr inside
      case isFalse => exact .inl (by omega)

/-- What is not gathered stays in its place. -/
theorem children_gather (h : f.Linked) (known : ∀ r ∈ l, r.index < f.size) (q : NodeId) :
    ((f.gather l).2.get q).children = (f.get q).children.filter (· ∉ (f.gather l).1) := by
  obtain ⟨gathered, orphan⟩ := Gathered.gather h known
  refine eq_filter_of_sublist (children_gather_sublist l f q) (h.nodup q) fun c => ?_
  rw [gathered.linked.child, h.child, decide_eq_true_eq]
  by_cases hc : c ∈ (f.gather l).1
  · simp [hc, orphan c hc]
  · simp [hc, gathered.parent c hc]

/-! Nodes in the place of another. -/

theorem mem_takeAll_of_mem_expansion (h : f.Linked) (hc : c ∈ f.expansion n l) :
    c ∈ (f.takeAll (l.filter (· != n))).1 := by
  obtain ⟨r, hr, hc⟩ := List.mem_flatMap.1 hc
  exact mem_takeAll h hr ((yields_iff h).2 (fst_takeForInsertion f r ▸ hc))

section
variable (h : f.Linked) (parent : (f.get n).parent = some p) (known : ∀ r ∈ l, r.index < f.size)
  (apart : ∀ r ∈ l, r ≠ n → ¬ f.Under r p)
include h parent known apart

/-- What comes in leaves the other places. -/
theorem children_splice_of_ne (ne : q ≠ p) : ((f.splice n l).1.get q).children =
    (f.get q).children.filter (· ∉ (f.takeAll (l.filter (· != n))).1) := by
  obtain ⟨position, seats⟩ := Seats.of_linked h parent known apart
  rw [seats.spliced]
  exact (children_seat_of_ne ne).trans
    (children_gather h (fun r hr => known r (List.mem_filter.1 hr).1) q)

/-- What comes in stands where `n` was. Once it is gathered, `n` has one place still. -/
theorem children_splice_self {left right : List NodeId}
    (split : (f.get p).children = left ++ n :: right) : ((f.splice n l).1.get p).children =
      left.filter (· ∉ (f.takeAll (l.filter (· != n))).1) ++ (f.takeAll (l.filter (· != n))).1 ++
        right.filter (· ∉ (f.takeAll (l.filter (· != n))).1) := by
  have known' : ∀ r ∈ l.filter (· != n), r.index < f.size :=
    fun r hr => known r (List.mem_filter.1 hr).1
  obtain ⟨position, seats⟩ := Seats.of_linked h parent known apart
  obtain ⟨gathered, -⟩ := Gathered.gather h known'
  have outside : n ∉ (f.takeAll (l.filter (· != n))).1 := seats.outside
  have rest : ((f.gather (l.filter (· != n))).2.get p).children =
      left.filter (· ∉ (f.takeAll (l.filter (· != n))).1) ++
        n :: right.filter (· ∉ (f.takeAll (l.filter (· != n))).1) := by
    rw [children_gather h known' p, split, List.filter_append, List.filter_cons_of_pos (by simpa)]
    rfl
  have nodup := gathered.linked.nodup p
  rw [split_of_idxOf? seats.found] at nodup
  obtain ⟨before, after⟩ := split_unique ((split_of_idxOf? seats.found).symm.trans rest) nodup
  rw [seats.spliced]
  dsimp only
  rw [children_seat_self seats.found, before, after]
  rfl

theorem spliced_of_single (single : ¬ f.Doubled n l) :
    Spliced f (f.splice n l).1 n p l (f.takeAll (l.filter (· != n))).1 := by
  have once := (nodup_takeAll h parent l).2 single
  obtain ⟨-, moved⟩ := Moved.splice h parent known once apart
  obtain ⟨left, right, split⟩ := List.append_of_mem ((h.child p n).2 parent)
  have elsewhere : ∀ q, q ≠ p → ((f.splice n l).1.get q).children =
      (f.get q).children.filter (· ∉ (f.takeAll (l.filter (· != n))).1) :=
    fun q ne => children_splice_of_ne h parent known apart ne
  refine ⟨takeAll_sublist _ f, fun c hc => mem_takeAll_of_mem_expansion h hc, once,
    ⟨left, right, split, children_splice_self h parent known apart split⟩, moved.below, elsewhere,
    fun r hr fragment => ?_, moved.left n (List.mem_singleton_self n),
    fun m hm hi => moved.other m (by simpa using hm) hi⟩
  -- A fragment has no parent, so it is not `n`; and nothing else in the list is `p`.
  have other : r ≠ n := by
    rintro rfl
    rw [h.whole r p parent] at fragment
    cases fragment
  have ne : r ≠ p := by
    rintro rfl
    exact apart r hr other .here
  rw [elsewhere r ne]
  refine List.filter_eq_nil_iff.2 fun c hc => ?_
  have mem : c ∈ f.expansion n l := by
    refine List.mem_flatMap.2 ⟨r, List.mem_filter.2 ⟨hr, by simpa using other⟩, ?_⟩
    rw [opened, if_pos fragment]
    exact hc
  simpa using mem_takeAll_of_mem_expansion h mem

/-- A node that comes in twice has two places among the children. -/
theorem not_spliced_of_doubled (doubled : f.Doubled n l) (inserted : List NodeId) :
    ¬ Spliced f (f.splice n l).1 n p l inserted := by
  intro spliced
  have several := mt (nodup_takeAll h parent l).1 (not_not_intro doubled)
  obtain ⟨c, twice⟩ : ∃ c, 2 ≤ (f.takeAll (l.filter (· != n))).1.count c := by
    rw [List.nodup_iff_count, not_forall] at several
    obtain ⟨c, hc⟩ := several
    exact ⟨c, Nat.lt_of_not_le hc⟩
  have mem : c ∈ (f.takeAll (l.filter (· != n))).1 := List.count_pos_iff.1 (by omega)
  have inside : c ∈ inserted := spliced.all c ((takeAll_sublist _ f).subset mem)
  have none : ∀ part : List NodeId, (part.filter (· ∉ inserted)).count c = 0 :=
    fun part => List.count_eq_zero.2 (by simp [inside])
  obtain ⟨left, right, split, place⟩ := spliced.place
  rw [children_splice_self h parent known apart split] at place
  have total := congrArg (List.count c) place
  simp only [List.count_append, none, List.count_eq_one_of_mem spliced.once inside] at total
  omega

end

/-- Links are all that matters. -/
theorem Spliced.extended_iff (links : f'.Extended f₂) :
    Spliced f f₂ n p l inserted ↔ Spliced f f' n p l inserted := by
  constructor
  · rintro ⟨order, all, once, place, below, left, emptied, out, other⟩
    simp only [links.parent, links.children] at place below left emptied out other
    exact ⟨order, all, once, place, below, left, emptied, out, other⟩
  · rintro ⟨order, all, once, place, below, left, emptied, out, other⟩
    simp only [← links.parent, ← links.children] at place below left emptied out other
    exact ⟨order, all, once, place, below, left, emptied, out, other⟩

/-- What stands below another after a splice has stood below another before. -/
theorem child_of_splice (h : f.Linked) {l : List NodeId} (parent : (f.get n).parent = some p)
    (known : ∀ r ∈ l, r.index < f.size) (apart : ∀ r ∈ l, r ≠ n → ¬ f.Under r p)
    (hc : c ∈ ((f.splice n l).1.get q).children) : c.index < f.size := by
  obtain ⟨position, seats⟩ := Seats.of_linked h parent known apart
  obtain ⟨gathered, -⟩ := Gathered.gather (l := l.filter (· != n)) h
    fun r hr => known r (List.mem_filter.1 hr).1
  rw [seats.spliced] at hc
  rcases mem_children_seat seats.found hc with hc | ⟨-, hc⟩
  · exact Linked.known ((h.child q c).1 ((children_gather_sublist _ f q).subset hc))
  · exact gathered.known c hc

end Forest
end LiveMarkup.Dom

namespace LiveMarkup.Live
open Dom (Forest)

variable {I : World → Prop} {w w₁ w₂ w' : World} {n p : NodeId} {b : Bool} {l : List NodeId}
  {f f₁ f₂ : Forest} {enough : Nat → Prop} {run : Runner} {depth fuel : Nat}

/-! Callbacks do not undo it. The links need not be in order for that. -/

/-- Whatever stands below another is in `l`, and there is such a node. -/
def Enclosed (l : List NodeId) (f : Forest) : Prop :=
  ∀ q, ∀ c ∈ (f.get q).children, c ∈ l ∧ c.index < f.size

theorem Enclosed.extended (h : Enclosed l f) (links : f.Extended f₁) : Enclosed l f₁ := by
  intro q c hc
  obtain ⟨mem, known⟩ := h q c (links.children q ▸ hc)
  exact ⟨mem, Nat.lt_of_lt_of_le known links.size⟩

/-- Links are as they were, and who is connected now and was not, or the other way round, is so as `b`
says. -/
structure Toward (b : Bool) (f f' : Forest) : Prop where
  links : f.Extended f'
  toward : ∀ m, (f'.get m).connected = (f.get m).connected ∨ (f'.get m).connected = b

namespace Toward

theorem of_enlarged (h : f.Enlarged f₁) : Toward b f f₁ :=
  ⟨h.toExtended, fun m => .inl (h.connected m)⟩

theorem of_reflagged (h : f.Reflagged b f₁) : Toward b f f₁ :=
  ⟨h.extended, h.toward⟩

theorem trans (h : Toward b f f₁) (h' : Toward b f₁ f₂) : Toward b f f₂ where
  links := h.links.trans h'.links
  toward m := by
    rcases h'.toward m with same | turned
    · exact (h.toward m).imp same.trans same.trans
    · exact .inr turned

end Toward

/-- An operation on nodes that keeps all links. It comes to an end, given as much fuel as nodes of `l`
are to be switched. -/
def Conserves (I : World → Prop) (l : List NodeId) (enough : Nat → Prop) (run : Runner) (b : Bool)
    (x : NodeId → Op Unit) : Prop :=
  ∀ w n, I w →
    Sure (Enclosed l w.nodes ∧ (n ∈ l ∧ n.index < w.nodes.size) ∧ enough (unsettled l w.nodes b)) run
      (x n) w fun _ w' => I w' ∧ Toward b w.nodes w'.nodes

/-- Nodes one after another. By induction on their list. -/
theorem Conserves.each {x : NodeId → Op Unit} (h : Conserves I l enough run b x)
    (less : ∀ {i j}, i ≤ j → enough j → enough i) (hw : I w) (nodes : List NodeId) :
    Sure (Enclosed l w.nodes ∧ (∀ n ∈ nodes, n ∈ l ∧ n.index < w.nodes.size) ∧
      enough (unsettled l w.nodes b)) run (nodes.forM x) w fun _ w' =>
        I w' ∧ Toward b w.nodes w'.nodes := by
  induction nodes generalizing w with
  | nil => exact .pure ⟨hw, .of_enlarged (.refl _)⟩
  | cons n nodes ih =>
    refine ((h w n hw).weaken fun ⟨enclosed, ready, fueled⟩ =>
      ⟨enclosed, ready n List.mem_cons_self, fueled⟩).bind ?_
    rintro _ w₁ ⟨hw₁, first⟩
    refine ((ih hw₁).mono fun _ _ ⟨hw₂, more⟩ => ⟨hw₂, first.trans more⟩).weaken
      fun ⟨enclosed, ready, fueled⟩ => ⟨enclosed.extended first.links, fun m hm => ?_,
        less (unsettled_le first.toward) fueled⟩
    obtain ⟨mem, known⟩ := ready m (List.mem_cons_of_mem n hm)
    exact ⟨mem, Nat.lt_of_lt_of_le known first.links.size⟩

/-- What is below a node that was just flagged. -/
theorem children_conserve
    (h : Conserves I l (fun k => Prompt I depth ∧ depth + k < fuel) (exec fuel) b
      fun n => invoke (.connect n b)) (other : (w.nodes.get n).connected ≠ b) (hw : I w₂)
    (before : (Mount.flagged n b w).nodes.Enlarged w₂.nodes) :
    Sure (Enclosed l w.nodes ∧ (n ∈ l ∧ n.index < w.nodes.size) ∧ Prompt I depth ∧
      depth + unsettled l w.nodes b ≤ fuel) (exec fuel)
      (invokeAll ((w.nodes.get n).children.map fun c => .connect c b)) w₂ fun _ w' =>
        I w' ∧ Toward b w.nodes w'.nodes := by
  have turned : Toward b w.nodes w₂.nodes :=
    (Toward.of_reflagged (.flag w.nodes n b)).trans (.of_enlarged before)
  rw [invokeAll_map]
  refine ((h.each (fun le ⟨prompt, lt⟩ => ⟨prompt, by omega⟩) hw _).weaken ?_).mono ?_
  · rintro ⟨enclosed, ⟨mem, known⟩, prompt, le⟩
    have fewer : unsettled l w₂.nodes b < unsettled l w.nodes b :=
      Nat.lt_of_le_of_lt (unsettled_le fun m => .inl (before.connected m))
        (unsettled_flag mem known other)
    refine ⟨enclosed.extended turned.links, fun c hc => ?_, prompt, by omega⟩
    obtain ⟨memC, knownC⟩ := enclosed n c hc
    exact ⟨memC, Nat.lt_of_lt_of_le knownC turned.links.size⟩
  · rintro _ w' ⟨hw', more⟩
    exact ⟨hw', turned.trans more⟩

section
variable (passive : Passive I)
include passive

/-- A node with everything below it. -/
theorem connect_conserves
    (h : Conserves I l (fun k => Prompt I depth ∧ depth + k < fuel) (exec fuel) b
      fun n => invoke (.connect n b)) :
    Conserves I l (fun k => Prompt I depth ∧ depth + k ≤ fuel) (exec fuel) b
      fun n => Mount.connect n b := by
  intro w n hw
  by_cases same : (w.nodes.get n).connected = b
  · exact .of_eq (Mount.connect_same same (exec fuel)) ⟨hw, .of_enlarged (.refl _)⟩
  let w₁ := Mount.flagged n b w
  have hw₁ : I w₁ := passive.moves w _ hw
  have children : (w₁.nodes.get n).children = (w.nodes.get n).children :=
    (Forest.Reflagged.flag w.nodes n b).children n
  have calls : Enclosed l w.nodes ∧ (n ∈ l ∧ n.index < w.nodes.size) ∧ Prompt I depth ∧
      depth + unsettled l w.nodes b ≤ fuel → Prompt I depth ∧ depth ≤ fuel :=
    fun ⟨_, _, prompt, le⟩ => ⟨prompt, Nat.le_trans (Nat.le_add_right ..) le⟩
  cases b with
  | true =>
    refine Sure.congr ?_ (Mount.connect_true same (exec fuel))
    refine Sure.get_bind (((callHooks_course passive hw₁ n true).weaken calls).bind ?_)
    rintro _ w₂ ⟨hw₂, before, -⟩
    refine Sure.get_bind ?_
    rw [before.children, children]
    exact children_conserve h same hw₂ before
  | false =>
    refine Sure.congr ?_ (Mount.connect_false same (exec fuel))
    refine Sure.get_bind ?_
    rw [children]
    refine (children_conserve h same hw₁ (.refl _)).bind ?_
    rintro _ w₂ ⟨hw₂, below⟩
    refine Sure.get_bind (((callHooks_course passive hw₂ n false).weaken calls).mono ?_)
    rintro _ w₃ ⟨hw₃, after, -⟩
    exact ⟨hw₃, below.trans (.of_enlarged after)⟩

/-- By induction on the fuel. -/
theorem conserves_exec (depth : Nat) (l : List NodeId) (b : Bool) (fuel : Nat) :
    Conserves I l (fun k => Prompt I depth ∧ depth + k < fuel) (exec fuel) b
      fun n => invoke (.connect n b) := by
  induction fuel with
  | zero =>
    exact fun w n _ => ⟨(ensures_invoke ..).2 (fun _ ran => nomatch ran),
      fun ⟨_, _, _, lt⟩ => absurd lt (Nat.not_lt_zero _)⟩
  | succ fuel ih =>
    intro w n hw
    have connected := connect_conserves passive ih w n hw
    exact ⟨connected.ensures, fun ⟨enclosed, ready, prompt, lt⟩ =>
      connected.returns ⟨enclosed, ready, prompt, Nat.le_of_lt_succ lt⟩⟩

/-- What a replacement has done to links before it calls anybody is what it has done when it ends. -/
theorem replace_links (hw : I w) (linked : w.nodes.Linked) (parent : (w.nodes.get n).parent = some p)
    (known : ∀ r ∈ l, r.index < w.nodes.size) (apart : ∀ r ∈ l, r ≠ n → ¬ w.nodes.Under r p) :
    Sure (Prompt I depth ∧ depth + w.nodes.size ≤ fuel) (exec fuel) (Mount.replace n l) w fun _ w' =>
      (w.nodes.splice n l).1.Extended w'.nodes := by
  let incoming := (w.nodes.takeAll (l.filter (· != n))).1
  let moved : World := { w with nodes := (w.nodes.splice n l).1 }
  obtain ⟨position, seats⟩ := Forest.Seats.of_linked linked parent known apart
  have taken := Forest.Gathered.takeAll linked (l := l.filter (· != n))
    fun r hr => known r (List.mem_filter.1 hr).1
  have size : moved.nodes.size = w.nodes.size := (Forest.Relinked.splice n l).size
  let all := firstNodes w.nodes.size
  have ready : ∀ {c : NodeId}, c.index < w.nodes.size → c ∈ all ∧ c.index < moved.nodes.size :=
    fun lt => ⟨mem_firstNodes lt, size ▸ lt⟩
  have enclosed : Enclosed all moved.nodes := fun q c hc =>
    ready (Forest.child_of_splice linked parent known apart hc)
  have length : all.length = w.nodes.size := by simp [all, firstNodes]
  have enough : Prompt I depth ∧ depth + w.nodes.size ≤ fuel → Enough I depth all fuel :=
    fun h => ⟨h.1, length ▸ h.2⟩
  have run := fun b => connect_conserves passive (conserves_exec passive depth all b fuel)
  refine Sure.bind (Q := fun s w' => s = some (p, incoming) ∧ w' = moved)
    (.of_eq rfl ⟨congrArg Prod.snd seats.spliced, rfl⟩) ?_
  rintro _ _ ⟨rfl, rfl⟩
  have left := (run false moved n (passive.moves w _ hw)).weaken fun h => ⟨enclosed,
    ready (Forest.Linked.known parent), (enough h).connect moved.nodes⟩
  refine left.bind ?_
  rintro _ w₁ ⟨hw₁, first⟩
  refine Sure.get_bind ?_
  have each := (run (Mount.isConnected w₁ p)).each
    (fun le h => ⟨h.1, Nat.le_trans (Nat.add_le_add_left le depth) h.2⟩) hw₁ incoming
  refine (each.mono fun _ _ second => first.links.trans second.2.links).weaken fun h =>
    ⟨enclosed.extended first.links, fun c hc => ?_, (enough h).connect w₁.nodes⟩
  obtain ⟨mem, knownC⟩ := ready (taken.known c hc)
  exact ⟨mem, Nat.lt_of_lt_of_le knownC first.links.size⟩

/-- Nodes that replace another, under callbacks that leave the tree alone, stand in its place in their
order and each once, with fragments opened, and have left their former places, just if none of them is
listed twice or listed and in a fragment that is listed. The replacement comes to an end in any
case. -/
theorem replace_splices_iff (prompt : Prompt I depth) (hw : I w) (linked : w.nodes.Linked)
    (parent : (w.nodes.get n).parent = some p) (known : ∀ r ∈ l, r.index < w.nodes.size)
    (apart : ∀ r ∈ l, r ≠ n → ¬ w.nodes.Under r p) (fueled : depth + w.nodes.size ≤ fuel) :
    ∃ w', runFrom fuel w (Mount.replace n l) = .ok ((), w') ∧
      ((∃ inserted, w.nodes.Spliced w'.nodes n p l inserted) ↔ ¬ w.nodes.Doubled n l) := by
  have sure : Sure (Prompt I depth ∧ depth + w.nodes.size ≤ fuel) (exec fuel) (Mount.replace n l) w
      fun _ w' => (w.nodes.splice n l).1.Extended w'.nodes :=
    replace_links passive hw linked parent known apart
  obtain ⟨_, w', ran⟩ := sure.returns ⟨prompt, fueled⟩
  have links := sure.ensures _ _ ran
  refine ⟨w', ran, ⟨fun ⟨inserted, spliced⟩ doubled => ?_, fun single => ?_⟩⟩
  · exact Forest.not_spliced_of_doubled linked parent known apart doubled inserted
      ((Forest.Spliced.extended_iff links).1 spliced)
  · exact ⟨_, (Forest.Spliced.extended_iff links).2
      (Forest.spliced_of_single linked parent known apart single)⟩

end

/-- A list with an item, a text, and a fragment with a text in it. The item reports that it leaves. -/
def itemized : World :=
  let nodes : Forest := ⟨#[.alone (.element (.ofTag "ul")), .alone (.element (.ofTag "li")),
    .alone (.text "one"), .alone .fragment, .alone (.text "two")]⟩
  let nodes := (nodes.detach ⟨1⟩).attach ⟨0⟩ ⟨1⟩
  { World.empty with
    nodes := (nodes.detach ⟨4⟩).attach ⟨3⟩ ⟨4⟩
    unmountHooks := [(⟨1⟩, .unmounted "li" [])] }

theorem linked_itemized : itemized.nodes.Linked := by
  have alone : Forest.Linked (⟨#[.alone (.element (.ofTag "ul")), .alone (.element (.ofTag "li")),
      .alone (.text "one"), .alone .fragment, .alone (.text "two")]⟩ : Forest) := by
    refine .of_alone ?_
    rintro ⟨i⟩
    match i with
    | 0 | 1 | 2 | 3 | 4 => exact ⟨rfl, rfl⟩
    | _ + 5 => exact ⟨rfl, rfl⟩
  have first := Forest.Moved.attach (n := ⟨1⟩) (p := ⟨0⟩) alone (by decide +kernel)
    (by decide +kernel) (by decide +kernel) fun under => by cases under.eq_of_root (by decide +kernel)
  exact (Forest.Moved.attach (n := ⟨4⟩) (p := ⟨3⟩) first.linked (by decide +kernel)
    (by decide +kernel) (by decide +kernel) fun under => by
      cases under.eq_of_root (by decide +kernel)).linked

/-- The list is under none of the nodes that are to come. -/
theorem apart_itemized : ∀ r ∈ [(⟨1⟩ : NodeId), ⟨2⟩, ⟨3⟩], ¬ itemized.nodes.Under r ⟨0⟩ := by
  intro r hr under
  obtain rfl := under.eq_of_root (by decide +kernel)
  revert hr
  decide +kernel

/-- The text of the fragment and the other one take the place of the item, which is listed too. -/
theorem replace_splices_iff_itemized : ∃ w' inserted,
    runFrom 10 itemized (Mount.replace ⟨1⟩ [⟨3⟩, ⟨2⟩, ⟨1⟩]) = .ok ((), w') ∧
      itemized.nodes.Spliced w'.nodes ⟨1⟩ ⟨0⟩ [⟨3⟩, ⟨2⟩, ⟨1⟩] inserted := by
  have reporting : Reporting itemized := by
    intro b x hx
    cases b with
    | true => cases hx
    | false =>
      obtain rfl := List.mem_singleton.1 hx
      exact ⟨_, .inr rfl⟩
  have replaced : ∃ w', runFrom 10 itemized (Mount.replace ⟨1⟩ [⟨3⟩, ⟨2⟩, ⟨1⟩]) = .ok ((), w') ∧
      ((∃ inserted, itemized.nodes.Spliced w'.nodes ⟨1⟩ ⟨0⟩ [⟨3⟩, ⟨2⟩, ⟨1⟩] inserted) ↔
        ¬ itemized.nodes.Doubled ⟨1⟩ [⟨3⟩, ⟨2⟩, ⟨1⟩]) :=
    replace_splices_iff passive_reporting prompt_reporting reporting linked_itemized
      (by decide +kernel) (by decide +kernel) (fun r hr _ => apart_itemized r (by revert r; decide)) (by decide +kernel)
  obtain ⟨w', ran, spliced⟩ := replaced
  obtain ⟨inserted, is⟩ := spliced.2 (by decide +kernel)
  exact ⟨w', inserted, ran, is⟩

/-- A text that is listed twice gets two places. -/
theorem replace_listed_twice : ∃ w', (itemized.nodes.get ⟨1⟩).parent = some ⟨0⟩ ∧
    itemized.nodes.Linked ∧ (∀ r ∈ [(⟨2⟩ : NodeId), ⟨2⟩], ¬ itemized.nodes.Under r ⟨0⟩) ∧
      runFrom 10 itemized (Mount.replace ⟨1⟩ [⟨2⟩, ⟨2⟩]) = .ok ((), w') ∧
        (w'.nodes.get ⟨0⟩).children = [⟨2⟩, ⟨2⟩] ∧
          ¬ ∃ inserted, itemized.nodes.Spliced w'.nodes ⟨1⟩ ⟨0⟩ [⟨2⟩, ⟨2⟩] inserted := by
  have children : ((afterwards itemized (Mount.replace ⟨1⟩ [⟨2⟩, ⟨2⟩])).nodes.get ⟨0⟩).children =
      [⟨2⟩, ⟨2⟩] := by decide +kernel
  refine ⟨_, by decide +kernel, linked_itemized, fun r hr => apart_itemized r (by revert r; decide),
    runFrom_afterwards _ _ (by decide +kernel), children, fun ⟨inserted, spliced⟩ => ?_⟩
  obtain ⟨left, right, split, place⟩ := spliced.place
  have before : (itemized.nodes.get ⟨0⟩).children = [⟨1⟩] := by decide +kernel
  rw [before, List.cons_eq_append_iff] at split
  obtain ⟨rfl, rest⟩ | ⟨left', rfl, rest⟩ := split
  · cases rest
    rw [children] at place
    have all : inserted = [⟨2⟩, ⟨2⟩] := by simpa using place.symm
    exact absurd (all ▸ spliced.once) (by decide)
  · cases left' <;> cases rest

end LiveMarkup.Live
