import LiveMarkup.Proofs.Staging
import LiveMarkup.Proofs.Binding

/-!
Drafting: what a rendering does to a stage while its copy is filled. Nothing of the copy is mounted, so
no callback runs, and the nodes of before stay as they are. Texts take the places of outlets, parts of
elements are written, and follows are made that show signals from the first mount on.
-/
namespace LiveMarkup.Dom

mutual

theorem fragment_notMem_tree (t : Markup.Tree) : Content.fragment ∉ treeContents t := by
  cases t with
  | text data => simp [treeContents]
  | comment data => simp [treeContents]
  | element tag attributes children =>
    simp [treeContents, fragment_notMem_trees children]

theorem fragment_notMem_trees (ts : List Markup.Tree) :
    Content.fragment ∉ treesContents ts := by
  cases ts with
  | nil => simp [treesContents]
  | cons t rest =>
    simp [treesContents, fragment_notMem_tree t, fragment_notMem_trees rest]

end

namespace Forest
variable {f f' : Forest} {a c e m n p : NodeId}

/-- Whatever is above a known node is known. -/
theorem Under.known (h : f.Under a n) (linked : f.Linked) (known : n.index < f.size) :
    a.index < f.size := by
  induction h with
  | here => exact known
  | up parent _ ih => exact ih (known_of_mem_children ((linked.child _ _).2 parent))

/-- By induction on the position: the parents of a copy are older than their children. -/
theorem Planted.rooted {trees : List Markup.Tree} (h : Planted f trees f') {m : NodeId}
    (hm : f.size ≤ m.index) : ∃ t, f'.Topmost m t := by
  cases parent : (f'.get m).parent with
  | none => exact ⟨m, .here, parent⟩
  | some p =>
    obtain ⟨after, mem⟩ := h.grown.parent m p hm parent
    have younger := (h.grown.child p after m mem).1
    obtain ⟨t, under, root⟩ := h.rooted after
    exact ⟨t, .up parent under, root⟩
termination_by m.index

/-- A copy is linked among itself. -/
theorem Planted.linked {trees : List Markup.Tree} (h : Planted f trees f') (linked : f.Linked) :
    f'.Linked := by
  have old : ∀ {n : NodeId}, ¬ f.size ≤ n.index → f'.get n = f.get n :=
    fun hn => h.old _ (Nat.not_le.1 hn)
  have above : ∀ {c p : NodeId}, (f.get c).parent = some p → ¬ f.size ≤ c.index ∧ ¬ f.size ≤ p.index :=
    fun hp => ⟨Nat.not_le.2 (Linked.known hp),
      Nat.not_le.2 (known_of_mem_children ((linked.child _ _).2 hp))⟩
  refine ⟨fun p c => ?_, fun p => ?_, fun c p hc => ?_, fun n => ?_⟩
  · by_cases hp : f.size ≤ p.index
    · refine ⟨fun hc => (h.grown.child p hp c hc).2.2, fun parent => ?_⟩
      by_cases hc : f.size ≤ c.index
      · exact (h.grown.parent c p hc parent).2
      · rw [old hc] at parent
        exact absurd hp (above parent).2
    · rw [old hp]
      by_cases hc : f.size ≤ c.index
      · refine ⟨fun mem => ?_, fun parent => absurd (h.grown.parent c p hc parent).1 hp⟩
        exact absurd hc (above ((linked.child p c).1 mem)).1
      · rw [old hc]
        exact linked.child p c
  · by_cases hp : f.size ≤ p.index
    · exact h.grown.nodup p hp
    · rw [old hp]
      exact linked.nodup p
  · by_cases hn : f.size ≤ c.index
    · have place := h.content_getElem? hn (Linked.known hc)
      obtain ⟨after, mem⟩ := h.grown.parent c p hn hc
      have younger := (h.grown.child p after c mem).1
      obtain ⟨i, hi⟩ : ∃ i, c.index - f.size = i + 1 := ⟨c.index - f.size - 1, by omega⟩
      rw [hi, List.getElem?_cons_succ] at place
      have mem := List.mem_of_getElem? place
      unfold Node.isFragment
      cases content : (f'.get c).content with
      | fragment =>
        rw [content] at mem
        exact absurd mem (fragment_notMem_trees trees)
      | _ => rfl
    · rw [old hn] at hc ⊢
      exact linked.whole c p hc
  · by_cases hn : f.size ≤ n.index
    · exact h.rooted hn
    · obtain ⟨t, under, root⟩ := linked.rooted n
      have ht := under.known linked (Nat.not_le.1 hn)
      refine ⟨t, under.mono fun m p parent => ?_, ?_⟩
      · rw [old (above parent).1]
        exact parent
      · rw [h.old t ht]
        exact root

/-- A node took the place of another. -/
structure Swapped (f f' : Forest) (e n p : NodeId) : Prop where
  relinked : f.Relinked f'
  linked : f'.Linked
  out : (f'.get e).parent = none
  into : (f'.get n).parent = some p
  parent : ∀ m, m ≠ e → m ≠ n → (f'.get m).parent = (f.get m).parent
  children : ∀ q, q ≠ p → (f'.get q).children = (f.get q).children
  place : (f'.get p).children = (f.get p).children.map fun c => if c = e then n else c

theorem map_of_idxOf? {l : List NodeId} {position : Nat} (found : l.idxOf? e = some position)
    (once : l.Nodup) : l.take position ++ [n] ++ l.drop (position + 1) =
      l.map fun c => if c = e then n else c := by
  have split := split_of_idxOf? found
  rw [split] at once
  obtain ⟨-, once, apart⟩ := List.nodup_append.1 once
  have before : ∀ c ∈ l.take position, c ≠ e := fun c hc => apart c hc e List.mem_cons_self
  have after : ∀ c ∈ l.drop (position + 1), c ≠ e := by
    rintro c hc rfl
    exact (List.nodup_cons.1 once).1 hc
  have keep : ∀ l' : List NodeId, (∀ c ∈ l', c ≠ e) →
      l'.map (fun c => if c = e then n else c) = l' := by
    intro l' other
    refine (List.map_congr_left fun c hc => ?_).trans (List.map_id l')
    rw [if_neg (other c hc)]
    rfl
  calc l.take position ++ [n] ++ l.drop (position + 1)
    _ = (l.take position ++ e :: l.drop (position + 1)).map fun c => if c = e then n else c := by
      rw [List.map_append, List.map_cons, keep _ before, keep _ after, if_pos rfl,
        List.append_assoc]
      rfl
    _ = l.map fun c => if c = e then n else c := by rw [← split]

/-- A node that stands alone takes the place of another. -/
theorem Swapped.splice (h : f.Linked) (parent : (f.get e).parent = some p)
    (known : n.index < f.size) (whole : (f.get n).isFragment = false)
    (orphan : (f.get n).parent = none) (childless : (f.get n).children = []) :
    (f.splice e [n]).2 = some (p, [n]) ∧ Swapped f (f.splice e [n]).1 e n p := by
  have ne : n ≠ e := by
    rintro rfl
    rw [orphan] at parent
    cases parent
  have mem := (h.child p e).2 parent
  obtain ⟨position, found⟩ : ∃ position, (f.get p).children.idxOf? e = some position := by
    cases found : (f.get p).children.idxOf? e with
    | some position => exact ⟨position, rfl⟩
    | none => exact absurd mem (List.idxOf?_eq_none_iff.1 found)
  have alone : f.detach n = f := by
    unfold Forest.detach
    rw [orphan]
  have spliced : f.splice e [n] = (f.seat p e position [n], some (p, [n])) := by
    rw [splice_child parent]
    simp [ne, gather, takeAll, takeForInsertion_other whole, alone, found]
  have apart : ¬ f.Under n p := by
    intro under
    have same := under.eq_of_childless fun m hm => by
      rw [← h.child, childless] at hm
      cases hm
    rw [same, childless] at mem
    cases mem
  have moved := Moved.seat h parent found (List.pairwise_singleton _ n) (by simpa using known)
    (by simpa using whole) (by simpa using orphan) (by simpa using apart)
  rw [spliced]
  refine ⟨rfl, moved.relinked, moved.linked, moved.left e (List.mem_singleton_self e),
    moved.below n (List.mem_singleton_self n),
    fun m he hn => moved.other m (by simpa using he) (by simpa using hn), fun q hq => children_seat_of_ne hq, ?_⟩
  have there : p.index < (Forest.setParent f n (some p)).size := by
    rw [(Relinked.setParent (f := f) n (some p)).size]
    exact known_of_mem_children mem
  rw [seat_eq, children_setParent]
  refine (children_setChildren_self _ there).trans ?_
  exact map_of_idxOf? found (h.nodup p)

end Forest
end LiveMarkup.Dom

namespace LiveMarkup.Live

/-- A stage on which a copy is filled: the nodes of before are as they were, and no other is
mounted. -/
structure Draft (w₀ w : World) : Prop extends Stage w where
  base : Stage w₀
  size : w₀.nodes.size ≤ w.nodes.size
  old : ∀ n, n.index < w₀.nodes.size → w.nodes.get n = w₀.nodes.get n
  unmounted : ∀ n, w₀.nodes.size ≤ n.index → (w.nodes.get n).connected = false

variable {w₀ w w' : World} {n m p : NodeId} {e : Effect} {s : SignalId} {f : FollowId}
  {taken : NodeId → Option String → Prop}

/-- New nodes are linked among themselves. -/
theorem Stage.newborn (base : Stage w₀) {nodes : Dom.Forest} (linked : nodes.Linked)
    (old : ∀ n, n.index < w₀.nodes.size → nodes.get n = w₀.nodes.get n) {c p : NodeId}
    (parent : (nodes.get c).parent = some p) :
    w₀.nodes.size ≤ c.index ↔ w₀.nodes.size ≤ p.index := by
  constructor
  · refine fun hc => Nat.not_lt.1 fun hp => ?_
    have mem := (linked.child p c).2 parent
    rw [old p hp, base.linked.child] at mem
    exact Nat.not_lt.2 hc (Dom.Forest.Linked.known mem)
  · refine fun hp => Nat.not_lt.1 fun hc => ?_
    rw [old c hc, ← base.linked.child] at parent
    exact Nat.not_lt.2 hp (Dom.Forest.known_of_mem_children parent)

namespace Draft

theorem refl (h : Stage w) : Draft w w where
  toStage := h
  base := h
  size := Nat.le_refl _
  old _ _ := rfl
  unmounted n hn := by
    rw [Dom.Forest.get_unknown hn]
    rfl

theorem same (h : Draft w₀ w) (stage : Stage w') (nodes : w'.nodes = w.nodes) : Draft w₀ w' :=
  ⟨stage, h.base, nodes ▸ h.size, nodes ▸ h.old, nodes ▸ h.unmounted⟩

theorem of_nodes (h : Draft w₀ w) {nodes : Dom.Forest} (linked : nodes.Linked)
    (size : w.nodes.size ≤ nodes.size)
    (old : ∀ n, n.index < w₀.nodes.size → nodes.get n = w₀.nodes.get n)
    (unmounted : ∀ n, w₀.nodes.size ≤ n.index → (nodes.get n).connected = false)
    (shown : ∀ n e s, w.board n e s → w₀.nodes.size ≤ n.index →
      e.Suits (nodes.get n) ∧ e.look (nodes.get n) = e.look (w.nodes.get n)) :
    Draft w₀ { w with nodes } := by
  refine ⟨h.toStage.of_nodes linked size (fun n e s shows => ?_) (fun n _ => ?_) fun c p parent => ?_,
    h.base, Nat.le_trans h.size size, old, unmounted⟩
  · rcases Nat.lt_or_ge n.index w₀.nodes.size with hn | hn
    · have same : nodes.get n = w.nodes.get n := (old n hn).trans (h.old n hn).symm
      rw [same]
      exact ⟨(h.finished.suits n e s shows).2, rfl⟩
    · exact shown n e s shows hn
  · rcases Nat.lt_or_ge n.index w₀.nodes.size with hn | hn
    · rw [old n hn, h.old n hn]
    · rw [unmounted n hn, h.unmounted n hn]
  · rcases Nat.lt_or_ge c.index w₀.nodes.size with hc | hc
    · have hp := Nat.not_le.1 fun hp => Nat.not_le.2 hc ((h.base.newborn linked old parent).2 hp)
      rw [old c hc] at parent ⊢
      rw [old p hp]
      exact h.base.even c p parent
    · rw [unmounted c hc, unmounted p ((h.base.newborn linked old parent).1 hc)]

/-- A copy is made. -/
theorem plant (h : Stage w) (trees : List Markup.Tree) :
    Draft w { w with nodes := (w.nodes.plantFragment trees).2 } ∧
      Persists Untaken w { w with nodes := (w.nodes.plantFragment trees).2 } := by
  have planted := (Dom.Forest.planted w.nodes trees).2
  refine ⟨(refl h).of_nodes (planted.linked h.linked) (Nat.le_of_lt planted.size) planted.old
    (fun n hn => ?_) fun n e s shows hn => ?_, .of_contents (Nat.le_of_lt planted.size) fun n hn => ?_⟩
  · rw [planted.unconnected]
    exact (refl h).unmounted n hn
  · exact absurd hn (Nat.not_le.2 (h.finished.suits n e s shows).1)
  · rw [planted.old n hn]

/-- A new node stands alone. -/
theorem create (h : Draft w₀ w) (content : Dom.Content) :
    Draft w₀ { w with nodes := (w.nodes.create content).2 } ∧
      Persists Untaken w { w with nodes := (w.nodes.create content).2 } := by
  have enlarged := Dom.Forest.Enlarged.create w.nodes content
  have cells : ∀ n, n.index < w.nodes.size → (w.nodes.create content).2.get n = w.nodes.get n :=
    fun n hn => Heap.get_push_of_lt _ _ _ hn
  refine ⟨h.of_nodes (h.linked.extended enlarged.toExtended) enlarged.size (fun n hn => ?_)
    (fun n hn => ?_) fun n e s shows _ => ?_, .of_contents enlarged.size fun n hn => by rw [cells n hn]⟩
  · rw [cells n (Nat.lt_of_lt_of_le hn h.size)]
    exact h.old n hn
  · rw [enlarged.connected]
    exact h.unmounted n hn
  · obtain ⟨known, suits⟩ := h.finished.suits n e s shows
    rw [cells n known]
    exact ⟨suits, rfl⟩

/-- A new node takes the place of another. -/
theorem swap (h : Draft w₀ w) {element : NodeId} (new : w₀.nodes.size ≤ element.index)
    (parent : (w.nodes.get element).parent = some p) (hn : w₀.nodes.size ≤ n.index)
    (swapped : Dom.Forest.Swapped w.nodes (w.nodes.splice element [n]).1 element n p) :
    Draft w₀ { w with nodes := (w.nodes.splice element [n]).1 } ∧
      Persists Untaken w { w with nodes := (w.nodes.splice element [n]).1 } := by
  have content := swapped.relinked.content
  have size := Nat.le_of_eq swapped.relinked.size.symm
  refine ⟨h.of_nodes swapped.linked size (fun m hm => ?_) (fun m hm => ?_) fun m e s shows _ => ?_,
    .of_contents size fun m _ => content m⟩
  · have other : ∀ q : NodeId, w₀.nodes.size ≤ q.index → m ≠ q := by
      rintro q hq rfl
      exact Nat.not_lt.2 hq hm
    have hp : w₀.nodes.size ≤ p.index := (h.base.newborn h.linked h.old parent).1 new
    rw [← h.old m hm]
    exact Dom.Node.eq_of_parts (content m) (swapped.parent m (other element new) (other n hn))
      (swapped.children m (other p hp)) (swapped.relinked.connected m)
  · rw [swapped.relinked.connected]
    exact h.unmounted m hm
  · exact ⟨(Effect.suits_congr (content m)).2 (h.finished.suits m e s shows).2,
      Effect.look_congr (content m)⟩

/-- A part of a new node, where nothing else is shown, is written. -/
theorem paint (h : Draft w₀ w) (hn : w₀.nodes.size ≤ n.index) (suits : e.Suits (w.nodes.get n))
    (off : ∀ e' s, w.board n e' s → e'.part ≠ e.part) (t : String) :
    Draft w₀ { w with nodes := w.nodes.modify n (e.paint t) } ∧
      Persists (fun m part => m = n ∧ part = e.part) w
        { w with nodes := w.nodes.modify n (e.paint t) } := by
  have enlarged : w.nodes.Enlarged (w.nodes.modify n (e.paint t)) := by
    cases e with
    | wholeAttr name => exact .mapElement n _
    | text => exact .withData n t
    | _ => exact suits.elim
  have other : ∀ m, m ≠ n → (w.nodes.modify n (e.paint t)).get m = w.nodes.get m :=
    fun m hm => Heap.get_modify_of_ne _ _ _ _ (Ne.symm hm)
  have here : n.index < w.nodes.size → (w.nodes.modify n (e.paint t)).get n =
      e.paint t (w.nodes.get n) := fun known => Heap.get_modify_self _ _ _ known
  refine ⟨h.of_nodes (h.linked.extended enlarged.toExtended) enlarged.size (fun m hm => ?_)
    (fun m hm => ?_) fun m e' s shows _ => ?_,
    .of_nodes enlarged.size (fun m hm e' _ free => ?_) fun m hm e' => ?_⟩
  · have ne : m ≠ n := by
      rintro rfl
      exact Nat.not_lt.2 hn hm
    rw [other m ne]
    exact h.old m hm
  · rw [enlarged.connected]
    exact h.unmounted m hm
  · obtain ⟨known, suits'⟩ := h.finished.suits m e' s shows
    by_cases hm : m = n
    · subst hm
      rw [here known]
      exact ⟨Effect.suits_paint.2 suits', Effect.look_paint_other suits (off e' s shows)⟩
    · rw [other m hm]
      exact ⟨suits', rfl⟩
  · by_cases hmn : m = n
    · subst hmn
      rw [here hm]
      exact Effect.look_paint_other suits fun same => free ⟨rfl, same⟩
    · rw [other m hmn]
  · by_cases hmn : m = n
    · subst hmn
      rw [here hm]
      exact Effect.suits_paint
    · rw [other m hmn]

end Draft

/-! Follows of nodes that are not mounted. -/

/-- A world with one more follow, and its hooks. -/
def Lifecycle.hung (n : NodeId) (s : SignalId) (e : Effect) (w : World) : World :=
  { w with
    follows := w.follows.push ⟨s, .effect n e, .immediate, none⟩
    mountHooks := w.mountHooks ++ [(n, .follow w.follows.next)]
    unmountHooks := w.unmountHooks ++ [(n, .unfollow w.follows.next)] }

theorem Lifecycle.follow_run (unmounted : (w.nodes.get n).connected = false) (run : Runner) :
    follow n s (.effect n e) .immediate run w = .ok ((), hung n s e w) := by
  have read : follow n s (.effect n e) .immediate run w =
      ((if (w.nodes.get n).connected = true then invoke (.hook (.follow w.follows.next))
        else pure () : Op Unit) >>= fun _ => onUnmount n (.unfollow w.follows.next)) run
        { w with
          follows := w.follows.push ⟨s, .effect n e, .immediate, none⟩
          mountHooks := w.mountHooks ++ [(n, .follow w.follows.next)] } := rfl
  rw [read, unmounted, if_neg Bool.false_ne_true]
  rfl

section
variable {n : NodeId} {s : SignalId} {e : Effect}

theorem hung_old (hf : f ≠ w.follows.next) :
    (Lifecycle.hung n s e w).follows.get f = w.follows.get f :=
  Heap.get_push_of_ne _ _ _ hf

theorem hung_new : (Lifecycle.hung n s e w).follows.get w.follows.next =
    ⟨s, .effect n e, .immediate, none⟩ :=
  Heap.get_push_next ..

theorem hung_known (hf : f.index < (Lifecycle.hung n s e w).follows.size) :
    f.index < w.follows.size ∨ f = w.follows.next := by
  have lt : f.index < w.follows.size + 1 := by
    rwa [← Heap.size_push]
  rcases Nat.lt_succ_iff_lt_or_eq.1 lt with known | here
  · exact .inl known
  · exact .inr (congrArg Id.mk here)

theorem hung_board {m : NodeId} {e' : Effect} {t : SignalId} :
    (Lifecycle.hung n s e w).board m e' t ↔ w.board m e' t ∨ m = n ∧ e' = e ∧ t = s := by
  constructor
  · rintro ⟨f, hf, reaction, signal⟩
    by_cases here : f = w.follows.next
    · subst here
      rw [hung_new] at reaction signal
      cases reaction
      exact .inr ⟨rfl, rfl, signal.symm⟩
    · rw [hung_old here] at reaction signal
      exact .inl ⟨f, (hung_known hf).resolve_right here, reaction, signal⟩
  · rintro (⟨f, hf, reaction, signal⟩ | ⟨rfl, rfl, rfl⟩)
    · have old : f ≠ w.follows.next := by
        rintro rfl
        exact Nat.lt_irrefl _ hf
      refine ⟨f, (Heap.size_push ..).symm ▸ Nat.lt_succ_of_lt hf, ?_, ?_⟩
      · rw [hung_old old]
        exact reaction
      · rw [hung_old old]
        exact signal
    · refine ⟨w.follows.next, (Heap.size_push ..).symm ▸ Nat.lt_succ_self _, ?_, ?_⟩
      · rw [hung_new]
      · rw [hung_new]

/-- A new follow holds nothing. -/
theorem hung_slot {sub : SubscriptionId}
    (held : ((Lifecycle.hung n s e w).follows.get f).slot = some sub) :
    f ≠ w.follows.next ∧ (w.follows.get f).slot = some sub := by
  by_cases here : f = w.follows.next
  · rw [here, hung_new] at held
    cases held
  · rw [hung_old here] at held
    exact ⟨here, held⟩

theorem hung_slot_iff {sub : SubscriptionId} :
    ((Lifecycle.hung n s e w).follows.get f).slot = some sub ↔
      (w.follows.get f).slot = some sub := by
  refine ⟨fun held => (hung_slot held).2, fun held => ?_⟩
  have old : f ≠ w.follows.next := by
    rintro rfl
    rw [Heap.get_next] at held
    cases held
  rw [hung_old old]
  exact held

theorem hung_holds {entry : EntryId} :
    Holds (Lifecycle.hung n s e w) f entry ↔ Holds w f entry := by
  unfold Holds
  refine exists_congr fun sub => ⟨fun ⟨held, cancel⟩ => ?_, fun ⟨held, cancel⟩ => ?_⟩
  · obtain ⟨old, held'⟩ := hung_slot held
    rw [hung_old old] at cancel
    exact ⟨held', cancel⟩
  · have held' : ((Lifecycle.hung n s e w).follows.get f).slot = some sub := hung_slot_iff.2 held
    refine ⟨held', ?_⟩
    rw [hung_old (hung_slot held').1]
    exact cancel

theorem Following.hung (h : Following w) (known : s.index < w.signals.size) :
    Following (Lifecycle.hung n s e w) := by
  have ward : followed (Lifecycle.hung n s e w) = followed w := by
    unfold followed
    congr 1
    · funext sub
      exact propext (exists_congr fun f => hung_slot_iff)
    · funext entry
      exact propext (exists_congr fun f => hung_holds)
  refine ⟨ward ▸ { h.sound with }, fun f => ?_, fun f hf => ?_, fun f slot => ?_,
    fun f f' entry hf hf' => h.apart f f' entry (hung_holds.1 hf) (hung_holds.1 hf')⟩
  · by_cases here : f = w.follows.next
    · rw [here, hung_new]
      trivial
    · rw [hung_old here]
      exact h.reactions f
  · by_cases here : f = w.follows.next
    · rw [here, hung_new]
      exact known
    · rw [hung_old here]
      exact h.signals f ((hung_known hf).resolve_right here)
  · obtain ⟨sub, held⟩ := Option.ne_none_iff_exists'.1 slot
    obtain ⟨old, held'⟩ := hung_slot held
    obtain ⟨entry, holds, joined⟩ := h.listens f (held' ▸ Option.some_ne_none sub)
    refine ⟨entry, hung_holds.2 holds, ?_⟩
    rw [hung_old old]
    exact { joined with }

/-- The owner of a follow. -/
theorem hung_owns (h : Stage w) {m : NodeId} : Owns (Lifecycle.hung n s e w) m f ↔
    Owns w m f ∧ f ≠ w.follows.next ∨ m = n ∧ f = w.follows.next := by
  have hooks : ∀ b, (Lifecycle.hung n s e w).hooks b =
      w.hooks b ++ [(n, Hook.turning w.follows.next b)] := by
    intro b
    cases b <;> rfl
  have fresh : ∀ b m', (m', Hook.turning w.follows.next b) ∉ w.hooks b := by
    intro b m' mem
    obtain ⟨g, eq, known⟩ := h.turns b m' _ mem
    have same : w.follows.next = g := by
      cases b with
      | true => exact Hook.follow.inj eq
      | false => exact Hook.unfollow.inj eq
    exact Nat.lt_irrefl _ (same ▸ known : w.follows.next.index < w.follows.size)
  have turning : ∀ b, Hook.turning f b = Hook.turning w.follows.next b → f = w.follows.next := by
    intro b eq
    cases b with
    | true => exact Hook.follow.inj eq
    | false => exact Hook.unfollow.inj eq
  unfold Owns
  simp only [hooks, List.mem_append, List.mem_singleton, Prod.mk.injEq]
  by_cases here : f = w.follows.next
  · subst here
    simp only [fresh, false_or, and_true, ne_eq, not_true, and_false]
    exact ⟨fun owns => ((owns true m).2 rfl).symm ▸ rfl, fun eq b m' => by rw [eq]⟩
  · have other : ∀ (m' : NodeId) b,
        ¬ (m' = n ∧ Hook.turning f b = Hook.turning w.follows.next b) :=
      fun m' b both => here (turning b both.2)
    simp only [other, or_false, here, ne_eq, not_false_eq_true, and_true, and_false]

/-- What is followed at a node that is not mounted, in a place of its own, is shown from the first
mount on. -/
theorem Stage.hung (h : Stage w) (known : n.index < w.nodes.size)
    (unmounted : (w.nodes.get n).connected = false) (suits : e.Suits (w.nodes.get n))
    (off : ∀ e' s', w.board n e' s' → e'.part ≠ e.part) (signal : s.index < w.signals.size) :
    Stage (Lifecycle.hung n s e w) ∧
      Persists (fun m part => m = n ∧ part = e.part) w (Lifecycle.hung n s e w) := by
  let w' := Lifecycle.hung n s e w
  have finished : Finished w'.board w' :=
    { h.finished with
      faithful := ⟨h.faithful.signals, h.faithful.owner⟩
      suits := fun m e' s' shows => by
        rcases hung_board.1 shows with before | ⟨rfl, rfl, rfl⟩
        · exact h.finished.suits m e' s' before
        · exact ⟨known, suits⟩
      apart := fun m e₁ s₁ e₂ s₂ shows shows' part => by
        rcases hung_board.1 shows with before | ⟨rfl, rfl, rfl⟩
        · rcases hung_board.1 shows' with before' | ⟨rfl, rfl, rfl⟩
          · exact h.finished.apart m e₁ s₁ e₂ s₂ before before' part
          · exact absurd part.symm (off e₁ s₁ before)
        · rcases hung_board.1 shows' with before' | ⟨-, rfl, rfl⟩
          · exact absurd part (off e₂ s₂ before')
          · exact ⟨rfl, rfl⟩
      placed := fun t entry mem m effect reaction =>
        hung_board.2 (.inl (h.finished.placed t entry mem m effect reaction))
      painted := h.finished.painted
      owned := fun t entry mem own m effect reaction => by
        obtain ⟨f, sub, slot, takes⟩ := h.finished.owned t entry mem own m effect reaction
        exact ⟨f, sub, hung_slot_iff.2 slot, takes⟩ }
  refine ⟨{ told := h.told, finished, even := h.even, formulas := h.formulas
            toReady := h.toReady.aside ⟨rfl, rfl, rfl, rfl, rfl, rfl⟩
            following := h.following.hung signal
            linked := h.linked
            turns := fun b m hook mem => ?_
            effects := fun f hf => ?_
            timely := fun m f owns => ?_ },
    { Lasting.refl (R := Builds) w with
      nodes := Nat.le_refl _
      formulas := Nat.le_refl _
      readings := fun _ _ => rfl
      memo := fun _ _ memo => memo
      board := fun m e' s' shows => hung_board.2 (.inl shows)
      added := fun m e' s' shows => (hung_board.1 shows).imp_right fun ⟨node, effect, _⟩ =>
        ⟨node, congrArg Effect.part effect⟩
      look := fun _ _ _ _ _ => rfl
      kind := fun _ _ _ => Iff.rfl }⟩
  · have hooks : w'.hooks b = w.hooks b ++ [(n, Hook.turning w.follows.next b)] := by
      cases b <;> rfl
    have size : w'.follows.size = w.follows.size + 1 := Heap.size_push ..
    have mem' : (m, hook) ∈ w'.hooks b := mem
    rw [hooks, List.mem_append, List.mem_singleton] at mem'
    rcases mem' with before | here
    · obtain ⟨f, eq, hf⟩ := h.turns b m hook before
      exact ⟨f, eq, size ▸ Nat.lt_succ_of_lt hf⟩
    · cases here
      exact ⟨w.follows.next, rfl, size ▸ Nat.lt_succ_self _⟩
  · by_cases here : f = w.follows.next
    · subst here
      rw [hung_new]
      exact ⟨rfl, n, e, rfl, (hung_owns h).2 (.inr ⟨rfl, rfl⟩)⟩
    · obtain ⟨mode, m, e', reaction, owns⟩ := h.effects f ((hung_known hf).resolve_right here)
      rw [hung_old here]
      exact ⟨mode, m, e', reaction, (hung_owns h).2 (.inl ⟨owns, here⟩)⟩
  · unfold Timely
    rcases (hung_owns h).1 owns with ⟨before, old⟩ | ⟨rfl, rfl⟩
    · rw [hung_old old]
      exact h.timely m f before
    · rw [hung_new]
      exact unmounted.symm

end

theorem Draft.hung (h : Draft w₀ w) (new : w₀.nodes.size ≤ n.index) (known : n.index < w.nodes.size)
    (suits : e.Suits (w.nodes.get n)) (off : ∀ e' s', w.board n e' s' → e'.part ≠ e.part)
    (signal : s.index < w.signals.size) : Draft w₀ (Lifecycle.hung n s e w) ∧
      Persists (fun m part => m = n ∧ part = e.part) w (Lifecycle.hung n s e w) := by
  obtain ⟨stage, persists⟩ := h.toStage.hung known (h.unmounted n new) suits off signal
  exact ⟨h.same stage rfl, persists⟩

/-- A signal is shown and followed. -/
theorem Draft.bind (h : Draft w₀ w) (new : w₀.nodes.size ≤ n.index) (known : n.index < w.nodes.size)
    (suits : e.Suits (w.nodes.get n)) (off : ∀ e' s', w.board n e' s' → e'.part ≠ e.part)
    (signal : s.index < w.signals.size) (run : Runner) :
    Ensures run (e.bind n s) w fun _ w' => Draft w₀ w' ∧
      Persists (fun m part => m = n ∧ part = e.part) w w' ∧ w'.board n e s := by
  simp only [Effect.bind, ensures_bind, ensures_get]
  intro _ w₁ applied
  rw [Effect.apply_of_suits suits] at applied
  cases applied
  obtain ⟨h₁, persists₁⟩ := h.paint new suits off (e.textIn w ((Signal.content w s).getD .null))
  intro _ w₂ followed
  rw [Lifecycle.follow_run (h₁.unmounted n new)] at followed
  cases followed
  obtain ⟨h₂, persists₂⟩ := h₁.hung (s := s) new (Nat.lt_of_lt_of_le known persists₁.nodes)
    ((persists₁.kind n known e).2 suits) off signal
  exact ⟨h₂, persists₁.trans persists₂, hung_board.2 (.inr ⟨rfl, rfl, rfl⟩)⟩

/-- A new node, no part of which is taken, is put in the place of an outlet. -/
theorem Draft.replace (h : Draft w₀ w) {element : NodeId} (new : w₀.nodes.size ≤ element.index)
    (parent : (w.nodes.get element).parent = some p) (newer : w₀.nodes.size ≤ n.index)
    (known : n.index < w.nodes.size) (whole : (w.nodes.get n).isFragment = false)
    (orphan : (w.nodes.get n).parent = none) (childless : (w.nodes.get n).children = [])
    (run : Runner) : Ensures run (Mount.replace element [n]) w fun _ w' => Draft w₀ w' ∧
      Persists Untaken w w' ∧ Dom.Forest.Swapped w.nodes w'.nodes element n p := by
  obtain ⟨incoming, swapped⟩ :=
    Dom.Forest.Swapped.splice h.linked parent known whole orphan childless
  obtain ⟨h', persists⟩ := h.swap new parent newer swapped
  have into : w₀.nodes.size ≤ p.index := (h.base.newborn h.linked h.old parent).1 new
  have replaced := Mount.replace_same (h.unmounted element new) (fun q l seated => by
    rw [incoming] at seated
    cases seated
    exact ⟨h.unmounted p into, List.forall_mem_singleton.2 (h.unmounted n newer)⟩) run
  intro _ w₁ run₁
  rw [replaced] at run₁
  cases run₁
  exact ⟨h', persists, swapped⟩

/-! Derived signals that are made. -/

/-- A grounded computation that nobody records changes nothing. -/
theorem Reading.Grounded.run_unseen {r : Reading} {limit : Nat} {t : Tracker}
    (h : r.Grounded w.names.signals limit) (unrecorded : ∀ d, t ≠ .recording d) (run : Runner) :
    ∃ v l, r.run t run w = .ok (v, w) ∧ r.Gives w l v := by
  have track : ∀ s, Derivation.track s t run w = .ok ((), w) := by
    intro s
    cases t with
    | recording d => exact absurd rfl (unrecorded d)
    | _ => rfl
  induction h with
  | done v => exact ⟨v, [], rfl, .done v⟩
  | @get s next _ _ ih =>
    obtain ⟨v, l, ran, gives⟩ := ih (Signal.content w s)
    refine ⟨v, s :: l, ?_, .get gives⟩
    have read : (Reading.get s next).run t run w = (Derivation.track s t run w).bind fun p =>
        (next (Signal.content p.2 s)).run t run p.2 := rfl
    rw [read, track]
    exact ran
  | @signal name s role next named _ ih =>
    obtain ⟨v, l, ran, gives⟩ := ih
    refine ⟨v, l, ?_, .signal named gives⟩
    have read : (Reading.signal name next).run t run w =
        (require name (w.names.signals.get? name) >>= fun p => (next p.1).run t) run w := rfl
    rw [read, named]
    exact ran
  | literal _ ih =>
    obtain ⟨v, l, ran, gives⟩ := ih
    exact ⟨v, l, ran, .literal gives⟩
  | @text u next _ ih =>
    obtain ⟨v, l, ran, gives⟩ := ih (w.text u)
    exact ⟨v, l, ran, .text (fun plain => u.text_eq_ownText plain _) gives⟩

theorem Derives.known {r : Reading} (h : Derives w s r) : s.index < w.signals.size := by
  obtain ⟨d, produced, -⟩ := h
  rcases Nat.lt_or_ge s.index w.signals.size with known | unknown
  · exact known
  · rw [Heap.get_of_size_le _ _ unknown] at produced
    cases produced

/-- Nothing happens to nodes. -/
theorem Draft.createDerivation (h : Draft w₀ w) {r : Reading}
    (grounded : r.Grounded w.names.signals w.signals.size) (fuel : Nat) :
    Ensures (exec fuel) (Derivation.create r) w fun s w' => Draft w₀ w' ∧ Persists Untaken w w' ∧
      Derives w' s r ∧ w'.nodes = w.nodes ∧ w'.formulas = w.formulas := by
  intro s w' made
  obtain ⟨stage, persists, derives, -⟩ := h.toStage.createDerivation grounded made
  obtain ⟨v, l, ran, -⟩ := grounded.run_unseen (t := .passing) (fun _ => Tracker.noConfusion) (exec fuel)
  have read : Derivation.create r (exec fuel) w = (r.run .passing (exec fuel) w).bind fun p =>
      .ok (p.2.signals.next, Signal.added (some p.1) (some (.derivation p.2.derivations.next))
        (Derivation.added r p.2)) := rfl
  rw [read, ran] at made
  cases made
  exact ⟨h.same stage rfl, persists, derives, rfl, rfl⟩

/-- A computation with an identity has one derived signal, which is made when it is asked for first. -/
theorem Draft.derived (h : Draft w₀ w) {fn : FormulaId} (known : fn.index < w.formulas.size)
    (pure : (w.formulas.get fn).reading.Pure w.names.signals w.signals.size) (fuel : Nat) :
    Ensures (exec fuel) (SharedFormula.derived fn) w fun s w' => Draft w₀ w' ∧
      Persists Untaken w w' ∧ w'.nodes = w.nodes ∧ (w'.formulas.get fn).signal = some s := by
  simp only [SharedFormula.derived, ensures_bind, ensures_get]
  cases memo : (w.formulas.get fn).signal with
  | some s => exact (ensures_pure ..).2 ⟨h, .refl w, rfl, memo⟩
  | none =>
    refine (ensures_bind ..).2 ((h.createDerivation pure.grounded fuel).mono ?_)
    rintro s w₁ ⟨h₁, persists₁, derives, nodes, formulas⟩
    refine (ensures_bind ..).2 ((ensures_modify ..).2 ((ensures_pure ..).2 ?_))
    let w₂ : World := { w₁ with formulas := w₁.formulas.modify fn fun cell => { cell with signal := some s } }
    have here : (w₂.formulas.get fn).signal = some s := by
      dsimp only [w₂]
      rw [formulas, Heap.get_modify_self _ _ _ known]
    have other : ∀ fn', fn' ≠ fn → w₂.formulas.get fn' = w₁.formulas.get fn' :=
      fun fn' ne => Heap.get_modify_of_ne _ _ _ _ (Ne.symm ne)
    have readings : ∀ fn', (w₂.formulas.get fn').reading = (w₁.formulas.get fn').reading :=
      fun fn' => Heap.get_modify_same w₁.formulas fn fn' _ SharedFormula.reading fun _ => rfl
    have apart : Apart w₁ w₂ :=
      { signals := rfl, entries := rfl, subscriptions := rfl, derivations := rfl
        signalNames := rfl, subscriptionNames := rfl, follows := rfl, mountHooks := rfl
        unmountHooks := rfl, nodes := Nat.le_refl _, cells := fun _ _ => rfl
        alone := fun m hm => by
          have nobody : w₂.nodes.get m = default := Heap.get_of_size_le _ _ hm
          rw [nobody]
          exact ⟨rfl, rfl⟩
        formulas := Nat.le_of_eq (Heap.size_modify ..).symm
        readings := fun fn' _ => readings fn'
        memo := fun fn' t ht => by
          have ne : fn' ≠ fn := by
            rintro rfl
            rw [formulas, memo] at ht
            cases ht
          rw [other fn' ne]
          exact ht
        derived := fun fn' t ht => by
          by_cases ne : fn' = fn
          · subst ne
            rw [here] at ht
            cases ht
            right
            rw [readings, formulas]
            exact derives
          · rw [other fn' ne] at ht
            exact .inl ht }
    obtain ⟨stage, persists₂⟩ := h₁.toStage.elsewhere apart
    exact ⟨h₁.same stage rfl, persists₁.trans persists₂, nodes, here⟩

end LiveMarkup.Live
