import LiveMarkup.Proofs.Rooting
import LiveMarkup.Proofs.Runs

/-!
Moves: nodes that are made, moved, taken out and replaced, with nobody called back. Mounting changes
nothing but which nodes are connected, so what an operation on the tree does to links is what it does
to them before it mounts anything. Links that agree and lead to a top do so after every move that puts
no node below itself.
-/
namespace LiveMarkup.Dom.Forest
variable {f f' : Forest} {a c m n p q : NodeId}

/-- No way up comes back: a node is not above its own parent. By induction on the way to the top. -/
theorem Topmost.acyclic {t : NodeId} (top : f.Topmost n t) (parent : (f.get n).parent = some p) :
    ¬ f.Under n p := by
  obtain ⟨under, root⟩ := top
  induction under generalizing p with
  | here =>
    rw [root] at parent
    cases parent
  | @up n q above _ ih =>
    obtain rfl : q = p := Option.some.inj (above.symm.trans parent)
    intro below
    cases below with
    | here => exact ih parent .here
    | up next rest => exact ih next ((Under.up parent .here).trans rest)

theorem Linked.acyclic (h : f.Linked) (parent : (f.get n).parent = some p) : ¬ f.Under n p := by
  obtain ⟨t, top⟩ := h.rooted n
  exact top.acyclic parent

/-- Nodes that stand alone are a forest. -/
theorem Linked.of_alone (alone : ∀ n, (f.get n).parent = none ∧ (f.get n).children = []) :
    f.Linked := by
  refine ⟨fun p c => ?_, fun p => ?_, fun c p hc => ?_, fun n => ⟨n, .here, (alone n).1⟩⟩
  · rw [(alone p).2, (alone c).1]
    exact ⟨nofun, nofun⟩
  · rw [(alone p).2]
    exact .nil
  · rw [(alone c).1] at hc
    cases hc

/-- Nothing else is above a node without a parent. -/
theorem Under.eq_of_root (h : f.Under a n) (root : (f.get n).parent = none) : a = n := by
  cases h with
  | here => rfl
  | up parent _ =>
    rw [root] at parent
    cases parent

/-- Where nodes have come below `p` that were not above it, nothing else is above it either. By
induction on the way up. -/
theorem Under.of_below {into : List NodeId} (h : f'.Under a p)
    (other : ∀ m, m ∉ into → (f'.get m).parent = (f.get m).parent)
    (apart : ∀ c ∈ into, ¬ f.Under c p) : f.Under a p := by
  suffices general : ∀ {m}, f'.Under a m → f.Under m p → f.Under a p from general h .here
  intro m under
  induction under with
  | here => exact id
  | @up m q parent _ ih =>
    intro above
    have parent' : (f.get m).parent = some q := other m (fun hm => apart m hm above) ▸ parent
    exact ih ((Under.up parent' .here).trans above)

/-- What comes out for a node that is to be inserted: the node, or the children of a fragment. -/
def Yields (f : Forest) (n c : NodeId) : Prop :=
  if (f.get n).isFragment then (f.get c).parent = some n else c = n

theorem yields_iff (h : f.Linked) : f.Yields n c ↔ c ∈ (f.takeForInsertion n).1 := by
  unfold Yields
  cases fragment : (f.get n).isFragment with
  | true => rw [takeForInsertion_fragment fragment, h.child, if_pos rfl]
  | false => rw [takeForInsertion_other fragment, if_neg (by simp), List.mem_singleton]

/-- Two forests differ at most in which nodes are taken to be connected, and where they differ, the
second has it to be `b`. -/
structure Reflagged (b : Bool) (f f' : Forest) : Prop where
  size : f'.size = f.size
  content : ∀ n, (f'.get n).content = (f.get n).content
  parent : ∀ n, (f'.get n).parent = (f.get n).parent
  children : ∀ n, (f'.get n).children = (f.get n).children
  toward : ∀ n, (f'.get n).connected = (f.get n).connected ∨ (f'.get n).connected = b

namespace Reflagged
variable {b : Bool} {f₁ f₂ : Forest}

theorem refl (f : Forest) : Reflagged b f f :=
  ⟨rfl, fun _ => rfl, fun _ => rfl, fun _ => rfl, fun _ => .inl rfl⟩

theorem trans (h : Reflagged b f f₁) (h' : Reflagged b f₁ f₂) : Reflagged b f f₂ where
  size := h'.size.trans h.size
  content n := (h'.content n).trans (h.content n)
  parent n := (h'.parent n).trans (h.parent n)
  children n := (h'.children n).trans (h.children n)
  toward n := by
    rcases h'.toward n with same | turned
    · exact (h.toward n).imp same.trans same.trans
    · exact .inr turned

theorem flag (f : Forest) (n : NodeId) (b : Bool) :
    Reflagged b f (f.modify n fun node => { node with connected := b }) where
  size := Heap.size_modify ..
  content m := Heap.get_modify_same f n m _ Node.content fun _ => rfl
  parent m := Heap.get_modify_same f n m _ Node.parent fun _ => rfl
  children m := Heap.get_modify_same f n m _ Node.children fun _ => rfl
  toward m := by
    by_cases hm : n = m
    · subst hm
      rcases Nat.lt_or_ge n.index f.size with known | unknown
      · rw [Heap.get_modify_self _ _ _ known]
        exact .inr rfl
      · rw [Heap.modify_of_size_le _ _ _ unknown]
        exact .inl rfl
    · rw [Heap.get_modify_of_ne _ _ _ _ hm]
      exact .inl rfl

theorem isFragment (h : Reflagged b f f') (n : NodeId) :
    (f'.get n).isFragment = (f.get n).isFragment := by
  unfold Node.isFragment
  rw [h.content]

theorem extended (h : Reflagged b f f') : f.Extended f' :=
  ⟨Nat.le_of_eq h.size.symm, h.parent, h.children, fun n _ => h.isFragment n⟩

end Reflagged

/-- How many nodes are not taken to be as `b` says. -/
def pending (f : Forest) (b : Bool) : Nat :=
  (List.range f.size).countP fun i => (f.get ⟨i⟩).connected != b

theorem pending_le (f : Forest) (b : Bool) : f.pending b ≤ f.size := by
  have bound := List.countP_le_length (p := fun i => (f.get ⟨i⟩).connected != b)
    (l := List.range f.size)
  rwa [List.length_range] at bound

/-- Among any nodes, no more are pending than before. -/
theorem Reflagged.fewer {b : Bool} (h : Reflagged b f f') (l : List Nat) :
    l.countP (fun i => (f'.get ⟨i⟩).connected != b) ≤
      l.countP fun i => (f.get ⟨i⟩).connected != b := by
  refine List.countP_mono_left fun i _ pending => ?_
  rcases h.toward ⟨i⟩ with same | turned
  · rwa [same] at pending
  · simp [turned] at pending

theorem Reflagged.pending_le {b : Bool} (h : Reflagged b f f') : f'.pending b ≤ f.pending b := by
  unfold pending
  rw [h.size]
  exact h.fewer _

/-- A node that is flagged is no longer pending. -/
theorem pending_flag {b : Bool} (known : n.index < f.size) (other : (f.get n).connected ≠ b) :
    Forest.pending (f.modify n fun node => { node with connected := b }) b < f.pending b := by
  have flagged := Reflagged.flag f n b
  have here : (f.modify n fun node => { node with connected := b }).get ⟨n.index⟩ =
      { f.get n with connected := b } := Heap.get_modify_self _ _ _ known
  obtain ⟨before, after, eq⟩ := List.append_of_mem (List.mem_range.2 known)
  have left := flagged.fewer before
  have right := flagged.fewer after
  unfold pending
  rw [flagged.size, eq]
  simp only [List.countP_append, List.countP_cons, here, bne_self_eq_false, bne_iff_ne, ne_eq, other,
    not_false_eq_true, if_true, Bool.false_eq_true, if_false]
  omega

/-- Only a fragment that gives its children away loses any. -/
theorem children_takeForInsertion_of_ne (ne : n ≠ m) :
    ((f.takeForInsertion m).2.get n).children = (f.get n).children := by
  cases fragment : (f.get m).isFragment with
  | true => rw [children_takeForInsertion fragment, if_neg ne]
  | false => rw [takeForInsertion_other fragment]

/-- What a node in a list yields is among what is taken for the list. By induction on the list: taking
one node leaves what others yield. -/
theorem mem_takeAll (h : f.Linked) {l : List NodeId} (mem : n ∈ l) (yields : f.Yields n c) :
    c ∈ (f.takeAll l).1 := by
  induction l generalizing f with
  | nil => cases mem
  | cons m l ih =>
    have split : (f.takeAll (m :: l)).1 =
        (f.takeForInsertion m).1 ++ ((f.takeForInsertion m).2.takeAll l).1 := rfl
    rw [split, List.mem_append]
    by_cases here : n = m
    · subst here
      exact .inl ((yields_iff h).1 yields)
    · have linked := h.takeForInsertion m
      refine .inr (ih linked ((List.mem_cons.1 mem).resolve_left here) ?_)
      have whole : ((f.takeForInsertion m).2.get n).isFragment = (f.get n).isFragment :=
        Linked.relinked_whole (.takeForInsertion m) n
      unfold Yields at yields ⊢
      rw [whole]
      cases fragment : (f.get n).isFragment with
      | false => simpa [fragment] using yields
      | true =>
        simp only [fragment, if_true] at yields ⊢
        rw [← linked.child, children_takeForInsertion_of_ne here, h.child]
        exact yields

/-- The node that a way up comes through last. -/
theorem Under.last (h : f.Under a n) : a = n ∨ ∃ c, (f.get c).parent = some a ∧ f.Under c n := by
  induction h with
  | here => exact .inl rfl
  | @up n p parent _ ih =>
    rcases ih with rfl | ⟨c, hc, under⟩
    · exact .inr ⟨n, parent, .here⟩
    · exact .inr ⟨c, hc, .up parent under⟩

/-- Where none of those that come in is above the place that they come to, links agree afterwards. A
fragment that the node itself is in may be among the replacements; it gives the node away with the
rest, and nothing comes in. -/
theorem Linked.splice (h : f.Linked) {l : List NodeId} (known : ∀ r ∈ l, r.index < f.size)
    (once : (f.takeAll (l.filter (· != n))).1.Nodup)
    (apart : ∀ p, (f.get n).parent = some p →
      ∀ c ∈ (f.takeAll (l.filter (· != n))).1, ¬ f.Under c p) : (f.splice n l).1.Linked := by
  cases parent : (f.get n).parent with
  | none =>
    rw [splice_orphan parent]
    exact h
  | some p =>
    have apart := apart p parent
    by_cases above : ∃ r ∈ l, r ≠ n ∧ f.Under r p
    case neg =>
      obtain ⟨-, moved⟩ := Moved.splice h parent known once fun r hr ne under =>
        above ⟨r, hr, ne, under⟩
      exact moved.linked
    case pos =>
      obtain ⟨r, hr, ne, under⟩ := above
      have mem : r ∈ l.filter (· != n) := by simp [hr, ne]
      have fragment : (f.get r).isFragment = true := by
        cases fragment : (f.get r).isFragment with
        | true => rfl
        | false => exact absurd under (apart r (mem_takeAll h mem (by simp [Yields, fragment])))
      have yields : ∀ {c}, (f.get c).parent = some r → f.Yields r c := by
        intro c hc
        simpa [Yields, fragment] using hc
      rcases under.last with rfl | ⟨c, hc, below⟩
      · obtain ⟨gathered, orphan⟩ := Gathered.gather (l := l.filter (· != n)) h fun q hq =>
          known q (List.mem_filter.1 hq).1
        have out := orphan n (mem_takeAll h mem (yields parent))
        have lost : ((f.gather (l.filter (· != n))).2.get r).children.idxOf? n = none :=
          List.idxOf?_eq_none_iff.2 (gathered.linked.not_mem_of_orphan out r)
        rw [splice_child parent]
        dsimp only
        rw [lost]
        exact gathered.linked
      · exact absurd below (apart c (mem_takeAll h mem (yields hc)))

end LiveMarkup.Dom.Forest

namespace LiveMarkup.Live
open Dom (Forest Content)

/-- If an operation gives a result from a world, the result satisfies a condition; and it gives one if
there is enough fuel. -/
structure Sure {α : Type} (enough : Prop) (run : Runner) (x : Op α) (w : World)
    (Q : α → World → Prop) : Prop where
  ensures : Ensures run x w Q
  returns : enough → ∃ a w', x run w = .ok (a, w')

namespace Sure
variable {α β : Type} {enough : Prop} {run : Runner} {w w' : World} {x : Op α}
  {Q : α → World → Prop}

theorem of_eq {a : α} (h : x run w = .ok (a, w')) (hQ : Q a w') : Sure enough run x w Q := by
  refine ⟨fun b w₁ hx => ?_, fun _ => ⟨a, w', h⟩⟩
  rw [h] at hx
  cases hx
  exact hQ

protected theorem pure {a : α} (h : Q a w) : Sure enough run (pure a) w Q :=
  of_eq rfl h

theorem modify {f : World → World} {Q : PUnit → World → Prop} (h : Q ⟨⟩ (f w)) :
    Sure enough run (modify f : Op PUnit) w Q :=
  of_eq rfl h

protected theorem bind {f : α → Op β} {R : β → World → Prop} (hx : Sure enough run x w Q)
    (hf : ∀ a w', Q a w' → Sure enough run (f a) w' R) : Sure enough run (x >>= f) w R := by
  refine ⟨(ensures_bind ..).2 (hx.ensures.mono fun a w' h => (hf a w' h).ensures), fun fueled => ?_⟩
  obtain ⟨a, w', ran⟩ := hx.returns fueled
  obtain ⟨b, w'', more⟩ := (hf a w' (hx.ensures a w' ran)).returns fueled
  have bound : (x >>= f) run w = (x run w).bind fun p => f p.1 run p.2 := rfl
  exact ⟨b, w'', by rw [bound, ran]; exact more⟩

theorem get_bind {f : World → Op α} (h : Sure enough run (f w) w Q) :
    Sure enough run (get >>= f) w Q :=
  ⟨(ensures_bind ..).2 ((ensures_get ..).2 h.ensures), h.returns⟩

theorem mono {Q' : α → World → Prop} (h : Sure enough run x w Q)
    (imp : ∀ a w', Q a w' → Q' a w') : Sure enough run x w Q' :=
  ⟨h.ensures.mono imp, h.returns⟩

theorem weaken {enough' : Prop} (h : Sure enough run x w Q) (imp : enough' → enough) :
    Sure enough' run x w Q :=
  ⟨h.ensures, fun fueled => h.returns (imp fueled)⟩

theorem congr {x y : Op α} {w₁ : World} (h : Sure enough run x w₁ Q) (eq : y run w = x run w₁) :
    Sure enough run y w Q :=
  ⟨fun a w' hy => h.ensures a w' (eq ▸ hy), fun fueled => by rw [eq]; exact h.returns fueled⟩

end Sure

/-! What mounting comes to. -/

/-- Nobody is to be called when a node is mounted or unmounted. -/
structure World.Unhooked (w : World) : Prop where
  mounts : w.mountHooks = []
  unmounts : w.unmountHooks = []

variable {w w₁ w₂ w' : World} {n p c : NodeId} {b : Bool} {fuel : Nat}

/-- Nothing has changed but which nodes are taken to be connected. -/
structure Reconnected (b : Bool) (w w' : World) : Prop where
  nodes : Forest.Reflagged b w.nodes w'.nodes
  rest : w' = { w with nodes := w'.nodes }

namespace Reconnected

theorem refl (w : World) : Reconnected b w w :=
  ⟨.refl w.nodes, rfl⟩

theorem trans (h : Reconnected b w w₁) (h' : Reconnected b w₁ w₂) : Reconnected b w w₂ :=
  ⟨h.nodes.trans h'.nodes, h'.rest.trans (by rw [h.rest])⟩

theorem unhooked (h : Reconnected b w w') (hw : w.Unhooked) : w'.Unhooked := by
  rw [h.rest]
  exact ⟨hw.mounts, hw.unmounts⟩

end Reconnected

/-- A runner that mounts and unmounts, given as much fuel as there are nodes to be flagged. -/
def Connects (enough : Nat → Prop) (run : Runner) : Prop :=
  ∀ w n b, w.Unhooked →
    Sure (enough (w.nodes.pending b)) run (invoke (.connect n b)) w fun _ w' => Reconnected b w w'

/-- Nodes one after another. By induction on their list. -/
theorem connectAll_sure {run : Runner} {enough : Nat → Prop} (less : ∀ {i j}, i ≤ j → enough j → enough i)
    (h : Connects enough run) (hw : w.Unhooked) (l : List NodeId) :
    Sure (enough (w.nodes.pending b)) run (invokeAll (l.map fun n => .connect n b)) w fun _ w' =>
      Reconnected b w w' := by
  induction l generalizing w with
  | nil => exact .pure (.refl w)
  | cons n l ih =>
    refine Sure.bind (h w n b hw) fun _ w₁ first => ?_
    have rest := ih (first.unhooked hw)
    exact ⟨rest.ensures.mono fun _ _ more => first.trans more,
      fun fueled => rest.returns (less first.nodes.pending_le fueled)⟩

/-- A node with everything below it. What is pending gets less when the node is flagged. -/
theorem connect_sure {run : Runner} (h : Connects (· < fuel) run) (hw : w.Unhooked) (n : NodeId)
    (b : Bool) : Sure (w.nodes.pending b ≤ fuel) run (Mount.connect n b) w fun _ w' =>
      Reconnected b w w' := by
  by_cases same : (w.nodes.get n).connected = b
  · exact .of_eq (Mount.connect_same same run) (.refl w)
  have flagged : Reconnected b w (Mount.flagged n b w) := ⟨.flag w.nodes n b, rfl⟩
  have unhooked := flagged.unhooked hw
  have children : ((Mount.flagged n b w).nodes.get n).children = (w.nodes.get n).children :=
    flagged.nodes.children n
  have below : Sure (w.nodes.pending b ≤ fuel) run
      (invokeAll ((w.nodes.get n).children.map fun c => .connect c b)) (Mount.flagged n b w)
      fun _ w' => Reconnected b w w' := by
    rcases Nat.lt_or_ge n.index w.nodes.size with known | unknown
    · have all := connectAll_sure (fun le lt => Nat.lt_of_le_of_lt le lt) h unhooked (b := b)
        (w.nodes.get n).children
      exact ⟨all.ensures.mono fun _ _ more => flagged.trans more, fun fueled =>
        all.returns (Nat.lt_of_lt_of_le (Forest.pending_flag known same) fueled)⟩
    · rw [Forest.get_unknown unknown]
      exact .pure flagged
  cases b with
  | true =>
    refine below.congr ((Mount.connect_true same run).trans ?_)
    have read : (do
        invokeAll (hooksOf n (← get).mountHooks)
        invokeAll (((← get).nodes.get n).children.map fun c => .connect c true) : Op Unit) run
        (Mount.flagged n true w) = (do
        invokeAll (hooksOf n (Mount.flagged n true w).mountHooks)
        invokeAll (((← get).nodes.get n).children.map fun c => .connect c true) : Op Unit) run
        (Mount.flagged n true w) := rfl
    rw [read, unhooked.mounts, ← children]
    rfl
  | false =>
    refine Sure.congr ?_ (Mount.connect_false same run)
    refine Sure.get_bind ?_
    rw [children]
    refine below.bind fun _ w₁ reconnected => Sure.get_bind ?_
    rw [(reconnected.unhooked hw).unmounts]
    exact .pure reconnected

/-- By induction on the fuel. -/
theorem connects_exec (fuel : Nat) : Connects (· < fuel) (exec fuel) := by
  induction fuel with
  | zero =>
    exact fun w n b _ => ⟨(ensures_invoke ..).2 (fun _ ran => nomatch ran),
      fun fueled => absurd fueled (Nat.not_lt_zero _)⟩
  | succ fuel ih =>
    intro w n b hw
    have connected := connect_sure ih hw n b
    exact ⟨connected.ensures, fun fueled => connected.returns (Nat.le_of_lt_succ fueled)⟩

theorem connect_exec (hw : w.Unhooked) (n : NodeId) (b : Bool) :
    Sure (w.nodes.size ≤ fuel) (exec fuel) (Mount.connect n b) w fun _ w' => Reconnected b w w' :=
  (connect_sure (connects_exec fuel) hw n b).weaken (Nat.le_trans (Forest.pending_le ..))

/-- Nobody is to be called, and the links are in order. -/
structure Ordinary (w : World) : Prop where
  unhooked : w.Unhooked
  linked : w.nodes.Linked

namespace Ordinary

theorem reconnected (h : Ordinary w) (r : Reconnected b w w') : Ordinary w' :=
  ⟨r.unhooked h.unhooked, h.linked.extended r.nodes.extended⟩

theorem withNodes (h : Ordinary w) {nodes : Forest} (linked : nodes.Linked) :
    Ordinary { w with nodes } :=
  ⟨⟨h.unhooked.mounts, h.unhooked.unmounts⟩, linked⟩

end Ordinary

/-- Nodes one after another. By induction on their list. -/
theorem connectEach_sure (h : Ordinary w) (b : Bool) (l : List NodeId) :
    Sure (w.nodes.size ≤ fuel) (exec fuel) (l.forM (Mount.connect · b)) w fun _ w' =>
      Ordinary w' ∧ w'.nodes.size = w.nodes.size := by
  induction l generalizing w with
  | nil => exact .pure ⟨h, rfl⟩
  | cons n l ih =>
    refine Sure.bind (connect_exec h.unhooked n b) fun _ w₁ r => ?_
    refine ((ih (h.reconnected r)).weaken (r.nodes.size ▸ id)).mono ?_
    rintro _ w₂ ⟨ordinary, size⟩
    exact ⟨ordinary, size.trans r.nodes.size⟩

/-! Nodes that come below others. -/

/-- The nodes in `into` have come below `p`, and all others are where they were. -/
structure Appended (p : NodeId) (into : List NodeId) (w w' : World) : Prop extends Ordinary w' where
  size : w'.nodes.size = w.nodes.size
  isFragment : ∀ n, (w'.nodes.get n).isFragment = (w.nodes.get n).isFragment
  below : ∀ c ∈ into, (w'.nodes.get c).parent = some p
  other : ∀ c, c ∉ into → (w'.nodes.get c).parent = (w.nodes.get c).parent

namespace Appended
variable {into more : List NodeId}

theorem refl (h : Ordinary w) : Appended p [] w w :=
  ⟨h, rfl, fun _ => rfl, fun _ hc => (List.not_mem_nil hc).elim, fun _ _ => rfl⟩

theorem trans (h : Appended p into w w₁) (h' : Appended p more w₁ w₂) :
    Appended p (into ++ more) w w₂ where
  toOrdinary := h'.toOrdinary
  size := h'.size.trans h.size
  isFragment n := (h'.isFragment n).trans (h.isFragment n)
  below c hc := by
    by_cases later : c ∈ more
    · exact h'.below c later
    · rw [h'.other c later]
      exact h.below c ((List.mem_append.1 hc).resolve_right later)
  other c hc := by
    obtain ⟨early, late⟩ := not_or.1 (mt List.mem_append.2 hc)
    exact (h'.other c late).trans (h.other c early)

/-- No node has come above `p`. -/
theorem above (h : Appended p into w w') (apart : ∀ c ∈ into, ¬ w.nodes.Under c p)
    (not : ¬ w.nodes.Under c p) : ¬ w'.nodes.Under c p :=
  fun under => not (under.of_below h.other apart)

end Appended

theorem appendOne_sure (h : Ordinary w) (hn : n.index < w.nodes.size) (hp : p.index < w.nodes.size)
    (whole : (w.nodes.get n).isFragment = false) (apart : ¬ w.nodes.Under n p) :
    Sure (w.nodes.size ≤ fuel) (exec fuel) (Mount.appendOne p n) w fun _ w' =>
      Appended p [n] w w' := by
  have moved := Forest.Moved.attach h.linked hn hp whole apart
  let w₁ : World := { w with nodes := (w.nodes.detach n).attach p n }
  have ordinary : Ordinary w₁ := h.withNodes moved.linked
  refine Sure.bind (Q := fun _ w' => w' = w₁) (.of_eq rfl rfl) ?_
  rintro _ _ rfl
  have connected : Sure (w₁.nodes.size ≤ fuel) (exec fuel)
      (Mount.connect n (Mount.isConnected w₁ p)) w₁ _ := connect_exec ordinary.unhooked n _
  refine Sure.get_bind ((connected.weaken fun le => ?_).mono fun _ w' r => ?_)
  · exact Nat.le_trans (Nat.le_of_eq moved.relinked.size) le
  · exact {
      toOrdinary := ordinary.reconnected r
      size := r.nodes.size.trans moved.relinked.size
      isFragment := fun m =>
        (r.nodes.isFragment m).trans (Forest.Linked.relinked_whole moved.relinked m)
      below := fun c hc => (r.nodes.parent c).trans (moved.below c hc)
      other := fun c hc => (r.nodes.parent c).trans (moved.other c List.not_mem_nil hc) }

/-- One after another. By induction on their list: none of those that are left has come above. -/
theorem appendAll_sure (h : Ordinary w) (hp : p.index < w.nodes.size) {l : List NodeId}
    (known : ∀ c ∈ l, c.index < w.nodes.size)
    (whole : ∀ c ∈ l, (w.nodes.get c).isFragment = false)
    (apart : ∀ c ∈ l, ¬ w.nodes.Under c p) :
    Sure (w.nodes.size ≤ fuel) (exec fuel) (l.forM (Mount.appendOne p)) w fun _ w' =>
      Appended p l w w' := by
  induction l generalizing w with
  | nil => exact .pure (.refl h)
  | cons n l ih =>
    obtain ⟨known, knownRest⟩ := List.forall_mem_cons.1 known
    obtain ⟨whole, wholeRest⟩ := List.forall_mem_cons.1 whole
    obtain ⟨apart, apartRest⟩ := List.forall_mem_cons.1 apart
    refine Sure.bind (appendOne_sure h known hp whole apart) fun _ w₁ first => ?_
    have rest := ih first.toOrdinary (first.size ▸ hp) (fun c hc => first.size ▸ knownRest c hc)
      (fun c hc => (first.isFragment c).trans (wholeRest c hc))
      fun c hc => first.above (by simpa using apart) (apartRest c hc)
    exact (rest.weaken (first.size ▸ id)).mono fun _ _ more => first.trans more

/-- A node, or the children of a fragment. -/
theorem append_sure (h : Ordinary w) (hp : p.index < w.nodes.size) (hn : n.index < w.nodes.size)
    (apart : ∀ c ∈ (w.nodes.takeForInsertion n).1, ¬ w.nodes.Under c p) :
    Sure (w.nodes.size ≤ fuel) (exec fuel) (Mount.append p n) w fun _ w' =>
      Appended p (w.nodes.takeForInsertion n).1 w w' := by
  have gathered := Forest.Gathered.takeForInsertion h.linked hn
  let w₁ : World := { w with nodes := (w.nodes.takeForInsertion n).2 }
  have ordinary : Ordinary w₁ := h.withNodes gathered.linked
  refine Sure.bind (Q := fun l w' => l = (w.nodes.takeForInsertion n).1 ∧ w' = w₁)
    (.of_eq rfl ⟨rfl, rfl⟩) ?_
  rintro _ _ ⟨rfl, rfl⟩
  have size : w₁.nodes.size = w.nodes.size := gathered.relinked.size
  have isFragment : ∀ m, (w₁.nodes.get m).isFragment = (w.nodes.get m).isFragment :=
    Forest.Linked.relinked_whole gathered.relinked
  have all : Sure (w₁.nodes.size ≤ fuel) (exec fuel) (List.forM _ (Mount.appendOne p)) w₁ _ :=
    appendAll_sure ordinary (size ▸ hp) (fun c hc => size ▸ gathered.known c hc)
    (fun c hc => (isFragment c).trans (gathered.whole c hc)) fun c hc under =>
      apart c hc (under.mono fun m q parent => ?_)
  · exact (all.weaken (size ▸ id)).mono fun _ w' appended => { appended with
      size := appended.size.trans size
      isFragment := fun m => (appended.isFragment m).trans (isFragment m)
      other := fun c hc => (appended.other c hc).trans (gathered.parent c hc) }
  · rcases gathered.cut m with same | none
    · exact same ▸ parent
    · rw [none] at parent
      cases parent

/-- By induction on the list: what a node yields later it yielded at first, or it is `p` and yields what
has come below it meanwhile. -/
theorem appendEach_sure (h : Ordinary w) (hp : p.index < w.nodes.size) {l : List NodeId}
    (fair : ∀ n ∈ l, n.index < w.nodes.size ∧
      ∀ c ∈ (w.nodes.takeForInsertion n).1, ¬ w.nodes.Under c p) :
    Sure (w.nodes.size ≤ fuel) (exec fuel) (Mount.appendEach p l) w fun _ w' =>
      ∃ into, Appended p into w w' := by
  induction l generalizing w with
  | nil => exact .pure ⟨[], .refl h⟩
  | cons n l ih =>
    obtain ⟨⟨hn, apart⟩, rest⟩ := List.forall_mem_cons.1 fair
    refine Sure.bind (append_sure h hp hn apart) fun _ w₁ first => ?_
    have fair₁ : ∀ m ∈ l, m.index < w₁.nodes.size ∧
        ∀ c ∈ (w₁.nodes.takeForInsertion m).1, ¬ w₁.nodes.Under c p := by
      refine fun m hm => ⟨first.size ▸ (rest m hm).1, fun c hc => first.above apart ?_⟩
      rw [← Forest.yields_iff first.linked] at hc
      by_cases come : c ∈ (w.nodes.takeForInsertion n).1
      · exact apart c come
      · refine (rest m hm).2 c ((Forest.yields_iff h.linked).1 ?_)
        unfold Forest.Yields at hc ⊢
        rwa [first.isFragment, first.other c come] at hc
    refine ((ih first.toOrdinary (first.size ▸ hp) fair₁).weaken (first.size ▸ id)).mono ?_
    rintro _ w₂ ⟨into, more⟩
    exact ⟨_, first.trans more⟩

/-! Nodes that leave their places. -/

theorem remove_sure (h : Ordinary w) (n : NodeId) :
    Sure (w.nodes.size ≤ fuel) (exec fuel) (Mount.remove n) w fun _ w' =>
      Ordinary w' ∧ w'.nodes.size = w.nodes.size := by
  refine Sure.get_bind ?_
  cases parent : (w.nodes.get n).parent with
  | none => exact .pure ⟨h, rfl⟩
  | some p =>
    have ordinary := h.withNodes (h.linked.detach n)
    have size : (w.nodes.detach n).size = w.nodes.size := (Forest.Relinked.detach n).size
    refine Sure.bind (Q := fun _ w' => w' = { w with nodes := w.nodes.detach n }) (.of_eq rfl rfl) ?_
    rintro _ _ rfl
    refine ((connect_exec ordinary.unhooked n false).weaken (size ▸ id)).mono fun _ w' r => ?_
    exact ⟨ordinary.reconnected r, r.nodes.size.trans size⟩

/-- One after another. By induction on their list. -/
theorem removeAll_sure (h : Ordinary w) (l : List NodeId) :
    Sure (w.nodes.size ≤ fuel) (exec fuel) (l.forM Mount.remove) w fun _ w' =>
      Ordinary w' ∧ w'.nodes.size = w.nodes.size := by
  induction l generalizing w with
  | nil => exact .pure ⟨h, rfl⟩
  | cons n l ih =>
    refine Sure.bind (remove_sure h n) ?_
    rintro _ w₁ ⟨ordinary, size⟩
    refine ((ih ordinary).weaken (size ▸ id)).mono ?_
    rintro _ w₂ ⟨ordinary₂, size₂⟩
    exact ⟨ordinary₂, size₂.trans size⟩

theorem replace_sure (h : Ordinary w) {l : List NodeId} (known : ∀ r ∈ l, r.index < w.nodes.size)
    (once : (w.nodes.takeAll (l.filter (· != n))).1.Nodup)
    (apart : ∀ p, (w.nodes.get n).parent = some p →
      ∀ c ∈ (w.nodes.takeAll (l.filter (· != n))).1, ¬ w.nodes.Under c p) :
    Sure (w.nodes.size ≤ fuel) (exec fuel) (Mount.replace n l) w fun _ w' => Ordinary w' := by
  have linked := h.linked.splice known once apart
  have size : (w.nodes.splice n l).1.size = w.nodes.size := (Forest.Relinked.splice n l).size
  let w₁ : World := { w with nodes := (w.nodes.splice n l).1 }
  have ordinary : Ordinary w₁ := h.withNodes linked
  refine Sure.bind (Q := fun _ w' => w' = w₁) (.of_eq rfl rfl) ?_
  rintro spliced _ rfl
  match spliced with
  | none => exact .pure ordinary
  | some (p, incoming) =>
    refine Sure.bind ((connect_exec ordinary.unhooked n false).weaken (size ▸ id)) fun _ w₂ r => ?_
    refine Sure.get_bind (((connectEach_sure (ordinary.reconnected r) _ incoming).weaken ?_).mono
      fun _ _ => And.left)
    rw [r.nodes.size, size]
    exact id

/-! Texts. -/

theorem create_sure {enough : Prop} {run : Runner} (h : Ordinary w) (content : Content) :
    Sure enough run (onNodes (·.create content)) w fun n w' =>
      n = w.nodes.next ∧ w' = { w with nodes := (w.nodes.create content).2 } ∧ Ordinary w' :=
  .of_eq rfl ⟨rfl, rfl, h.withNodes (h.linked.extended (Forest.Enlarged.create ..).toExtended)⟩

/-- A new text is not above anything else. -/
theorem setText_sure (h : Ordinary w) (hn : n.index < w.nodes.size) (text : String) :
    Sure (w.nodes.size < fuel) (exec fuel) (Mount.setText n text) w fun _ w' => Ordinary w' := by
  have data : Sure (w.nodes.size < fuel) (exec fuel) (Mount.setData n text) w fun _ w' =>
      Ordinary w' :=
    .of_eq rfl (h.withNodes (h.linked.extended (Forest.Enlarged.withData n text).toExtended))
  have children : Sure (w.nodes.size < fuel) (exec fuel) (do
      (w.nodes.get n).children.forM Mount.remove
      Mount.append n (← onNodes (·.create (.text text)))) w fun _ w' => Ordinary w' := by
    refine Sure.bind ((removeAll_sure h _).weaken Nat.le_of_lt) ?_
    rintro _ w₁ ⟨ordinary₁, size₁⟩
    refine Sure.bind (create_sure ordinary₁ (.text text)) ?_
    rintro _ _ ⟨rfl, rfl, ordinary₂⟩
    let f := (w₁.nodes.create (.text text)).2
    have size : f.size = w.nodes.size + 1 := by
      rw [← size₁]
      exact Forest.size_create _
    have new : f.get w₁.nodes.next = .alone (.text text) := Forest.get_create_next _
    have whole : (f.get w₁.nodes.next).isFragment = false := by
      rw [new]
      rfl
    have known : n.index < f.size := size ▸ Nat.lt_succ_of_lt hn
    have apart : ∀ c ∈ (f.takeForInsertion w₁.nodes.next).1, ¬ f.Under c n := by
      rw [Forest.takeForInsertion_other whole]
      intro c hc under
      obtain rfl := List.mem_singleton.1 hc
      have here := under.eq_of_childless fun m parent => by
        have mem := (ordinary₂.linked.child _ m).2 parent
        have none : (f.get w₁.nodes.next).children = [] := by
          rw [new]
          rfl
        exact List.not_mem_nil (none ▸ mem)
      rw [here] at hn
      exact absurd hn (size₁ ▸ Nat.lt_irrefl _)
    have appended : Sure _ (exec fuel) (Mount.append n w₁.nodes.next) _ _ :=
      append_sure ordinary₂ known (size ▸ size₁ ▸ Nat.lt_succ_self _) apart
    exact (appended.weaken fun lt => size ▸ lt).mono fun _ _ more => more.toOrdinary
  refine Sure.get_bind ?_
  dsimp only
  cases (w.nodes.get n).content with
  | text _ => exact data
  | comment _ => exact data
  | fragment => exact children
  | element _ => exact children

/-! Moves. -/

/-- Something that is done to the tree. -/
inductive Move where
  | create (content : Content)
  | append (p n : NodeId)
  | appendEach (p : NodeId) (nodes : List NodeId)
  | remove (n : NodeId)
  | replace (n : NodeId) (replacements : List NodeId)
  | setText (n : NodeId) (text : String)

namespace Move

/-- What is done. -/
def run : Move → Op Unit
  | .create content => do
    let _ ← onNodes (·.create content)
  | .append p n => Mount.append p n
  | .appendEach p nodes => Mount.appendEach p nodes
  | .remove n => Mount.remove n
  | .replace n replacements => Mount.replace n replacements
  | .setText n text => Mount.setText n text

/-- A move names nodes that there are. It inserts none below itself or below what the node holds, and
the replacements for a node yield no node twice. -/
def Fair (f : Forest) : Move → Prop
  | .create _ => True
  | .append p n => p.index < f.size ∧ n.index < f.size ∧
    ∀ c ∈ (f.takeForInsertion n).1, ¬ f.Under c p
  | .appendEach p nodes => p.index < f.size ∧
    ∀ n ∈ nodes, n.index < f.size ∧ ∀ c ∈ (f.takeForInsertion n).1, ¬ f.Under c p
  | .remove n => n.index < f.size
  | .replace n replacements => n.index < f.size ∧ (∀ r ∈ replacements, r.index < f.size) ∧
    (f.takeAll (replacements.filter (· != n))).1.Nodup ∧
    ∀ p, (f.get n).parent = some p →
      ∀ c ∈ (f.takeAll (replacements.filter (· != n))).1, ¬ f.Under c p
  | .setText n _ => n.index < f.size

end Move

/-- A fair move leaves the links in order, and with enough fuel it comes to an end. -/
theorem move_sure {m : Move} (h : Ordinary w) (fair : m.Fair w.nodes) :
    Sure (w.nodes.size < fuel) (exec fuel) m.run w fun _ w' => Ordinary w' := by
  cases m with
  | create content =>
    refine Sure.bind (create_sure h content) ?_
    rintro _ w₁ ⟨-, -, ordinary⟩
    exact .pure ordinary
  | append p n =>
    obtain ⟨hp, hn, apart⟩ := fair
    exact ((append_sure h hp hn apart).weaken Nat.le_of_lt).mono fun _ _ more => more.toOrdinary
  | appendEach p nodes =>
    obtain ⟨hp, each⟩ := fair
    exact ((appendEach_sure h hp each).weaken Nat.le_of_lt).mono
      fun _ _ ⟨_, more⟩ => more.toOrdinary
  | remove n => exact ((remove_sure h n).weaken Nat.le_of_lt).mono fun _ _ => And.left
  | replace n replacements =>
    obtain ⟨-, known, once, apart⟩ := fair
    exact (replace_sure h known once apart).weaken Nat.le_of_lt
  | setText n text => exact setText_sure h fair text

/-- The worlds to which fair moves lead. -/
inductive Moves (w : World) : World → Prop
  | refl : Moves w w
  | step {w₁ w₂ : World} {m : Move} {fuel : Nat} : Moves w w₁ → m.Fair w₁.nodes →
      runFrom fuel w₁ m.run = .ok ((), w₂) → Moves w w₂

/-- By induction on the moves. -/
theorem Moves.ordinary (moves : Moves w w') (h : Ordinary w) : Ordinary w' := by
  induction moves with
  | refl => exact h
  | step _ fair ran ih => exact (move_sure ih fair).ensures _ _ ran

/-- Nodes that stand alone are in order. -/
theorem ordinary_of_alone (unhooked : w.Unhooked)
    (alone : ∀ n, (w.nodes.get n).parent = none ∧ (w.nodes.get n).children = []) : Ordinary w :=
  ⟨unhooked, .of_alone alone⟩

/-- Nodes that were made and then moved, with nobody called back, are a forest: a node is among the
children of another if, and only if, that is its parent; none is there twice; no way up comes back; no
fragment is in another node. Whatever fair move comes next comes to an end. -/
theorem moved_forest {w₀ : World} (unhooked : w₀.Unhooked)
    (alone : ∀ n, (w₀.nodes.get n).parent = none ∧ (w₀.nodes.get n).children = [])
    (moves : Moves w₀ w) :
    (∀ p c, c ∈ (w.nodes.get p).children ↔ (w.nodes.get c).parent = some p) ∧
    (∀ p, (w.nodes.get p).children.Nodup) ∧
    (∀ n p, (w.nodes.get n).parent = some p → ¬ w.nodes.Under n p) ∧
    (∀ p c, c ∈ (w.nodes.get p).children → (w.nodes.get c).isFragment = false) ∧
    ∀ m : Move, m.Fair w.nodes → ∀ fuel, w.nodes.size < fuel →
      ∃ w', runFrom fuel w m.run = .ok ((), w') := by
  have ordinary := moves.ordinary (ordinary_of_alone unhooked alone)
  have linked := ordinary.linked
  refine ⟨linked.child, linked.nodup, fun n p => linked.acyclic,
    fun p c hc => linked.whole c p ((linked.child p c).1 hc), fun m fair fuel fueled => ?_⟩
  obtain ⟨_, w', ran⟩ := (move_sure ordinary fair).returns fueled
  exact ⟨w', ran⟩

/-- A fragment, an element, a text, a comment and the body of a document, none of which is in another. -/
def unsorted : World :=
  { World.empty with nodes := ⟨#[.alone .fragment, .alone (.element (.ofTag "p")),
      .alone (.text "one"), .alone (.comment "two"),
      { Dom.Node.alone (.element (.ofTag "body")) with connected := true }]⟩ }

/-- Two nodes go into the fragment, and with it into the element; one takes the place of the other, the
element is mounted, and its content is replaced. -/
theorem moved_forest_unsorted : ∃ w, Moves unsorted w ∧
    (w.nodes.get ⟨4⟩).children = [⟨1⟩] ∧ (w.nodes.get ⟨1⟩).children = [⟨5⟩] ∧
      (w.nodes.get ⟨5⟩).connected = true ∧ (w.nodes.get ⟨5⟩).parent = some ⟨1⟩ ∧
        ¬ w.nodes.Under ⟨5⟩ ⟨1⟩ := by
  let w₁ := afterwards unsorted (Move.run (.appendEach ⟨0⟩ [⟨2⟩, ⟨3⟩]))
  let w₂ := afterwards w₁ (Move.run (.append ⟨1⟩ ⟨0⟩))
  let w₃ := afterwards w₂ (Move.run (.replace ⟨2⟩ [⟨3⟩, ⟨0⟩]))
  let w₄ := afterwards w₃ (Move.run (.append ⟨4⟩ ⟨1⟩))
  let w₅ := afterwards w₄ (Move.run (.setText ⟨1⟩ "three"))
  have r₁ := runFrom_afterwards unsorted (Move.run (.appendEach ⟨0⟩ [⟨2⟩, ⟨3⟩])) (by decide +kernel)
  have r₂ := runFrom_afterwards w₁ (Move.run (.append ⟨1⟩ ⟨0⟩)) (by decide +kernel)
  have r₃ := runFrom_afterwards w₂ (Move.run (.replace ⟨2⟩ [⟨3⟩, ⟨0⟩])) (by decide +kernel)
  have r₄ := runFrom_afterwards w₃ (Move.run (.append ⟨4⟩ ⟨1⟩)) (by decide +kernel)
  have r₅ := runFrom_afterwards w₄ (Move.run (.setText ⟨1⟩ "three")) (by decide +kernel)
  have alone : ∀ n, (unsorted.nodes.get n).parent = none ∧ (unsorted.nodes.get n).children = [] := by
    rintro ⟨i⟩
    match i with
    | 0 | 1 | 2 | 3 | 4 => exact ⟨rfl, rfl⟩
    | _ + 5 => exact ⟨rfl, rfl⟩
  -- Every node that something is put into stands alone at that time.
  have fair₁ : (Move.appendEach ⟨0⟩ [⟨2⟩, ⟨3⟩]).Fair unsorted.nodes := by
    refine ⟨by decide +kernel, fun n hn => ⟨?_, fun c hc under => ?_⟩⟩
    · revert n
      decide +kernel
    · obtain rfl := under.eq_of_root (by decide +kernel)
      revert n
      decide +kernel
  have fair₂ : (Move.append ⟨1⟩ ⟨0⟩).Fair w₁.nodes := by
    refine ⟨by decide +kernel, by decide +kernel, fun c hc under => ?_⟩
    obtain rfl := under.eq_of_root (by decide +kernel)
    revert hc
    decide +kernel
  have fair₃ : (Move.replace ⟨2⟩ [⟨3⟩, ⟨0⟩]).Fair w₂.nodes := by
    refine ⟨by decide +kernel, by decide +kernel, by decide +kernel, fun p parent c hc under => ?_⟩
    have here : (w₂.nodes.get ⟨2⟩).parent = some ⟨1⟩ := by decide +kernel
    obtain rfl := Option.some.inj (here.symm.trans parent)
    obtain rfl := under.eq_of_root (by decide +kernel)
    revert hc
    decide +kernel
  have fair₄ : (Move.append ⟨4⟩ ⟨1⟩).Fair w₃.nodes := by
    refine ⟨by decide +kernel, by decide +kernel, fun c hc under => ?_⟩
    obtain rfl := under.eq_of_root (by decide +kernel)
    revert hc
    decide +kernel
  have moves : Moves unsorted w₅ :=
    ((((Moves.refl.step fair₁ r₁).step fair₂ r₂).step fair₃ r₃).step fair₄ r₄).step
      (m := .setText ⟨1⟩ "three") (by decide +kernel : 1 < w₄.nodes.size) r₅
  obtain ⟨child, -, acyclic, -⟩ := moved_forest ⟨rfl, rfl⟩ alone moves
  have children : (w₅.nodes.get ⟨1⟩).children = [⟨5⟩] := by decide +kernel
  have parent : (w₅.nodes.get ⟨5⟩).parent = some ⟨1⟩ :=
    (child ⟨1⟩ ⟨5⟩).1 (children ▸ List.mem_singleton_self _)
  exact ⟨w₅, moves, by decide +kernel, children, by decide +kernel, parent, acyclic _ _ parent⟩

end LiveMarkup.Live
