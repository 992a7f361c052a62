import LiveMarkup.Proofs.Settling

/-!
Bodies: forests in which the nodes below certain tops, the bodies of documents, are those that are
taken to be connected. Whether that is so can be told link by link. Where a tree is moved as a whole,
who is above whom inside of it stays the same.
-/
namespace LiveMarkup.Dom.Forest
variable {f f' f₁ f₂ : Forest} {a c d m n p q r s x y : NodeId}

/-- No node is above another one with the same parent. -/
theorem Linked.eq_of_siblings (h : f.Linked) (hc : (f.get c).parent = some p)
    (hd : (f.get d).parent = some p) (under : f.Under c d) : c = d := by
  cases under with
  | here => rfl
  | @up _ q parent above =>
    obtain rfl : p = q := Option.some.inj (hd.symm.trans parent)
    exact absurd above (h.acyclic hc)

/-- Of any two of the nodes, neither is above the other. -/
def Apart (f : Forest) (l : List NodeId) : Prop :=
  l.Pairwise fun r s => ¬ f.Under r s ∧ ¬ f.Under s r

theorem Apart.eq_of_under {l : List NodeId} (h : f.Apart l) (hr : r ∈ l) (hs : s ∈ l)
    (under : f.Under r s) : r = s := by
  induction l with
  | nil => cases hr
  | cons n l ih =>
    obtain ⟨first, rest⟩ := List.pairwise_cons.1 h
    rcases List.mem_cons.1 hr with rfl | hr'
    · rcases List.mem_cons.1 hs with rfl | hs'
      · rfl
      · exact absurd under (first s hs').1
    · rcases List.mem_cons.1 hs with rfl | hs'
      · exact absurd under (first r hr').2
      · exact ih rest hr' hs'

theorem Linked.apart_of_siblings (h : f.Linked) {l : List NodeId} (once : l.Nodup)
    (siblings : ∀ c ∈ l, (f.get c).parent = some p) : f.Apart l := by
  refine once.imp_of_mem fun {c d} hc hd ne => ?_
  exact ⟨fun under => ne (h.eq_of_siblings (siblings c hc) (siblings d hd) under),
    fun under => ne (h.eq_of_siblings (siblings d hd) (siblings c hc) under).symm⟩

theorem Linked.apart_children (h : f.Linked) (n : NodeId) : f.Apart (f.get n).children :=
  h.apart_of_siblings (h.nodup n) fun c hc => (h.child n c).1 hc

/-- Everything below `r`, but not `r` itself, has the parent that it had. -/
def SameBelow (f f' : Forest) (r : NodeId) : Prop :=
  ∀ m, f.Under r m → m ≠ r → (f'.get m).parent = (f.get m).parent

namespace SameBelow

theorem of_parents (h : ∀ m, (f'.get m).parent = (f.get m).parent) : SameBelow f f' r :=
  fun m _ _ => h m

theorem under (h : SameBelow f f' r) (hm : f.Under r m) : f'.Under r m := by
  induction hm with
  | here => exact .here
  | @up m q parent above ih =>
    by_cases same : m = r
    · exact same ▸ .here
    · exact .up ((h m (.up parent above) same).trans parent) ih

theorem trans (h : SameBelow f f₁ r) (h' : SameBelow f₁ f₂ r) : SameBelow f f₂ r :=
  fun m hm ne => (h' m (h.under hm) ne).trans (h m hm ne)

/-- By induction on the way up, which cannot leave the tree: its top is not above itself. -/
theorem above (h : SameBelow f f' r) (linked : f'.Linked) (hx : f.Under r x) (hy : f.Under r y)
    (under : f'.Under y x) : f.Under y x := by
  induction under with
  | here => exact .here
  | @up x q parent above ih =>
    by_cases top : x = r
    · subst top
      exact absurd ((h.under hy).trans above) (linked.acyclic parent)
    · have parent' : (f.get x).parent = some q := (h x hx top) ▸ parent
      exact .up parent' (ih (hx.of_child top parent'))

end SameBelow

/-- All nodes below `r` are connected, or none is. -/
def Uniform (f : Forest) (r : NodeId) : Prop :=
  ∀ m, f.Under r m → (f.get m).connected = (f.get r).connected

/-- Where every node below `r` is connected if its parent is. By induction on the way up. -/
theorem Uniform.of_links (links : ∀ m q, f.Under r q → (f.get m).parent = some q →
    (f.get m).connected = (f.get q).connected) : f.Uniform r := by
  intro m under
  induction under with
  | here => rfl
  | @up m q parent above ih => exact (links m q above parent).trans ih

theorem Uniform.congr (h : f.Uniform r) (parent : ∀ m, (f'.get m).parent = (f.get m).parent)
    (connected : ∀ m, f.Under r m → (f'.get m).connected = (f.get m).connected) : f'.Uniform r := by
  have back : SameBelow f' f r := .of_parents fun m => (parent m).symm
  intro m under
  rw [connected m (back.under under), connected r .here]
  exact h m (back.under under)

/-- Bodies are on top, and a node is connected if, and only if, its topmost ancestor is a body. -/
structure InPlace (body : NodeId → Prop) (f : Forest) : Prop where
  linked : f.Linked
  known : ∀ n, body n → n.index < f.size
  top : ∀ n, body n → (f.get n).parent = none
  connected : ∀ n t, f.Topmost n t → ((f.get n).connected = true ↔ body t)

namespace InPlace
variable {body : NodeId → Prop}

theorem root (h : f.InPlace body) (orphan : (f.get n).parent = none) :
    (f.get n).connected = true ↔ body n :=
  h.connected n n ⟨.here, orphan⟩

theorem even (h : f.InPlace body) (parent : (f.get m).parent = some q) :
    (f.get m).connected = (f.get q).connected := by
  obtain ⟨t, under, orphan⟩ := h.linked.rooted q
  have up := h.connected m t ⟨.up parent under, orphan⟩
  have down := h.connected q t ⟨under, orphan⟩
  exact Bool.eq_iff_iff.2 (up.trans down.symm)

theorem uniform (h : f.InPlace body) (r : NodeId) : f.Uniform r :=
  .of_links fun _ _ _ parent => h.even parent

/-- Link by link. By induction on the way up. -/
theorem of_links (linked : f.Linked) (known : ∀ n, body n → n.index < f.size)
    (top : ∀ n, body n → (f.get n).parent = none)
    (root : ∀ n, (f.get n).parent = none → ((f.get n).connected = true ↔ body n))
    (even : ∀ m q, (f.get m).parent = some q → (f.get m).connected = (f.get q).connected) :
    f.InPlace body := by
  refine ⟨linked, known, top, fun n t topmost => ?_⟩
  obtain ⟨under, orphan⟩ := topmost
  induction under with
  | here => exact root t orphan
  | @up m q parent _ ih => exact (even m q parent) ▸ ih

/-- Nodes that stand alone, of which the bodies are connected. -/
theorem of_alone (alone : ∀ n, (f.get n).parent = none ∧ (f.get n).children = [])
    (known : ∀ n, body n → n.index < f.size)
    (connected : ∀ n, (f.get n).connected = true ↔ body n) : f.InPlace body := by
  refine .of_links (.of_alone alone) known (fun n _ => (alone n).1) (fun n _ => connected n) ?_
  intro m q parent
  rw [(alone m).1] at parent
  cases parent

/-- New nodes that stand alone. -/
theorem enlarged (h : f.InPlace body) (g : f.Enlarged f') : f'.InPlace body := by
  refine .of_links (h.linked.extended g.toExtended)
    (fun n hn => Nat.lt_of_lt_of_le (h.known n hn) g.size) (fun n hn => ?_) (fun n orphan => ?_)
    fun m q parent => ?_
  · exact (g.parent n).trans (h.top n hn)
  · rw [g.connected]
    exact h.root ((g.parent n).symm.trans orphan)
  · rw [g.connected, g.connected]
    exact h.even ((g.parent m).symm.trans parent)

end InPlace
end LiveMarkup.Dom.Forest
