import LiveMarkup.Proofs.Moves
import LiveMarkup.Proofs.Drafting

/-!
Ancestry: who is above whom when a node gives its place to others. A search goes down from a node and
comes to whatever is under it. What comes in for a node brings along all that is under it, and a node
that takes over the children of the other one is above all that was under that.
-/
namespace LiveMarkup.Dom.Forest
variable {f f' : Forest} {a b c e g m n p root : NodeId}

/-- Of two nodes above a third, one is above the other. -/
theorem Under.comparable (ha : f.Under a n) (hb : f.Under b n) : f.Under a b ∨ f.Under b a := by
  induction ha with
  | here => exact .inr hb
  | @up n p parent above ih =>
    cases hb with
    | here => exact .inl (.up parent above)
    | @up _ q parent' below =>
      obtain rfl : p = q := Option.some.inj (parent.symm.trans parent')
      exact ih below

/-- What is outside of a tree is above nothing in it. -/
theorem Under.outside (top : (f.get root).parent = none) (out : ¬ f.Under root g)
    (inside : f.Under root n) : ¬ f.Under g n := by
  intro under
  rcases under.comparable inside with below | below
  · rw [below.eq_of_root top] at out
    exact out .here
  · exact out below

theorem Under.of_child (h : f.Under a n) (ne : n ≠ a) (parent : (f.get n).parent = some p) :
    f.Under a p := by
  cases h with
  | here => exact absurd rfl ne
  | @up _ q parent' above =>
    obtain rfl : p = q := Option.some.inj (parent.symm.trans parent')
    exact above

/-! Searches. -/

theorem descendantsWith_mono {fuel fuel' : Nat} (le : fuel ≤ fuel')
    (h : n ∈ f.descendantsWith fuel a) : n ∈ f.descendantsWith fuel' a := by
  induction fuel generalizing fuel' a with
  | zero => cases h
  | succ fuel ih =>
    obtain ⟨fuel', rfl⟩ : ∃ k, fuel' = k + 1 := ⟨fuel' - 1, by omega⟩
    obtain ⟨c, hc, hm⟩ := List.mem_flatMap.1 h
    refine List.mem_flatMap.2 ⟨c, hc, ?_⟩
    rcases List.mem_cons.1 hm with rfl | hm
    · exact List.mem_cons_self
    · exact List.mem_cons_of_mem _ (ih (Nat.le_of_succ_le_succ le) hm)

theorem mem_descendantsWith_child {fuel : Nat} (hp : p = a ∨ p ∈ f.descendantsWith fuel a)
    (mem : n ∈ (f.get p).children) : n ∈ f.descendantsWith (fuel + 1) a := by
  induction fuel generalizing a with
  | zero =>
    rcases hp with rfl | hp
    · exact List.mem_flatMap.2 ⟨n, mem, List.mem_cons_self⟩
    · cases hp
  | succ fuel ih =>
    rcases hp with rfl | hp
    · exact List.mem_flatMap.2 ⟨n, mem, List.mem_cons_self⟩
    · obtain ⟨c, hc, hp⟩ := List.mem_flatMap.1 hp
      refine List.mem_flatMap.2 ⟨c, hc, List.mem_cons_of_mem _ (ih ?_)⟩
      exact List.mem_cons.1 hp

/-- The way down to a node comes through no other node twice. By induction on the way up. -/
theorem Under.way (h : f.Linked) (under : f.Under a n) :
    ∃ way : List NodeId, way.Nodup ∧ (∀ m ∈ way, m.index < f.size ∧ f.Under m n) ∧
      (n = a ∨ n ∈ f.descendantsWith way.length a) := by
  induction under with
  | here => exact ⟨[], .nil, fun m hm => (List.not_mem_nil hm).elim, .inl rfl⟩
  | @up n p parent above ih =>
    obtain ⟨way, once, all, down⟩ := ih
    refine ⟨n :: way, List.nodup_cons.2 ⟨fun hn => ?_, once⟩, fun m hm => ?_, .inr ?_⟩
    · exact h.acyclic parent (all n hn).2
    · rcases List.mem_cons.1 hm with rfl | hm
      · exact ⟨Linked.known parent, .here⟩
      · exact ⟨(all m hm).1, (all m hm).2.trans (.up parent .here)⟩
    · exact mem_descendantsWith_child down ((h.child p n).2 parent)

/-- There are no more different nodes than were made. -/
theorem length_le_of_known {way : List NodeId} (once : way.Nodup)
    (known : ∀ m ∈ way, m.index < f.size) : way.length ≤ f.size := by
  have distinct : (way.map (·.index)).Nodup := by
    refine List.Pairwise.map _ (fun m m' ne same => ne ?_) once
    cases m
    cases m'
    exact congrArg Id.mk same
  have short : (way.map (·.index)).length ≤ (List.range f.size).length := by
    refine distinct.length_le_of_subset fun i hi => ?_
    obtain ⟨m, hm, rfl⟩ := List.mem_map.1 hi
    exact List.mem_range.2 (known m hm)
  rwa [List.length_map, List.length_range] at short

/-- The fuel of a search is enough to come to every node. -/
theorem Under.mem_descendants (h : f.Linked) (under : f.Under a n) (ne : n ≠ a) :
    n ∈ f.descendants a := by
  obtain ⟨way, once, all, down⟩ := under.way h
  have short := length_le_of_known once fun m hm => (all m hm).1
  exact descendantsWith_mono (Nat.le_succ_of_le short) (down.resolve_left ne)

theorem under_of_mem_descendants (h : f.Linked) (mem : n ∈ f.descendants a) : f.Under a n := by
  refine (mem_of_mem_descendantsWith (P := f.Under a) (fun p hp c hc => ?_) .here mem).1
  exact .up ((h.child p c).1 hc) hp

/-- A search comes to the one node under the root that carries what is sought. -/
theorem find_of_sole {name value : String} (h : f.Linked) (under : f.Under root n) (ne : n ≠ root)
    (carries : f.Carries name value n)
    (sole : ∀ m, f.Under root m → f.Carries name value m → m = n) :
    f.findByAttribute root name value = some n := by
  have found : (f.findByAttribute root name value).isSome := by
    unfold findByAttribute
    rw [List.find?_isSome]
    exact ⟨n, under.mem_descendants h ne, (carries_iff name value).2 carries⟩
  obtain ⟨m, hm⟩ := Option.isSome_iff_exists.1 found
  obtain ⟨below, carried⟩ := carries_of_findByAttribute hm
  rw [hm, sole m (under_of_mem_descendants h below) carried]

/-! Places. -/

/-- Who is in the place of a node when `c` has taken that of `e`. -/
def heir (e c n : NodeId) : NodeId :=
  if n = e then c else n

/-- A node has given its place below `p` to those in `into`, which were under `g`. If it had children,
they have come below `c`, which is one of those. -/
structure Replaced (f f' : Forest) (e p g : NodeId) (into : List NodeId) (c : NodeId) : Prop where
  linked : f'.Linked
  place : (f.get e).parent = some p
  left : (f'.get e).parent = none
  came : ∀ n ∈ into, (f'.get n).parent = some p ∧ f.Under g n
  below : ∀ n, (f.get n).parent = some e → c ∈ into ∧ (f'.get n).parent = some c
  other : ∀ n, n ≠ e → n ∉ into → (f.get n).parent ≠ some e →
    (f'.get n).parent = (f.get n).parent

namespace Replaced
variable {into : List NodeId}

section
variable (r : Replaced f f' e p g into c) (h : f.Linked) (top : (f.get root).parent = none)
  (he : f.Under root e) (out : ¬ f.Under root g)
include r top

theorem root_ne : root ≠ e := by
  rintro rfl
  rw [r.place] at top
  cases top

theorem parent_root (out : ¬ f.Under root g) : (f'.get root).parent = none := by
  refine (r.other root (r.root_ne top) (fun hr => ?_) ?_).trans top
  · exact Under.outside top out .here (r.came root hr).2
  · rw [top]
    exact Option.some_ne_none e |>.symm

include he

/-- What is in the tree afterwards. By induction on the way up. -/
theorem inside (hn : f'.Under root n) : f.Under root n ∧ n ≠ e ∨ f.Under g n := by
  induction hn with
  | here => exact .inl ⟨.here, r.root_ne top⟩
  | @up n q parent above ih =>
    have ne : n ≠ e := by
      rintro rfl
      rw [r.left] at parent
      cases parent
    by_cases hi : n ∈ into
    · exact .inr (r.came n hi).2
    · by_cases child : (f.get n).parent = some e
      · exact .inl ⟨.up child he, ne⟩
      · rw [r.other n ne hi child] at parent
        exact ih.imp (fun inside => ⟨.up parent inside.1, ne⟩) (.up parent)

/-- A node outside keeps what is under it, and nothing comes under it. By induction on the way up. -/
theorem others (ha : ¬ f.Under root a) (above : ¬ f.Under g a) (below : ¬ f.Under a g)
    (hn : f'.Under a n) : f.Under a n := by
  induction hn with
  | here => exact .here
  | @up n q parent _ ih =>
    by_cases hn : n = e
    · rw [hn, r.left] at parent
      cases parent
    by_cases hi : n ∈ into
    · rw [(r.came n hi).1] at parent
      obtain rfl := Option.some.inj parent
      exact absurd ih (Under.outside top ha (he.of_child (Ne.symm (r.root_ne top)) r.place))
    by_cases child : (f.get n).parent = some e
    · obtain ⟨mem, parent'⟩ := r.below n child
      rw [parent'] at parent
      obtain rfl := Option.some.inj parent
      exact absurd (ih.comparable (r.came _ mem).2) (not_or.2 ⟨below, above⟩)
    · exact .up ((r.other n hn hi child).symm.trans parent) ih

include out

/-- Where a node of the tree goes that is not lost. By induction on the way up. -/
theorem reach (h : f.Linked) (hn : f.Under root n) (keeps : n = e → c ∈ into) :
    f'.Under root (heir e c n) := by
  induction hn with
  | here =>
    rw [heir, if_neg (r.root_ne top)]
    exact .here
  | @up n q parent above ih =>
    by_cases hn : n = e
    · subst hn
      obtain rfl : p = q := Option.some.inj (r.place.symm.trans parent)
      have ne : p ≠ n := by
        rintro rfl
        exact h.acyclic parent .here
      rw [heir, if_pos rfl]
      have ih := ih fun eq => absurd eq ne
      rw [heir, if_neg ne] at ih
      exact .up (r.came c (keeps rfl)).1 ih
    · rw [heir, if_neg hn]
      by_cases hq : q = e
      · subst hq
        obtain ⟨mem, parent'⟩ := r.below n parent
        have ih := ih fun _ => mem
        rw [heir, if_pos rfl] at ih
        exact .up parent' ih
      · have ih := ih fun eq => absurd eq hq
        rw [heir, if_neg hq] at ih
        refine .up ((r.other n hn (fun hi => ?_) ?_).trans parent) ih
        · exact Under.outside top out (.up parent above) (r.came n hi).2
        · rw [parent]
          exact fun eq => hq (Option.some.inj eq)

omit he in
/-- Nothing comes below a node of the tree that had no children. -/
theorem childless (ha : f.Under root a) (none : ∀ n, (f.get n).parent ≠ some a) (n : NodeId) :
    (f'.get n).parent ≠ some a := by
  intro parent
  by_cases hn : n = e
  · rw [hn, r.left] at parent
    cases parent
  by_cases hi : n ∈ into
  · rw [(r.came n hi).1] at parent
    exact none e (r.place.trans parent)
  by_cases child : (f.get n).parent = some e
  · obtain ⟨mem, parent'⟩ := r.below n child
    rw [parent'] at parent
    obtain rfl := Option.some.inj parent
    exact Under.outside top out ha (r.came _ mem).2
  · exact none n ((r.other n hn hi child).symm.trans parent)

end

/-- A node that holds nothing is replaced by another, or by the children of a fragment. -/
theorem splice (h : f.Linked) (place : (f.get e).parent = some p)
    (hollow : ∀ n, (f.get n).parent ≠ some e) (known : g.index < f.size) (ne : g ≠ e)
    (apart : ¬ f.Under g p) (c : NodeId) :
    (f.splice e [g]).2 = some (p, (f.takeForInsertion g).1) ∧
      Replaced f (f.splice e [g]).1 e p g (f.takeForInsertion g).1 c := by
  have alone : (f.takeAll ([g].filter (· != e))).1 = (f.takeForInsertion g).1 := by
    simp [ne, takeAll]
  have once : (f.takeForInsertion g).1.Nodup := by
    cases fragment : (f.get g).isFragment with
    | true =>
      rw [takeForInsertion_fragment fragment]
      exact h.nodup g
    | false =>
      rw [takeForInsertion_other fragment]
      exact List.pairwise_singleton _ g
  obtain ⟨spliced, moved⟩ := Moved.splice (n := e) (l := [g]) h place (by simpa using known)
    (alone ▸ once) (by simpa using fun _ => apart)
  rw [alone] at spliced moved
  refine ⟨spliced, moved.linked, place, moved.left e (List.mem_singleton_self e),
    fun n hn => ⟨moved.below n hn, ?_⟩, fun n hn => absurd hn (hollow n),
    fun n hn hi _ => moved.other n (by simpa using hn) hi⟩
  have yields := (yields_iff h).2 hn
  unfold Yields at yields
  split at yields
  · exact .up yields .here
  · exact yields ▸ .here

end Replaced

/-- Nodes come below another one, one after another. By induction on their list. -/
theorem Moved.attachAll (h : f.Linked) (hc : c.index < f.size) {l : List NodeId}
    (known : ∀ k ∈ l, k.index < f.size) (whole : ∀ k ∈ l, (f.get k).isFragment = false)
    (apart : ∀ k ∈ l, ¬ f.Under k c) :
    Moved f (l.foldl (fun f k => (f.detach k).attach c k) f) [] c l := by
  induction l generalizing f with
  | nil =>
    exact ⟨.refl f, h, fun n hn => (List.not_mem_nil hn).elim, fun n hn => (List.not_mem_nil hn).elim,
      fun _ _ _ => rfl⟩
  | cons k l ih =>
    obtain ⟨known, knownRest⟩ := List.forall_mem_cons.1 known
    obtain ⟨whole, wholeRest⟩ := List.forall_mem_cons.1 whole
    obtain ⟨apart, apartRest⟩ := List.forall_mem_cons.1 apart
    have first := Moved.attach h known hc whole apart
    have size : ((f.detach k).attach c k).size = f.size := first.relinked.size
    have rest := ih first.linked (size ▸ hc) (fun k' hk => size ▸ knownRest k' hk)
      (fun k' hk => (Linked.relinked_whole first.relinked k').trans (wholeRest k' hk))
      fun k' hk under => apartRest k' hk <| under.of_below
        (fun m hm => first.other m List.not_mem_nil hm) (by simpa using apart)
    refine ⟨first.relinked.trans rest.relinked, rest.linked, fun n hn => (List.not_mem_nil hn).elim,
      fun n hn => ?_, fun n _ hn => ?_⟩
    · by_cases later : n ∈ l
      · exact rest.below n later
      · rw [List.foldl_cons, rest.other n List.not_mem_nil later]
        exact first.below n (by simpa [later] using hn)
    · obtain ⟨ne, later⟩ := not_or.1 (mt List.mem_cons.2 hn)
      exact (rest.other n List.not_mem_nil later).trans (first.other n List.not_mem_nil (by simpa using ne))

/-- A node that has taken over the children of another takes its place. -/
theorem Replaced.succeed {f₁ f₂ : Forest} (h : f.Linked) (place : (f.get e).parent = some p)
    (apart : (f.get c).parent ≠ some e) (moved : Moved f f₁ [] c (f.get e).children)
    (enlarged : f₁.Enlarged f₂) (replaced : Replaced f₂ f' e p c [c] c) : Replaced f f' e p c [c] c := by
  have left := replaced.left
  have mem : c ∈ [c] := List.mem_singleton_self c
  have given : ∀ {n}, (f.get n).parent = some e → (f₂.get n).parent = some c :=
    fun hn => (enlarged.parent _).trans (moved.below _ ((h.child e _).2 hn))
  have same : ∀ {n}, (f.get n).parent ≠ some e → (f₂.get n).parent = (f.get n).parent :=
    fun hn => (enlarged.parent _).trans (moved.other _ List.not_mem_nil (mt (h.child e _).1 hn))
  refine ⟨replaced.linked, place, left, fun n hn => ⟨(replaced.came n hn).1, ?_⟩,
    fun n hn => ⟨mem, ?_⟩, fun n hn hi child => ?_⟩
  · rw [List.mem_singleton.1 hn]
    exact .here
  · have ne : n ≠ e := fun eq => h.acyclic hn (eq ▸ .here)
    have hc : n ∉ [c] := by
      rintro mem
      exact apart (List.mem_singleton.1 mem ▸ hn)
    have still : (f₂.get n).parent ≠ some e := by
      rw [given hn]
      intro eq
      rw [← Option.some.inj eq, (replaced.came c mem).1] at left
      cases left
    rw [replaced.other n ne hc still, given hn]
  · rw [replaced.other n hn hi, same child]
    rw [same child]
    exact child

end LiveMarkup.Dom.Forest
