import LiveMarkup.Proofs.Ancestry

/-!
Cloning: what a copy of a node and of everything below it comes to. What is below a node is read off
as a bough, and cloning puts that bough up again from new nodes, each parent before its children, so
that the copy takes up the new nodes one after another and nothing else changes.

Main statement: `deepClone_isolated`.
-/
namespace LiveMarkup
namespace Dom

/-- A node with all that is below it, apart from who they are. -/
inductive Bough where
  | mk (content : Content) (below : List Bough)

namespace Bough

mutual

/-- The number of nodes. -/
def size : Bough → Nat
  | .mk _ below => sizeAll below + 1

def sizeAll : List Bough → Nat
  | [] => 0
  | b :: rest => b.size + sizeAll rest

end

mutual

/-- The number of nodes on the longest way down. -/
def height : Bough → Nat
  | .mk _ below => heightAll below + 1

def heightAll : List Bough → Nat
  | [] => 0
  | b :: rest => max b.height (heightAll rest)

end

mutual

/-- What the nodes are, in document order, each with its depth. -/
def outline (depth : Nat) : Bough → List (Nat × Content)
  | .mk content below => (depth, content) :: outlineAll (depth + 1) below

def outlineAll (depth : Nat) : List Bough → List (Nat × Content)
  | [] => []
  | b :: rest => b.outline depth ++ outlineAll depth rest

end

/-- The topmost nodes of boughs that are put up one after another from a position on. -/
def roots (lo : Nat) : List Bough → List NodeId
  | [] => []
  | b :: rest => ⟨lo⟩ :: roots (lo + b.size) rest

theorem size_pos (b : Bough) : 0 < b.size := by
  cases b
  exact Nat.succ_pos _

/-- A bough that is as high as all of them together. -/
theorem exists_highest {below : List Bough} (some : below ≠ []) :
    ∃ b ∈ below, b.height = heightAll below := by
  induction below with
  | nil => exact absurd rfl some
  | cons b rest ih =>
    rcases Nat.le_total (heightAll rest) b.height with le | le
    · exact ⟨b, List.mem_cons_self, (Nat.max_eq_left le).symm⟩
    · cases rest with
      | nil =>
        exact ⟨b, List.mem_cons_self, (Nat.max_eq_left (Nat.zero_le _)).symm⟩
      | cons b' rest =>
        obtain ⟨t, ht, high⟩ := ih (List.cons_ne_nil b' rest)
        exact ⟨t, List.mem_cons_of_mem b ht, high.trans (Nat.max_eq_right le).symm⟩

theorem size_le_sizeAll {b : Bough} {below : List Bough} (h : b ∈ below) :
    b.size ≤ sizeAll below := by
  induction below with
  | nil => cases h
  | cons b' rest ih =>
    simp only [sizeAll]
    rcases List.mem_cons.1 h with rfl | h
    · exact Nat.le_add_right _ _
    · exact Nat.le_add_left_of_le (ih h)

end Bough

namespace Forest
variable {f f' f₀ : Forest} {c n p : NodeId} {lo fuel : Nat}

/-- The way down from a node comes to an end, and all along it are nodes that were made. -/
inductive Founded (f : Forest) : NodeId → Prop
  | node {n : NodeId} (known : n.index < f.size) (below : ∀ c ∈ (f.get n).children, Founded f c) :
    Founded f n

mutual

/-- The bough is what a node comes to. -/
def Bears (f : Forest) (n : NodeId) : Bough → Prop
  | .mk content below =>
    n.index < f.size ∧ (f.get n).content = content ∧ BearsAll f (f.get n).children below

def BearsAll (f : Forest) : List NodeId → List Bough → Prop
  | [], [] => True
  | c :: children, b :: below => Bears f c b ∧ BearsAll f children below
  | _, _ => False

end

theorem Founded.bears (h : f.Founded n) : ∃ b, f.Bears n b := by
  induction h with
  | @node n known _ ih =>
    have all : ∀ l : List NodeId, (∀ c ∈ l, ∃ b, f.Bears c b) → ∃ below, f.BearsAll l below := by
      intro l each
      induction l with
      | nil => exact ⟨[], trivial⟩
      | cons c l more =>
        obtain ⟨here, rest⟩ := List.forall_mem_cons.1 each
        obtain ⟨b, hb⟩ := here
        obtain ⟨below, hbelow⟩ := more rest
        exact ⟨b :: below, hb, hbelow⟩
    obtain ⟨below, hbelow⟩ := all _ ih
    exact ⟨.mk _ below, known, rfl, hbelow⟩

mutual

theorem Bears.unique {n : NodeId} {b b' : Bough} (h : f.Bears n b) (h' : f.Bears n b') :
    b = b' := by
  cases b with
  | mk content below =>
    cases b' with
    | mk content' below' =>
      simp only [Bears] at h h'
      rw [← h.2.1, ← h'.2.1, BearsAll.unique h.2.2 h'.2.2]

theorem BearsAll.unique {l : List NodeId} {below below' : List Bough} (h : f.BearsAll l below)
    (h' : f.BearsAll l below') : below = below' := by
  cases below with
  | nil =>
    cases below' with
    | nil => rfl
    | cons b' below' =>
      cases l with
      | nil => exact h'.elim
      | cons c l => exact h.elim
  | cons b below =>
    cases l with
    | nil => exact h.elim
    | cons c l =>
      cases below' with
      | nil => exact h'.elim
      | cons b' below' =>
        simp only [BearsAll] at h h'
        rw [Bears.unique h.1 h'.1, BearsAll.unique h.2 h'.2]

end

theorem BearsAll.exists_of_mem {l : List NodeId} {below : List Bough} (h : f.BearsAll l below)
    {b : Bough} (hb : b ∈ below) : ∃ c ∈ l, f.Bears c b := by
  induction below generalizing l with
  | nil => cases hb
  | cons b' below ih =>
    cases l with
    | nil => exact h.elim
    | cons c l =>
      simp only [BearsAll] at h
      rcases List.mem_cons.1 hb with rfl | hb
      · exact ⟨c, List.mem_cons_self, h.1⟩
      · obtain ⟨c', hc', bears⟩ := ih h.2 hb
        exact ⟨c', List.mem_cons_of_mem c hc', bears⟩

/-- The longest way down comes through no node twice: a node that came again would be the top of a
bough that is part of itself. -/
theorem Bears.way {b : Bough} (h : f.Bears n b) :
    ∃ way : List NodeId, way.length = b.height ∧ way.Nodup ∧
      ∀ m ∈ way, m.index < f.size ∧ ∃ t, f.Bears m t ∧ t.size ≤ b.size := by
  obtain ⟨height, bounded⟩ : ∃ k, b.height ≤ k := ⟨_, Nat.le_refl _⟩
  induction height generalizing n b with
  | zero =>
    cases b with
    | mk content below => exact absurd bounded (Nat.not_succ_le_zero _)
  | succ height ih =>
    cases b with
    | mk content below =>
      have ⟨known, _, all⟩ := h
      by_cases leaf : below = []
      · subst leaf
        refine ⟨[n], rfl, List.pairwise_singleton _ n, fun m hm => ?_⟩
        obtain rfl := List.mem_singleton.1 hm
        exact ⟨known, _, h, Nat.le_refl _⟩
      · obtain ⟨t, ht, high⟩ := Bough.exists_highest leaf
        obtain ⟨c, -, bears⟩ := all.exists_of_mem ht
        have lower : t.size < (Bough.mk content below).size :=
          Nat.lt_succ_of_le (Bough.size_le_sizeAll ht)
        have bounded' : t.height ≤ height := by
          rw [high]
          exact Nat.le_of_succ_le_succ bounded
        obtain ⟨way, length, once, each⟩ := ih bears bounded'
        refine ⟨n :: way, ?_, List.nodup_cons.2 ⟨fun again => ?_, once⟩, fun m hm => ?_⟩
        · rw [List.length_cons, length, high]
          rfl
        · obtain ⟨-, t', bears', small⟩ := each n again
          rw [bears'.unique h] at small
          exact Nat.not_lt.2 small lower
        · rcases List.mem_cons.1 hm with rfl | hm
          · exact ⟨known, _, h, Nat.le_refl _⟩
          · obtain ⟨known', t', bears', small⟩ := each m hm
            exact ⟨known', t', bears', Nat.le_trans small (Nat.le_of_lt lower)⟩

/-- The number of nodes is fuel enough. -/
theorem Bears.height_le {b : Bough} (h : f.Bears n b) : b.height ≤ f.size := by
  obtain ⟨way, length, once, each⟩ := h.way
  exact length ▸ length_le_of_known once fun m hm => (each m hm).1

mutual

/-- By way of a bough: an outline with fuel for all of its height. -/
theorem Bears.outlineWith {n : NodeId} {fuel : Nat} {b : Bough} (h : f.Bears n b)
    (enough : b.height ≤ fuel) (depth : Nat) :
    f.outlineWith fuel depth n = b.outline depth := by
  cases b with
  | mk content below =>
    cases fuel with
    | zero => exact absurd enough (Nat.not_succ_le_zero _)
    | succ fuel =>
      obtain ⟨-, same, all⟩ := h
      rw [Forest.outlineWith, Bough.outline, same,
        BearsAll.outlineWith all (Nat.le_of_succ_le_succ enough) (depth + 1)]

theorem BearsAll.outlineWith {fuel : Nat} {l : List NodeId} {below : List Bough}
    (h : f.BearsAll l below) (enough : Bough.heightAll below ≤ fuel) (depth : Nat) :
    l.flatMap (f.outlineWith fuel depth) = Bough.outlineAll depth below := by
  cases below with
  | nil =>
    cases l with
    | nil => rfl
    | cons c l => exact h.elim
  | cons b below =>
    cases l with
    | nil => exact h.elim
    | cons c l =>
      obtain ⟨here, rest⟩ := h
      obtain ⟨first, more⟩ := Nat.max_le.1 enough
      rw [List.flatMap_cons, Bough.outlineAll, Bears.outlineWith here first depth,
        BearsAll.outlineWith rest more depth]

end

/-! Boughs put up from new nodes. -/

mutual

/-- The nodes from a position on are a bough, unmounted, whose top has the parent. -/
def Stands (f : Forest) (parent : Option NodeId) (lo : Nat) : Bough → Prop
  | .mk content below =>
    f.get ⟨lo⟩ = ⟨content, parent, Bough.roots (lo + 1) below, false⟩ ∧
      StandsAll f ⟨lo⟩ (lo + 1) below

/-- One bough after another, with a common parent. -/
def StandsAll (f : Forest) (p : NodeId) (lo : Nat) : List Bough → Prop
  | [] => True
  | b :: below => Stands f (some p) lo b ∧ StandsAll f p (lo + b.size) below

end

mutual

/-- Only the nodes of the bough matter. -/
theorem Stands.of_same {lo : Nat} {b : Bough} {parent : Option NodeId} (h : f.Stands parent lo b)
    (same : ∀ k : NodeId, lo ≤ k.index → k.index < lo + b.size → f'.get k = f.get k) :
    f'.Stands parent lo b := by
  cases b with
  | mk content below =>
    simp only [Bough.size] at same
    obtain ⟨top, all⟩ := h
    refine ⟨(same ⟨lo⟩ (Nat.le_refl _) (Nat.lt_add_of_pos_right (Nat.succ_pos _))).trans top,
      all.of_same fun k hk hk' => ?_⟩
    exact same k (by omega) (by omega)

theorem StandsAll.of_same {p : NodeId} {lo : Nat} {below : List Bough} (h : f.StandsAll p lo below)
    (same : ∀ k : NodeId, lo ≤ k.index → k.index < lo + Bough.sizeAll below → f'.get k = f.get k) :
    f'.StandsAll p lo below := by
  cases below with
  | nil => trivial
  | cons b below =>
    simp only [Bough.sizeAll] at same
    obtain ⟨here, rest⟩ := h
    exact ⟨here.of_same fun k hk hk' => same k hk (by omega),
      rest.of_same fun k hk hk' => same k (by omega) (by omega)⟩

end

theorem Stands.adopted {b : Bough} {parent : Option NodeId} (h : f.Stands parent lo b)
    (known : lo < f.size) (before : p.index < lo) : (f.attach p ⟨lo⟩).Stands (some p) lo b := by
  have ne : p ≠ ⟨lo⟩ := by
    rintro rfl
    exact Nat.lt_irrefl _ before
  cases b with
  | mk content below =>
    obtain ⟨top, all⟩ := h
    refine ⟨by rw [get_attach_child known ne, top], all.of_same fun k hk _ => ?_⟩
    refine get_attach_of_ne ?_ ?_
    · rintro rfl
      omega
    · rintro rfl
      exact absurd hk (Nat.not_succ_le_self lo)

/-- What a forest was made into: it has so many more nodes, and those of before are as they were,
but for one of them perhaps. -/
structure Added (f : Forest) (count : Nat) (p : Option NodeId) (f' : Forest) : Prop where
  size : f'.size = f.size + count
  kept : ∀ k, k.index < f.size → some k ≠ p → f'.get k = f.get k

/-- One more child of a node, a clone. -/
def cloneInto (fuel : Nat) (p : NodeId) (f : Forest) (c : NodeId) : Forest :=
  (cloneWith fuel c f).2.attach p (cloneWith fuel c f).1

mutual

/-- Cloning puts up the bough of a node. The node and what is below it were there before: others may
have been made since. -/
theorem cloneWith_stands {f : Forest} {n : NodeId} {fuel : Nat} {b : Bough} (h : f₀.Bears n b)
    (enough : b.height ≤ fuel) (since : f₀.size ≤ f.size)
    (same : ∀ k, k.index < f₀.size → f.get k = f₀.get k) :
    (cloneWith fuel n f).1 = f.next ∧ Added f b.size none (cloneWith fuel n f).2 ∧
      (cloneWith fuel n f).2.Stands none f.size b := by
  cases b with
  | mk content below =>
    cases fuel with
    | zero => exact absurd enough (Nat.not_succ_le_zero _)
    | succ fuel =>
      obtain ⟨known, is, all⟩ := h
      let f₁ := (f.create content).2
      have size₁ : f₁.size = f.size + 1 := size_create content
      have new : f₁.get f.next = .alone content := get_create_next content
      have old : ∀ k : NodeId, k.index < f.size → f₁.get k = f.get k := by
        intro k hk
        refine get_create_of_ne content ?_
        rintro rfl
        exact Nat.lt_irrefl _ hk
      have same₁ : ∀ k : NodeId, k.index < f₀.size → f₁.get k = f₀.get k :=
        fun k hk => (old k (Nat.lt_of_lt_of_le hk since)).trans (same k hk)
      have cloned : cloneWith (fuel + 1) n f =
          (f.next, (f₀.get n).children.foldl (cloneInto fuel f.next) f₁) := by
        rw [← same₁ n known, cloneWith, same n known, is]
        rfl
      have started : f.next.index < f₁.size := size₁ ▸ Nat.lt_succ_self _
      obtain ⟨added, top, stands⟩ := cloneInto_stands (p := f.next) all
        (Nat.le_of_succ_le_succ enough) (Nat.le_trans since (Nat.le_of_lt started)) same₁ since started
      rw [cloned]
      refine ⟨rfl, ⟨?_, fun k hk _ => ?_⟩, ?_, ?_⟩
      · rw [Bough.size, ← Nat.add_assoc, Nat.add_right_comm, ← size₁]
        exact added.size
      · refine (added.kept k ?_ ?_).trans (old k hk)
        · exact Nat.lt_trans hk started
        · rintro ⟨⟩
          exact Nat.lt_irrefl _ hk
      · refine top.trans ?_
        rw [size₁, new]
        rfl
      · exact size₁ ▸ stands

/-- And the boughs of the children, one after another, below the copy of the node. -/
theorem cloneInto_stands {f : Forest} {p : NodeId} {l : List NodeId} {fuel : Nat} {below : List Bough}
    (h : f₀.BearsAll l below) (enough : Bough.heightAll below ≤ fuel) (since : f₀.size ≤ f.size)
    (same : ∀ k, k.index < f₀.size → f.get k = f₀.get k) (new : f₀.size ≤ p.index)
    (known : p.index < f.size) :
    Added f (Bough.sizeAll below) (some p) (l.foldl (cloneInto fuel p) f) ∧
      (l.foldl (cloneInto fuel p) f).get p =
        { f.get p with children := (f.get p).children ++ Bough.roots f.size below } ∧
      (l.foldl (cloneInto fuel p) f).StandsAll p f.size below := by
  cases below with
  | nil =>
    cases l with
    | nil =>
      refine ⟨⟨rfl, fun _ _ _ => rfl⟩, ?_, trivial⟩
      simp only [List.foldl_nil, Bough.roots, List.append_nil]
    | cons c l => exact h.elim
  | cons b below =>
    cases l with
    | nil => exact h.elim
    | cons c l =>
      obtain ⟨here, rest⟩ := h
      obtain ⟨first, more⟩ := Nat.max_le.1 enough
      obtain ⟨root, added, stands⟩ := cloneWith_stands here first since same
      let f₁ := (cloneWith fuel c f).2
      let f₂ := f₁.attach p f.next
      have into : cloneInto fuel p f c = f₂ := by
        rw [cloneInto, root]
      have size₁ : f₁.size = f.size + b.size := added.size
      have size₂ : f₂.size = f.size + b.size := size_attach.trans size₁
      have positive : f.size < f₁.size := size₁ ▸ Nat.lt_add_of_pos_right b.size_pos
      have apart : p ≠ f.next := by
        rintro rfl
        exact Nat.lt_irrefl _ known
      have other : ∀ k : NodeId, k.index < f.size → k ≠ p → f₂.get k = f.get k := by
        intro k hk ne
        refine (get_attach_of_ne ne ?_).trans (added.kept k hk nofun)
        rintro rfl
        exact Nat.lt_irrefl _ hk
      have parent : f₂.get p = { f.get p with children := (f.get p).children ++ [f.next] } := by
        rw [get_attach_parent (Nat.lt_trans known positive) apart, added.kept p known nofun]
      obtain ⟨added', parent', stands'⟩ := cloneInto_stands (f := f₂) (p := p) rest more
        (by omega) (fun k hk => (other k (by omega) (by rintro rfl; omega)).trans (same k hk)) new
        (by omega)
      rw [List.foldl_cons, into]
      refine ⟨⟨?_, fun k hk ne => ?_⟩, ?_, ?_, size₂ ▸ stands'⟩
      · rw [added'.size, size₂, Bough.sizeAll, Nat.add_assoc]
      · refine (added'.kept k (by omega) ne).trans (other k hk ?_)
        rintro rfl
        exact ne rfl
      · rw [parent', parent, size₂]
        simp only [Bough.roots, List.append_assoc, List.singleton_append]
        rfl
      · refine (stands.adopted positive known).of_same fun k hk hk' => ?_
        refine added'.kept k (by omega) ?_
        rintro ⟨⟩
        omega

end

/-! What stands is seen to be so. -/

mutual

theorem Stands.bears {lo : Nat} {b : Bough} {parent : Option NodeId} (h : f.Stands parent lo b)
    (known : lo + b.size ≤ f.size) : f.Bears ⟨lo⟩ b := by
  cases b with
  | mk content below =>
    simp only [Bough.size] at known
    obtain ⟨top, all⟩ := h
    have lt : lo < f.size := by omega
    refine ⟨lt, by rw [top], ?_⟩
    rw [top]
    exact all.bears (by omega)

theorem StandsAll.bears {p : NodeId} {lo : Nat} {below : List Bough} (h : f.StandsAll p lo below)
    (known : lo + Bough.sizeAll below ≤ f.size) : f.BearsAll (Bough.roots lo below) below := by
  cases below with
  | nil => trivial
  | cons b below =>
    simp only [Bough.sizeAll] at known
    obtain ⟨here, rest⟩ := h
    exact ⟨here.bears (by omega), rest.bears (by omega)⟩

end

mutual

/-- A search comes to the nodes one after another. -/
theorem Stands.descendantsWith {lo fuel : Nat} {b : Bough} {parent : Option NodeId}
    (h : f.Stands parent lo b) (enough : b.height ≤ fuel) :
    ⟨lo⟩ :: f.descendantsWith fuel ⟨lo⟩ = (List.range' lo b.size).map Id.mk := by
  cases b with
  | mk content below =>
    cases fuel with
    | zero => exact absurd enough (Nat.not_succ_le_zero _)
    | succ fuel =>
      obtain ⟨top, all⟩ := h
      rw [Forest.descendantsWith, top, Bough.size, List.range'_succ, List.map_cons,
        all.descendantsWith (Nat.le_of_succ_le_succ enough)]

theorem StandsAll.descendantsWith {p : NodeId} {lo fuel : Nat} {below : List Bough}
    (h : f.StandsAll p lo below) (enough : Bough.heightAll below ≤ fuel) :
    (Bough.roots lo below).flatMap (fun c => c :: f.descendantsWith fuel c) =
      (List.range' lo (Bough.sizeAll below)).map Id.mk := by
  cases below with
  | nil => rfl
  | cons b below =>
    obtain ⟨here, rest⟩ := h
    obtain ⟨first, more⟩ := Nat.max_le.1 enough
    rw [Bough.roots, List.flatMap_cons, here.descendantsWith first, rest.descendantsWith more,
      Bough.sizeAll, ← List.map_append, List.range'_append_1]

end

theorem StandsAll.parent {p : NodeId} {below : List Bough} (h : f.StandsAll p lo below)
    (hc : c ∈ Bough.roots lo below) : (f.get c).parent = some p := by
  induction below generalizing lo with
  | nil => cases hc
  | cons b below ih =>
    obtain ⟨here, rest⟩ := h
    rcases List.mem_cons.1 hc with rfl | hc
    · cases b with
      | mk content below => rw [here.1]
    · exact ih rest hc

mutual

/-- Every node of a bough is the top of one. -/
theorem Stands.each {lo : Nat} {b : Bough} {parent : Option NodeId} (h : f.Stands parent lo b)
    {k : Nat} (after : lo ≤ k) (before : k < lo + b.size) : ∃ parent t, f.Stands parent k t := by
  cases b with
  | mk content below =>
    simp only [Bough.size] at before
    rcases Nat.eq_or_lt_of_le after with rfl | after
    · exact ⟨parent, _, h⟩
    · exact h.2.each after (by omega)

theorem StandsAll.each {p : NodeId} {lo : Nat} {below : List Bough} (h : f.StandsAll p lo below)
    {k : Nat} (after : lo ≤ k) (before : k < lo + Bough.sizeAll below) :
    ∃ parent t, f.Stands parent k t := by
  cases below with
  | nil => exact absurd before (Nat.not_lt.2 after)
  | cons b below =>
    simp only [Bough.sizeAll] at before
    obtain ⟨here, rest⟩ := h
    rcases Nat.lt_or_ge k (lo + b.size) with inside | beyond
    · exact here.each after inside
    · exact rest.each beyond (by omega)

end

/-- A tree of new nodes that looks like what is there below a node, beside which nothing changed. -/
structure Copied (f : Forest) (n : NodeId) (f' : Forest) (m : NodeId) : Prop where
  /-- They are the same in document order and at the same depth, with all their data. -/
  alike : f'.outline m = f.outline n
  /-- The copy of the node and what is below it are the new nodes, each once. -/
  fresh : m :: f'.descendants m = (List.range' f.size (f'.size - f.size)).map Id.mk
  root : (f'.get m).parent = none
  parent : ∀ p ∈ m :: f'.descendants m, ∀ c ∈ (f'.get p).children, (f'.get c).parent = some p
  unmounted : ∀ p ∈ m :: f'.descendants m, (f'.get p).connected = false
  /-- The nodes of before are as they were in every respect. -/
  kept : ∀ p, p.index < f.size → f'.get p = f.get p

theorem Founded.copied (h : f.Founded n) : f.Copied n (f.deepClone n).2 (f.deepClone n).1 := by
  obtain ⟨b, bears⟩ := h.bears
  have high := bears.height_le
  obtain ⟨top, added, stands⟩ := cloneWith_stands (f := f) bears (Nat.le_succ_of_le high)
    (Nat.le_refl _) fun _ _ => rfl
  change (f.deepClone n).1 = f.next at top
  change Added f b.size none (f.deepClone n).2 at added
  change (f.deepClone n).2.Stands none f.size b at stands
  have size := added.size
  have enough : b.height ≤ (f.deepClone n).2.size + 1 := by omega
  have fresh : f.next :: (f.deepClone n).2.descendants f.next =
      (List.range' f.size ((f.deepClone n).2.size - f.size)).map Id.mk := by
    rw [size, Nat.add_sub_cancel_left]
    exact stands.descendantsWith enough
  have within : ∀ p ∈ f.next :: (f.deepClone n).2.descendants f.next,
      ∃ parent t, (f.deepClone n).2.Stands parent p.index t := by
    intro p hp
    rw [fresh] at hp
    obtain ⟨k, hk, rfl⟩ := List.mem_map.1 hp
    obtain ⟨after, before⟩ := List.mem_range'_1.1 hk
    have before' : k < f.size + b.size := by omega
    exact stands.each after before'
  rw [top]
  refine ⟨?_, fresh, ?_, fun p hp c hc => ?_, fun p hp => ?_, fun p hp => added.kept p hp nofun⟩
  · exact ((stands.bears (Nat.le_of_eq size.symm)).outlineWith enough 0).trans
      (bears.outlineWith (Nat.le_succ_of_le high) 0).symm
  · cases b with
    | mk content below => exact congrArg Node.parent stands.1
  · obtain ⟨parent, ⟨content, below⟩, here, all⟩ := within p hp
    rw [here] at hc
    exact all.parent hc
  · obtain ⟨parent, ⟨content, below⟩, here, -⟩ := within p hp
    exact congrArg Node.connected here

/-- Where links agree and every way up ends, every way down does. -/
theorem Linked.founded (h : f.Linked) (known : n.index < f.size) : f.Founded n := by
  have down : ∀ (rest : Nat) (n : NodeId) (way : List NodeId), f.size ≤ way.length + rest →
      n.index < f.size → n ∉ way → way.Nodup → (∀ m ∈ way, m.index < f.size ∧ f.Under m n) →
        f.Founded n := by
    intro rest
    induction rest with
    | zero =>
      intro n way long known new once all
      have short := length_le_of_known (List.nodup_cons.2 ⟨new, once⟩)
        (List.forall_mem_cons.2 ⟨known, fun m hm => (all m hm).1⟩)
      exact absurd (Nat.le_trans short long) (Nat.not_succ_le_self _)
    | succ rest ih =>
      intro n way long known new once all
      refine .node known fun c hc => ?_
      have parent := (h.child n c).1 hc
      refine ih c (n :: way) ?_ (Linked.known parent) ?_ (List.nodup_cons.2 ⟨new, once⟩) ?_
      · rw [List.length_cons]
        omega
      · intro mem
        refine h.acyclic parent ?_
        rcases List.mem_cons.1 mem with rfl | mem
        · exact .here
        · exact (all c mem).2
      · refine List.forall_mem_cons.2 ⟨⟨known, .up parent .here⟩, fun m hm => ?_⟩
        exact ⟨(all m hm).1, .up parent (all m hm).2⟩
  exact down f.size n [] (Nat.le_add_left _ _) known List.not_mem_nil .nil nofun

end Forest
end Dom
namespace Live
variable {w : World} {n : NodeId}

/-- Callbacks and listeners are registered with nodes that were made. -/
structure World.Registered (w : World) : Prop where
  mounts : ∀ p ∈ w.mountHooks, p.1.index < w.nodes.size
  unmounts : ∀ p ∈ w.unmountHooks, p.1.index < w.nodes.size
  listeners : ∀ p ∈ w.registrations, p.1.index < w.nodes.size

theorem hooksOf_unmade {hooks : List (NodeId × Hook)} {size : Nat}
    (known : ∀ p ∈ hooks, p.1.index < size) (unknown : size ≤ n.index) : hooksOf n hooks = [] := by
  refine List.filterMap_eq_nil_iff.2 fun p hp => if_neg ?_
  rintro rfl
  exact Nat.not_lt.2 unknown (known p hp)

theorem listenersOf_unmade {size : Nat} (known : ∀ p ∈ w.registrations, p.1.index < size)
    (unknown : size ≤ n.index) (event : String) : Events.listenersOf w n event = [] := by
  refine List.filterMap_eq_nil_iff.2 fun p hp => if_neg ?_
  rintro ⟨rfl, -⟩
  exact Nat.not_lt.2 unknown (known p hp)

/-- Copying a node with everything below it makes a tree of new nodes that looks the same, stands
alone and is not mounted. The new nodes have no callbacks and no listeners. Nothing else changes,
neither in the nodes of before nor in the rest of the world, and whatever may run callbacks is not
asked to. -/
theorem deepClone_isolated (founded : w.nodes.Founded n) (registered : w.Registered) (run : Runner) :
    ∃ m nodes, (onNodes (·.deepClone n) : Op NodeId) run w = .ok (m, { w with nodes }) ∧
      w.nodes.Copied n nodes m ∧ ∀ p ∈ m :: nodes.descendants m,
        hooksOf p w.mountHooks = [] ∧ hooksOf p w.unmountHooks = [] ∧
          ∀ event, Events.listenersOf { w with nodes } p event = [] := by
  have copied := founded.copied
  refine ⟨(w.nodes.deepClone n).1, (w.nodes.deepClone n).2, rfl, copied, fun p hp => ?_⟩
  have new : w.nodes.size ≤ p.index := by
    rw [copied.fresh] at hp
    obtain ⟨k, hk, rfl⟩ := List.mem_map.1 hp
    exact (List.mem_range'_1.1 hk).1
  exact ⟨hooksOf_unmade registered.mounts new, hooksOf_unmade registered.unmounts new,
    listenersOf_unmade registered.listeners new⟩

/-- A mounted field with a text and a comment in it, a callback and a listener. -/
private def field : World :=
  { World.empty with
    nodes := ⟨#[
      ⟨.element ⟨"body", .empty, none, none⟩, none, [⟨1⟩], true⟩,
      ⟨.element ⟨"label", .set .empty "id" "main", some "typed", some true⟩, some ⟨0⟩, [⟨2⟩, ⟨3⟩], true⟩,
      ⟨.text "hi", some ⟨1⟩, [], true⟩,
      ⟨.comment "there", some ⟨1⟩, [], true⟩]⟩
    mountHooks := [(⟨1⟩, .mounted "m" [])]
    registrations := [(⟨1⟩, "click", ⟨0⟩)] }

theorem deepClone_isolated_field : ∃ m nodes,
    (onNodes (·.deepClone ⟨1⟩) : Op NodeId) (exec 0) field = .ok (m, { field with nodes }) ∧
      nodes.outline m =
        [(0, .element ⟨"label", .set .empty "id" "main", some "typed", some true⟩), (1, .text "hi"),
          (1, .comment "there")] ∧
      (∀ p ∈ m :: nodes.descendants m, (nodes.get p).connected = false) ∧
      Events.listenersOf { field with nodes } m "click" = [] := by
  have leaf : ∀ k : NodeId, k.index < 4 → (field.nodes.get k).children = [] →
      field.nodes.Founded k := by
    intro k known childless
    refine .node known fun c hc => ?_
    rw [childless] at hc
    cases hc
  have founded : field.nodes.Founded ⟨1⟩ := by
    refine .node (by decide) fun c hc => ?_
    have below : c ∈ [(⟨2⟩ : NodeId), ⟨3⟩] := hc
    rcases (by simpa using below : c = ⟨2⟩ ∨ c = ⟨3⟩) with rfl | rfl
    · exact leaf ⟨2⟩ (by decide) rfl
    · exact leaf ⟨3⟩ (by decide) rfl
  obtain ⟨m, nodes, run, copied, apart⟩ :=
    deepClone_isolated founded ⟨by decide, by decide, by decide⟩ (exec 0)
  exact ⟨m, nodes, run, copied.alike, copied.unmounted, (apart m List.mem_cons_self).2.2 "click"⟩

end Live
end LiveMarkup
