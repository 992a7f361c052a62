import LiveMarkup.Dom.Forest

/-!
Planting: what a forest looks like after new nodes were made for trees. The new nodes are linked
among themselves, parents before children, and come in document order, so that an element of the
trees is found again among them by its position.
-/
namespace LiveMarkup.Dom

open Markup (Tree Attributes)

/-- Whether this is an element whose attribute has a value. -/
def Content.carries (name value : String) : Content → Bool
  | .element e => e.attributes.value? name == some value
  | _ => false

mutual

/-- What the nodes of a tree are, in document order. -/
def treeContents : Tree → List Content
  | .text data => [.text data]
  | .comment data => [.comment data]
  | .element tag attributes children =>
    .element ⟨tag, attributes, none, none⟩ :: treesContents children

/-- The same over trees that stand side by side. -/
def treesContents : List Tree → List Content
  | [] => []
  | t :: rest => treeContents t ++ treesContents rest

end

mutual

theorem length_elementsWith (name value : String) (t : Tree) :
    (t.elementsWith name value).length = (treeContents t).countP (Content.carries name value) := by
  cases t with
  | text data => simp [Tree.elementsWith, treeContents, Content.carries]
  | comment data => simp [Tree.elementsWith, treeContents, Content.carries]
  | element tag attributes children =>
    have below := length_elementsWithAll name value children
    by_cases h : attributes.value? name = some value
    · simp [Tree.elementsWith, treeContents, Content.carries, h, below, Nat.add_comm]
    · simp [Tree.elementsWith, treeContents, Content.carries, h, below]

theorem length_elementsWithAll (name value : String) (ts : List Tree) :
    (Markup.elementsWithAll name value ts).length =
      (treesContents ts).countP (Content.carries name value) := by
  cases ts with
  | nil => rfl
  | cons t rest =>
    simp only [Markup.elementsWithAll, treesContents, List.length_append, List.countP_append,
      length_elementsWith name value t, length_elementsWithAll name value rest]

end

namespace Forest
variable {f f' : Forest} {n p : NodeId}

/-- Whether a node is an element whose attribute has a value. -/
def Carries (f : Forest) (name value : String) (n : NodeId) : Prop :=
  (f.get n).content.carries name value = true

theorem carries_iff (name value : String) :
    (f.isElement n && (f.attributes n).value? name == some value) = true ↔
      f.Carries name value n := by
  unfold Carries isElement attributes Node.element?
  cases (f.get n).content with
  | element e => rfl
  | fragment => simp [Content.carries]
  | text data => simp [Content.carries]
  | comment data => simp [Content.carries]

/-- A node that was never made carries nothing. -/
theorem known_of_carries {name value : String} (h : f.Carries name value n) : n.index < f.size := by
  rcases Nat.lt_or_ge n.index f.size with hlt | hge
  · exact hlt
  · unfold Carries at h
    rw [Heap.get_of_size_le _ _ hge] at h
    cases h

theorem carries_of_findByAttribute {name value : String} {m : NodeId}
    (h : f.findByAttribute n name value = some m) :
    m ∈ f.descendants n ∧ f.Carries name value m := by
  have found := List.find?_some h
  exact ⟨List.mem_of_find?_eq_some h, (carries_iff name value).1 found⟩

/-- What is below a node of a set that holds the children of its members is in the set, as a child
of a member. -/
theorem mem_of_mem_descendantsWith {P : NodeId → Prop}
    (closed : ∀ p, P p → ∀ c ∈ (f.get p).children, P c) {fuel : Nat} (hn : P n) {m : NodeId}
    (hm : m ∈ f.descendantsWith fuel n) : P m ∧ ∃ p, P p ∧ m ∈ (f.get p).children := by
  induction fuel generalizing n with
  | zero => cases hm
  | succ fuel ih =>
    obtain ⟨c, hc, hm⟩ := List.mem_flatMap.1 hm
    rcases List.mem_cons.1 hm with rfl | hm
    · exact ⟨closed n hn m hc, n, hn, hc⟩
    · exact ih (closed n hn c hc) hm

/-- A way down from a node along children that are younger than their parents. -/
inductive Leads (f : Forest) : NodeId → NodeId → Prop
  | child {a n : NodeId} (younger : a.index < n.index) (mem : n ∈ (f.get a).children) : Leads f a n
  | through {a c n : NodeId} (younger : a.index < c.index) (mem : c ∈ (f.get a).children)
    (rest : Leads f c n) : Leads f a n

theorem Leads.snoc {a : NodeId} (h : f.Leads a p) (younger : p.index < n.index)
    (mem : n ∈ (f.get p).children) : f.Leads a n := by
  induction h with
  | child younger' mem' => exact .through younger' mem' (.child younger mem)
  | through younger' mem' _ ih => exact .through younger' mem' (ih younger mem)

theorem Leads.younger {a : NodeId} (h : f.Leads a n) : a.index < n.index := by
  induction h with
  | child younger => exact younger
  | through younger _ _ ih => exact Nat.lt_trans younger ih

theorem Leads.mem_descendantsWith {a : NodeId} (h : f.Leads a n) {fuel : Nat}
    (enough : n.index ≤ a.index + fuel) : n ∈ f.descendantsWith fuel a := by
  induction h generalizing fuel with
  | child younger mem =>
    obtain ⟨fuel, rfl⟩ : ∃ k, fuel = k + 1 := ⟨fuel - 1, by omega⟩
    exact List.mem_flatMap.2 ⟨_, mem, List.mem_cons_self⟩
  | through younger mem rest ih =>
    have := rest.younger
    obtain ⟨fuel, rfl⟩ : ∃ k, fuel = k + 1 := ⟨fuel - 1, by omega⟩
    exact List.mem_flatMap.2 ⟨_, mem, List.mem_cons_of_mem _ (ih (by omega))⟩

theorem Leads.mem_descendants {a : NodeId} (h : f.Leads a n) (known : n.index < f.size) :
    n ∈ f.descendants a :=
  h.mem_descendantsWith (by omega)

theorem get_create_of_ne (content : Content) (hn : n ≠ f.next) :
    (f.create content).2.get n = f.get n :=
  Heap.get_push_of_ne _ _ _ hn

theorem get_create_next (content : Content) : (f.create content).2.get f.next = .alone content :=
  Heap.get_push_next ..

theorem size_create (content : Content) : (f.create content).2.size = f.size + 1 :=
  Heap.size_push ..

/-- A new node that carries nothing adds nothing that does. -/
theorem carries_of_create {content : Content} {name value : String} {m : NodeId}
    (unmarked : content.carries name value = false)
    (h : (f.create content).2.Carries name value m) : f.Carries name value m := by
  unfold Carries at h ⊢
  by_cases hm : m = f.next
  · rw [hm, get_create_next] at h
    exact absurd h (by simp [Node.alone, unmarked])
  · rwa [get_create_of_ne content hm] at h

/-- Nothing carries what it did not where a change of one node makes none. -/
theorem carries_of_modify {g : Node → Node} {name value : String} {m : NodeId}
    (marks : ∀ a, (g a).content.carries name value = true → a.content.carries name value = true)
    (h : Forest.Carries (f.modify n g) name value m) : f.Carries name value m := by
  unfold Carries at h ⊢
  by_cases hnm : n = m
  · subst hnm
    rcases Nat.lt_or_ge n.index f.size with hlt | hge
    · rw [Heap.get_modify_self _ _ _ hlt] at h
      exact marks _ h
    · rwa [Heap.modify_of_size_le _ _ _ hge] at h
  · rwa [Heap.get_modify_of_ne _ _ _ _ hnm] at h

theorem carries_of_mapElement {g : Element → Element} {name value : String} {m : NodeId}
    (same : ∀ e, (g e).attributes.value? name = e.attributes.value? name)
    (h : (f.mapElement n g).Carries name value m) : f.Carries name value m := by
  refine carries_of_modify (fun a ha => ?_) h
  unfold Node.mapElement at ha
  split at ha
  case h_1 e content =>
    rw [content]
    simpa [Content.carries, same] using ha
  case h_2 => exact ha

theorem size_attach : (f.attach p n).size = f.size := by
  simp [attach, setParent]

theorem get_attach_of_ne {m : NodeId} (hp : m ≠ p) (hn : m ≠ n) :
    (f.attach p n).get m = f.get m := by
  simp only [attach, setParent, Heap.get_modify_of_ne _ _ _ _ hp.symm,
    Heap.get_modify_of_ne _ _ _ _ hn.symm]

theorem get_attach_parent (known : p.index < f.size) (ne : p ≠ n) :
    (f.attach p n).get p = { f.get p with children := (f.get p).children ++ [n] } := by
  have known' : p.index < (f.setParent n (some p)).size := by
    simpa [setParent] using known
  simp only [attach, Heap.get_modify_self _ _ _ known']
  simp only [setParent, Heap.get_modify_of_ne _ _ _ _ ne.symm]

theorem get_attach_child (known : n.index < f.size) (ne : p ≠ n) :
    (f.attach p n).get n = { f.get n with parent := some p } := by
  simp only [attach, Heap.get_modify_of_ne _ _ _ _ ne]
  simp only [setParent, Heap.get_modify_self _ _ _ known]

/-- The nodes from a position on are linked among themselves, parents before children. -/
structure Grown (lo : Nat) (f : Forest) : Prop where
  child : ∀ p, lo ≤ p.index → ∀ c ∈ (f.get p).children,
    p.index < c.index ∧ c.index < f.size ∧ (f.get c).parent = some p
  nodup : ∀ p, lo ≤ p.index → (f.get p).children.Nodup
  parent : ∀ c p, lo ≤ c.index → (f.get c).parent = some p →
    lo ≤ p.index ∧ c ∈ (f.get p).children

variable {lo : Nat}

theorem Grown.nothing (h : lo = f.size) : Grown lo f := by
  have unknown : ∀ n, lo ≤ n.index → f.get n = default :=
    fun n hn => Heap.get_of_size_le f n (h ▸ hn)
  constructor
  · intro p hp c hc
    rw [unknown p hp] at hc
    cases hc
  · intro p hp
    rw [unknown p hp]
    exact List.nodup_nil
  · intro c p hc hp
    rw [unknown c hc] at hp
    cases hp

theorem Grown.create (h : Grown lo f) (content : Content) : Grown lo (f.create content).2 := by
  have old : ∀ n, n ≠ f.next → (f.create content).2.get n = f.get n :=
    fun n hn => get_create_of_ne content hn
  have new : (f.create content).2.get f.next = .alone content := get_create_next content
  have size : (f.create content).2.size = f.size + 1 := size_create content
  constructor
  · intro p hp c hc
    by_cases hn : p = f.next
    · rw [hn, new] at hc
      cases hc
    · rw [old p hn] at hc
      obtain ⟨younger, known, parent⟩ := h.child p hp c hc
      have ne : c ≠ f.next := by
        rintro rfl
        exact Nat.lt_irrefl _ known
      exact ⟨younger, by omega, by rw [old c ne, parent]⟩
  · intro p hp
    by_cases hn : p = f.next
    · rw [hn, new]
      exact List.nodup_nil
    · rw [old p hn]
      exact h.nodup p hp
  · intro c p hc hp
    by_cases hn : c = f.next
    · rw [hn, new] at hp
      cases hp
    · rw [old c hn] at hp
      obtain ⟨after, mem⟩ := h.parent c p hc hp
      have ne : p ≠ f.next := by
        rintro rfl
        rw [Heap.get_next] at mem
        cases mem
      exact ⟨after, by rw [old p ne]; exact mem⟩

theorem Grown.attach (h : Grown lo f) (hp : lo ≤ p.index) (younger : p.index < n.index)
    (known : n.index < f.size) (free : (f.get n).parent = none) : Grown lo (f.attach p n) := by
  have ne : p ≠ n := by
    rintro rfl
    exact Nat.lt_irrefl _ younger
  have hpn := get_attach_parent (Nat.lt_trans younger known) ne
  have hnn := get_attach_child known ne
  have other : ∀ m, m ≠ p → m ≠ n → (f.attach p n).get m = f.get m :=
    fun m h₁ h₂ => get_attach_of_ne h₁ h₂
  have children : ∀ q, q ≠ p → ((f.attach p n).get q).children = (f.get q).children := by
    intro q hq
    by_cases hqn : q = n
    · rw [hqn, hnn]
    · rw [other q hq hqn]
  have parent : ∀ c, c ≠ n → ((f.attach p n).get c).parent = (f.get c).parent := by
    intro c hc
    by_cases hcp : c = p
    · rw [hcp, hpn]
    · rw [other c hcp hc]
  have stranger : ∀ q, lo ≤ q.index → n ∉ (f.get q).children := by
    intro q hq hn
    have := (h.child q hq n hn).2.2
    rw [free] at this
    cases this
  constructor
  · intro q hq c hc
    rw [size_attach]
    by_cases hqp : q = p
    · subst hqp
      rw [hpn] at hc
      rcases List.mem_append.1 hc with hc | hc
      · obtain ⟨h₁, h₂, h₃⟩ := h.child q hq c hc
        have hcn : c ≠ n := fun heq => stranger q hq (heq ▸ hc)
        exact ⟨h₁, h₂, by rw [parent c hcn, h₃]⟩
      · cases List.mem_singleton.1 hc
        exact ⟨younger, known, by rw [hnn]⟩
    · rw [children q hqp] at hc
      obtain ⟨h₁, h₂, h₃⟩ := h.child q hq c hc
      have hcn : c ≠ n := fun heq => stranger q hq (heq ▸ hc)
      exact ⟨h₁, h₂, by rw [parent c hcn, h₃]⟩
  · intro q hq
    by_cases hqp : q = p
    · subst hqp
      rw [hpn]
      refine List.nodup_append.2 ⟨h.nodup q hq, List.pairwise_singleton _ n, fun a ha b hb => ?_⟩
      cases List.mem_singleton.1 hb
      rintro rfl
      exact stranger q hq ha
    · rw [children q hqp]
      exact h.nodup q hq
  · intro c q hc hq
    by_cases hcn : c = n
    · subst hcn
      rw [hnn] at hq
      cases hq
      exact ⟨hp, by rw [hpn]; exact List.mem_append_right _ (List.mem_singleton_self c)⟩
    · rw [parent c hcn] at hq
      obtain ⟨after, mem⟩ := h.parent c q hc hq
      refine ⟨after, ?_⟩
      by_cases hqp : q = p
      · subst hqp
        rw [hpn]
        exact List.mem_append_left _ mem
      · rw [children q hqp]
        exact mem

/-- What planting comes to: the nodes of before are as they were, but that `p` may have more
children, and every new node has a parent, but for a root. -/
structure Sprouts (lo : Nat) (p root : Option NodeId) (f f' : Forest) : Prop where
  grown : Grown lo f'
  size : f.size ≤ f'.size
  old : ∀ m, m.index < f.size → some m ≠ p → f'.get m = f.get m
  parent : ∀ m, m.index < f.size → (f'.get m).parent = (f.get m).parent
  unconnected : ∀ m, (f'.get m).connected = (f.get m).connected
  new : ∀ m, f.size ≤ m.index → m.index < f'.size → some m ≠ root → (f'.get m).parent ≠ none

theorem Sprouts.refl (h : Grown lo f) (p root : Option NodeId) : Sprouts lo p root f f :=
  ⟨h, Nat.le_refl _, fun _ _ _ => rfl, fun _ _ => rfl, fun _ => rfl,
    fun _ h₁ h₂ => absurd h₂ (Nat.not_lt.2 h₁)⟩

theorem connected_create (content : Content) (m : NodeId) :
    ((f.create content).2.get m).connected = (f.get m).connected := by
  by_cases hm : m = f.next
  · rw [hm, get_create_next, Heap.get_next]
    rfl
  · rw [get_create_of_ne content hm]

theorem connected_attach (m : NodeId) :
    ((f.attach p n).get m).connected = (f.get m).connected := by
  have linked := Heap.get_modify_same (f.setParent n (some p)) p m
    (fun node => { node with children := node.children ++ [n] }) Node.connected fun _ => rfl
  refine linked.trans ?_
  exact Heap.get_modify_same f n m (fun node => { node with parent := some p }) Node.connected
    fun _ => rfl

mutual

theorem plant_sprouts {lo : Nat} {f : Forest} (h : Grown lo f) (hlo : lo ≤ f.size) (t : Tree) :
    (f.plant t).1 = f.next ∧ f.size < (f.plant t).2.size ∧
      ((f.plant t).2.get f.next).parent = none ∧
        Sprouts lo none (some f.next) f (f.plant t).2 := by
  have made : ∀ content, (f.create content).1 = f.next ∧ f.size < (f.create content).2.size ∧
      ((f.create content).2.get f.next).parent = none ∧
        Sprouts lo none (some f.next) f (f.create content).2 := by
    intro content
    have size : (f.create content).2.size = f.size + 1 := size_create content
    have old : ∀ m, m.index < f.size → (f.create content).2.get m = f.get m := by
      intro m hm
      refine get_create_of_ne content ?_
      rintro rfl
      exact Nat.lt_irrefl _ hm
    refine ⟨rfl, by omega, by rw [get_create_next]; rfl, h.create content, by omega,
      fun m hm _ => old m hm, fun m hm => by rw [old m hm], connected_create content,
      fun m h₁ h₂ hm => ?_⟩
    refine absurd ?_ hm
    obtain ⟨i⟩ := m
    simp only [Heap.next, Option.some.injEq, Id.mk.injEq]
    simp only at h₁ h₂
    omega
  cases t with
  | text data => exact made (.text data)
  | comment data => exact made (.comment data)
  | element tag attributes children =>
    obtain ⟨-, size₁, free₁, first⟩ := made (.element ⟨tag, attributes, none, none⟩)
    have known : f.next.index < (f.create (.element ⟨tag, attributes, none, none⟩)).2.size := size₁
    have rest := plantAll_sprouts first.grown hlo known children
    refine ⟨rfl, Nat.lt_of_lt_of_le size₁ rest.size, ?_, rest.grown,
      Nat.le_trans first.size rest.size, fun m hm _ => ?_, fun m hm => ?_, fun m => ?_,
      fun m h₁ h₂ hm => ?_⟩
    · exact (rest.parent f.next size₁).trans free₁
    · have ne : some m ≠ some f.next := by
        rintro ⟨⟩
        exact Nat.lt_irrefl _ hm
      exact (rest.old m (Nat.lt_trans hm size₁) ne).trans (first.old m hm nofun)
    · exact (rest.parent m (Nat.lt_trans hm size₁)).trans (first.parent m hm)
    · exact (rest.unconnected m).trans (first.unconnected m)
    · refine rest.new m ?_ h₂ nofun
      have ne : m ≠ f.next := fun heq => hm (heq ▸ rfl)
      rw [size_create]
      rcases Nat.lt_or_eq_of_le h₁ with hlt | heq
      · exact hlt
      · exact absurd (by cases m; simp_all [Heap.next]) ne

theorem plantAll_sprouts {lo : Nat} {f : Forest} {p : NodeId} (h : Grown lo f)
    (hp : lo ≤ p.index) (known : p.index < f.size) (ts : List Tree) : Sprouts lo (some p) none f (f.plantAll p ts) := by
  cases ts with
  | nil => exact .refl h _ _
  | cons t rest =>
    have hlo : lo ≤ f.size := Nat.le_trans hp (Nat.le_of_lt known)
    obtain ⟨root, size₁, free₁, first⟩ := plant_sprouts h hlo t
    let f₁ := (f.plant t).2
    have younger : p.index < f.next.index := known
    have hf₁ : f.plantAll p (t :: rest) = (f₁.attach p f.next).plantAll p rest := by
      simp only [plantAll, ← root]
      rfl
    have grown₂ : Grown lo (f₁.attach p f.next) := first.grown.attach hp younger size₁ free₁
    have known₂ : p.index < (f₁.attach p f.next).size := by
      rw [size_attach]
      exact Nat.lt_trans known size₁
    have more := plantAll_sprouts grown₂ hp known₂ rest
    have ne : p ≠ f.next := by
      rintro rfl
      exact Nat.lt_irrefl _ known
    have parent₂ : ∀ m, m ≠ f.next → ((f₁.attach p f.next).get m).parent = (f₁.get m).parent := by
      intro m hm
      by_cases hmp : m = p
      · rw [hmp, get_attach_parent (Nat.lt_trans known size₁) ne]
      · rw [get_attach_of_ne hmp hm]
    have size₂ : (f₁.attach p f.next).size = f₁.size := size_attach
    rw [hf₁]
    refine ⟨more.grown, ?_, fun m hm hmp => ?_, fun m hm => ?_, fun m => ?_, fun m h₁ h₂ _ => ?_⟩
    · exact Nat.le_trans (Nat.le_of_lt size₁) (size₂ ▸ more.size)
    · have hm₁ : m.index < f₁.size := Nat.lt_trans hm size₁
      have hmn : m ≠ f.next := by
        rintro rfl
        exact Nat.lt_irrefl _ hm
      have hmp' : m ≠ p := fun heq => hmp (heq ▸ rfl)
      rw [more.old m (size₂ ▸ hm₁) hmp, get_attach_of_ne hmp' hmn, first.old m hm nofun]
    · have hm₁ : m.index < f₁.size := Nat.lt_trans hm size₁
      have hmn : m ≠ f.next := by
        rintro rfl
        exact Nat.lt_irrefl _ hm
      rw [more.parent m (size₂ ▸ hm₁), parent₂ m hmn, first.parent m hm]
    · rw [more.unconnected, connected_attach, first.unconnected]
    · rcases Nat.lt_or_ge m.index f₁.size with hm | hm
      · rw [more.parent m (size₂ ▸ hm)]
        by_cases hmn : m = f.next
        · have linked : ((f₁.attach p f.next).get f.next).parent = some p :=
            congrArg Node.parent (get_attach_child size₁ ne)
          rw [hmn, linked]
          nofun
        · rw [parent₂ m hmn]
          exact first.new m h₁ hm fun heq => hmn (Option.some.inj heq)
      · exact more.new m (size₂ ▸ hm) h₂ nofun

end

/-- What the nodes are, in order of creation. -/
def contents (f : Forest) : List Content :=
  f.cells.toList.map Node.content

theorem contents_create (content : Content) :
    (f.create content).2.contents = f.contents ++ [content] := by
  simp [contents, create, Heap.push, Node.alone]

theorem contents_modify (f : Forest) (n : NodeId) (g : Node → Node) (same : ∀ m, (g m).content = m.content) :
    Forest.contents (f.modify n g) = f.contents := by
  unfold contents Heap.modify
  refine List.ext_getElem (by simp) fun i h₁ h₂ => ?_
  simp only [List.getElem_map, Array.getElem_toList, Array.getElem_modify]
  split
  · exact same _
  · rfl

theorem contents_attach : (f.attach p n).contents = f.contents := by
  refine (contents_modify (f.setParent n (some p)) p
    (fun node => { node with children := node.children ++ [n] }) fun _ => rfl).trans ?_
  exact contents_modify f n (fun node => { node with parent := some p }) fun _ => rfl

mutual

theorem contents_plant (f : Forest) (t : Tree) : (f.plant t).2.contents = f.contents ++ treeContents t := by
  cases t with
  | text data => exact contents_create _
  | comment data => exact contents_create _
  | element tag attributes children =>
    simp only [plant, contents_plantAll, contents_create, treeContents, List.append_assoc,
      List.singleton_append]

theorem contents_plantAll (f : Forest) (p : NodeId) (ts : List Tree) :
    (f.plantAll p ts).contents = f.contents ++ treesContents ts := by
  cases ts with
  | nil => simp [plantAll, treesContents]
  | cons t rest =>
    simp only [plantAll, contents_plantAll, contents_attach, contents_plant, treesContents,
      List.append_assoc]

end

theorem contents_getElem? (known : n.index < f.size) :
    f.contents[n.index]? = some (f.get n).content := by
  simp only [Heap.size] at known
  simp [contents, Heap.get, known]

/-- At most one place in a list satisfies what at most one member does. -/
theorem eq_of_countP_le_one {α : Type} {q : α → Bool} {l : List α} (h : l.countP q ≤ 1)
    {i j : Nat} {a b : α} (hi : l[i]? = some a) (hj : l[j]? = some b) (ha : q a = true)
    (hb : q b = true) : i = j := by
  induction l generalizing i j with
  | nil => cases hi
  | cons x l ih =>
    have rest : ∀ {k c}, l[k]? = some c → q c = true → 0 < l.countP q := fun hk hc =>
      List.countP_pos_iff.2 ⟨_, List.mem_of_getElem? hk, hc⟩
    rw [List.countP_cons] at h
    cases i with
    | zero =>
      cases j with
      | zero => rfl
      | succ j =>
        cases hi
        rw [if_pos ha] at h
        have := rest hj hb
        omega
    | succ i =>
      cases j with
      | zero =>
        cases hj
        rw [if_pos hb] at h
        have := rest hi ha
        omega
      | succ j => exact congrArg Nat.succ (ih (by omega) hi hj)

/-- A forest in which a fragment was planted. -/
structure Planted (f : Forest) (trees : List Tree) (f' : Forest) : Prop where
  grown : Grown f.size f'
  size : f.size < f'.size
  old : ∀ m, m.index < f.size → f'.get m = f.get m
  root : (f'.get f.next).parent = none
  unconnected : ∀ m, (f'.get m).connected = (f.get m).connected
  new : ∀ m, f.size < m.index → m.index < f'.size → (f'.get m).parent ≠ none
  contents : f'.contents = f.contents ++ .fragment :: treesContents trees

theorem planted (f : Forest) (trees : List Tree) :
    (f.plantFragment trees).1 = f.next ∧ Planted f trees (f.plantFragment trees).2 := by
  have size : (f.create .fragment).2.size = f.size + 1 := size_create _
  have known : f.next.index < (f.create .fragment).2.size := by
    rw [size]
    exact Nat.lt_succ_self _
  have grown : Grown f.size (f.create .fragment).2 := (Grown.nothing rfl).create _
  have sprouts : Sprouts f.size (some f.next) none (f.create .fragment).2
      (f.plantFragment trees).2 := plantAll_sprouts grown (Nat.le_refl _) known trees
  refine ⟨rfl, sprouts.grown, ?_, fun m hm => ?_, ?_, fun m => ?_, fun m h₁ h₂ => ?_, ?_⟩
  · exact Nat.lt_of_lt_of_le known sprouts.size
  · have ne : m ≠ f.next := by
      rintro rfl
      exact Nat.lt_irrefl _ hm
    rw [sprouts.old m (by omega) fun heq => ne (Option.some.inj heq), get_create_of_ne _ ne]
  · rw [sprouts.parent f.next known, get_create_next]
    rfl
  · rw [sprouts.unconnected, connected_create]
  · exact sprouts.new m (by omega) h₂ nofun
  · have made : (f.create .fragment).2.contents = f.contents ++ [.fragment] := contents_create _
    have all : (f.plantFragment trees).2.contents =
        (f.create .fragment).2.contents ++ treesContents trees := contents_plantAll _ _ _
    rw [all, made, List.append_assoc]
    rfl

namespace Planted
variable {trees : List Tree}

/-- Every node of the copy is below its fragment. By induction on the position of the node. -/
theorem leads (h : Planted f trees f') {m : NodeId} (new : f.size < m.index)
    (known : m.index < f'.size) : f'.Leads f.next m := by
  obtain ⟨p, hp⟩ := Option.ne_none_iff_exists'.1 (h.new m new known)
  obtain ⟨after, mem⟩ := h.grown.parent m p (Nat.le_of_lt new) hp
  have younger := (h.grown.child p after m mem).1
  rcases Nat.lt_or_eq_of_le after with hlt | heq
  · exact (h.leads hlt (Nat.lt_trans younger known)).snoc younger mem
  · have root : p = f.next := by
      cases p
      simp_all [Heap.next]
    subst root
    exact .child younger mem
termination_by m.index

/-- The nodes of the copy are those of the trees, in document order. -/
theorem content_getElem? (h : Planted f trees f') {m : NodeId} (hm : f.size ≤ m.index)
    (known : m.index < f'.size) :
    (Content.fragment :: treesContents trees)[m.index - f.size]? = some (f'.get m).content := by
  have size : f.contents.length = f.size := by simp [Forest.contents, Heap.size]
  rw [← contents_getElem? known, h.contents, List.getElem?_append_right (by omega), size]

/-- An element that is alone in the trees with the value of an attribute is so in the copy. -/
theorem unique (h : Planted f trees f') {name value : String}
    (sole : (Markup.elementsWithAll name value trees).length ≤ 1) {m m' : NodeId}
    (hm : f.size ≤ m.index) (hm' : f.size ≤ m'.index) (carries : f'.Carries name value m)
    (carries' : f'.Carries name value m') : m = m' := by
  rw [length_elementsWithAll] at sole
  have place := h.content_getElem? hm (known_of_carries carries)
  have place' := h.content_getElem? hm' (known_of_carries carries')
  have count : (Content.fragment :: treesContents trees).countP (Content.carries name value) ≤ 1 := by
    rw [List.countP_cons_of_neg (by simp [Content.carries])]
    exact sole
  have same := eq_of_countP_le_one count place place' carries carries'
  obtain ⟨i⟩ := m
  obtain ⟨j⟩ := m'
  simp only [Id.mk.injEq]
  simp only at same hm hm'
  omega

/-- A search of the copy finds nothing of before. -/
theorem new_of_find (h : Planted f trees f') {name value : String} {m : NodeId}
    (found : f'.findByAttribute f.next name value = some m) :
    f.size ≤ m.index ∧ f'.Carries name value m := by
  obtain ⟨below, carries⟩ := carries_of_findByAttribute found
  have closed : ∀ p : NodeId, f.size ≤ p.index → ∀ c ∈ (f'.get p).children, f.size ≤ c.index :=
    fun p hp c hc => Nat.le_trans hp (Nat.le_of_lt (h.grown.child p hp c hc).1)
  exact ⟨(mem_of_mem_descendantsWith closed (Nat.le_refl _) below).1, carries⟩

/-- A search of the copy finds the element that is alone with the value of an attribute. -/
theorem find_iff (h : Planted f trees f') {name value : String}
    (sole : (Markup.elementsWithAll name value trees).length ≤ 1) {m : NodeId} :
    f'.findByAttribute f.next name value = some m ↔ f.size ≤ m.index ∧ f'.Carries name value m := by
  refine ⟨h.new_of_find, fun ⟨after, carries⟩ => ?_⟩
  have known := known_of_carries carries
  have new : f.size < m.index := by
    refine Nat.lt_of_le_of_ne after fun root => ?_
    have here := h.content_getElem? after known
    rw [← root, Nat.sub_self] at here
    unfold Carries at carries
    rw [← Option.some.inj here] at carries
    cases carries
  have below := (h.leads new known).mem_descendants known
  have found : (f'.findByAttribute f.next name value).isSome := by
    unfold findByAttribute
    rw [List.find?_isSome]
    exact ⟨m, below, (carries_iff name value).2 carries⟩
  obtain ⟨m', hm'⟩ := Option.isSome_iff_exists.1 found
  obtain ⟨after', carries'⟩ := h.new_of_find hm'
  rw [hm', h.unique sole after after' carries carries']

end Planted

end Forest
end LiveMarkup.Dom
