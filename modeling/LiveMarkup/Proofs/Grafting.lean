import LiveMarkup.Proofs.Splicing

/-!
Grafting: a copy into which single nodes come that stood alone before. The nodes of before stay as
they were, but that those nodes may hang below new ones. When they are taken off again, the whole
forest of before is as it was.
-/
namespace LiveMarkup.Markup

mutual

/-- Whether the elements of a tree whose attributes have a property hold nothing. -/
def Tree.hollow (q : Attributes → Bool) : Tree → Bool
  | .element _ attributes children =>
    (!q attributes || children.isEmpty) && hollowAll q children
  | .text _ | .comment _ => true

/-- The same over trees that stand side by side. -/
def hollowAll (q : Attributes → Bool) : List Tree → Bool
  | [] => true
  | t :: rest => t.hollow q && hollowAll q rest

end

end LiveMarkup.Markup

namespace LiveMarkup.Dom

open Markup (Tree Attributes)

namespace Forest
variable {f : Forest} {n m p : NodeId}

theorem mem_olderBelowWith {limit fuel : Nat} (mem : m ∈ (f.get p).children)
    (old : m.index < limit) : m ∈ f.olderBelowWith limit (fuel + 1) p := by
  refine List.mem_flatMap.2 ⟨m, mem, ?_⟩
  rw [if_pos old]
  exact List.mem_singleton_self m

/-- By induction on the way down, along which all nodes are new. -/
theorem Leads.mem_olderBelowWith {a : NodeId} (h : f.Leads a p) {limit fuel : Nat}
    (new : limit ≤ a.index) (mem : m ∈ (f.get p).children) (old : m.index < limit)
    (enough : p.index < a.index + fuel) : m ∈ f.olderBelowWith limit fuel a := by
  induction h generalizing fuel with
  | @child a n younger mem' =>
    obtain ⟨fuel, rfl⟩ : ∃ k, fuel = k + 2 := ⟨fuel - 2, by omega⟩
    refine List.mem_flatMap.2 ⟨n, mem', ?_⟩
    rw [if_neg (by omega)]
    exact Forest.mem_olderBelowWith mem old
  | @through a c n younger mem' rest ih =>
    have := rest.younger
    obtain ⟨fuel, rfl⟩ : ∃ k, fuel = k + 1 := ⟨fuel - 1, by omega⟩
    refine List.mem_flatMap.2 ⟨c, mem', ?_⟩
    rw [if_neg (by omega)]
    exact ih (by omega) mem (by omega)

/-! Elements with a property that were planted without anything in them. -/

section
variable {q : Attributes → Bool} {lo : Nat}

/-- The elements from a position on whose attributes have a property hold nothing. -/
def HollowFrom (q : Attributes → Bool) (lo : Nat) (f : Forest) : Prop :=
  ∀ n, lo ≤ n.index → ∀ e, (f.get n).content = .element e → q e.attributes = true →
    (f.get n).children = []

theorem HollowFrom.create (h : HollowFrom q lo f) (content : Content) :
    HollowFrom q lo (f.create content).2 := by
  intro n hn e he hq
  by_cases new : n = f.next
  · rw [new, get_create_next]
    rfl
  · rw [get_create_of_ne content new] at he ⊢
    exact h n hn e he hq

theorem HollowFrom.attach (h : HollowFrom q lo f)
    (other : ∀ e, (f.get p).content = .element e → q e.attributes = false) (n : NodeId) :
    HollowFrom q lo (f.attach p n) := by
  intro m hm e he hq
  rw [(Relinked.attach p n).content] at he
  by_cases hmp : m = p
  · subst hmp
    rw [other e he] at hq
    cases hq
  · rw [children_attach_of_ne hmp]
    exact h m hm e he hq

theorem content_plant (known : p.index < f.size) (t : Tree) :
    ((f.plant t).2.get p).content = (f.get p).content := by
  have before := contents_getElem? known
  have size : f.contents.length = f.size := by simp [contents, Heap.size]
  have known' : p.index < (f.plant t).2.size := by
    have longer := congrArg List.length (contents_plant f t)
    have size' : (f.plant t).2.contents.length = (f.plant t).2.size := by simp [contents, Heap.size]
    simp only [List.length_append] at longer
    omega
  have after := contents_getElem? known'
  rw [contents_plant, List.getElem?_append_left (by omega), before] at after
  exact (Option.some.inj after).symm

mutual

theorem HollowFrom.plant {f : Forest} (h : HollowFrom q lo f) {t : Tree}
    (ht : t.hollow q = true) : HollowFrom q lo (f.plant t).2 := by
  cases t with
  | text data => exact h.create _
  | comment data => exact h.create _
  | element tag attributes children =>
    simp only [Tree.hollow, Bool.and_eq_true, Bool.or_eq_true, Bool.not_eq_true',
      List.isEmpty_iff] at ht
    obtain ⟨here, below⟩ := ht
    have made := h.create (.element ⟨tag, attributes, none, none⟩)
    rcases here with other | rfl
    · have known : f.next.index < (f.create (.element ⟨tag, attributes, none, none⟩)).2.size := by
        rw [size_create]
        exact Nat.lt_succ_self _
      refine made.plantAll known (fun e he => ?_) below
      rw [get_create_next] at he
      cases he
      exact other
    · exact made

theorem HollowFrom.plantAll {f : Forest} (h : HollowFrom q lo f) {p : NodeId}
    (known : p.index < f.size)
    (other : ∀ e, (f.get p).content = .element e → q e.attributes = false) {ts : List Tree}
    (hts : Markup.hollowAll q ts = true) : HollowFrom q lo (f.plantAll p ts) := by
  cases ts with
  | nil => exact h
  | cons t rest =>
    simp only [Markup.hollowAll, Bool.and_eq_true] at hts
    obtain ⟨first, later⟩ := hts
    have planted := h.plant first
    have other₁ : ∀ e, ((f.plant t).2.get p).content = .element e → q e.attributes = false := by
      rw [content_plant known]
      exact other
    refine (planted.attach other₁ (f.plant t).1).plantAll ?_ (fun e he => ?_) later
    · rw [size_attach]
      have longer := congrArg List.length (contents_plant f t)
      simp only [contents, List.length_append, List.length_map, Array.length_toList] at longer
      simp only [Heap.size] at known ⊢
      omega
    · rw [(Relinked.attach p _).content] at he
      exact other₁ e he

end

theorem hollow_planted {trees : List Tree} (h : Markup.hollowAll q trees = true) :
    HollowFrom q f.size (f.plantFragment trees).2 := by
  have nothing : HollowFrom q f.size f := by
    intro n hn e he
    rw [get_unknown hn] at he
    cases he
  refine (nothing.create .fragment).plantAll ?_ (fun e he => ?_) h
  · rw [size_create]
    exact Nat.lt_succ_self _
  · rw [get_create_next] at he
    cases he

end
end Forest

open Forest

/-- A forest, the root of a copy that is made, and nodes of before that may be given a place below
it. They stand alone. -/
structure Grounds where
  before : Forest
  root : NodeId
  given : NodeId → Prop
  /-- Nodes of the copy that hold nothing. -/
  hollow : NodeId → Prop
  new : before.size ≤ root.index
  known : ∀ n, given n → n.index < before.size
  whole : ∀ n, given n → (before.get n).isFragment = false
  unmounted : ∀ n, given n → (before.get n).connected = false
  loose : ∀ n, given n → (before.get n).parent = none

namespace Grounds
variable (gr : Grounds)

/-- The nodes made since then. -/
def New (n : NodeId) : Prop :=
  gr.before.size ≤ n.index

/-- The nodes of before are as they were, but that those that were given may have parents among the
new nodes. New nodes are linked among themselves, and those without a parent hold nothing. -/
structure Grafted (f : Forest) : Prop where
  size : gr.root.index < f.size
  content : ∀ n, ¬ gr.New n → (f.get n).content = (gr.before.get n).content
  children : ∀ n, ¬ gr.New n → (f.get n).children = (gr.before.get n).children
  connected : ∀ n, (f.get n).connected = (gr.before.get n).connected
  parent : ∀ n, ¬ gr.New n → ¬ gr.given n → (f.get n).parent = (gr.before.get n).parent
  child : ∀ p, gr.New p → ∀ c ∈ (f.get p).children,
    (f.get c).parent = some p ∧ (gr.given c ∨ p.index < c.index)
  nodup : ∀ p, gr.New p → (f.get p).children.Nodup
  place : ∀ c, gr.given c ∨ gr.New c → ∀ p, (f.get c).parent = some p →
    gr.New p ∧ c ∈ (f.get p).children
  leaf : ∀ p, gr.New p → p ≠ gr.root → (f.get p).parent = none → (f.get p).children = []
  hollow : ∀ n, gr.New n → gr.hollow n → (f.get n).children = []

variable {gr} {f : Forest} {n m p e : NodeId}

theorem not_new_of_given (h : gr.given n) : ¬ gr.New n :=
  Nat.not_le.2 (gr.known n h)

theorem known_of_parent (h : (f.get n).parent = some p) : n.index < f.size := by
  rcases Nat.lt_or_ge n.index f.size with known | unknown
  · exact known
  · rw [get_unknown unknown] at h
    cases h

theorem Grafted.longer (h : gr.Grafted f) : gr.before.size ≤ f.size :=
  Nat.le_trans gr.new (Nat.le_of_lt h.size)

/-- A new node is not mounted. -/
theorem Grafted.unconnected (h : gr.Grafted f) (hn : gr.New n) : (f.get n).connected = false := by
  rw [h.connected, get_unknown hn]
  rfl

/-- A child that is new is younger than its parent. -/
theorem Grafted.younger (h : gr.Grafted f) (hp : gr.New p) (hn : gr.New n)
    (mem : n ∈ (f.get p).children) : p.index < n.index :=
  (h.child p hp n mem).2.resolve_left fun given => not_new_of_given given hn

theorem grafted_of_planted {trees : List Tree} (h : Planted gr.before trees f)
    (root : gr.root = gr.before.next)
    (hollow : ∀ n, gr.New n → gr.hollow n → (f.get n).children = []) : gr.Grafted f := by
  have old : ∀ n, ¬ gr.New n → f.get n = gr.before.get n :=
    fun n hn => h.old n (Nat.not_le.1 hn)
  refine ⟨by rw [root]; exact h.size, fun n hn => by rw [old n hn], fun n hn => by rw [old n hn],
    h.unconnected, fun n hn _ => by rw [old n hn], fun p hp c hc => ?_, h.grown.nodup,
    fun c hc p hp => ?_, fun p hp ne orphan => ?_, hollow⟩
  · obtain ⟨younger, -, parent⟩ := h.grown.child p hp c hc
    exact ⟨parent, .inr younger⟩
  · rcases hc with given | new
    · rw [old c (not_new_of_given given), gr.loose c given] at hp
      cases hp
    · exact h.grown.parent c p new hp
  · rcases Nat.lt_or_ge p.index f.size with known | unknown
    · refine absurd orphan (h.new p ?_ known)
      refine Nat.lt_of_le_of_ne hp fun same => ne ?_
      rw [root]
      cases p
      simp_all [Heap.next]
    · rw [get_unknown unknown]
      rfl

namespace Grafted

/-- Where the links are what they were. -/
theorem of_links {f' : Forest} (h : gr.Grafted f) (size : f.size ≤ f'.size)
    (content : ∀ n, ¬ gr.New n → (f'.get n).content = (f.get n).content)
    (children : ∀ n, (f'.get n).children = (f.get n).children)
    (parent : ∀ n, (f'.get n).parent = (f.get n).parent)
    (connected : ∀ n, (f'.get n).connected = (f.get n).connected) : gr.Grafted f' := by
  refine ⟨Nat.lt_of_lt_of_le h.size size, fun n hn => ?_, fun n hn => ?_, fun n => ?_,
    fun n hn hg => ?_, fun p hp c hc => ?_, fun p hp => ?_, fun c hc p hp => ?_,
    fun p hp root orphan => ?_, fun n hn hollow => ?_⟩
  · rw [content n hn, h.content n hn]
  · rw [children, h.children n hn]
  · rw [connected, h.connected]
  · rw [parent, h.parent n hn hg]
  · rw [children] at hc
    rw [parent]
    exact h.child p hp c hc
  · rw [children]
    exact h.nodup p hp
  · rw [parent] at hp
    rw [children]
    exact h.place c hc p hp
  · rw [parent] at orphan
    rw [children]
    exact h.leaf p hp root orphan
  · rw [children]
    exact h.hollow n hn hollow

theorem create (h : gr.Grafted f) (content : Content) : gr.Grafted (f.create content).2 := by
  have get : ∀ n, n ≠ f.next → (f.create content).2.get n = f.get n :=
    fun n hn => get_create_of_ne content hn
  have new : (f.create content).2.get f.next = .alone content := get_create_next content
  refine h.of_links ?_ (fun n hn => ?_) (fun n => ?_) (fun n => ?_) (connected_create content)
  · rw [size_create]
    exact Nat.le_succ _
  · rw [get n]
    rintro rfl
    exact hn h.longer
  · by_cases hn : n = f.next
    · rw [hn, new, Heap.get_next]
      rfl
    · rw [get n hn]
  · by_cases hn : n = f.next
    · rw [hn, new, Heap.get_next]
      rfl
    · rw [get n hn]

/-- Changing the data of a new element. -/
theorem mapElement (h : gr.Grafted f) (hn : gr.New n) (g : Element → Element) :
    gr.Grafted (f.mapElement n g) := by
  have links : ∀ a : Node, (a.mapElement g).children = a.children ∧
      (a.mapElement g).parent = a.parent ∧ (a.mapElement g).connected = a.connected := by
    intro a
    unfold Node.mapElement
    split
    · exact ⟨rfl, rfl, rfl⟩
    · exact ⟨rfl, rfl, rfl⟩
  refine h.of_links ?_ (fun m hm => ?_) (fun m => ?_) (fun m => ?_) (fun m => ?_)
  · exact Nat.le_of_eq (Heap.size_modify f n _).symm
  · have ne : n ≠ m := by
      rintro rfl
      exact hm hn
    rw [Forest.mapElement, Heap.get_modify_of_ne _ _ _ _ ne]
  · exact Heap.get_modify_same f n m _ Node.children fun a => (links a).1
  · exact Heap.get_modify_same f n m _ Node.parent fun a => (links a).2.1
  · exact Heap.get_modify_same f n m _ Node.connected fun a => (links a).2.2

/-- Taking off a node that was given. -/
theorem detach (h : gr.Grafted f) (hm : gr.given m) : gr.Grafted (f.detach m) := by
  have relinked : f.Relinked (f.detach m) := .detach m
  have sub : ∀ p, ((f.detach m).get p).children.Sublist (f.get p).children :=
    fun p => children_detach_sublist m p
  have ne : ∀ {n}, gr.New n → n ≠ m := by
    rintro n hn rfl
    exact not_new_of_given hm hn
  refine ⟨?_, fun n hn => ?_, fun n hn => ?_, fun n => ?_, fun n hn hg => ?_, fun p hp c hc => ?_,
    fun p hp => (h.nodup p hp).sublist (sub p), fun c hc p hp => ?_, fun p hp root orphan => ?_,
    fun n hn hollow => ?_⟩
  · rw [relinked.size]
    exact h.size
  · rw [relinked.content, h.content n hn]
  · rw [children_detach_of_ne, h.children n hn]
    exact fun parent => hn (h.place m (.inl hm) n parent).1
  · rw [relinked.connected, h.connected]
  · have other : n ≠ m := by
      rintro rfl
      exact hg hm
    rw [parent_detach_of_ne other, h.parent n hn hg]
  · obtain ⟨parent, younger⟩ := h.child p hp c ((sub p).subset hc)
    have other : c ≠ m := by
      rintro rfl
      rw [children_detach parent, (h.nodup p hp).mem_erase_iff] at hc
      exact hc.1 rfl
    rw [parent_detach_of_ne other]
    exact ⟨parent, younger⟩
  · have other : c ≠ m := by
      rintro rfl
      rw [parent_detach_self] at hp
      cases hp
    rw [parent_detach_of_ne other] at hp
    obtain ⟨new, mem⟩ := h.place c hc p hp
    refine ⟨new, ?_⟩
    by_cases parent : (f.get m).parent = some p
    · rw [children_detach parent]
      exact (List.mem_erase_of_ne other).2 mem
    · rw [children_detach_of_ne parent]
      exact mem
  · rw [parent_detach_of_ne (ne hp)] at orphan
    exact List.sublist_nil.1 (h.leaf p hp root orphan ▸ sub p)
  · exact List.sublist_nil.1 (h.hollow n hn hollow ▸ sub n)

theorem detachAll (h : gr.Grafted f) {l : List NodeId} (hl : ∀ n ∈ l, gr.given n) :
    gr.Grafted (l.foldl Forest.detach f) := by
  induction l generalizing f with
  | nil => exact h
  | cons n l ih =>
    obtain ⟨here, rest⟩ := List.forall_mem_cons.1 hl
    exact ih (h.detach here) rest

end Grafted

/-- A node that may take the place of a new one: one that was given, or a younger one that was made
for it. -/
structure Fresh (gr : Grounds) (f : Forest) (e m : NodeId) : Prop where
  whole : (f.get m).isFragment = false
  known : m.index < f.size
  origin : gr.given m ∨ gr.New m ∧ m ≠ gr.root ∧ (f.get m).parent = none ∧ e.index < m.index

theorem Fresh.of_given (h : gr.Grafted f) (hm : gr.given m) (e : NodeId) : gr.Fresh f e m := by
  have content := h.content m (not_new_of_given hm)
  refine ⟨?_, Nat.lt_of_lt_of_le (gr.known m hm) h.longer, .inl hm⟩
  unfold Node.isFragment
  rw [content]
  exact gr.whole m hm

/-- A text that was just made. -/
theorem Fresh.of_create (h : gr.Grafted f) (he : e.index < f.size) (text : String) :
    gr.Fresh (f.create (.text text)).2 e f.next := by
  refine ⟨?_, ?_, .inr ⟨h.longer, ?_, ?_, he⟩⟩
  · rw [get_create_next]
    rfl
  · rw [size_create]
    exact Nat.lt_succ_self _
  · exact fun root => Nat.lt_irrefl _ (root ▸ h.size : f.next.index < f.size)
  · rw [get_create_next]
    rfl

theorem Fresh.create (h : gr.Fresh f e m) (content : Content) :
    gr.Fresh (f.create content).2 e m := by
  have ne : m ≠ f.next := by
    rintro rfl
    exact Nat.lt_irrefl _ h.known
  have same : (f.create content).2.get m = f.get m := get_create_of_ne content ne
  refine ⟨same ▸ h.whole, ?_, ?_⟩
  · rw [size_create]
    exact Nat.lt_succ_of_lt h.known
  · rw [same]
    exact h.origin

theorem Fresh.ne (h : gr.Fresh f e m) (he : gr.New e) : m ≠ e := by
  rintro rfl
  rcases h.origin with given | ⟨-, -, -, younger⟩
  · exact not_new_of_given given he
  · exact Nat.lt_irrefl _ younger

/-- Seating a node that has no parent in the place of a new one that holds nothing. -/
theorem Grafted.seat (h : gr.Grafted f) {position : Nat} (he : gr.New e)
    (empty : (f.get e).children = []) (parent : (f.get e).parent = some p)
    (found : (f.get p).children.idxOf? e = some position) (fresh : gr.Fresh f e m)
    (orphan : (f.get m).parent = none) : gr.Grafted (f.seat p e position [m]) := by
  obtain ⟨hp, mem⟩ := h.place e (.inr he) p parent
  have younger : p.index < e.index := h.younger hp he mem
  have pe : p ≠ e := by
    rintro rfl
    exact Nat.lt_irrefl _ younger
  have stranger : ∀ q, gr.New q → m ∉ (f.get q).children := by
    intro q hq hm
    rw [(h.child q hq m hm).1] at orphan
    cases orphan
  have seated : Seated f (f.seat p e position [m]) p e [m] := by
    refine Forest.seated found (h.nodup p hp) (List.pairwise_singleton _ m) ?_
    simpa using ⟨fresh.ne he, fresh.known, stranger p hp⟩
  have above : ((f.seat p e position [m]).get m).parent = some p :=
    seated.into m (List.mem_singleton_self m)
  have other : ∀ c, c ≠ e → c ≠ m →
      ((f.seat p e position [m]).get c).parent = (f.get c).parent :=
    fun c hce hcm => seated.parent c hce (by simpa using hcm)
  refine ⟨?_, fun n hn => ?_, fun n hn => ?_, fun n => ?_, fun n hn hg => ?_, fun q hq c hc => ?_,
    fun q hq => ?_, fun c hc q hq => ?_, fun q hq root alone => ?_, fun n hn hollow => ?_⟩
  · rw [seated.relinked.size]
    exact h.size
  · rw [seated.relinked.content, h.content n hn]
  · have ne : n ≠ p := by
      rintro rfl
      exact hn hp
    rw [seated.children n ne, h.children n hn]
  · rw [seated.relinked.connected, h.connected]
  · have ne : n ≠ e := by
      rintro rfl
      exact hn he
    have nm : n ≠ m := by
      rintro rfl
      rcases fresh.origin with given | ⟨new, -⟩
      · exact hg given
      · exact hn new
    rw [other n ne nm, h.parent n hn hg]
  · by_cases hqp : q = p
    · subst hqp
      obtain ⟨hce, hc⟩ := (seated.mem c).1 hc
      rcases hc with before | hc
      · have hcm : c ≠ m := by
          rintro rfl
          exact stranger q hq before
        rw [other c hce hcm]
        exact h.child q hq c before
      · cases List.mem_singleton.1 hc
        exact ⟨above, fresh.origin.imp_right fun made => Nat.lt_trans younger made.2.2.2⟩
    · rw [seated.children q hqp] at hc
      have hcm : c ≠ m := by
        rintro rfl
        exact stranger q hq hc
      have hce : c ≠ e := by
        rintro rfl
        rw [(h.child q hq c hc).1] at parent
        exact hqp (Option.some.inj parent)
      rw [other c hce hcm]
      exact h.child q hq c hc
  · by_cases hqp : q = p
    · rw [hqp]
      exact seated.nodup
    · rw [seated.children q hqp]
      exact h.nodup q hq
  · by_cases hce : c = e
    · rw [hce, seated.out] at hq
      cases hq
    · by_cases hcm : c = m
      · subst hcm
        rw [above] at hq
        cases hq
        exact ⟨hp, (seated.mem c).2 ⟨hce, .inr (List.mem_singleton_self c)⟩⟩
      · rw [other c hce hcm] at hq
        obtain ⟨new, before⟩ := h.place c hc q hq
        refine ⟨new, ?_⟩
        by_cases hqp : q = p
        · subst hqp
          exact (seated.mem c).2 ⟨hce, .inl before⟩
        · rw [seated.children q hqp]
          exact before
  · by_cases hqe : q = e
    · rw [hqe, seated.children e pe.symm]
      exact empty
    · have hqm : q ≠ m := by
        rintro rfl
        rw [above] at alone
        cases alone
      rw [other q hqe hqm] at alone
      have leaf := h.leaf q hq root alone
      have hqp : q ≠ p := by
        rintro rfl
        rw [leaf] at mem
        cases mem
      rw [seated.children q hqp]
      exact leaf
  · have hnp : n ≠ p := by
      rintro rfl
      rw [h.hollow n hn hollow] at mem
      cases mem
    rw [seated.children n hnp]
    exact h.hollow n hn hollow

/-- A node takes the place of a new one that holds nothing. -/
theorem Grafted.splice (h : gr.Grafted f) (he : gr.New e) (empty : (f.get e).children = [])
    (fresh : gr.Fresh f e m) : gr.Grafted (f.splice e [m]).1 ∧
      ∀ p incoming, (f.splice e [m]).2 = some (p, incoming) → gr.New p ∧ incoming = [m] := by
  have me : m ≠ e := fresh.ne he
  cases parent : (f.get e).parent with
  | none =>
    rw [splice_orphan parent]
    exact ⟨h, fun p incoming eq => by cases eq⟩
  | some p =>
    have kept : [m].filter (· != e) = [m] := by simp [me]
    have gathered : f.gather [m] = ([m], f.detach m) := by
      simp [gather, takeAll, takeForInsertion_other fresh.whole]
    rw [splice_child parent, kept, gathered]
    dsimp only
    have taken : gr.Grafted (f.detach m) := by
      rcases fresh.origin with given | ⟨-, -, orphan, -⟩
      · exact h.detach given
      · unfold Forest.detach
        rw [orphan]
        exact h
    split
    case h_1 => exact ⟨taken, fun q incoming eq => by cases eq⟩
    case h_2 position found =>
      have parent' : ((f.detach m).get e).parent = some p := by
        rw [parent_detach_of_ne me.symm, parent]
      have empty' : ((f.detach m).get e).children = [] :=
        List.sublist_nil.1 (empty ▸ children_detach_sublist m e)
      have relinked : f.Relinked (f.detach m) := .detach m
      have fresh' : gr.Fresh (f.detach m) e m := by
        refine ⟨?_, relinked.size ▸ fresh.known, fresh.origin.imp_right ?_⟩
        · have whole := fresh.whole
          unfold Node.isFragment at whole ⊢
          rwa [relinked.content]
        · exact fun made => ⟨made.1, made.2.1, parent_detach_self m, made.2.2.2⟩
      refine ⟨taken.seat he empty' parent' found fresh' (parent_detach_self m), ?_⟩
      intro q incoming eq
      cases eq
      exact ⟨(taken.place e (.inr he) p parent').1, rfl⟩

/-! Taking all off again. -/

/-- Every new node that holds something is below the root. By induction on its position. -/
theorem Grafted.reached (h : gr.Grafted f) {q : NodeId} (hq : gr.New q)
    (holds : (f.get q).children ≠ []) : q = gr.root ∨ f.Leads gr.root q := by
  by_cases root : q = gr.root
  · exact .inl root
  · cases parent : (f.get q).parent with
    | none => exact absurd (h.leaf q hq root parent) holds
    | some p =>
      obtain ⟨hp, mem⟩ := h.place q (.inr hq) p parent
      have younger := h.younger hp hq mem
      refine .inr ?_
      rcases h.reached hp (List.ne_nil_of_mem mem) with rfl | leads
      · exact .child younger mem
      · exact leads.snoc younger mem
termination_by q.index

theorem Grafted.mem_olderBelow (h : gr.Grafted f) (hm : gr.given m)
    (parent : (f.get m).parent = some p) : m ∈ f.olderBelow gr.before.size gr.root := by
  obtain ⟨hp, mem⟩ := h.place m (.inl hm) p parent
  have known := known_of_mem_children mem
  rcases h.reached hp (List.ne_nil_of_mem mem) with rfl | leads
  · exact mem_olderBelowWith mem (gr.known m hm)
  · exact leads.mem_olderBelowWith gr.new mem (gr.known m hm) (by omega)

/-- By induction on the depth: of the nodes of before, only those that were given are below new
ones. -/
theorem Grafted.given_of_mem_olderBelowWith (h : gr.Grafted f) {fuel : Nat} {q : NodeId}
    (hq : gr.New q) (hm : m ∈ f.olderBelowWith gr.before.size fuel q) : gr.given m := by
  induction fuel generalizing q with
  | zero => cases hm
  | succ fuel ih =>
    obtain ⟨c, hc, hm⟩ := List.mem_flatMap.1 hm
    split at hm
    case isTrue old =>
      cases List.mem_singleton.1 hm
      refine (h.child q hq m hc).2.resolve_right fun younger => ?_
      exact absurd (Nat.lt_trans younger old) (Nat.not_lt.2 hq)
    case isFalse young => exact ih (Nat.not_lt.1 young) hm

/-- When the nodes of before are taken off the copy, they are what they were. -/
theorem Grafted.restored (h : gr.Grafted f) (hn : n.index < gr.before.size) :
    ((f.olderBelow gr.before.size gr.root).foldl Forest.detach f).get n = gr.before.get n := by
  let l := f.olderBelow gr.before.size gr.root
  have given : ∀ m ∈ l, gr.given m := fun m hm => h.given_of_mem_olderBelowWith gr.new hm
  have after : gr.Grafted (l.foldl Forest.detach f) := h.detachAll given
  have old : ¬ gr.New n := Nat.not_le.2 hn
  have parent : ((l.foldl Forest.detach f).get n).parent = (gr.before.get n).parent := by
    by_cases hg : gr.given n
    · rw [gr.loose n hg]
      by_cases hl : n ∈ l
      · exact parent_detachAll_of_mem hl
      · rw [parent_detachAll_of_notMem hl]
        refine Option.eq_none_iff_forall_ne_some.2 fun p hp => ?_
        exact hl (h.mem_olderBelow hg hp)
    · exact after.parent n old hg
  have content := after.content n old
  have children := after.children n old
  have connected := after.connected n
  show (l.foldl Forest.detach f).get n = gr.before.get n
  cases hf : (l.foldl Forest.detach f).get n
  cases hb : gr.before.get n
  simp_all

/-! What a search below the root comes to. -/

/-- A search finds a new node, or one below a node that was given. -/
theorem Grafted.new_of_find (h : gr.Grafted f) {below : NodeId → Prop}
    (given : ∀ n, gr.given n → below n)
    (closed : ∀ p, below p → ∀ c ∈ (gr.before.get p).children, below c)
    (old : ∀ n, below n → ¬ gr.New n) {name value : String}
    (unmarked : ∀ n, below n → ¬ gr.before.Carries name value n)
    (found : f.findByAttribute gr.root name value = some e) :
    gr.New e ∧ f.Carries name value e := by
  obtain ⟨mem, carries⟩ := carries_of_findByAttribute found
  have inside : ∀ p, gr.New p ∨ below p → ∀ c ∈ (f.get p).children, gr.New c ∨ below c := by
    intro p hp c hc
    rcases hp with hp | hp
    · rcases (h.child p hp c hc).2 with hg | younger
      · exact .inr (given c hg)
      · exact .inl (Nat.le_trans hp (Nat.le_of_lt younger))
    · rw [h.children p (old p hp)] at hc
      exact .inr (closed p hp c hc)
  refine ⟨?_, carries⟩
  refine (mem_of_mem_descendantsWith inside (.inl gr.new) mem).1.resolve_right fun hb => ?_
  refine unmarked e hb ?_
  unfold Carries at carries ⊢
  rwa [← h.content e (old e hb)]

end Grounds
end LiveMarkup.Dom
