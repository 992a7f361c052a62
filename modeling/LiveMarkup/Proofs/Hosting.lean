import LiveMarkup.Proofs.Allotment
import LiveMarkup.Proofs.CompiledMarkup
import LiveMarkup.Proofs.Failure
import LiveMarkup.Proofs.Settling

/-!
Hosting: why each job of a rendering finds its element. The elements that are meant are under the root,
and nothing else there carries their markers. That is so of the copy when it is made, and still so after
other nodes have come in, as these carry no markers, nothing is lost but outlets that hold nothing, and
a component has the marker of its outlet.
-/
namespace LiveMarkup.Dom

mutual

theorem names_of_legible {t : Markup.Tree} (h : t.Legible) {e : Element}
    (mem : .element e ∈ treeContents t) : ∀ name ∈ e.attributes.keys, Markup.IsAttributeName name := by
  cases t with
  | text data => simp [treeContents] at mem
  | comment data => simp [treeContents] at mem
  | element tag attributes children =>
    obtain ⟨-, names, -, -, below⟩ := h
    rcases List.mem_cons.1 mem with here | mem
    · cases here
      exact names
    · exact names_of_legibleAll below mem

/-- Every attribute in legible trees has a name that markup reads whole. -/
theorem names_of_legibleAll {ts : List Markup.Tree} (h : Markup.LegibleAll ts) {e : Element}
    (mem : .element e ∈ treesContents ts) : ∀ name ∈ e.attributes.keys, Markup.IsAttributeName name := by
  cases ts with
  | nil => cases mem
  | cons t rest =>
    rcases List.mem_append.1 mem with mem | mem
    · exact names_of_legible h.1 mem
    · exact names_of_legibleAll h.2 mem

end

theorem small_of_legibleAll {ts : List Markup.Tree} (h : Markup.LegibleAll ts) {e : Element}
    (mem : .element e ∈ treesContents ts) : e.attributes.Small :=
  fun name hn => Markup.lowercase_of_small (names_of_legibleAll h mem name hn).small

namespace Forest
variable {f f' : Forest} {a n : NodeId} {mark : String}

namespace Planted
variable {trees : List Markup.Tree}

/-- What is under new nodes is new, and what is under others is not. By induction on the way up. -/
theorem side (h : Planted f trees f') (linked : f.Linked) (under : f'.Under a n) :
    f.size ≤ n.index ↔ f.size ≤ a.index := by
  induction under with
  | here => exact Iff.rfl
  | @up n p parent _ ih =>
    refine Iff.trans ⟨fun new => (h.grown.parent n p new parent).1, fun new => ?_⟩ ih
    refine Nat.not_lt.1 fun old => Nat.not_lt.2 new ?_
    rw [h.old n old] at parent
    exact known_of_mem_children ((linked.child p n).2 parent)

theorem under_old (h : Planted f trees f') (linked : f.Linked) (ha : a.index < f.size)
    (under : f'.Under a n) : f.Under a n := by
  induction under with
  | here => exact .here
  | @up n p parent above ih =>
    have old := Nat.not_le.1 (mt (h.side linked (.up parent above)).1 (Nat.not_le.2 ha))
    rw [h.old n old] at parent
    exact .up parent ih

theorem exists_carries (h : Planted f trees f') {value : String}
    (some : 0 < (Markup.elementsWithAll mark value trees).length) :
    ∃ m : NodeId, f.size < m.index ∧ f'.Carries mark value m := by
  rw [length_elementsWithAll] at some
  obtain ⟨content, mem, carries⟩ := List.countP_pos_iff.1 some
  obtain ⟨i, hi, rfl⟩ := List.getElem_of_mem mem
  have total := congrArg List.length h.contents
  have size : ∀ f : Forest, f.contents.length = f.size := fun f => by simp [Forest.contents, Heap.size]
  rw [List.length_append, List.length_cons, size, size] at total
  refine ⟨⟨f.size + (i + 1)⟩, Nat.lt_add_of_pos_right (Nat.succ_pos i), ?_⟩
  have known : f.size + (i + 1) < f'.size := by omega
  have place := h.content_getElem? (m := ⟨f.size + (i + 1)⟩) (Nat.le_add_right ..) known
  simp only [Nat.add_sub_cancel_left, List.getElem?_cons_succ, List.getElem?_eq_getElem hi,
    Option.some.injEq] at place
  unfold Carries
  rw [← place]
  exact carries

/-- What carries a marker in a copy of legible trees is an element with attribute names in small
letters. -/
theorem lettered (h : Planted f trees f') (legible : Markup.LegibleAll trees) {value : String}
    (new : f.size ≤ n.index) (carries : f'.Carries mark value n) : f'.Lettered n := by
  have place := h.content_getElem? new (known_of_carries carries)
  unfold Carries at carries
  cases content : (f'.get n).content with
  | element e =>
    refine ⟨e, content, small_of_legibleAll legible ?_⟩
    rw [content] at place
    exact (List.mem_cons.1 (List.mem_of_getElem? place)).resolve_left nofun
  | _ =>
    rw [content] at carries
    cases carries

end Planted
end Forest
end LiveMarkup.Dom

namespace LiveMarkup.Live.Render
open Template (Slot Descriptor Ref Programs)
open Dom (Forest)

namespace Job

/-- The job fills an outlet for text. -/
def isOutlet : Job → Bool
  | .slot _ s _ => s.isOutlet
  | .programs _ _ => false

/-- The value that comes with a job. -/
def value? : Job → Option TemplateValue
  | .slot _ _ value => some value
  | .programs _ _ => none

/-- The node that comes with a job. -/
def node? (job : Job) : Option NodeId :=
  job.value?.bind TemplateValue.node?

/-- Neither of two jobs is done at the element of the other if that is an outlet for text. -/
def Distinct (a b : Job) : Prop :=
  a.isOutlet = true ∨ b.isOutlet = true → a.ref ≠ b.ref

/-- What comes with two jobs is not nested. -/
def Unnested (f : Forest) (a b : Job) : Prop :=
  ∀ g h, a.node? = some g → b.node? = some h → ¬ f.Under g h ∧ ¬ f.Under h g

end Job

/-- A node that is to come in, with all that is under it: it is outside, it is not mounted, and it has
none of the markers that are yet to be found. -/
structure Guest (mark : String) (root : NodeId) (js : List Job) (f : Forest) (g : NodeId) : Prop where
  known : g.index < f.size
  out : ¬ f.Under root g
  unmounted : ∀ n, f.Under g n → (f.get n).connected = false
  unmarked : ∀ n, f.Under g n → ∀ job ∈ js, ¬ f.Carries mark job.ref.text n

/-- A node that comes in now is apart from those that are to come. -/
structure Comes (mark : String) (root : NodeId) (js : List Job) (f : Forest) (g : NodeId) : Prop
    extends Guest mark root js f g where
  apart : ∀ job ∈ js, ∀ n, job.node? = some n → ¬ f.Under g n ∧ ¬ f.Under n g

/-- The jobs that are left find their elements under the root, each the only one with its marker. Outlets
for text hold nothing. Nothing is mounted, and what is yet to come in is apart from all this. -/
structure Hosts (mark : String) (root : NodeId) (aim : Aim) (js : List Job) (f : Forest) : Prop where
  linked : f.Linked
  top : (f.get root).parent = none
  unmounted : ∀ n, f.Under root n → (f.get n).connected = false
  aimed : ∀ job ∈ js, ∃ e, aim job.ref = some e ∧ f.Under root e ∧ e ≠ root ∧
    f.Carries mark job.ref.text e ∧ f.Lettered e
  sole : ∀ job ∈ js, ∀ n, f.Under root n → f.Carries mark job.ref.text n → aim job.ref = some n
  hollow : ∀ job ∈ js, job.isOutlet = true → ∀ e, aim job.ref = some e →
    ∀ n, (f.get n).parent ≠ some e
  distinct : js.Pairwise Job.Distinct
  guests : ∀ job ∈ js, ∀ g, job.node? = some g → Guest mark root js f g
  unnested : js.Pairwise (Job.Unnested f)
  elements : ∀ job ∈ js, ∀ c, job.value? = some (.component c) →
    ∃ n, c = .element n ∧ f.Lettered n

namespace Hosts
variable {mark : String} {root e p g c : NodeId} {aim : Aim} {job : Job} {js : List Job}
  {f f' : Forest} {into : List NodeId}

theorem tail (h : Hosts mark root aim (job :: js) f) : Hosts mark root aim js f where
  linked := h.linked
  top := h.top
  unmounted := h.unmounted
  aimed j hj := h.aimed j (List.mem_cons_of_mem job hj)
  sole j hj := h.sole j (List.mem_cons_of_mem job hj)
  hollow j hj := h.hollow j (List.mem_cons_of_mem job hj)
  distinct := h.distinct.of_cons
  guests j hj g hg :=
    { h.guests j (List.mem_cons_of_mem job hj) g hg with
      unmarked := fun n under j' hj' =>
        (h.guests j (List.mem_cons_of_mem job hj) g hg).unmarked n under j'
          (List.mem_cons_of_mem job hj') }
  unnested := h.unnested.of_cons
  elements j hj := h.elements j (List.mem_cons_of_mem job hj)

theorem kept (h : Hosts mark root aim js f) (k : f.Kept mark f') : Hosts mark root aim js f' := by
  have under : ∀ {a n}, f'.Under a n ↔ f.Under a n := k.toExtended.under
  refine ⟨h.linked.extended k.toExtended, (k.parent root).trans h.top, fun n hn => ?_,
    fun job hj => ?_, fun job hj n hn carries => ?_, fun job hj outlet e he n => ?_, h.distinct,
    fun job hj g hg => ?_, h.unnested.imp fun {a b} apart g g' hg hg' => ?_, fun job hj c hc => ?_⟩
  · rw [k.connected]
    exact h.unmounted n (under.1 hn)
  · obtain ⟨e, aims, inside, ne, carries, lettered⟩ := h.aimed job hj
    exact ⟨e, aims, under.2 inside, ne, (k.marks _ e).2 carries, k.lettered e lettered⟩
  · exact h.sole job hj n (under.1 hn) ((k.marks _ n).1 carries)
  · rw [k.parent]
    exact h.hollow job hj outlet e he n
  · obtain ⟨known, out, unmounted, unmarked⟩ := h.guests job hj g hg
    refine ⟨Nat.lt_of_lt_of_le known k.size, mt under.1 out, fun n hn => ?_, fun n hn j hj' carries => ?_⟩
    · rw [k.connected]
      exact unmounted n (under.1 hn)
    · exact unmarked n (under.1 hn) j hj' ((k.marks _ n).1 carries)
  · rw [under, under]
    exact apart g g' hg hg'
  · obtain ⟨n, eq, lettered⟩ := h.elements job hj c hc
    exact ⟨n, eq, k.lettered n lettered⟩

/-- The search for the first of the jobs comes to the element that is meant. -/
theorem find (h : Hosts mark root aim (job :: js) f) :
    f.findByAttribute root mark job.ref.text = aim job.ref := by
  obtain ⟨e, aims, inside, ne, carries, -⟩ := h.aimed job List.mem_cons_self
  rw [aims]
  refine Forest.find_of_sole h.linked inside ne carries fun m under carried => ?_
  have same := h.sole job List.mem_cons_self m under carried
  exact Option.some.inj (same.symm.trans aims)

/-- An element has one marker. -/
theorem ref_eq_of_carries {r r' : Ref} (h : f.Carries mark r.text e)
    (h' : f.Carries mark r'.text e) : r = r' := by
  unfold Forest.Carries at h h'
  cases content : (f.get e).content with
  | element =>
    rw [content] at h h'
    exact Ref.text_injective (Option.some.inj ((eq_of_beq h).symm.trans (eq_of_beq h')))
  | _ =>
    rw [content] at h
    cases h

/-- The node that comes with the first of the jobs. -/
theorem comes_given (h : Hosts mark root aim (job :: js) f) (node : job.node? = some g) :
    Comes mark root js f g := by
  obtain ⟨known, out, unmounted, unmarked⟩ := h.guests job List.mem_cons_self g node
  refine ⟨⟨known, out, unmounted, fun n hn j hj => unmarked n hn j (List.mem_cons_of_mem job hj)⟩, ?_⟩
  exact fun j hj n hn => (List.pairwise_cons.1 h.unnested).1 j hj g n node hn

/-- A node that was made meanwhile. It is in no other and has none in it. -/
theorem comes_made (h : Hosts mark root aim (job :: js) f) (kept : f.Kept mark f')
    (new : f.size ≤ g.index) (known : g.index < f'.size) : Comes mark root js f' g := by
  have blank : f.get g = default := Heap.get_of_size_le f g new
  have orphan : (f.get g).parent = none := by rw [blank]; rfl
  have childless : ∀ m, (f.get m).parent ≠ some g := by
    intro m parent
    have mem := (h.linked.child g m).2 parent
    rw [blank] at mem
    exact List.not_mem_nil mem
  have under : ∀ {a n}, f'.Under a n ↔ f.Under a n := kept.toExtended.under
  have alone : ∀ {n}, f'.Under g n → n = g := fun hn => (under.1 hn).eq_of_childless childless
  have inside : ∀ {a}, f'.Under a g → a = g := fun hg => (under.1 hg).eq_of_root orphan
  obtain ⟨e, -, he, -, carries, -⟩ := h.aimed job List.mem_cons_self
  have old : ∀ {n : NodeId}, n.index < f.size → n ≠ g := by
    rintro n hn rfl
    exact Nat.not_lt.2 new hn
  refine ⟨⟨known, fun hg => ?_, fun n hn => ?_, fun n hn j hj marked => ?_⟩, fun j hj n hn => ?_⟩
  · exact old (he.known h.linked (Forest.known_of_carries carries)) (inside hg)
  · rw [alone hn, kept.connected, blank]
    rfl
  · rw [alone hn, kept.marks] at marked
    exact old (Forest.known_of_carries marked) rfl
  · have ne := old (h.guests j (List.mem_cons_of_mem job hj) n hn).known
    exact ⟨fun hg => ne (alone hg), fun hg => ne (inside hg)⟩

end Hosts

/-- A guest has taken the place of the element of the first job. What carries a marker now did so before,
or it has taken that of the element. -/
structure Seating (mark : String) (root : NodeId) (aim : Aim) (job : Job) (js : List Job)
    (f f' : Forest) (e p g : NodeId) (into : List NodeId) (c : NodeId) : Prop where
  before : Hosts mark root aim (job :: js) f
  aims : aim job.ref = some e
  guest : Comes mark root js f g
  replaced : f.Replaced f' e p g into c
  size : f.size ≤ f'.size
  connected : ∀ n, (f'.get n).connected = (f.get n).connected
  lettered : ∀ n, f.Lettered n → f'.Lettered n
  marks : ∀ n value, f'.Carries mark value n →
    f.Carries mark value n ∨ n = c ∧ c ∈ into ∧ f.Carries mark value e
  carried : ∀ n value, f.Under root n → f.Carries mark value n → f.Lettered n →
    (n = e → c ∈ into) →
    f'.Carries mark value (Forest.heir e c n) ∧ f'.Lettered (Forest.heir e c n)
  same : ∀ j ∈ js, j.ref = job.ref → c ∈ into ∧ job.after aim j.ref = some c
  other : ∀ r, r ≠ job.ref → job.after aim r = aim r

namespace Seating
variable {mark : String} {root e p g c : NodeId} {aim : Aim} {job : Job} {js : List Job}
  {f f' : Forest} {into : List NodeId} (h : Seating mark root aim job js f f' e p g into c)
include h

theorem here : f.Under root e ∧ e ≠ root ∧ f.Carries mark job.ref.text e := by
  obtain ⟨e', aims', he, ne, carries, -⟩ := h.before.aimed job List.mem_cons_self
  obtain rfl := Option.some.inj (h.aims.symm.trans aims')
  exact ⟨he, ne, carries⟩

theorem inside {n : NodeId} (hn : f'.Under root n) : f.Under root n ∧ n ≠ e ∨ f.Under g n :=
  h.replaced.inside h.before.top h.here.1 hn

/-- Under a later guest there is nothing new. -/
theorem others {j : Job} (hj : j ∈ js) {m : NodeId} (node : j.node? = some m) {n : NodeId}
    (hn : f'.Under m n) : f.Under m n := by
  obtain ⟨above, below⟩ := h.guest.apart j hj m node
  exact h.replaced.others h.before.top h.here.1 (h.before.tail.guests j hj m node).out above below hn

/-- The element of a later job is where the one of before was. -/
theorem aim_after {j : Job} (hj : j ∈ js) {m : NodeId} (aimed : aim j.ref = some m)
    (carries : f.Carries mark j.ref.text m) :
    job.after aim j.ref = some (Forest.heir e c m) ∧ (m = e → c ∈ into) := by
  unfold Forest.heir
  by_cases eq : m = e
  · subst eq
    obtain ⟨mem, after⟩ := h.same j hj (Hosts.ref_eq_of_carries carries h.here.2.2)
    rw [if_pos rfl]
    exact ⟨after, fun _ => mem⟩
  · have ref : j.ref ≠ job.ref := by
      intro same
      rw [same, h.aims] at aimed
      exact eq (Option.some.inj aimed).symm
    rw [if_neg eq, h.other j.ref ref]
    exact ⟨aimed, fun same => absurd same eq⟩

theorem unmounted {n : NodeId} (hn : f'.Under root n) : (f'.get n).connected = false := by
  rw [h.connected]
  rcases h.inside hn with ⟨hn, -⟩ | hn
  · exact h.before.unmounted n hn
  · exact h.guest.unmounted n hn

theorem aimed {j : Job} (hj : j ∈ js) : ∃ m, job.after aim j.ref = some m ∧ f'.Under root m ∧
    m ≠ root ∧ f'.Carries mark j.ref.text m ∧ f'.Lettered m := by
  obtain ⟨m, aimed, under, ne, carries, names⟩ := h.before.tail.aimed j hj
  obtain ⟨after, keeps⟩ := h.aim_after hj aimed carries
  refine ⟨_, after, h.replaced.reach h.before.top h.here.1 h.guest.out h.before.linked under keeps, ?_,
    h.carried m _ under carries names keeps⟩
  unfold Forest.heir
  split
  case isTrue eq =>
    rintro rfl
    have place := (h.replaced.came c (keeps eq)).1
    rw [h.replaced.parent_root h.before.top h.guest.out] at place
    cases place
  case isFalse => exact ne

theorem sole {j : Job} (hj : j ∈ js) {n : NodeId} (hn : f'.Under root n)
    (carries : f'.Carries mark j.ref.text n) : job.after aim j.ref = some n := by
  have later := h.before.tail
  rcases h.marks n _ carries with before | ⟨rfl, -, before⟩
  · rcases h.inside hn with ⟨hn, ne⟩ | hn
    · have after := (h.aim_after hj (later.sole j hj n hn before) before).1
      rwa [Forest.heir, if_neg ne] at after
    · exact absurd before (h.guest.unmarked n hn j hj)
  · have after := (h.aim_after hj (later.sole j hj e h.here.1 before) before).1
    rwa [Forest.heir, if_pos rfl] at after

theorem hollow {j : Job} (hj : j ∈ js) (outlet : j.isOutlet = true) {m : NodeId}
    (aimed : job.after aim j.ref = some m) (n : NodeId) : (f'.get n).parent ≠ some m := by
  obtain ⟨m₁, aimed₁, under, -, carries, -⟩ := h.before.tail.aimed j hj
  have after := (h.aim_after hj aimed₁ carries).1
  have ne : m₁ ≠ e := by
    rintro rfl
    exact (List.pairwise_cons.1 h.before.distinct).1 j hj (.inr outlet)
      (Hosts.ref_eq_of_carries h.here.2.2 carries)
  rw [aimed, Forest.heir, if_neg ne] at after
  obtain rfl := Option.some.inj after
  exact h.replaced.childless h.before.top h.guest.out under
    (h.before.tail.hollow j hj outlet m aimed₁) n

theorem guests {j : Job} (hj : j ∈ js) {m : NodeId} (node : j.node? = some m) :
    Guest mark root js f' m := by
  obtain ⟨known, out, unmounted, unmarked⟩ := h.before.tail.guests j hj m node
  obtain ⟨above, below⟩ := h.guest.apart j hj m node
  refine ⟨Nat.lt_of_lt_of_le known h.size, fun hn => ?_, fun n hn => ?_, fun n hn j' hj' carries => ?_⟩
  · exact (h.inside hn).elim (fun hn => out hn.1) above
  · rw [h.connected]
    exact unmounted n (h.others hj node hn)
  · rcases h.marks n _ carries with before | ⟨rfl, mem, -⟩
    · exact unmarked n (h.others hj node hn) j' hj' before
    · have under := (h.replaced.came n mem).2
      exact (under.comparable (h.others hj node hn)).elim above below

theorem hosts : Hosts mark root (job.after aim) js f' where
  linked := h.replaced.linked
  top := h.replaced.parent_root h.before.top h.guest.out
  unmounted _ := h.unmounted
  aimed _ := h.aimed
  sole _ hj _ := h.sole hj
  hollow _ hj outlet _ := h.hollow hj outlet
  distinct := h.before.tail.distinct
  guests _ hj _ := h.guests hj
  unnested := by
    refine h.before.tail.unnested.imp_of_mem fun {a b} ha hb each m m' hm hm' => ?_
    obtain ⟨left, right⟩ := each m m' hm hm'
    exact ⟨mt (h.others ha hm) left, mt (h.others hb hm') right⟩
  elements j hj c' hc := by
    obtain ⟨n, eq, names⟩ := h.before.tail.elements j hj c' hc
    exact ⟨n, eq, h.lettered n names⟩

end Seating

/-! The copy when it is made. -/

/-- What a rendering is given: nodes that there are, with nothing mounted or marked under them, and none
under another. Components are elements, with attribute names in small letters. -/
structure Movable (f : Forest) (d : Descriptor) (values : List TemplateValue) : Prop where
  known : ∀ g, Given values g → g.index < f.size
  unmounted : ∀ g, Given values g → ∀ n, f.Under g n → (f.get n).connected = false
  unmarked : ∀ g, Given values g → ∀ n, f.Under g n → ∀ slot ∈ d.slots,
    ¬ f.Carries d.config.refAttribute slot.ref.text n
  unnested : values.Pairwise fun a b => ∀ g h, a.node? = some g → b.node? = some h →
    ¬ f.Under g h ∧ ¬ f.Under h g
  elements : ∀ c, .component c ∈ values → ∃ n, c = .element n ∧ f.Lettered n

theorem pairwise_slotJobs {R : Job → Job → Prop} {l : List (Slot × TemplateValue)} (index : Nat)
    (h : l.Pairwise fun a b => ∀ i j, R (.slot i a.1 a.2) (.slot j b.1 b.2)) :
    (slotJobs index l).Pairwise R := by
  induction l generalizing index with
  | nil => exact .nil
  | cons p l ih =>
    obtain ⟨here, rest⟩ := List.pairwise_cons.1 h
    refine List.pairwise_cons.2 ⟨fun job hj => ?_, ih (index + 1) rest⟩
    obtain ⟨i, q, hq, rfl⟩ := mem_slotJobs.1 hj
    exact here q (List.mem_of_getElem? hq) index (index + 1 + i)

theorem pairwise_jobs {R : Job → Job → Prop} {d : Descriptor} {values : List TemplateValue}
    (slots : (d.slots.zip values).Pairwise fun a b => ∀ i j, R (.slot i a.1 a.2) (.slot j b.1 b.2))
    (programs : ∀ a ∈ jobs d values, ∀ e ∈ d.programs.entries, R a (.programs e.1 e.2)) :
    (jobs d values).Pairwise R := by
  have last : ∀ a ∈ jobs d values, ∀ b ∈ d.programs.entries.map (fun e => Job.programs e.1 e.2),
      R a b := by
    intro a ha b hb
    obtain ⟨e, he, rfl⟩ := List.mem_map.1 hb
    exact programs a ha e he
  refine List.pairwise_append.2 ⟨pairwise_slotJobs 0 slots, ?_, fun a ha =>
    last a (List.mem_append_left _ ha)⟩
  have all : (d.programs.entries.map fun e => Job.programs e.1 e.2).Pairwise fun _ _ => True :=
    List.pairwise_of_forall fun _ _ => trivial
  exact all.imp_of_mem fun ha hb _ => last _ (List.mem_append_right _ ha) _ hb

section
variable {w : World} {d : Descriptor} {values : List TemplateValue}

/-- Programs belong to elements of slots. -/
theorem slot_of_job (allotted : d.Allotted) {job : Job} (h : job ∈ jobs d values) :
    ∃ slot ∈ d.slots, slot.ref = job.ref ∧ slot.isOutlet = job.isOutlet := by
  rcases mem_jobs.1 h with ⟨i, slot, value, hs, -, rfl⟩ | ⟨e, he, rfl⟩
  · exact ⟨slot, List.mem_of_getElem? hs, rfl, rfl⟩
  · obtain ⟨slot, hs, ref, other⟩ := allotted.programs e he
    exact ⟨slot, hs, ref, other⟩

theorem distinct_jobs (allotted : d.Allotted) (count : values.length = d.slots.length) :
    (jobs d values).Pairwise Job.Distinct := by
  refine pairwise_jobs ?_ fun a ha e he outlet => ?_
  · have slots : ((d.slots.zip values).map Prod.fst).Pairwise Slot.Apart := by
      rw [List.map_fst_zip (Nat.le_of_eq count.symm)]
      exact allotted.apart
    exact (List.pairwise_map.1 slots).imp fun apart _ _ => apart
  · obtain ⟨a', ha', ref, same⟩ := slot_of_job allotted ha
    obtain ⟨slot, hs, ref', other⟩ := allotted.programs e he
    rw [← ref]
    show a'.ref ≠ e.1
    rw [← ref']
    exact allotted.outlets a' ha' (same.trans (outlet.resolve_right nofun)) slot hs other

theorem given_of_job {job : Job} (hj : job ∈ jobs d values) {g : NodeId}
    (node : job.node? = some g) : Given values g := by
  rcases mem_jobs.1 hj with ⟨i, slot, value, -, hv, rfl⟩ | ⟨e, -, rfl⟩
  · exact ⟨value, List.mem_of_getElem? hv, node⟩
  · cases node

/-- What is under a node that is given is as it was before the copy was made. -/
theorem under_given (linked : w.nodes.Linked) (movable : Movable w.nodes d values) {g n : NodeId}
    (hg : Given values g) (under : (copied w d).nodes.Under g n) :
    w.nodes.Under g n ∧ (copied w d).nodes.get n = w.nodes.get n := by
  have planted := (Forest.planted w.nodes d.fragment).2
  have known := movable.known g hg
  have before : n.index < w.nodes.size :=
    Nat.not_le.1 (mt (planted.side linked under).1 (Nat.not_le.2 known))
  exact ⟨planted.under_old linked known under, planted.old n before⟩

theorem guest_copied (allotted : d.Allotted) (linked : w.nodes.Linked)
    (movable : Movable w.nodes d values) {job : Job} (hj : job ∈ jobs d values) {g : NodeId}
    (node : job.node? = some g) :
    Guest d.config.refAttribute w.nodes.next (jobs d values) (copied w d).nodes g := by
  have planted := (Forest.planted w.nodes d.fragment).2
  have hg := given_of_job hj node
  have known := movable.known g hg
  refine ⟨Nat.lt_trans known planted.size, fun under => ?_, fun n hn => ?_,
    fun n hn j hj' carries => ?_⟩
  · exact absurd ((planted.side linked under).2 (Nat.le_refl _)) (Nat.not_le.2 known)
  · obtain ⟨under, same⟩ := under_given linked movable hg hn
    rw [same]
    exact movable.unmounted g hg n under
  · obtain ⟨under, same⟩ := under_given linked movable hg hn
    obtain ⟨slot, hs, ref, -⟩ := slot_of_job allotted hj'
    refine movable.unmarked g hg n under slot hs ?_
    unfold Forest.Carries at carries ⊢
    rwa [← same, ref]

theorem unnested_jobs (linked : w.nodes.Linked) (movable : Movable w.nodes d values)
    (count : values.length = d.slots.length) :
    (jobs d values).Pairwise (Job.Unnested (copied w d).nodes) := by
  refine pairwise_jobs ?_ fun a _ e _ g h _ hh => nomatch hh
  have pairs : ((d.slots.zip values).map Prod.snd).Pairwise fun a b => ∀ g h, a.node? = some g →
      b.node? = some h → ¬ w.nodes.Under g h ∧ ¬ w.nodes.Under h g := by
    rw [List.map_snd_zip (Nat.le_of_eq count)]
    exact movable.unnested
  refine (List.pairwise_map.1 pairs).imp_of_mem fun {a b} ha hb apart i j g h hg hh => ?_
  obtain ⟨left, right⟩ := apart g h hg hh
  exact ⟨fun under => left (under_given linked movable ⟨a.2, (List.of_mem_zip ha).2, hg⟩ under).1,
    fun under => right (under_given linked movable ⟨b.2, (List.of_mem_zip hb).2, hh⟩ under).1⟩

theorem component_copied (movable : Movable w.nodes d values) {job : Job}
    (hj : job ∈ jobs d values) {c : Component} (hc : job.value? = some (.component c)) :
    ∃ n, c = .element n ∧ (copied w d).nodes.Lettered n := by
  rcases mem_jobs.1 hj with ⟨i, slot, value, -, hv, rfl⟩ | ⟨e, -, rfl⟩
  · cases hc
    have hv := List.mem_of_getElem? hv
    obtain ⟨n, rfl, lettered⟩ := movable.elements c hv
    have same : (copied w d).nodes.get n = w.nodes.get n :=
      (Forest.planted w.nodes d.fragment).2.old n (movable.known n ⟨_, hv, rfl⟩)
    refine ⟨n, rfl, ?_⟩
    unfold Forest.Lettered at lettered ⊢
    rwa [same]
  · cases hc

section
variable (allotted : d.Allotted) (sole : ∀ slot ∈ d.slots,
  (Markup.elementsWithAll d.config.refAttribute slot.ref.text d.fragment).length = 1)
include allotted sole

theorem sole_of_job {job : Job} (hj : job ∈ jobs d values) :
    (Markup.elementsWithAll d.config.refAttribute job.ref.text d.fragment).length = 1 := by
  obtain ⟨slot, hs, ref, -⟩ := slot_of_job allotted hj
  rw [← ref]
  exact sole slot hs

theorem own_of_job {job : Job} (hj : job ∈ jobs d values) {n : NodeId} : own w d job.ref = some n ↔
    w.nodes.size ≤ n.index ∧ (copied w d).nodes.Carries d.config.refAttribute job.ref.text n :=
  (Forest.planted w.nodes d.fragment).2.find_iff (Nat.le_of_eq (sole_of_job allotted sole hj))

theorem aimed_copied (legible : Markup.LegibleAll d.fragment) (linked : w.nodes.Linked) {job : Job}
    (hj : job ∈ jobs d values) : ∃ e, own w d job.ref = some e ∧
      (copied w d).nodes.Under w.nodes.next e ∧ e ≠ w.nodes.next ∧
      (copied w d).nodes.Carries d.config.refAttribute job.ref.text e ∧
      (copied w d).nodes.Lettered e := by
  have planted := (Forest.planted w.nodes d.fragment).2
  have some : 0 < (Markup.elementsWithAll d.config.refAttribute job.ref.text d.fragment).length :=
    sole_of_job allotted sole hj ▸ Nat.one_pos
  obtain ⟨e, new, carries⟩ := planted.exists_carries some
  have known := Forest.known_of_carries carries
  have below := (planted.leads new known).mem_descendants known
  refine ⟨e, (own_of_job allotted sole hj).2 ⟨Nat.le_of_lt new, carries⟩,
    Forest.under_of_mem_descendants (planted.linked linked) below, ?_, carries,
    planted.lettered legible (Nat.le_of_lt new) carries⟩
  rintro rfl
  exact Nat.lt_irrefl _ new

theorem hollow_copied (linked : w.nodes.Linked)
    (hollow : Markup.hollowAll (isOutlet d) d.fragment = true) {job : Job}
    (hj : job ∈ jobs d values) (outlet : job.isOutlet = true) {e : NodeId}
    (aims : own w d job.ref = some e) (n : NodeId) :
    ((copied w d).nodes.get n).parent ≠ some e := by
  obtain ⟨new, carries⟩ := (own_of_job allotted sole hj).1 aims
  have bare : ((copied w d).nodes.get e).children = [] := by
    unfold Forest.Carries at carries
    cases content : ((copied w d).nodes.get e).content with
    | element data =>
      rw [content] at carries
      refine Forest.hollow_planted hollow e new data content ?_
      obtain ⟨slot, hs, ref, same⟩ := slot_of_job allotted hj
      refine List.any_eq_true.2 ⟨slot, hs, ?_⟩
      rw [outlet] at same
      rw [← ref] at carries
      cases slot with
      | node r => exact carries
      | _ => cases same
    | _ =>
      rw [content] at carries
      cases carries
  intro parent
  have mem := (((Forest.planted w.nodes d.fragment).2.linked linked).child e n).2 parent
  exact List.not_mem_nil (bare ▸ mem)

/-- The copy of a template is a host for its jobs. -/
theorem hosts_copied (legible : Markup.LegibleAll d.fragment) (linked : w.nodes.Linked)
    (hollow : Markup.hollowAll (isOutlet d) d.fragment = true)
    (movable : Movable w.nodes d values) (count : values.length = d.slots.length) :
    Hosts d.config.refAttribute w.nodes.next (own w d) (jobs d values) (copied w d).nodes := by
  have planted := (Forest.planted w.nodes d.fragment).2
  have inside : ∀ n, (copied w d).nodes.Under w.nodes.next n → w.nodes.size ≤ n.index :=
    fun n hn => (planted.side linked hn).2 (Nat.le_refl _)
  exact
    { linked := planted.linked linked
      top := planted.root
      unmounted := fun n hn => by
        have same : ((copied w d).nodes.get n).connected = (w.nodes.get n).connected :=
          planted.unconnected n
        rw [same, Forest.get_unknown (inside n hn)]
        rfl
      aimed := fun _ hj => aimed_copied allotted sole legible linked hj
      sole := fun _ hj n hn carries => (own_of_job allotted sole hj).2 ⟨inside n hn, carries⟩
      hollow := fun _ hj outlet _ aims => hollow_copied allotted sole linked hollow hj outlet aims
      distinct := distinct_jobs allotted count
      guests := fun _ hj _ node => guest_copied allotted linked movable hj node
      unnested := unnested_jobs linked movable count
      elements := fun _ hj _ hc => component_copied movable hj hc }

end

end
end LiveMarkup.Live.Render
