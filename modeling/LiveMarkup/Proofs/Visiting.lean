import LiveMarkup.Proofs.Inscribing

/-!
Visiting: a rendering as the list of the visits that it pays to elements of its copy. Each visit puts a
text in the place of an outlet, or puts attributes together, and leaves alone what other visits have
done. So what every visit has done stands when the rendering is over.
-/
namespace LiveMarkup.Live.Render

open Template (Slot Descriptor Ref Programs Part)

/-- A job that was done: its element, and the worlds before and after it. -/
structure Visit where
  job : Job
  element : NodeId
  before : World
  after : World

/-- The visits of jobs, as far as they go well. -/
def visits (run : Runner) (d : Descriptor) (fragment : NodeId) (values : List TemplateValue) :
    List Job → World → List Visit
  | [], _ => []
  | job :: rest, w =>
    match found d fragment job.ref w, (job.carryOut (find d fragment) values).run run w with
    | some element, .ok (.ok _, w') =>
      ⟨job, element, w, w'⟩ :: visits run d fragment values rest w'
    | _, _ => []

/-- The attributes that a job puts together at an element. -/
def Job.writes (element : NodeId) : Job → List (NodeId × String)
  | .slot .. => []
  | .programs _ ps => ps.entries.map fun p => (element, Text.lowercase p.1)

namespace Visit

/-- The attributes that are put together at a visit. -/
def writes (v : Visit) : List (NodeId × String) :=
  v.job.writes v.element

/-- A node has come to the place of the outlet that is visited. -/
def Places (v : Visit) (n : NodeId) : Prop :=
  ∃ p, (v.before.nodes.get v.element).parent = some p ∧
    (v.after.nodes.get p).children =
      (v.before.nodes.get p).children.map fun c => if c = v.element then n else c

/-- What was done at a visit stands. -/
def Stands (w : World) (values : List TemplateValue) (v : Visit) : Prop :=
  match v.job with
  | .slot _ (.node _) value => ∃ n, v.Places n ∧ n.index < w.nodes.size ∧ Tells w n value
  | .slot .. => True
  | .programs _ ps => v.element.index < w.nodes.size ∧
    ∀ p ∈ ps.entries, Inscribed w values v.element p.1 p.2

end Visit

/-- A job that puts a text in the place of an outlet, or puts attributes together from more than one
slot; quoted attributes wait for that. -/
def Job.Plain (w : World) : Job → Prop
  | .slot _ (.node _) value => value.Plain w
  | .slot _ (.attr _ quote _) _ => quote ≠ .none
  | .slot .. => False
  | .programs _ ps => (∀ p ∈ ps.entries, ∀ i, p.2 ≠ [.slot i])

/-- What is taken by putting attributes together, when texts take new nodes. -/
def Written (limit : Nat) (writes : List (NodeId × String)) (n : NodeId) : Option String → Prop
  | none => limit ≤ n.index
  | some name => (n, name) ∈ writes

variable {w₀ w w' : World} {n p element fragment : NodeId} {d : Descriptor} {r : Ref} {v : Visit}
  {values : List TemplateValue} {job : Job} {js : List Job} {fuel : Nat} {asked : Asked}
  {writes : List (NodeId × String)}

theorem Job.Plain.next {taken : NodeId → Option String → Prop} (h : job.Plain w)
    (persists : Persists taken w w') : job.Plain w' := by
  cases job with
  | programs r ps => exact h
  | slot i s value =>
    cases s with
    | node r => exact TemplateValue.Plain.next h persists
    | attr name quote r => exact h
    | directive kind name r => exact h
    | component r => exact h

/-- What was done at a visit stands as long as none of its attributes is written anew. -/
theorem Visit.Stands.next (h : v.Stands w values)
    (persists : Persists (Written w.nodes.size writes) w w') (apart : ∀ x ∈ v.writes, x ∉ writes) :
    v.Stands w' values := by
  obtain ⟨job, element, before, after⟩ := v
  cases job with
  | programs r ps =>
    obtain ⟨known, inscribed⟩ := h
    refine ⟨Nat.lt_of_lt_of_le known persists.nodes, fun p mem => ?_⟩
    exact (inscribed p mem).next persists (apart _ (List.mem_map_of_mem mem))
  | slot i s value =>
    cases s with
    | node r =>
      obtain ⟨n, places, known, tells⟩ := h
      exact ⟨n, places, Nat.lt_of_lt_of_le known persists.nodes,
        tells.next persists (Nat.not_le.2 known)⟩
    | attr name quote r => trivial
    | directive kind name r => trivial
    | component r => trivial

theorem Visit.Stands.rest (h : v.Stands w values) (persists : Persists Untaken w w') :
    v.Stands w' values := by
  have lax : Persists (Written w.nodes.size []) w w' := persists.lax
  exact h.next lax fun _ _ => List.not_mem_nil

theorem Visit.element_of_writes {x : NodeId × String} (mem : x ∈ v.writes) : x.1 = v.element := by
  obtain ⟨job, element, before, after⟩ := v
  cases job with
  | slot i s value => cases mem
  | programs r ps =>
    obtain ⟨p, -, rfl⟩ := List.mem_map.1 mem
    rfl

theorem Visit.Stands.known_of_writes (h : v.Stands w values) {x : NodeId × String}
    (mem : x ∈ v.writes) : x.1.index < w.nodes.size := by
  rw [Visit.element_of_writes mem]
  obtain ⟨job, element, before, after⟩ := v
  cases job with
  | slot i s value => cases mem
  | programs r ps => exact h.1

/-- Whatever a search in new nodes comes to is a new element that has a parent. -/
theorem placed_of_search {limit : Nat} (linked : w.nodes.Linked)
    (closed : ∀ p : NodeId, limit ≤ p.index → ∀ c ∈ (w.nodes.get p).children, limit ≤ c.index)
    (new : limit ≤ fragment.index) (hit : found d fragment r w = some element) :
    limit ≤ element.index ∧ (∃ p, (w.nodes.get element).parent = some p) ∧
      (w.nodes.get element).element?.isSome = true := by
  obtain ⟨below, carries⟩ := Dom.Forest.carries_of_findByAttribute hit
  obtain ⟨copied, p, -, mem⟩ := Dom.Forest.mem_of_mem_descendantsWith closed new below
  refine ⟨copied, ⟨p, (linked.child p element).1 mem⟩, ?_⟩
  unfold Dom.Forest.Carries at carries
  unfold Dom.Node.element?
  cases content : (w.nodes.get element).content with
  | element a => rfl
  | _ =>
    rw [content] at carries
    cases carries

/-- Whatever a search comes to is an element of the copy that has a parent. -/
theorem placed_of_found (h : Draft w₀ w) (new : w₀.nodes.size ≤ fragment.index)
    (hit : found d fragment r w = some element) : w₀.nodes.size ≤ element.index ∧
      (∃ p, (w.nodes.get element).parent = some p) ∧
        (w.nodes.get element).element?.isSome = true :=
  placed_of_search h.linked (fun p hp c mem =>
    (h.base.newborn h.linked h.old ((h.linked.child p c).1 mem)).2 hp) new hit

/-- What one visit does. -/
theorem visit_stands (h : Draft w₀ w) (new : w₀.nodes.size ≤ element.index)
    (parent : (w.nodes.get element).parent = some p)
    (isElement : (w.nodes.get element).element?.isSome = true) (plain : job.Plain w)
    (values_plain : ∀ value ∈ values, value.Plain w) 
    (once : (job.writes element).Nodup)
    (off : ∀ name, (element, name) ∈ job.writes element →
      ∀ e s, w.board element e s → e.part ≠ some name) :
    Succeeds (exec fuel) (job.fill values element) w fun asked w' => asked = [] ∧ Draft w₀ w' ∧
      Persists (Written w.nodes.size (job.writes element)) w w' ∧
        (Visit.mk job element w w').Stands w' values := by
  cases job with
  | programs r ps =>
    have names : (ps.entries.map fun p => Text.lowercase p.1).Nodup := by
      refine List.Pairwise.of_map (element, ·) 
        (fun a b (ne : (element, a) ≠ (element, b)) same => ne (same ▸ rfl)) ?_
      rw [List.map_map]
      exact once
    refine .bind ((h.programs new isElement values_plain plain names fun p mem =>
      off _ (List.mem_map_of_mem mem)).mono ?_)
    rintro _ w' ⟨h', persists, inscribed⟩
    refine .pure ⟨rfl, h', persists.mono ?_, ?_, inscribed⟩
    · rintro n part ⟨rfl, p, mem, rfl⟩
      exact List.mem_map_of_mem mem
    · exact Nat.lt_of_lt_of_le (Dom.Forest.Linked.known parent) persists.nodes
  | slot i s value =>
    refine .atSlot ?_
    cases s with
    | node r =>
      refine (h.outlet plain new parent r).mono ?_
      rintro asked w' ⟨rfl, h', persists, n, known, tells, place⟩
      refine ⟨rfl, h', persists.mono ?_, n, ⟨p, parent, place⟩, known, tells⟩
      rintro m part ⟨young, rfl⟩
      exact young
    | attr name quote r =>
      have unquoted : quote ≠ .none := plain
      simp only [fillElement, if_neg unquoted]
      exact .pure ⟨rfl, h, .refl w, trivial⟩
    | directive kind name r => exact plain.elim
    | component r => exact plain.elim

/-- What all visits do. By induction on the jobs: what was done so far took nothing that is yet to be
written, and what is still to be done takes nothing that stands. -/
theorem visits_stand {aim : Aim} {done : List (NodeId × String)} (h : Draft w₀ w)
    (sofar : Persists (Written w₀.nodes.size done) w₀ w) (new : w₀.nodes.size ≤ fragment.index)
    (plain : ∀ job ∈ js, job.Plain w) (values_plain : ∀ value ∈ values, value.Plain w)
    (once : (done ++ (visits (exec fuel) d fragment values js w).flatMap Visit.writes).Nodup)
    (success : (carryOutAll (fun _ => find d fragment) values aim js).run (exec fuel) w =
      .ok (.ok asked, w')) :
    asked = [] ∧ Draft w₀ w' ∧
      (let vs := visits (exec fuel) d fragment values js w
      Persists (Written w.nodes.size (vs.flatMap Visit.writes)) w w' ∧ vs.map Visit.job = js ∧
        (∀ v ∈ vs, v.Stands w' values) ∧ ∀ v ∈ vs, w₀.nodes.size ≤ v.element.index) := by
  induction js generalizing aim w asked done with
  | nil =>
    cases success
    exact ⟨rfl, h, .refl _, rfl, List.forall_mem_nil _, List.forall_mem_nil _⟩
  | cons job js ih =>
    obtain ⟨asked₁, asked₂, w₁, rfl, carried, rest⟩ := carryOutAll_cons success
    obtain ⟨element, hit⟩ := found_of_carryOut carried
    have unfolded : visits (exec fuel) d fragment values (job :: js) w =
        ⟨job, element, w, w₁⟩ :: visits (exec fuel) d fragment values js w₁ := by
      simp only [visits, hit, carried]
    rw [unfolded] at once ⊢
    obtain ⟨here, later⟩ := List.forall_mem_cons.1 plain
    obtain ⟨copied, ⟨p, parent⟩, isElement⟩ := placed_of_found h new hit
    rw [List.flatMap_cons, ← List.append_assoc] at once
    obtain ⟨once₁, -, apart₁⟩ := List.nodup_append.1 once
    obtain ⟨-, own, apart⟩ := List.nodup_append.1 once₁
    have off : ∀ name, (element, name) ∈ job.writes element →
        ∀ e s, w.board element e s → e.part ≠ some name := by
      intro name mem e s shows part
      rcases sofar.added element e s shows with before | taken
      · exact Nat.not_lt.2 copied (h.base.finished.suits element e s before).1
      · rw [part] at taken
        exact apart _ taken _ mem rfl
    rw [carryOut_find hit] at carried
    obtain ⟨rfl, h₁, persists₁, stands⟩ :=
      visit_stands h copied parent isElement here values_plain own off asked₁ w₁ carried
    have sofar₁ : Persists (Written w₀.nodes.size (done ++ job.writes element)) w₀ w₁ := by
      refine (sofar.mono ?_).trans (persists₁.mono ?_)
      · rintro n (_ | name) taken
        · exact taken
        · exact List.mem_append_left _ taken
      · rintro n (_ | name) taken
        · exact Nat.le_trans h.size taken
        · exact List.mem_append_right _ taken
    obtain ⟨rfl, h₂, persists₂, jobs, standing, elements⟩ := ih h₁ sofar₁
      (fun job mem => (later job mem).next persists₁)
      (fun value mem => (values_plain value mem).next persists₁) once rest
    refine ⟨rfl, h₂, (persists₁.mono ?_).trans (persists₂.mono ?_), congrArg _ jobs,
      List.forall_mem_cons.2 ⟨stands.next persists₂ fun x mem later => ?_, standing⟩,
      List.forall_mem_cons.2 ⟨copied, elements⟩⟩
    · rintro n (_ | name) taken
      · exact taken
      · exact List.mem_append_left _ taken
    · rintro n (_ | name) taken
      · exact Nat.le_trans persists₁.nodes taken
      · exact List.mem_append_right _ taken
    · exact apart₁ x (List.mem_append_right _ mem) x later rfl

/-- A new fragment that gives its nodes away leaves older nodes as they are. -/
theorem get_giveAway {limit : Nat}
    (closed : ∀ p : NodeId, limit ≤ p.index → ∀ c ∈ (w.nodes.get p).children, limit ≤ c.index)
    (new : limit ≤ fragment.index) (hn : n.index < limit) :
    (w.nodes.takeForInsertion fragment).2.get n = w.nodes.get n := by
  have relinked : w.nodes.Relinked (w.nodes.takeForInsertion fragment).2 := .takeForInsertion fragment
  cases whole : (w.nodes.get fragment).isFragment with
  | false => rw [Dom.Forest.takeForInsertion_other whole]
  | true =>
    have ne : n ≠ fragment := by
      rintro rfl
      exact Nat.not_lt.2 new hn
    refine Dom.Node.eq_of_parts (relinked.content n) ?_ ?_ (relinked.connected n)
    · refine Dom.Forest.parent_takeForInsertion_of_notMem whole fun mem => ?_
      exact Nat.not_lt.2 (closed fragment new n mem) hn
    · rw [Dom.Forest.children_takeForInsertion whole, if_neg ne]

/-- The copy gives its nodes away. -/
theorem giveAway (h : Draft w₀ w) (new : w₀.nodes.size ≤ fragment.index) :
    Draft w₀ { w with nodes := (w.nodes.takeForInsertion fragment).2 } ∧
      Persists Untaken w { w with nodes := (w.nodes.takeForInsertion fragment).2 } := by
  have relinked : w.nodes.Relinked (w.nodes.takeForInsertion fragment).2 := .takeForInsertion fragment
  have size := Nat.le_of_eq relinked.size.symm
  refine ⟨h.of_nodes (h.linked.takeForInsertion fragment) size (fun n hn => ?_) (fun n hn => ?_)
    fun n e s shows _ => ?_, .of_contents size fun n _ => relinked.content n⟩
  · refine (get_giveAway (fun p hp c mem => ?_) new hn).trans (h.old n hn)
    exact (h.base.newborn h.linked h.old ((h.linked.child p c).1 mem)).2 hp
  · rw [relinked.connected]
    exact h.unmounted n hn
  · exact ⟨(Effect.suits_congr (relinked.content n)).2 (h.finished.suits n e s shows).2,
      Effect.look_congr (relinked.content n)⟩

/-- A rendering: its template and values, how deeply it may nest callbacks, and the world in which it
starts. -/
structure Performance where
  descriptor : Descriptor
  values : List TemplateValue
  fuel : Nat
  start : World

namespace Performance

/-- The visits of a rendering. -/
def visits (p : Performance) : List Visit :=
  Render.visits (exec p.fuel) p.descriptor p.start.nodes.next p.values
    (jobs p.descriptor p.values) (copied p.start p.descriptor)

/-- Slots are in text, or in quoted attributes that are put together from more than one slot or from a
slot and other text. Values depend on nothing but signals. No attribute of an element is written
twice. -/
structure Fits (p : Performance) : Prop where
  slots : ∀ slot ∈ p.descriptor.slots, (∃ r, slot = .node r) ∨
    ∃ name quote r, slot = .attr name quote r ∧ quote ≠ .none
  parts : ∀ e ∈ p.descriptor.programs.entries, ∀ a ∈ e.2.entries, ∀ i, a.2 ≠ [.slot i]
  values : ∀ value ∈ p.values, value.Plain p.start
  once : (p.visits.flatMap Visit.writes).Nodup

variable {p : Performance} {nodes : List NodeId}

theorem Fits.plain (fits : p.Fits) : ∀ job ∈ jobs p.descriptor p.values, job.Plain p.start := by
  intro job mem
  rcases mem_jobs.1 mem with ⟨i, slot, value, inSlots, inValues, rfl⟩ | ⟨e, entry, rfl⟩
  · rcases fits.slots slot (List.mem_of_getElem? inSlots) with ⟨r, rfl⟩ | ⟨name, quote, r, rfl, quoted⟩
    · exact fits.values value (List.mem_of_getElem? inValues)
    · exact quoted
  · exact fits.parts e entry

/-- What a rendering has done at its visits stands afterwards. -/
theorem stands (stage : Stage p.start) (fits : p.Fits)
    (rendered : runFrom p.fuel p.start (render p.descriptor p.values) = .ok (.ok nodes, w')) :
    Stage w' ∧ Persists (Written p.start.nodes.size (p.visits.flatMap Visit.writes)) p.start w' ∧
      p.visits.map Visit.job = jobs p.descriptor p.values ∧
        (∀ v ∈ p.visits, v.Stands w' p.values) ∧
          ∀ v ∈ p.visits, p.start.nodes.size ≤ v.element.index := by
  have rendered : renderBy (fun fragment => fillAll p.descriptor fragment p.values) p.descriptor
      p.values (exec p.fuel) p.start = .ok (.ok nodes, w') := rendered
  obtain ⟨asked, w₁, filled⟩ := filled_of_renderBy rendered
  have jobwise := fillAll_eq p.values p.start.nodes.next (fun _ => none) (count_of_fillAll filled)
  have carried : (carryOutAll (fun _ => find p.descriptor p.start.nodes.next) p.values
      (fun _ => none) (jobs p.descriptor p.values)).run (exec p.fuel)
        (copied p.start p.descriptor) = .ok (.ok asked, w₁) := by
    rw [← jobwise]
    exact filled
  obtain ⟨h, planted⟩ := Draft.plant stage p.descriptor.fragment
  have sofar : Persists (Written p.start.nodes.size []) p.start (copied p.start p.descriptor) :=
    planted.lax
  obtain ⟨rfl, h₁, persists, jobs, stands, elements⟩ := visits_stand h sofar
    (Nat.le_refl _) (fun job mem => (fits.plain job mem).next planted)
    (fun value mem => (fits.values value mem).next planted) fits.once carried
  obtain ⟨h₂, given⟩ := giveAway h₁ (Nat.le_refl _)
  rw [renderBy_run, filled] at rendered
  cases rendered
  refine ⟨h₂.toStage, planted.lax.trans ((persists.mono ?_).trans given.lax), jobs,
    fun v mem => (stands v mem).rest given, elements⟩
  rintro n (_ | name) taken
  · exact Nat.le_trans planted.nodes taken
  · exact taken

end Performance
end LiveMarkup.Live.Render
