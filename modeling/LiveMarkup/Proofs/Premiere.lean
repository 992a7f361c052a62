import LiveMarkup.Proofs.Exhibition
import LiveMarkup.Proofs.Lettering
import LiveMarkup.Proofs.Sharing
import LiveMarkup.Proofs.Success

/-!
Premiere: what a rendering shows when it is over, before anything of it is mounted. A text stands in
the place of every outlet, and every attribute is what was written to it last. Both tell what is
behind their values: for a computation that has a derived signal already, that is what the signal holds,
and it is out of date where sources were written since the signal had its last subscriber.
-/
namespace LiveMarkup.Live

open Render
open Template (Slot Part Programs Descriptor)

variable {w₀ w w₁ w' : World} {n p element fragment : NodeId} {s : SignalId} {run : Runner}
  {value : TemplateValue} {values : List TemplateValue} {parts : List Part} {name : String}
  {d : Descriptor} {aim : Aim} {asked : Asked} {job : Job} {js : List Job} {v : Visit}

namespace Render

/-- A writing to an attribute: of the text that parts make together, or of something else. -/
structure Inscription where
  element : NodeId
  name : String
  parts : Option (List Part)
deriving DecidableEq

variable {x y : Inscription} {l l' : List Inscription}

namespace Inscription

/-- Both are of one attribute. -/
def Meets (y x : Inscription) : Prop :=
  y.element = x.element ∧ Text.lowercase y.name = Text.lowercase x.name

/-- The last writing to its attribute. -/
def Lasts (x : Inscription) (l : List Inscription) : Prop :=
  ∃ earlier later, l = earlier ++ x :: later ∧ ∀ y ∈ later, ¬ y.Meets x

/-- What its parts make together is there. -/
def Stands (x : Inscription) (w : World) (text : List Part → Option String) : Prop :=
  ∀ parts, x.parts = some parts → (w.nodes.attributes x.element).value? x.name = text parts

theorem Lasts.mem (h : x.Lasts l) : x ∈ l := by
  obtain ⟨earlier, later, rfl, -⟩ := h
  exact List.mem_append_right _ List.mem_cons_self

theorem Lasts.append (h : x.Lasts (l ++ l')) : x.Lasts l' ∨ x.Lasts l ∧ ∀ y ∈ l', ¬ y.Meets x := by
  obtain ⟨earlier, later, split, free⟩ := h
  rcases List.append_eq_append_iff.1 split with ⟨before, -, rfl⟩ | ⟨after, rfl, rest⟩
  · exact .inl ⟨before, later, rfl, free⟩
  · cases after with
    | nil => exact .inl ⟨[], later, rest.symm, free⟩
    | cons y after =>
      cases rest
      obtain ⟨here, there⟩ := List.forall_mem_append.1 free
      exact .inr ⟨⟨earlier, after, rfl, here⟩, there⟩

/-- The attributes that are written. -/
def Touched (l : List Inscription) (n : NodeId) (name : String) : Prop :=
  ∃ x ∈ l, x.element = n ∧ Text.lowercase x.name = name

end Inscription

/-- What a job writes at its element. -/
def Job.inscriptions (element : NodeId) : Job → List Inscription
  | .slot i (.attr name quote _) _ => if quote = .none then [⟨element, name, some [.slot i]⟩] else []
  | .slot _ (.directive .classes _ _) _ => [⟨element, "class", none⟩]
  | .slot _ (.directive .style _ _) _ => [⟨element, "style", none⟩]
  | .slot .. => []
  | .programs _ ps => ps.entries.map fun p => ⟨element, p.1, some p.2⟩

/-- The value of an outlet in text. -/
def Job.outlet? : Job → Option TemplateValue
  | .slot _ (.node _) value => some value
  | _ => none

theorem mem_of_outlet? (mem : job ∈ jobs d values) (outlet : job.outlet? = some value) :
    value ∈ values := by
  rcases mem_jobs.1 mem with ⟨i, slot, given, -, inValues, rfl⟩ | ⟨_, -, rfl⟩
  · cases slot with
    | node r =>
      cases outlet
      exact List.mem_of_getElem? inValues
    | _ => cases outlet
  · cases outlet

/-- What is written at a visit. -/
def Visit.inscriptions (v : Visit) : List Inscription :=
  v.job.inscriptions v.element

/-- The text of a value has come to the place of the outlet that is visited. -/
def Visit.Tells (v : Visit) (w : World) (text : String) : Prop :=
  ∃ n, v.Places n ∧ (w.nodes.get n).content = .text text

end Render

/-- All that was written last on its attribute stands. -/
structure Inscribes (w₀ : World) (values : List TemplateValue) (l : List Inscription)
    (w w' : World) : Prop where
  sketch : Sketch w₀ w'
  leaves : Leaves (Inscription.Touched l) w w'
  known : ∀ x ∈ l, x.element.index < w'.nodes.size
  stands : ∀ x : Inscription, x.Lasts l →
    x.Stands w' (inscribedText w₀ (partAmount (·.held w₀) values))

namespace Inscribes
variable {x : Inscription} {l l' : List Inscription}

theorem nil (sketch : Sketch w₀ w') (leaves : Leaves Unedited w w') :
    Inscribes w₀ values [] w w' := by
  refine ⟨sketch, leaves.mono fun _ _ => False.elim, List.forall_mem_nil _, fun x last => ?_⟩
  exact absurd last.mem List.not_mem_nil

/-- One attribute is written. -/
theorem one (sketch : Sketch w₀ w')
    (leaves : Leaves (fun m name => m = x.element ∧ some (Text.lowercase x.name) = some name) w w')
    (known : x.element.index < w.nodes.size)
    (stands : x.Stands w' (inscribedText w₀ (partAmount (·.held w₀) values))) :
    Inscribes w₀ values [x] w w' := by
  refine ⟨sketch, leaves.mono ?_, List.forall_mem_singleton.2 (Nat.lt_of_lt_of_le known leaves.size),
    fun y last => ?_⟩
  · rintro _ _ ⟨rfl, same⟩
    exact ⟨x, List.mem_singleton_self x, rfl, Option.some.inj same⟩
  · obtain rfl := List.mem_singleton.1 last.mem
    exact stands

/-- What comes later leaves the rest alone. -/
theorem trans (h : Inscribes w₀ values l w w₁) (h' : Inscribes w₀ values l' w₁ w') :
    Inscribes w₀ values (l ++ l') w w' := by
  refine ⟨h'.sketch, (h.leaves.mono ?_).trans (h'.leaves.mono ?_), fun x mem => ?_,
    fun x last => ?_⟩
  · rintro n name ⟨x, mem, hit⟩
    exact ⟨x, List.mem_append_left _ mem, hit⟩
  · rintro n name ⟨x, mem, hit⟩
    exact ⟨x, List.mem_append_right _ mem, hit⟩
  · rcases List.mem_append.1 mem with mem | mem
    · exact Nat.lt_of_lt_of_le (h.known x mem) h'.leaves.size
    · exact h'.known x mem
  · rcases last.append with last | ⟨last, free⟩
    · exact h'.stands x last
    · intro parts given
      have same := h'.leaves.value x.element x.name (h.known x last.mem) fun ⟨y, mem, hit⟩ =>
        free y mem hit
      rw [same]
      exact h.stands x last parts given

end Inscribes

/-- What is known of a visit when all is over, if there are no more writings than those listed. -/
structure Render.Visit.Lies (w₀ : World) (d : Descriptor) (fragment : NodeId)
    (l : List Inscription) (w' : World) (v : Visit) : Prop where
  new : w₀.nodes.size ≤ v.element.index
  found : found d fragment v.job.ref v.before = some v.element
  leaves : Leaves (Inscription.Touched l) v.before w'
  tells : ∀ value, v.job.outlet? = some value → v.Tells w' (w₀.textOrEmpty (value.held w₀))

theorem Render.Visit.Lies.next {l l' : List Inscription} (h : v.Lies w₀ d fragment l w₁)
    (leaves : Leaves (Inscription.Touched l') w₁ w') (more : ∀ x ∈ l, x ∈ l') :
    v.Lies w₀ d fragment l' w' where
  new := h.new
  found := h.found
  leaves := (h.leaves.mono fun _ _ ⟨x, mem, hit⟩ => ⟨x, more x mem, hit⟩).trans leaves
  tells value outlet :=
    let ⟨n, place, content⟩ := h.tells value outlet
    ⟨n, place, leaves.data n _ content⟩

namespace Sketch

/-- The programs of an element are carried out. By induction on them. -/
theorem programs (h : Sketch w₀ w) (new : w₀.nodes.size ≤ n.index) (known : n.index < w.nodes.size)
    (isElement : (w.nodes.get n).element?.isSome = true)
    (proper : ∀ value ∈ values, value.Proper w₀) (entries : List (String × List Part)) :
    Succeeds run (entries.forM fun (name, parts) => fillProgram values n name parts) w fun _ w' =>
      Inscribes w₀ values (entries.map fun p => ⟨n, p.1, some p.2⟩) w w' := by
  induction entries generalizing w with
  | nil => exact .pure (.nil h (.refl w))
  | cons entry entries ih =>
    obtain ⟨name, parts⟩ := entry
    refine .bind ((h.program new isElement proper).mono ?_)
    rintro _ w₁ ⟨h₁, -, leaves, written⟩
    refine (ih h₁ (Nat.lt_of_lt_of_le known leaves.size) (leaves.element n isElement)).mono ?_
    intro _ w₂ rest
    refine Inscribes.trans (l := [⟨n, name, some parts⟩]) (.one h₁ leaves known ?_) rest
    rintro _ ⟨⟩
    exact written

/-- Form state is bound both ways, at an element that is not mounted. -/
theorem twoWay (h : Sketch w₀ w) (new : w₀.nodes.size ≤ n.index)
    (isElement : (w.nodes.get n).element?.isSome = true) (s : SignalId) (key : Dom.BindingKey) :
    Ensures run (twoWay n s key) w fun _ w' => Sketch w₀ w' ∧ Leaves Unedited w w' := by
  have off := h.unmounted n new
  let w₁ := Events.awaited n "input" (.write s key) w
  have h₁ : Sketch w₀ w₁ := h.aside (.of_eq rfl rfl rfl) rfl
  have leaves : Leaves Unedited w w₁ := .of_nodes rfl
  intro _ w₂ ran
  rw [twoWay_off off] at ran
  obtain ⟨h₂, -, more, -⟩ := h₁.bind (e := .form key) new nofun isElement s run _ w₂ ran
  refine ⟨h₂, leaves.trans (more.mono ?_)⟩
  rintro _ _ ⟨-, ⟨⟩⟩

/-- A directive at an element of the copy. -/
theorem directive (h : Sketch w₀ w) (new : w₀.nodes.size ≤ n.index) (known : n.index < w.nodes.size)
    (isElement : (w.nodes.get n).element?.isSome = true) (proper : value.Proper w₀) (i : Nat)
    (kind : Template.DirectiveKind) (name : String) (r : Template.Ref) :
    Succeeds run (directive n kind name value) w fun _ w' =>
      Inscribes w₀ values (Job.inscriptions n (.slot i (.directive kind name r) value)) w w' := by
  have small : Text.lowercase "class" = "class" ∧ Text.lowercase "style" = "style" := by decide
  have untouched : Inscribes w₀ values [] w w := .nil h (.refl w)
  unfold Render.directive Job.inscriptions
  cases kind with
  | classes =>
    refine .bind ((h.connect (e := .classes name) new nofun isElement proper).mono ?_)
    rintro _ w' ⟨h', -, leaves, -⟩
    refine .pure (.one h' (leaves.mono ?_) known nofun)
    rintro _ _ ⟨rfl, hit⟩
    exact ⟨rfl, (congrArg some small.1).trans hit⟩
  | style =>
    refine .bind ((h.connect (e := .style name) new nofun isElement proper).mono ?_)
    rintro _ w' ⟨h', -, leaves, -⟩
    refine .pure (.one h' (leaves.mono ?_) known nofun)
    rintro _ _ ⟨rfl, hit⟩
    exact ⟨rfl, (congrArg some small.2).trans hit⟩
  | on =>
    cases value with
    | listener l => exact proper.plain.elim
    | _ => exact .throw
  | ref =>
    cases value with
    | writable s => exact .pure untouched
    | _ => exact .throw
  | bind =>
    cases value with
    | writable s =>
      dsimp only
      cases Dom.BindingKey.ofName? name with
      | none => exact .throw
      | some key =>
        refine .bind (.lift ((h.twoWay new isElement s key).mono ?_))
        rintro _ w' ⟨h', leaves⟩
        exact .pure (.nil h' leaves)
    | _ => exact .throw

/-- A job of the copy is done. -/
theorem fill (h : Sketch w₀ w) (new : w₀.nodes.size ≤ n.index)
    (parent : (w.nodes.get n).parent = some p)
    (isElement : (w.nodes.get n).element?.isSome = true)
    (proper : ∀ value ∈ values, value.Proper w₀)
    (own : ∀ i slot value, job = .slot i slot value → values[i]? = some value) :
    Succeeds run (job.fill values n) w fun _ w' =>
      Inscribes w₀ values (job.inscriptions n) w w' ∧
        ∀ value, job.outlet? = some value →
          (Visit.mk job n w w').Tells w' (w₀.textOrEmpty (value.held w₀)) := by
  have known : n.index < w.nodes.size := Dom.Forest.Linked.known parent
  cases job with
  | programs r ps =>
    refine .bind ((h.programs new known isElement proper ps.entries).mono fun _ w' done => ?_)
    exact .pure ⟨done, by rintro _ ⟨⟩⟩
  | slot i slot value =>
    have here := proper value (List.mem_of_getElem? (own i slot value rfl))
    refine .atSlot ?_
    cases slot with
    | node r =>
      refine (h.outlet here new parent r).mono ?_
      rintro _ w' ⟨h', -, leaves, m, content, place⟩
      refine ⟨.nil h' leaves, ?_⟩
      rintro _ ⟨⟩
      exact ⟨m, ⟨p, parent, place⟩, content⟩
    | attr name quote r =>
      unfold fillElement Job.inscriptions
      dsimp only
      by_cases unquoted : quote = .none
      · rw [if_pos unquoted, if_pos unquoted]
        refine .bind ((h.connect (e := .attr name) new nofun isElement here).mono ?_)
        rintro _ w' ⟨h', -, leaves, written⟩
        refine .pure ⟨.one h' leaves known ?_, by rintro _ ⟨⟩⟩
        rintro _ ⟨⟩
        rw [inscribedText_slot (own i _ value rfl)]
        exact written name _ rfl
      · rw [if_neg unquoted, if_neg unquoted]
        exact .pure ⟨.nil h (.refl w), by rintro _ ⟨⟩⟩
    | directive kind name r =>
      refine (h.directive new known isElement here i kind name r).mono fun _ _ done => ⟨done, ?_⟩
      rintro _ ⟨⟩
    | component r =>
      cases value with
      | component c => exact here.plain.elim
      | _ => exact .throw

/-- What all visits write and tell. By induction on the jobs. -/
theorem visits (h : Sketch w₀ w) (new : w₀.nodes.size ≤ fragment.index)
    (proper : ∀ value ∈ values, value.Proper w₀)
    (own : ∀ job ∈ js, ∀ i slot value, job = .slot i slot value → values[i]? = some value)
    (success : (carryOutAll (fun _ => find d fragment) values aim js).run run w =
      .ok (.ok asked, w')) :
    let vs := Render.visits run d fragment values js w
    Inscribes w₀ values (vs.flatMap Visit.inscriptions) w w' ∧ vs.map Visit.job = js ∧
      ∀ v ∈ vs, v.Lies w₀ d fragment (vs.flatMap Visit.inscriptions) w' := by
  induction js generalizing aim w asked with
  | nil =>
    cases success
    exact ⟨.nil h (.refl _), rfl, List.forall_mem_nil _⟩
  | cons job js ih =>
    obtain ⟨asked₁, asked₂, w₁, rfl, carried, rest⟩ := carryOutAll_cons success
    obtain ⟨element, hit⟩ := found_of_carryOut carried
    have unfolded : Render.visits run d fragment values (job :: js) w =
        ⟨job, element, w, w₁⟩ :: Render.visits run d fragment values js w₁ := by
      simp only [Render.visits, hit, carried]
    rw [unfolded]
    obtain ⟨copied, ⟨p, parent⟩, isElement⟩ := placed_of_search h.linked
      (fun p hp c mem => (h.newborn ((h.linked.child p c).1 mem)).2 hp) new hit
    rw [carryOut_find hit] at carried
    obtain ⟨here, later⟩ := List.forall_mem_cons.1 own
    obtain ⟨written, told⟩ :=
      h.fill copied parent isElement proper here asked₁ w₁ carried
    obtain ⟨others, jobs, lying⟩ := ih written.sketch later rest
    have all := Inscribes.trans written others
    have first : (Visit.mk job element w w₁).Lies w₀ d fragment (job.inscriptions element) w₁ :=
      ⟨copied, hit, written.leaves, told⟩
    refine ⟨all, congrArg _ jobs, List.forall_mem_cons.2 ⟨?_, fun v mem => ?_⟩⟩
    · refine first.next (others.leaves.mono ?_) fun _ => List.mem_append_left _
      rintro _ _ ⟨x, mem, hit⟩
      exact ⟨x, List.mem_append_right _ mem, hit⟩
    · exact (lying v mem).next (.refl w') fun _ => List.mem_append_right _

/-- The copy gives its nodes away. -/
theorem giveAway (h : Sketch w₀ w) (new : w₀.nodes.size ≤ fragment.index) :
    Sketch w₀ { w with nodes := (w.nodes.takeForInsertion fragment).2 } ∧
      Leaves Unedited w { w with nodes := (w.nodes.takeForInsertion fragment).2 } := by
  have relinked : w.nodes.Relinked (w.nodes.takeForInsertion fragment).2 := .takeForInsertion fragment
  have size := Nat.le_of_eq relinked.size.symm
  refine ⟨h.of_nodes (h.linked.takeForInsertion fragment) size (fun n hn => ?_)
    fun n _ => relinked.connected n, .of_contents size fun n _ => relinked.content n⟩
  exact get_giveAway (fun p hp c mem => (h.newborn ((h.linked.child p c).1 mem)).2 hp) new hn

end Sketch

namespace Render.Performance
variable {p : Performance} {nodes : List NodeId}

/-- The attributes that a rendering writes, in order. -/
def inscriptions (p : Performance) : List Inscription :=
  p.visits.flatMap Visit.inscriptions

/-- Whatever a rendering has written last, and the texts in the places of outlets, tell what is behind
the values. -/
theorem inscribes (sane : Sane p.start) (proper : ∀ value ∈ p.values, value.Proper p.start)
    (quiet : ∀ job ∈ jobs p.descriptor p.values, job.asks = [])
    (rendered : runFrom p.fuel p.start (render p.descriptor p.values) = .ok (.ok nodes, w')) :
    Inscribes p.start p.values p.inscriptions (copied p.start p.descriptor) w' ∧
      p.visits.map Visit.job = jobs p.descriptor p.values ∧
        ∀ v ∈ p.visits, v.Lies p.start p.descriptor p.start.nodes.next p.inscriptions w' := by
  have rendered : renderBy (fun fragment => fillAll p.descriptor fragment p.values) p.descriptor
      p.values (exec p.fuel) p.start = .ok (.ok nodes, w') := rendered
  obtain ⟨asked, w₁, filled⟩ := filled_of_renderBy rendered
  have jobwise := fillAll_eq p.values p.start.nodes.next (fun _ => none) (count_of_fillAll filled)
  have carried : (carryOutAll (fun _ => find p.descriptor p.start.nodes.next) p.values
      (fun _ => none) (jobs p.descriptor p.values)).run (exec p.fuel)
        (copied p.start p.descriptor) = .ok (.ok asked, w₁) := by
    rw [← jobwise]
    exact filled
  have nothing : asked = [] :=
    List.map_eq_nil_iff.1 ((asked_of_carryOutAll carried).trans (List.flatMap_eq_nil_iff.2 quiet))
  have own : ∀ job ∈ jobs p.descriptor p.values, ∀ i slot value, job = .slot i slot value →
      p.values[i]? = some value := by
    rintro _ mem i slot value rfl
    rcases mem_jobs.1 mem with ⟨_, _, _, -, inValues, same⟩ | ⟨_, -, same⟩
    · cases same
      exact inValues
    · cases same
  obtain ⟨written, jobs, lying⟩ := (Sketch.plant sane p.descriptor.fragment).visits
    (Nat.le_refl _) proper own carried
  obtain ⟨h₂, given⟩ := written.sketch.giveAway (Nat.le_refl _)
  have ended : Inscribes p.start p.values [] w₁
      { w₁ with nodes := (w₁.nodes.takeForInsertion p.start.nodes.next).2 } := .nil h₂ given
  have all := written.trans ended
  rw [List.append_nil] at all
  rw [renderBy_run, filled, nothing] at rendered
  cases rendered
  exact ⟨all, jobs, fun v mem => (lying v mem).next (given.mono fun _ _ => False.elim) fun _ => id⟩

end Render.Performance

/-! What is up to date. -/

/-- What is behind a value is what comes of the signals now. -/
def TemplateValue.UpToDate (w : World) (value : TemplateValue) : Prop :=
  (value.held w).Alike (value.current w)

/-- What is behind any value but a computation, and behind one that has no derived signal yet. -/
theorem TemplateValue.upToDate_of_underived
    (underived : ∀ fn, value = .formula fn → (w.formulas.get fn).signal = none) :
    value.UpToDate w := by
  refine .inl ?_
  cases value with
  | formula fn => simp only [held, current, underived fn rfl]
  | _ => rfl

theorem Stage.sane (h : Stage w) : Sane w :=
  ⟨h.linked, fun fn s memo => (h.formulas fn s memo).known⟩

/-- What is behind a computation whose derived signal has a subscriber. -/
theorem Stage.upToDate (h : Stage w) (plain : value.Plain w)
    (observed : ∀ fn s, value = .formula fn → (w.formulas.get fn).signal = some s →
      (w.signals.get s).subscribers ≠ []) : value.UpToDate w := by
  cases value with
  | formula fn =>
    cases memo : (w.formulas.get fn).signal with
    | none =>
      refine TemplateValue.upToDate_of_underived ?_
      rintro _ ⟨⟩
      exact memo
    | some s =>
      have derives := h.formulas fn s memo
      have yields : TemplateValue.Yields w (.formula fn) (.signal s) :=
        .formula plain.1 plain.2 memo derives.known
      have alike := h.yields_alike yields fun t same => by
        cases same
        exact observed fn s rfl memo
      have held : TemplateValue.held w (.formula fn) = (Signal.content w s).getD .null := by
        simp only [TemplateValue.held, memo]
      unfold TemplateValue.UpToDate
      rw [held]
      exact alike
  | _ => exact .inl rfl

section
variable {v u : Value}

/-- Values that are alike have the same text, in an outlet and in an attribute. -/
theorem World.textOrEmpty_congr (w : World) (alike : v.Alike u) : w.textOrEmpty v = w.textOrEmpty u := by
  obtain ⟨null, text⟩ := alike.text_eq
  unfold World.textOrEmpty Value.textOrEmpty
  rw [null, text]

theorem World.slotText_congr (w : World) (alike : v.Alike u) : w.slotText v = w.slotText u := by
  obtain ⟨null, text⟩ := alike.text_eq
  have same : w.text v = w.text u := text _
  unfold World.slotText
  rw [null, same]

end

/-- Parts that amount to values that are alike make the same together. -/
theorem Render.inscribedText_congr {a b : Part → Value}
    (alike : ∀ part ∈ parts, (a part).Alike (b part)) :
    inscribedText w a parts = inscribedText w b parts := by
  unfold inscribedText
  split
  case h_1 i => exact w.slotText_congr (alike _ List.mem_cons_self)
  case h_2 => rw [List.map_congr_left fun part mem => w.textOrEmpty_congr (alike part mem)]

/-- Without a directive for a reference, nothing is asked for behind the rendering. -/
theorem Render.Job.asks_of_quiet (quiet : ∀ name r, .directive .ref name r ∉ d.slots)
    (mem : job ∈ jobs d values) : job.asks = [] := by
  rcases mem_jobs.1 mem with ⟨i, slot, value, inSlots, -, rfl⟩ | ⟨e, -, rfl⟩
  · unfold Job.asks
    split
    case h_1 name r s same =>
      cases same
      exact absurd (List.mem_of_getElem? inSlots) (quiet name r)
    case h_2 => rfl
  · rfl

/-- Right after a rendering, a text in the place of every outlet and every attribute, unless it is written
again, tell what is behind the values: at once what comes of the signals now, unless it is a
computation whose derived signal is out of date. None is that has a subscriber. -/
theorem Render.Performance.shows_at_once {p : Performance} {nodes : List NodeId}
    (sane : Sane p.start) (proper : ∀ value ∈ p.values, value.Proper p.start)
    (quiet : ∀ name r, .directive .ref name r ∉ p.descriptor.slots)
    (rendered : runFrom p.fuel p.start (render p.descriptor p.values) = .ok (.ok nodes, w')) :
    p.visits.map Visit.job = jobs p.descriptor p.values ∧
    (∀ v ∈ p.visits, p.start.nodes.size ≤ v.element.index ∧ ∀ value, v.job.outlet? = some value →
      v.Tells w' (w'.textOrEmpty (value.held p.start)) ∧
        (value.UpToDate p.start → v.Tells w' (w'.textOrEmpty (value.current w')))) ∧
    (∀ x : Inscription, x.Lasts p.inscriptions → ∀ parts, x.parts = some parts →
      (w'.nodes.attributes x.element).value? x.name =
        inscribedText w' (partAmount (·.held p.start) p.values) parts ∧
      ((∀ i value, .slot i ∈ parts → p.values[i]? = some value → value.UpToDate p.start) →
        (w'.nodes.attributes x.element).value? x.name =
          inscribedText w' (partAmount (·.current w') p.values) parts)) ∧
    ∀ value ∈ p.values,
      (∀ fn s, value = .formula fn → (p.start.formulas.get fn).signal = some s →
        Stage p.start ∧ (p.start.signals.get s).subscribers ≠ []) → value.UpToDate p.start := by
  have silent : ∀ job ∈ jobs p.descriptor p.values, job.asks = [] := fun _ => Job.asks_of_quiet quiet
  obtain ⟨all, jobs, lying⟩ := p.inscribes sane proper silent rendered
  have sketch := all.sketch
  have now : ∀ value ∈ p.values, value.UpToDate p.start →
      (value.held p.start).Alike (value.current w') := by
    intro value mem upToDate
    rw [sketch.current (proper value mem).plain]
    exact upToDate
  refine ⟨jobs, fun v mem => ?_, fun x last parts given => ?_, fun value mem observed => ?_⟩
  · have lies := lying v mem
    refine ⟨lies.new, fun value outlet => ?_⟩
    have among := mem_of_outlet? (jobs ▸ List.mem_map_of_mem mem) outlet
    have told := lies.tells value outlet
    rw [← sketch.textOrEmpty_eq (proper value among).old] at told
    refine ⟨told, fun upToDate => ?_⟩
    rw [← w'.textOrEmpty_congr (now value among upToDate)]
    exact told
  · have stands := all.stands x last parts given
    rw [← sketch.inscribedText_eq fun part _ => partAmount_old proper part] at stands
    refine ⟨stands, fun upToDate => stands.trans (inscribedText_congr fun part mem => ?_)⟩
    cases part with
    | literal text => exact .inl rfl
    | slot i =>
      cases given : p.values[i]? with
      | none =>
        simp only [partAmount, given]
        exact .inl rfl
      | some value =>
        rw [partAmount_slot given, partAmount_slot given]
        exact now value (List.mem_of_getElem? given) (upToDate i value mem given)
  · by_cases derived : ∃ fn s, value = .formula fn ∧ (p.start.formulas.get fn).signal = some s
    · obtain ⟨fn, s, rfl, memo⟩ := derived
      refine (observed fn s rfl memo).1.upToDate (proper _ mem).plain fun fn' s' same memo' => ?_
      exact (observed fn' s' same memo').2
    · refine TemplateValue.upToDate_of_underived fun fn same => ?_
      exact Option.eq_none_iff_forall_ne_some.2 fun s memo => derived ⟨fn, s, same, memo⟩

/-- The nodes that a rendering answers with. -/
def Render.Performance.answer (p : Performance) : List NodeId :=
  match runFrom p.fuel p.start (render p.descriptor p.values) with
  | .ok (.ok nodes, _) => nodes
  | _ => []

theorem Render.Performance.answer_eq {p : Performance}
    (ok : succeeds p.descriptor p.values (exec p.fuel) p.start = true) :
    runFrom p.fuel p.start (render p.descriptor p.values) = .ok (.ok p.answer, p.finish) := by
  obtain ⟨nodes, rendered⟩ := p.finish_eq ok
  have same : p.answer = nodes := by
    unfold answer
    rw [rendered]
  rw [same, rendered]

/-- A document, a signal, and a computation that reads it. -/
def studio : World :=
  let w := after (after .empty (.document "page")) (.signal "s" (.plain (.bool true)))
  { w with
    formulas := w.formulas.push ⟨bracketed ⟨0⟩, none⟩
    names := { w.names with formulas := w.names.formulas.insert "f" w.formulas.next } }

/-- The computation is rendered. -/
def debut : Performance :=
  ⟨fromChunks ["<p>", "</p>"], [.formula ⟨0⟩], 10, studio⟩

theorem debut_exhibits : Exhibits [debut] debut.finish ∧
    TemplateValue.Plain debut.finish (.formula ⟨0⟩) := by
  let w₁ := after .empty (.document "page")
  let w₂ := after w₁ (.signal "s" (.plain (.bool true)))
  obtain ⟨_, h₁⟩ := runFrom_after .empty (.document "page") (by decide +kernel)
  obtain ⟨_, h₂⟩ := runFrom_after w₁ (.signal "s" (.plain (.bool true))) (by decide +kernel)
  have h₃ : runFrom 10 w₂ ((Step.formula "f" (bracketed ⟨0⟩)).run .null) = .ok (.none, studio) := rfl
  obtain ⟨_, h₄⟩ := debut.finish_eq (by decide +kernel)
  have slots : debut.descriptor.slots = [.node ⟨1000001⟩] := by decide +kernel
  have entries : debut.descriptor.programs.entries = [] := by decide +kernel
  have reading : (studio.formulas.get ⟨0⟩).reading = bracketed ⟨0⟩ := rfl
  have plain : TemplateValue.Plain studio (.formula ⟨0⟩) := by
    refine ⟨by decide +kernel, ?_⟩
    rw [reading]
    exact .get (by decide +kernel) fun v => .done _
  have fits : debut.Fits := by
    refine ⟨fun slot mem => ?_, fun e mem => ?_, fun value mem => ?_, by decide +kernel⟩
    · obtain rfl := List.mem_singleton.1 (slots ▸ mem)
      exact .inl ⟨_, rfl⟩
    · cases entries ▸ mem
    · obtain rfl := List.mem_singleton.1 mem
      exact plain
  have e₃ : Exhibits [] debut.start :=
    ((Exhibits.empty.document h₁).signal (by decide +kernel) h₂).formula h₃
  obtain ⟨-, persists, -⟩ := debut.stands e₃.exhibited.toStage fits h₄
  exact ⟨e₃.render fits h₄, plain.next persists⟩

/-- A computation that is shown in a document is rendered again after its signal was written. -/
theorem shows_at_once_observed : ∃ (p : Performance) (w' : World), Exhibits [debut] p.start ∧
    (p.start.formulas.get ⟨0⟩).signal = some ⟨1⟩ ∧
    (∀ v ∈ p.visits, ∀ value, v.job.outlet? = some value →
      v.Tells w' (w'.textOrEmpty (value.current w'))) ∧
    (w'.nodes.attributes ⟨6⟩).value? "title" = w'.slotText (TemplateValue.current w' (.formula ⟨0⟩)) ∧
    w'.slotText (TemplateValue.current w' (.formula ⟨0⟩)) = some "[false]" := by
  let w₁ := afterwards debut.finish (Mount.append ⟨0⟩ ⟨2⟩)
  let w₂ := after w₁ (.set "s" fun _ => .done (.bool false))
  let p : Performance :=
    ⟨fromChunks ["<p title=", ">", "</p>"], [.formula ⟨0⟩, .formula ⟨0⟩], 10, w₂⟩
  have h₁ := runFrom_afterwards debut.finish (Mount.append ⟨0⟩ ⟨2⟩) (by decide +kernel)
  obtain ⟨_, h₂⟩ := runFrom_after w₁ (.set "s" fun _ => .done (.bool false)) (by decide +kernel)
  have apart : ¬ debut.finish.nodes.Under ⟨2⟩ ⟨0⟩ := by
    intro under
    cases under with
    | up parent =>
      have root : (debut.finish.nodes.get ⟨0⟩).parent = none := by decide +kernel
      rw [root] at parent
      cases parent
  obtain ⟨e₀, plain⟩ := debut_exhibits
  have e₁ := e₀.mount (by decide +kernel) (by decide +kernel) (by decide +kernel) apart h₁
  have e₂ : Exhibits [debut] p.start := e₁.operate (.set _ _) h₂
  obtain ⟨-, mounted⟩ := e₀.exhibited.toStage.mount (by decide +kernel) (by decide +kernel)
    (by decide +kernel) apart h₁
  obtain ⟨stage, written, -⟩ := e₁.exhibited.toStage.operate (.set _ _) h₂
  have plain : TemplateValue.Plain w₂ (.formula ⟨0⟩) := (plain.next mounted).next written
  have derived : (w₂.formulas.get ⟨0⟩).signal = some ⟨1⟩ := by decide +kernel
  have slots : p.descriptor.slots = [.attr "title" .none ⟨1000000⟩, .node ⟨1000001⟩] := by
    decide +kernel
  have held : (TemplateValue.held w₂ (.formula ⟨0⟩)).node? = none := by decide +kernel
  have proper : ∀ value ∈ p.values, value.Proper p.start := by
    intro value mem
    obtain rfl : value = .formula ⟨0⟩ := by
      simpa only [p, List.mem_cons, List.not_mem_nil, or_false, or_self] using mem
    refine ⟨plain, fun n hn => ?_⟩
    cases held.symm.trans hn
  have quiet : ∀ name r, .directive .ref name r ∉ p.descriptor.slots := by
    intro name r mem
    simp [slots] at mem
  obtain ⟨jobs, texts, attributes, observed⟩ :=
    p.shows_at_once stage.sane proper quiet (p.answer_eq (by decide +kernel))
  have upToDate : ∀ value ∈ p.values, value.UpToDate p.start := by
    refine fun value mem => observed value mem fun fn s same memo => ⟨stage, ?_⟩
    subst same
    obtain rfl : fn = ⟨0⟩ := by
      simpa only [p, List.mem_cons, List.not_mem_nil, or_false, or_self,
        TemplateValue.formula.injEq] using mem
    cases derived.symm.trans memo
    decide +kernel
  let x : Inscription := ⟨⟨6⟩, "title", some [.slot 0]⟩
  have lasts : x.Lasts p.inscriptions := ⟨[], [], by decide +kernel, List.forall_mem_nil _⟩
  refine ⟨p, p.finish, e₂, derived, fun v mem value outlet => ?_, ?_, by decide +kernel⟩
  · obtain ⟨-, tells⟩ := texts v mem
    have among := mem_of_outlet? (jobs ▸ List.mem_map_of_mem mem) outlet
    exact (tells value outlet).2 (upToDate value among)
  · refine ((attributes x lasts _ rfl).2 fun i value _ given => ?_).trans (inscribedText_slot rfl)
    exact upToDate value (List.mem_of_getElem? given)

/-- A computation that is shown nowhere is rendered again after its signal was written: it is shown as it
was before. -/
theorem unobserved_shown_late : ∃ (p : Performance) (w' : World), Exhibits [debut] p.start ∧
    p.descriptor = fromChunks ["<p>", "</p>"] ∧ p.values = [.formula ⟨0⟩] ∧
    TemplateValue.Plain p.start (.formula ⟨0⟩) ∧
    runFrom p.fuel p.start (render p.descriptor p.values) = .ok (.ok p.answer, w') ∧
    p.answer.map w'.nodes.textContent = ["[true]"] ∧
    w'.textOrEmpty (TemplateValue.current w' (.formula ⟨0⟩)) = "[false]" := by
  let w₁ := after debut.finish (.set "s" fun _ => .done (.bool false))
  let p : Performance := ⟨fromChunks ["<p>", "</p>"], [.formula ⟨0⟩], 10, w₁⟩
  obtain ⟨_, h₁⟩ :=
    runFrom_after debut.finish (.set "s" fun _ => .done (.bool false)) (by decide +kernel)
  obtain ⟨e₀, plain⟩ := debut_exhibits
  obtain ⟨-, written, -⟩ := e₀.exhibited.toStage.operate (.set _ _) h₁
  exact ⟨p, p.finish, e₀.operate (.set _ _) h₁, rfl, rfl, plain.next written,
    p.answer_eq (by decide +kernel), by decide +kernel, by decide +kernel⟩

end LiveMarkup.Live
