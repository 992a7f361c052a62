import LiveMarkup.Proofs.Filling

/-!
Binding: where the values of a rendering land. Slots and programs find their elements by markers, in
a copy into which nodes of other renderings may have come. A search can go astray only by stopping at
an element that was brought in; where none does, every value lands on the element of its own.
-/
namespace LiveMarkup.Live
namespace Render

open Template (Slot Descriptor Ref Programs)

/-- Something to be done at the element of a reference. -/
inductive Job where
  | slot (index : Nat) (slot : Slot) (value : TemplateValue)
  | programs (r : Ref) (programs : Programs)

/-- Where the element of a reference is to be found. -/
abbrev Aim := Ref → Option NodeId

/-- The element that an aim names. -/
def Aim.locate (aim : Aim) (r : Ref) : Fitting NodeId :=
  match aim r with
  | some n => return n
  | none => throw (.missingReference r)

namespace Job

def ref : Job → Ref
  | .slot _ s _ => s.ref
  | .programs r _ => r

/-- The slot that is named when there is no such element. -/
def index : Job → Option Nat
  | .slot index _ _ => some index
  | .programs _ _ => none

/-- Does a job at an element. -/
def fill (values : List TemplateValue) (element : NodeId) : Job → Rendering Asked
  | .slot index s value => (fillElement element s value).atSlot (some index)
  | .programs _ ps => do
    fillAttributes values element ps
    return []

/-- Does a job where its element is located. -/
def carryOut (locate : Ref → Fitting NodeId) (values : List TemplateValue) (job : Job) :
    Rendering Asked := do
  job.fill values (← (locate job.ref).atSlot job.index)

/-- A component takes the place of its outlet. -/
def after (aim : Aim) : Job → Aim
  | .slot _ (.component r) (.component c) => fun r' => if r' = r then some c.node else aim r'
  | _ => aim

end Job

/-- The jobs of slots, the first of which has the given index. -/
def slotJobs (index : Nat) : List (Slot × TemplateValue) → List Job
  | [] => []
  | (slot, value) :: rest => .slot index slot value :: slotJobs (index + 1) rest

/-- The jobs of a rendering. -/
def jobs (d : Descriptor) (values : List TemplateValue) : List Job :=
  slotJobs 0 (d.slots.zip values) ++ d.programs.entries.map fun (r, programs) => .programs r programs

theorem mem_slotJobs {index : Nat} {l : List (Slot × TemplateValue)} {job : Job} :
    job ∈ slotJobs index l ↔ ∃ i p, l[i]? = some p ∧ job = .slot (index + i) p.1 p.2 := by
  induction l generalizing index with
  | nil => exact ⟨fun h => (nomatch h), fun ⟨_, _, h, _⟩ => nomatch h⟩
  | cons p l ih =>
    refine List.mem_cons.trans ⟨?_, ?_⟩
    · rintro (rfl | h)
      · exact ⟨0, p, rfl, rfl⟩
      · obtain ⟨i, q, hq, rfl⟩ := ih.1 h
        exact ⟨i + 1, q, hq, by rw [Nat.succ_add_eq_add_succ]⟩
    · rintro ⟨i, q, hq, rfl⟩
      cases i with
      | zero =>
        cases hq
        exact .inl rfl
      | succ i => exact .inr (ih.2 ⟨i, q, hq, by rw [Nat.succ_add_eq_add_succ]⟩)

/-- Each job is that of a slot and its value, or that of programs. -/
theorem mem_jobs {d : Descriptor} {values : List TemplateValue} {job : Job} :
    job ∈ jobs d values ↔
      (∃ i slot value, d.slots[i]? = some slot ∧ values[i]? = some value ∧
        job = .slot i slot value) ∨
      ∃ e ∈ d.programs.entries, job = .programs e.1 e.2 := by
  unfold jobs
  rw [List.mem_append, mem_slotJobs, List.mem_map]
  refine or_congr ⟨?_, ?_⟩ ⟨?_, ?_⟩
  · rintro ⟨i, p, hp, rfl⟩
    obtain ⟨hs, hv⟩ := List.getElem?_zip_eq_some.1 hp
    exact ⟨i, p.1, p.2, hs, hv, by rw [Nat.zero_add]⟩
  · rintro ⟨i, slot, value, hs, hv, rfl⟩
    exact ⟨i, (slot, value), List.getElem?_zip_eq_some.2 ⟨hs, hv⟩, by rw [Nat.zero_add]⟩
  · rintro ⟨e, he, rfl⟩
    exact ⟨e, he, rfl⟩
  · rintro ⟨e, he, rfl⟩
    exact ⟨e, he, rfl⟩

/-- Does jobs one after another. -/
def carryOutAll (locate : Aim → Ref → Fitting NodeId) (values : List TemplateValue) (aim : Aim) :
    List Job → Rendering Asked
  | [] => return []
  | job :: rest => do
    let asked ← job.carryOut (locate aim) values
    return asked ++ (← carryOutAll locate values (job.after aim) rest)

theorem atSlot_bind {α β : Type} (x : Fitting α) (f : α → Fitting β) (index : Option Nat) :
    (x >>= f).atSlot index = x.atSlot index >>= fun a => (f a).atSlot index := by
  refine ExceptT.ext ?_
  unfold Fitting.atSlot
  simp only [ExceptT.run_bind, ExceptT.run_mk, bind_assoc]
  refine bind_congr fun r => ?_
  cases r with
  | ok a => simp
  | error e => simp

section
variable (locate : Ref → Fitting NodeId) (values : List TemplateValue)

theorem carryOutAll_append (aim aim' : Aim) (js js' : List Job) :
    carryOutAll (fun _ => locate) values aim (js ++ js') = do
      let asked ← carryOutAll (fun _ => locate) values aim js
      return asked ++ (← carryOutAll (fun _ => locate) values aim' js') := by
  have same : ∀ (js : List Job) (aim aim' : Aim), carryOutAll (fun _ => locate) values aim js =
      carryOutAll (fun _ => locate) values aim' js := by
    intro js
    induction js with
    | nil => exact fun _ _ => rfl
    | cons job js ih =>
      intro aim aim'
      simp only [carryOutAll, ih (job.after aim) (job.after aim')]
  induction js generalizing aim with
  | nil => simp [carryOutAll, same js' aim aim']
  | cons job js ih =>
    simp only [List.cons_append, carryOutAll, ih, bind_assoc, pure_bind, List.append_assoc]

theorem carryOutAll_slots (d : Descriptor) (fragment : NodeId) (aim : Aim) (index : Nat)
    (l : List (Slot × TemplateValue)) :
    carryOutAll (fun _ => find d fragment) values aim (slotJobs index l) =
      fillSlots d fragment index l := by
  induction l generalizing index aim with
  | nil => rfl
  | cons p l ih =>
    obtain ⟨slot, value⟩ := p
    simp only [slotJobs, carryOutAll, fillSlots, ih]
    simp only [Job.carryOut, Job.fill, Job.index, Job.ref, fill, atSlot_bind, bind_assoc]

theorem carryOutAll_programs (d : Descriptor) (fragment : NodeId) (aim : Aim)
    (l : List (Ref × Programs)) :
    carryOutAll (fun _ => find d fragment) values aim (l.map fun (r, programs) => .programs r programs) = do
      l.forM fun (r, programs) => fillPrograms d fragment values r programs
      return [] := by
  induction l generalizing aim with
  | nil => rfl
  | cons p l ih =>
    obtain ⟨r, programs⟩ := p
    simp only [List.map_cons, carryOutAll, ih]
    simp [Job.carryOut, Job.fill, Job.index, Job.ref, fillPrograms, bind_assoc]

/-- Filling a copy is doing its jobs. -/
theorem fillAll_eq {d : Descriptor} (fragment : NodeId) (aim : Aim)
    (count : values.length = d.slots.length) :
    fillAll d fragment values =
      carryOutAll (fun _ => find d fragment) values aim (jobs d values) := by
  unfold fillAll jobs
  rw [carryOutAll_append _ _ aim aim, carryOutAll_slots, carryOutAll_programs]
  simp [count]

end

/-! What a rendering does on success. -/

section
variable {run : Runner} {w w' : World} {d : Descriptor} {values : List TemplateValue}

section
variable {ε α β : Type} {x : ExceptT ε Op α} {f : α → ExceptT ε Op β}

theorem run_bind : (x >>= f).run run w = (x.run run w).bind fun p =>
    (match p.1 with
      | .ok a => (f a).run
      | .error e => pure (.error e) : Op (Except ε β)) run p.2 := rfl

theorem run_bind_ok {a : α} (h : x.run run w = .ok (.ok a, w')) :
    (x >>= f).run run w = (f a).run run w' := by
  rw [run_bind, h]
  rfl

/-- What goes well as a whole goes well step by step. -/
theorem run_bind_eq_ok {b : β} (h : (x >>= f).run run w = .ok (.ok b, w')) :
    ∃ a w₁, x.run run w = .ok (.ok a, w₁) ∧ (f a).run run w₁ = .ok (.ok b, w') := by
  rw [run_bind] at h
  cases hx : x.run run w with
  | error e =>
    rw [hx] at h
    cases h
  | ok p =>
    rw [hx] at h
    obtain ⟨r, w₁⟩ := p
    cases r with
    | ok a => exact ⟨a, w₁, rfl, h⟩
    | error e => cases h

theorem atSlot_run (x : Fitting α) (index : Option Nat) :
    (x.atSlot index).run run w = (x.run run w).map fun p =>
      ((match p.1 with
        | .ok a => .ok a
        | .error fault => .error ⟨fault, index⟩), p.2) := by
  have bound : (x.atSlot index).run run w = (x.run run w).bind fun p =>
      (match p.1 with
        | .ok a => pure (.ok a)
        | .error fault => pure (.error ⟨fault, index⟩) : Op (Except RenderFailure α)) run p.2 := rfl
  rw [bound]
  cases x.run run w with
  | error e => rfl
  | ok p =>
    obtain ⟨r, w₁⟩ := p
    cases r with
    | ok a => rfl
    | error e => rfl

theorem ensures_atSlot {x : Fitting α} {index : Option Nat} {Q : World → Prop}
    (h : Ensures run x.run w fun _ w' => Q w') :
    Ensures run (x.atSlot index).run w fun _ w' => Q w' := by
  intro r w' hr
  rw [atSlot_run] at hr
  cases hx : x.run run w with
  | error e =>
    rw [hx] at hr
    cases hr
  | ok p =>
    rw [hx] at hr
    cases hr
    exact h p.1 p.2 hx

end

/-- The element that a search comes to. -/
def found (d : Descriptor) (fragment : NodeId) (r : Ref) (w : World) : Option NodeId :=
  w.nodes.findByAttribute fragment d.config.refAttribute r.text

variable {fragment element : NodeId} {job : Job} {aim : Aim}

theorem find_run (r : Ref) : (find d fragment r).run run w =
    .ok ((match found d fragment r w with
      | some n => .ok n
      | none => .error (.missingReference r)), w) := by
  have read : (find d fragment r).run run w = (match found d fragment r w with
      | some n => pure n
      | none => throw (.missingReference r) : Fitting NodeId).run run w := rfl
  rw [read]
  cases found d fragment r w with
  | some n => rfl
  | none => rfl

theorem carryOut_find (h : found d fragment job.ref w = some element) :
    (job.carryOut (find d fragment) values).run run w = (job.fill values element).run run w := by
  refine run_bind_ok ?_
  rw [atSlot_run, find_run, h]
  rfl

theorem carryOut_aim (h : aim job.ref = some element) :
    (job.carryOut aim.locate values).run run w = (job.fill values element).run run w := by
  refine run_bind_ok ?_
  simp only [Aim.locate, h]
  rfl

/-- A job that goes well has found its element. -/
theorem found_of_carryOut {asked : Asked}
    (h : (job.carryOut (find d fragment) values).run run w = .ok (.ok asked, w')) :
    ∃ element, found d fragment job.ref w = some element := by
  obtain ⟨element, w₁, located, -⟩ := run_bind_eq_ok h
  rw [atSlot_run, find_run] at located
  cases hf : found d fragment job.ref w with
  | some n => exact ⟨n, rfl⟩
  | none =>
    rw [hf] at located
    cases located

end

/-- The nodes that come in through values: those that are given, and what is below them. -/
inductive Brought (f : Dom.Forest) (values : List TemplateValue) : NodeId → Prop
  | given {value : TemplateValue} {n : NodeId} (mem : value ∈ values)
    (node : value.node? = some n) : Brought f values n
  | child {p c : NodeId} (above : Brought f values p) (mem : c ∈ (f.get p).children) :
    Brought f values c

/-- The references that a rendering searches for. -/
def refs (d : Descriptor) : List Ref :=
  d.slots.map Slot.ref ++ d.programs.keys

/-- Markers are good for searches: each is on one element at most, and nothing that a rendering
writes is one. -/
structure Sound (d : Descriptor) : Prop where
  sole : ∀ r ∈ refs d,
    (Markup.elementsWithAll d.config.refAttribute r.text d.fragment).length ≤ 1
  slots : ∀ slot ∈ d.slots, slot.Spares d.config.refAttribute
  programs : ∀ e ∈ d.programs.entries, ∀ p ∈ e.2.entries,
    Text.lowercase d.config.refAttribute ≠ Text.lowercase p.1

/-- A condition holds at every search of a rendering. -/
def Throughout (P : Aim → Ref → World → Prop) (d : Descriptor) (fragment : NodeId)
    (values : List TemplateValue) (run : Runner) (aim : Aim) : List Job → World → Prop
  | [], _ => True
  | job :: rest, w => P aim job.ref w ∧
    Ensures run (job.carryOut (find d fragment) values).run w fun answer w' =>
      ∀ asked, answer = .ok asked →
        Throughout P d fragment values run (job.after aim) rest w'

/-- A search comes to the element that is meant. -/
def Lands (d : Descriptor) (fragment : NodeId) (aim : Aim) (r : Ref) (w : World) : Prop :=
  found d fragment r w = aim r

/-- A search does not stop at something else that was brought in. -/
def Clear (d : Descriptor) (fragment : NodeId) (brought : NodeId → Prop) (aim : Aim) (r : Ref)
    (w : World) : Prop :=
  ∀ n, found d fragment r w = some n → brought n → aim r = some n

namespace Job

/-- What a filling may do for a job. -/
def Fits (fl : Filling) : Job → Prop
  | .slot _ s value => s.Spares fl.mark ∧ (∀ r, s = .component r → fl.components) ∧
    ∀ n, value.node? = some n → fl.scene.brought n
  | .programs _ ps => ∀ p ∈ ps.entries, Text.lowercase fl.mark ≠ Text.lowercase p.1

variable {fl : Filling} {run : Runner} [fl.Calm run] {job : Job} {element : NodeId}

theorem fills (fits : job.Fits fl) (inside : fl.scene.Inside element)
    (values : List TemplateValue) (w : World) :
    Ensures run (job.fill values element).run w fun _ w' => fl.Good w →
      fl.Filled [] w w' ∧ (∀ i r c, job = .slot i (.component r) (.component c) →
        fl.scene.Copied element → fl.scene.Astray w'.nodes element) := by
  cases job with
  | slot i s value =>
    obtain ⟨spares, allowed, given⟩ := fits
    refine ensures_atSlot ?_
    refine (Filling.fills_fillElement spares allowed inside given w).mono fun _ w' h hg => ?_
    obtain ⟨filled, gone⟩ := h hg
    refine ⟨filled, fun i r c eq => ?_⟩
    cases eq
    exact gone r c rfl rfl
  | programs r ps =>
    have quiet : Keeps fl.Quiet run (fill values element (.programs r ps)).run :=
      keeps_run_bind ((Filling.quiet_writes inside).fillAttributes fits values) fun _ => keeps_run_pure []
    refine (quiet w).mono fun _ w' still hg => ⟨(still hg).filled hg, ?_⟩
    exact fun _ _ _ h => nomatch h

end Job

/-- What holds before every job: elements of the copy have no other markers than at the start, and
an outlet that has given its place away is astray. -/
structure Bound (fl : Filling) (copy : Dom.Forest) (start aim : Aim) (w : World) : Prop where
  good : fl.Good w
  marks : ∀ n value, w.nodes.Carries fl.mark value n →
    copy.Carries fl.mark value n ∨ fl.components ∧ fl.scene.brought n
  aimed : ∀ r n, start r = some n → aim r = start r ∨ fl.scene.Astray w.nodes n

section
variable {fl : Filling} {copy : Dom.Forest} {start aim : Aim} {w w' : World} {run : Runner}
  {d : Descriptor} {fragment element : NodeId} {job : Job} {values : List TemplateValue}

/-- Whatever a search comes to is below the copy. -/
theorem Bound.inside (bound : Bound fl copy start aim w) (root : fl.scene.Inside fragment)
    {r : Ref} (h : found d fragment r w = some element) :
    fl.scene.Inside element ∧ ¬ fl.scene.Astray w.nodes element ∧
      w.nodes.Carries d.config.refAttribute r.text element := by
  obtain ⟨below, carries⟩ := Dom.Forest.carries_of_findByAttribute h
  obtain ⟨inside, p, hp, mem⟩ := Dom.Forest.mem_of_mem_descendantsWith bound.good.tidy.closed root below
  exact ⟨inside, fun astray => astray p hp mem, carries⟩

/-- An element that was not brought in is the one that is meant. -/
theorem Bound.meant (bound : Bound fl copy start aim w) (root : fl.scene.Inside fragment)
    (mark : fl.mark = d.config.refAttribute) {r : Ref}
    (unique : ∀ n, fl.scene.first ≤ n.index → copy.Carries fl.mark r.text n → start r = some n)
    (h : found d fragment r w = some element) (own : ¬ fl.scene.brought element) :
    aim r = some element := by
  obtain ⟨inside, placed, carries⟩ := bound.inside root h
  have copied : fl.scene.first ≤ element.index := inside.resolve_left own
  have before : copy.Carries fl.mark r.text element := by
    rcases bound.marks element r.text (mark ▸ carries) with before | ⟨-, brought⟩
    · exact before
    · exact absurd brought own
  have meant := unique element copied before
  rcases bound.aimed r element meant with same | astray
  · rw [same, meant]
  · exact absurd astray placed

/-- A job that is done at the element that is meant keeps the bounds. -/
theorem Bound.step [fl.Calm run] (bound : Bound fl copy start aim w) (fits : job.Fits fl)
    (inside : fl.scene.Inside element)
    (known : ∀ r n, start r = some n → fl.scene.Copied n) (meant : aim job.ref = some element) :
    Ensures run (job.fill values element).run w fun _ w' =>
      Bound fl copy start (job.after aim) w' := by
  refine (job.fills fits inside values w).mono fun _ w' h => ?_
  obtain ⟨filled, gone⟩ := h bound.good
  have kept : ∀ n, fl.scene.Copied n → fl.scene.Astray w.nodes n → fl.scene.Astray w'.nodes n :=
    fun n copied => filled.astray n copied List.not_mem_nil
  have same : ∀ r n, start r = some n → aim r = start r ∨ fl.scene.Astray w'.nodes n :=
    fun r n hn => (bound.aimed r n hn).imp id (kept n (known r n hn))
  refine ⟨filled.good, fun n value hn => ?_, ?_⟩
  · rcases filled.marks n value hn with before | brought
    · exact bound.marks n value before
    · exact .inr brought
  · unfold Job.after
    split
    case h_2 => exact same
    case h_1 i ref c =>
      intro r n hn
      by_cases hr : r = ref
      case neg =>
        rw [if_neg hr]
        exact same r n hn
      case pos =>
        subst hr
        refine .inr ?_
        rcases bound.aimed r n hn with here | astray
        · have same : n = element := by
            refine Option.some.inj ?_
            rw [← hn, ← here]
            exact meant
          subst same
          exact gone i r c rfl (known r n hn)
        · exact kept n (known r n hn) astray

variable {js : List Job} {asked : Asked}

theorem throughout_cons {P : Aim → Ref → World → Prop}
    (done : (job.carryOut (find d fragment) values).run run w = .ok (.ok asked, w')) :
    Throughout P d fragment values run aim (job :: js) w ↔
      P aim job.ref w ∧ Throughout P d fragment values run (job.after aim) js w' := by
  refine and_congr_right fun _ => ⟨fun h => h _ _ done asked rfl, fun h answer w₁ hw₁ => ?_⟩
  rw [done] at hw₁
  cases hw₁
  exact fun _ _ => h

/-- Jobs that go well together go well one after another. -/
theorem carryOutAll_cons {locate : Aim → Ref → Fitting NodeId}
    (success : (carryOutAll locate values aim (job :: js)).run run w = .ok (.ok asked, w')) :
    ∃ asked₁ asked₂ w₁, asked = asked₁ ++ asked₂ ∧
      (job.carryOut (locate aim) values).run run w = .ok (.ok asked₁, w₁) ∧
        (carryOutAll locate values (job.after aim) js).run run w₁ = .ok (.ok asked₂, w') := by
  obtain ⟨asked₁, w₁, done, rest⟩ := run_bind_eq_ok success
  obtain ⟨asked₂, w₂, rest, ended⟩ := run_bind_eq_ok rest
  cases ended
  exact ⟨asked₁, asked₂, w₁, rfl, done, rest⟩

/-- Where every search lands, knowing the elements beforehand comes to the same. -/
theorem aimed_of_lands (lands : Throughout (Lands d fragment) d fragment values run aim js w)
    (success : (carryOutAll (fun _ => find d fragment) values aim js).run run w =
      .ok (.ok asked, w')) :
    (carryOutAll Aim.locate values aim js).run run w = .ok (.ok asked, w') := by
  induction js generalizing aim w asked with
  | nil => exact success
  | cons job js ih =>
    obtain ⟨asked₁, asked₂, w₁, rfl, done, rest⟩ := carryOutAll_cons success
    obtain ⟨here, lands⟩ := (throughout_cons done).1 lands
    obtain ⟨element, hit⟩ := found_of_carryOut done
    have meant : aim job.ref = some element := by rw [← here, hit]
    have same : (job.carryOut aim.locate values).run run w = .ok (.ok asked₁, w₁) := by
      rw [carryOut_aim meant, ← carryOut_find hit, done]
    unfold carryOutAll
    rw [run_bind_ok same, run_bind_ok (ih lands rest)]
    rfl

/-- What is known of the jobs that are to come: nothing that they write is a marker, and no other
element of the copy has the marker of their element. -/
structure Ready (fl : Filling) (copy : Dom.Forest) (start : Aim) (job : Job) : Prop where
  fits : job.Fits fl
  unique : ∀ n, fl.scene.first ≤ n.index → copy.Carries fl.mark job.ref.text n →
    start job.ref = some n

/-- What is known of the whole filling. -/
structure Staged (fl : Filling) (d : Descriptor) (fragment : NodeId) (start : Aim) : Prop where
  root : fl.scene.Inside fragment
  mark : fl.mark = d.config.refAttribute
  copied : ∀ r n, start r = some n → fl.scene.Copied n

theorem Bound.lands_iff (bound : Bound fl copy start aim w) (staged : Staged fl d fragment start)
    (ready : Ready fl copy start job) (hit : found d fragment job.ref w = some element) :
    Lands d fragment aim job.ref w ↔ Clear d fragment fl.scene.brought aim job.ref w := by
  constructor
  · intro lands n hn _
    rw [← lands, hn]
  · intro clear
    unfold Lands
    rw [hit]
    by_cases brought : fl.scene.brought element
    · exact (clear element hit brought).symm
    · exact (bound.meant staged.root staged.mark ready.unique hit brought).symm

theorem Bound.next [fl.Calm run] (bound : Bound fl copy start aim w)
    (staged : Staged fl d fragment start) (ready : Ready fl copy start job)
    (lands : Lands d fragment aim job.ref w)
    (done : (job.carryOut (find d fragment) values).run run w = .ok (.ok asked, w')) :
    Bound fl copy start (job.after aim) w' := by
  obtain ⟨element, hit⟩ := found_of_carryOut done
  have meant : aim job.ref = some element := by rw [← lands, hit]
  rw [carryOut_find hit] at done
  exact bound.step ready.fits (bound.inside staged.root hit).1 staged.copied meant _ _ done

/-- By induction on the jobs: as long as searches stop at nothing that was brought in, they come to
what is meant, and conversely. -/
theorem throughout_iff [fl.Calm run] (bound : Bound fl copy start aim w)
    (staged : Staged fl d fragment start) (ready : ∀ job ∈ js, Ready fl copy start job)
    (success : (carryOutAll (fun _ => find d fragment) values aim js).run run w =
      .ok (.ok asked, w')) :
    Throughout (Lands d fragment) d fragment values run aim js w ↔
      Throughout (Clear d fragment fl.scene.brought) d fragment values run aim js w := by
  induction js generalizing aim w asked with
  | nil => exact Iff.rfl
  | cons job js ih =>
    obtain ⟨asked₁, asked₂, w₁, -, done, rest⟩ := carryOutAll_cons success
    obtain ⟨element, hit⟩ := found_of_carryOut done
    obtain ⟨here, ready⟩ := List.forall_mem_cons.1 ready
    rw [throughout_cons done, throughout_cons done, ← bound.lands_iff staged here hit]
    exact and_congr_right fun lands => ih (bound.next staged here lands done) ready rest

/-- Where no component comes in, no marker does either. -/
theorem throughout_clear [fl.Calm run] (bound : Bound fl copy start aim w)
    (staged : Staged fl d fragment start) (ready : ∀ job ∈ js, Ready fl copy start job)
    (plain : ¬ fl.components)
    (unmarked : ∀ job ∈ js, ∀ n, fl.scene.brought n → ¬ copy.Carries fl.mark job.ref.text n)
    (success : (carryOutAll (fun _ => find d fragment) values aim js).run run w =
      .ok (.ok asked, w')) :
    Throughout (Clear d fragment fl.scene.brought) d fragment values run aim js w := by
  induction js generalizing aim w asked with
  | nil => trivial
  | cons job js ih =>
    obtain ⟨asked₁, asked₂, w₁, -, done, rest⟩ := carryOutAll_cons success
    obtain ⟨element, hit⟩ := found_of_carryOut done
    obtain ⟨here, ready⟩ := List.forall_mem_cons.1 ready
    obtain ⟨foreign, unmarked⟩ := List.forall_mem_cons.1 unmarked
    have clear : Clear d fragment fl.scene.brought aim job.ref w := by
      intro n hn brought
      have carries := (bound.inside staged.root hn).2.2
      rcases bound.marks n job.ref.text (staged.mark ▸ carries) with before | ⟨components, -⟩
      · exact absurd before (foreign n brought)
      · exact absurd components plain
    have lands := (bound.lands_iff staged here hit).2 clear
    exact (throughout_cons done).2
      ⟨clear, ih (bound.next staged here lands done) ready unmarked rest⟩

end

/-! The theorem. -/

/-- The world in which the copy of a template was just made. -/
def copied (w : World) (d : Descriptor) : World :=
  { w with nodes := (w.nodes.plantFragment d.fragment).2 }

/-- The element of the fresh copy that carries a marker. -/
def own (w : World) (d : Descriptor) : Aim :=
  fun r => found d w.nodes.next r (copied w d)

/-- The nodes that come in are apart from every document. -/
def Apart (f : Dom.Forest) (brought : NodeId → Prop) : Prop :=
  ∀ n, brought n → (f.get n).connected = false ∧
    ∀ p, (f.get n).parent = some p → (f.get p).connected = false

/-- The filling of a rendering. -/
def filling (w : World) (d : Descriptor) (values : List TemplateValue)
    (known : ∀ n, Brought w.nodes values n → n.index < w.nodes.size) : Filling where
  scene := .planted (Dom.Forest.planted w.nodes d.fragment).2 (Brought w.nodes values) known
  mark := d.config.refAttribute
  apart := Apart w.nodes (Brought w.nodes values)
  components := ∃ r, Slot.component r ∈ d.slots

section
variable {run : Runner} {w w' : World} {d : Descriptor} {values : List TemplateValue}
  {fillIn fillIn' : NodeId → Rendering Asked} {nodes : List NodeId}

theorem renderBy_run : renderBy fillIn d values run w =
    ((fillIn w.nodes.next).run run (copied w d)).bind fun p =>
      (match p.1 with
        | .ok asked => do
          asked.forM fun (s, n) => Signal.put s (.node n)
          return .ok (← onNodes (·.takeForInsertion w.nodes.next))
        | .error failure => do
          let error :=
            ⟨failure, TemplateValue.diagnosticAll (← get) values, Text.trimmed d.html⟩
          modifyNodes fun f =>
            (f.olderBelow w.nodes.size w.nodes.next).foldl Dom.Forest.detach f
          return .error error : Op (Except RenderError (List NodeId))) run p.2 := rfl

theorem renderBy_congr (same : (fillIn' w.nodes.next).run run (copied w d) =
    (fillIn w.nodes.next).run run (copied w d)) :
    renderBy fillIn' d values run w = renderBy fillIn d values run w := by
  rw [renderBy_run, renderBy_run, same]

/-- A rendering succeeds if its filling does. -/
theorem filled_of_renderBy (rendered : renderBy fillIn d values run w = .ok (.ok nodes, w')) :
    ∃ asked w₁, (fillIn w.nodes.next).run run (copied w d) = .ok (.ok asked, w₁) := by
  rw [renderBy_run] at rendered
  cases hf : (fillIn w.nodes.next).run run (copied w d) with
  | error e =>
    rw [hf] at rendered
    cases rendered
  | ok p =>
    obtain ⟨answer, w₁⟩ := p
    cases answer with
    | ok asked => exact ⟨asked, w₁, rfl⟩
    | error failure =>
      rw [hf] at rendered
      cases rendered

/-- No rendering succeeds with more or fewer values than slots. -/
theorem count_of_fillAll {fragment : NodeId} {asked : Asked}
    (filled : (fillAll d fragment values).run run w = .ok (.ok asked, w')) :
    values.length = d.slots.length := by
  by_cases h : values.length = d.slots.length
  · exact h
  · unfold fillAll at filled
    simp only [if_pos h] at filled
    cases filled

variable (known : ∀ n, Brought w.nodes values n → n.index < w.nodes.size)

theorem bound_copied : Bound (filling w d values known) (copied w d).nodes (own w d) (own w d)
    (copied w d) := by
  have planted := (Dom.Forest.planted w.nodes d.fragment).2
  refine ⟨⟨?_, fun apart => ?_⟩, fun n value hn => .inl hn, fun r n _ => .inl rfl⟩
  · exact Dom.Scene.tidy_planted planted fun p hp c hc => .child hp hc
  · exact Dom.Scene.unmounted_planted planted apart

theorem own_iff (sound : Sound d) {r : Ref} (hr : r ∈ refs d) {n : NodeId} :
    own w d r = some n ↔ w.nodes.size ≤ n.index ∧
      (copied w d).nodes.Carries d.config.refAttribute r.text n :=
  (Dom.Forest.planted w.nodes d.fragment).2.find_iff (sound.sole r hr)

theorem staged_own : Staged (filling w d values known) d w.nodes.next (own w d) := by
  refine ⟨.inr (Nat.le_refl _), rfl, fun r n hn => ?_⟩
  obtain ⟨new, carries⟩ := (Dom.Forest.planted w.nodes d.fragment).2.new_of_find hn
  exact ⟨new, Dom.Forest.known_of_carries carries⟩

theorem ready_jobs (sound : Sound d) :
    ∀ job ∈ jobs d values, job.ref ∈ refs d ∧
      Ready (filling w d values known) (copied w d).nodes (own w d) job := by
  intro job hj
  have unique : job.ref ∈ refs d → ∀ n : NodeId, w.nodes.size ≤ n.index →
      (copied w d).nodes.Carries d.config.refAttribute job.ref.text n →
        own w d job.ref = some n :=
    fun hr n new carries => (own_iff sound hr).2 ⟨new, carries⟩
  rcases mem_jobs.1 hj with ⟨i, slot, value, hs, hv, rfl⟩ | ⟨⟨r, programs⟩, hp, rfl⟩
  · have hs := List.mem_of_getElem? hs
    have hr : slot.ref ∈ refs d := List.mem_append_left _ (List.mem_map_of_mem hs)
    refine ⟨hr, ⟨sound.slots slot hs, fun r eq => ⟨r, eq ▸ hs⟩, fun n hn => ?_⟩, unique hr⟩
    exact .given (List.mem_of_getElem? hv) hn
  · have hr : r ∈ refs d := List.mem_append_right _ (List.mem_map_of_mem hp)
    exact ⟨hr, ⟨sound.programs _ hp, unique hr⟩⟩

/-- Where the slots of a rendering and its programs land. The elements that are meant are those of
the fresh copy that carry the markers, and then the components that have taken their places. Every
search lands exactly if none stops at another element that came in through a value. Then the
rendering is what it would be if the elements were known beforehand. That is so in particular where
no component comes in, and no element that does carries a marker. -/
theorem lands_iff_clear (sound : Sound d) [(filling w d values known).Calm run]
    (rendered : render d values run w = .ok (.ok nodes, w')) :
    (∀ r ∈ refs d, ∀ n, own w d r = some n ↔ w.nodes.size ≤ n.index ∧
      (copied w d).nodes.Carries d.config.refAttribute r.text n) ∧
    (Throughout (Lands d w.nodes.next) d w.nodes.next values run (own w d) (jobs d values)
        (copied w d) ↔
      Throughout (Clear d w.nodes.next (Brought w.nodes values)) d w.nodes.next values run
        (own w d) (jobs d values) (copied w d)) ∧
    (Throughout (Lands d w.nodes.next) d w.nodes.next values run (own w d) (jobs d values)
        (copied w d) →
      renderBy (fun _ => carryOutAll Aim.locate values (own w d) (jobs d values)) d values run w =
        .ok (.ok nodes, w')) ∧
    ((∀ r, Slot.component r ∉ d.slots) →
      (∀ n, Brought w.nodes values n → ∀ r ∈ refs d,
        ¬ w.nodes.Carries d.config.refAttribute r.text n) →
      Throughout (Lands d w.nodes.next) d w.nodes.next values run (own w d) (jobs d values)
        (copied w d)) := by
  obtain ⟨asked, w₁, filled⟩ := filled_of_renderBy rendered
  have jobwise := fillAll_eq values w.nodes.next (own w d) (count_of_fillAll filled)
  have done : (carryOutAll (fun _ => find d w.nodes.next) values (own w d) (jobs d values)).run run
      (copied w d) = .ok (.ok asked, w₁) := by
    rw [← jobwise]
    exact filled
  have bound := bound_copied (d := d) known
  have staged := staged_own (d := d) known
  have ready := ready_jobs known sound
  have iff := throughout_iff bound staged (fun job hj => (ready job hj).2) done
  refine ⟨fun r hr n => own_iff sound hr, iff, fun lands => ?_, fun plain unmarked => ?_⟩
  · rw [← rendered]
    refine renderBy_congr ?_
    rw [aimed_of_lands lands done, filled]
  · have none : ¬ (filling w d values known).components := fun ⟨r, hr⟩ => plain r hr
    refine iff.2 (throughout_clear bound staged (fun job hj => (ready job hj).2) none ?_ done)
    intro job hj n brought carries
    refine unmarked n brought job.ref (ready job hj).1 ?_
    have same := (Dom.Forest.planted w.nodes d.fragment).2.old n (known n brought)
    unfold Dom.Forest.Carries at carries ⊢
    rw [← same]
    exact carries

end

/-- In a forest whose links lead to nodes that were made, so do those below values. -/
theorem known_of_cells {f : Dom.Forest} {values : List TemplateValue}
    (given : ∀ value ∈ values, ∀ n ∈ value.node?, n.index < f.size)
    (links : ∀ cell ∈ f.cells.toList, ∀ c ∈ cell.children, c.index < f.size) {n : NodeId}
    (h : Brought f values n) : n.index < f.size := by
  induction h with
  | given mem node => exact given _ mem _ node
  | @child p c _ mem _ =>
    have below := f.get_of_cells p (P := fun cell => ∀ c ∈ cell.children, c.index < f.size) links
      fun _ mem => nomatch mem
    exact below c mem

/-- A forest in which nothing is mounted. -/
theorem apart_of_cells {f : Dom.Forest} (brought : NodeId → Prop)
    (unmounted : ∀ cell ∈ f.cells.toList, cell.connected = false) : Apart f brought :=
  have out : ∀ n, (f.get n).connected = false := fun n => f.get_of_cells n unmounted rfl
  fun n _ => ⟨out n, fun p _ => out p⟩

/-- A template with a slot in a title and one in text. -/
def titled : Descriptor :=
  match (Descriptor.compile .standard Ref.first ["<b title=", ">", "</b>"]).1 with
  | .ok d => d
  | .error _ => ⟨[], "", [], .empty, .standard⟩

/-- The world in which the template was rendered once. -/
def titledOnce : World :=
  match render titled [.value (.string "one"), .value (.string "x")] (exec 10) .empty with
  | .ok (_, w) => w
  | .error _ => .empty

/-- The element of that rendering, in the text of another one. -/
def nested : List TemplateValue :=
  [.value (.string "two"), .value (.node ⟨1⟩)]

/-- Whether a rendering succeeds. -/
def succeeds (d : Descriptor) (values : List TemplateValue) (run : Runner) (w : World) : Bool :=
  match render d values run w with
  | .ok (.ok _, _) => true
  | _ => false

theorem rendered_of_succeeds {d : Descriptor} {values : List TemplateValue} {run : Runner}
    {w : World} (h : succeeds d values run w = true) :
    ∃ nodes w', render d values run w = .ok (.ok nodes, w') := by
  unfold succeeds at h
  split at h
  case h_1 nodes w' rendered => exact ⟨nodes, w', rendered⟩
  case h_2 => cases h

theorem known_nested : ∀ n, Brought titledOnce.nodes nested n → n.index < titledOnce.nodes.size :=
  fun _ h => known_of_cells (by decide +kernel) (by decide +kernel) h

/-- A template inside itself: the element that comes in has the marker of the first slot. -/
theorem lands_iff_clear_nested :
    Sound titled ∧ (filling titledOnce titled nested known_nested).Calm (exec 10) ∧
      ∃ nodes w', render titled nested (exec 10) titledOnce = .ok (.ok nodes, w') ∧
        (Throughout (Lands titled titledOnce.nodes.next) titled titledOnce.nodes.next nested
            (exec 10) (own titledOnce titled) (jobs titled nested) (copied titledOnce titled) ↔
          Throughout (Clear titled titledOnce.nodes.next (Brought titledOnce.nodes nested)) titled
            titledOnce.nodes.next nested (exec 10) (own titledOnce titled) (jobs titled nested)
            (copied titledOnce titled)) := by
  have sound : Sound titled := ⟨by decide +kernel, by decide +kernel, by decide +kernel⟩
  have calm : (filling titledOnce titled nested known_nested).Calm (exec 10) :=
    ⟨fun mounted => absurd (apart_of_cells _ (by decide +kernel)) mounted⟩
  have success : succeeds titled nested (exec 10) titledOnce = true := by decide +kernel
  obtain ⟨nodes, w', rendered⟩ := rendered_of_succeeds success
  have bound := lands_iff_clear known_nested sound rendered
  exact ⟨sound, calm, nodes, w', rendered, bound.2.1⟩

/-- The markup of the renderings of a session. -/
def shown (script : Script) : List (List String) :=
  match runSession script with
  | .ok answers => answers.filterMap fun
    | (.texts texts, _) => some texts
    | _ => none
  | .error _ => []

/-- Where the text comes first, the element that comes in stands before the one that is meant, and
the second title is written to it. -/
theorem title_of_brought_in :
    shown [.compile "t" (.ok .standard) [] ["", "<b title=", "></b>"],
      .render "r" "t" [.literal (.plain (.string "x")), .literal (.plain (.string "one"))],
      .render "q" "t" [.literal (.node "r.1"), .literal (.plain (.string "two"))]] =
    [["x", "<b :ref=\"__ref_1000000__\" title=\"one\"></b>"],
      ["<b :ref=\"__ref_1000000__\" title=\"two\"></b>",
        "<b :ref=\"__ref_1000000__\" title=\"\"></b>"]] := by
  decide +kernel

end Render
end LiveMarkup.Live
