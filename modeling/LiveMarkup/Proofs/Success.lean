import LiveMarkup.Proofs.Arrival

/-!
Success: when a rendering succeeds. Each job finds its element, so nothing but a value that does not fit
can make it fail, and the first such value does.
-/
namespace LiveMarkup.Live.Render
open Template (Slot Descriptor Ref Part Config)
open Dom (Forest)

variable {mark : String} {root e : NodeId} {aim : Aim} {job : Job} {js : List Job} {w w' : World}
  {values : List TemplateValue} {value : TemplateValue} {d : Descriptor} {r : Ref} {i : Nat}

/-! One job. -/

namespace Job

/-- What a job fails with. A slot in a quoted attribute takes any value, which is left to the program of
that attribute. -/
def failure? (values : List TemplateValue) : Job → Option RenderFailure
  | .slot index s value =>
    if s.quoted?.isSome then none else (misfit? s value).map (⟨·, some index⟩)
  | .programs _ ps => ps.entries.findSome? fun p => p.2.findSome? (partFailure? values)

/-- A job does not write the marker. -/
def Spares (mark : String) : Job → Prop
  | .slot _ s _ => s.Spares mark
  | .programs _ ps => ∀ p ∈ ps.entries, Text.lowercase mark ≠ Text.lowercase p.1

end Job

namespace Hosts

/-- A job that moves nothing. -/
theorem stay {fault : Option RenderFailure} {x : Rendering Asked}
    (h : Hosts mark root aim (job :: js) w.nodes) (after : job.after aim = aim)
    (answers : Answers mark fault x w) :
    Tries fault x w fun w' => Hosts mark root (job.after aim) js w'.nodes ∧ Retains w w' := by
  refine answers.mono fun w' near => ?_
  rw [after]
  exact ⟨h.tail.kept near.kept, near.toRetains⟩

theorem fillOutlet (h : Hosts mark root aim (.slot i (.node r) value :: js) w.nodes)
    (aims : aim r = some e) (ends : value.Ends w) :
    Tries value.unshown? (fillElement e (.node r) value) w fun w' =>
      Hosts mark root aim js w'.nodes ∧ Retains w w' := by
  have arrives : Settles (nodeOf value).run w (Arrives mark w value) := nodeOf_settles ends
  refine Settles.run_bind arrives ?_ ?_
  · rintro n w₁ ⟨shown, near, node⟩
    rw [← shown]
    have later := h.kept near.kept
    have comes : Comes mark root js w₁.nodes n := by
      rcases node n rfl with given | ⟨new, known⟩
      · exact later.comes_given given
      · exact h.comes_made near.kept new known
    refine Settles.run_lift_bind (later.replaceOutlet rfl aims comes rfl) ?_
    rintro _ w₂ ⟨hosts, retains⟩
    exact .pure ⟨rfl, fun _ => ⟨hosts, near.toRetains.trans retains⟩⟩
  · rintro fault w₁ ⟨shown, near, node⟩
    rw [← shown]
    exact ⟨rfl, nofun⟩

theorem fillComponent (h : Hosts mark root aim (.slot i (.component r) value :: js) w.nodes)
    (aims : aim r = some e) :
    Tries (misfit? (.component r) value) (fillElement e (.component r) value) w fun w' =>
      Hosts mark root (Job.after aim (.slot i (.component r) value)) js w'.nodes ∧ Retains w w' := by
  cases value with
  | component c =>
    obtain ⟨n, rfl, lettered⟩ := h.elements _ List.mem_cons_self c rfl
    refine Settles.run_lift_bind (h.replaceComponent aims (h.comes_given rfl) lettered rfl) ?_
    rintro _ w₁ after
    exact .pure ⟨rfl, fun _ => after⟩
  | _ => exact Tries.throw _

/-- A job is done at its element unless its values do not fit. Then those that are left still find
theirs. -/
theorem fill (h : Hosts mark root aim (job :: js) w.nodes) (aims : aim job.ref = some e)
    (spares : job.Spares mark) (ends : ∀ value ∈ values, value.Ends w)
    (mem : ∀ value, job.value? = some value → value ∈ values) :
    Tries (job.failure? values) (job.fill values e) w fun w' =>
      Hosts mark root (job.after aim) js w'.nodes ∧ Retains w w' := by
  obtain ⟨e', aims', he, -⟩ := h.aimed job List.mem_cons_self
  obtain rfl := Option.some.inj (aims.symm.trans aims')
  have unmounted := h.unmounted e he
  cases job with
  | programs r ps =>
    exact h.stay rfl
      ((fillAttributes_answers spares unmounted ends).bind_safe fun _ _ _ => Answers.pure [])
  | slot i s value =>
    have ends := ends value (mem value rfl)
    cases s with
    | node r => exact (h.fillOutlet aims ends).atSlot (some i)
    | component r => exact (h.fillComponent aims).atSlot (some i)
    | directive kind name r =>
      exact h.stay rfl ((directive_answers spares unmounted ends name r).atSlot (some i))
    | attr name quote r =>
      have answers := (attributeSlot_answers spares unmounted ends quote r).atSlot (some i)
      cases quote <;> exact h.stay rfl answers

/-! All jobs. -/

/-- By induction on the jobs: the first that fails makes all fail. -/
theorem all (h : Hosts d.config.refAttribute root aim js w.nodes)
    (spares : ∀ job ∈ js, job.Spares d.config.refAttribute) (ends : ∀ value ∈ values, value.Ends w)
    (mem : ∀ job ∈ js, ∀ value, job.value? = some value → value ∈ values) :
    Tries (js.findSome? (Job.failure? values))
      (carryOutAll (fun _ => Render.find d root) values aim js) w fun _ => True := by
  induction js generalizing aim w with
  | nil => exact Tries.pure trivial
  | cons job js ih =>
    obtain ⟨here, spares⟩ := List.forall_mem_cons.1 spares
    obtain ⟨given, mem⟩ := List.forall_mem_cons.1 mem
    obtain ⟨e, aims, -⟩ := h.aimed job List.mem_cons_self
    have hit : found d root job.ref w = some e := h.find.trans aims
    have step : Tries (job.failure? values) (job.carryOut (Render.find d root) values) w fun w' =>
        Hosts d.config.refAttribute root (job.after aim) js w'.nodes ∧ Retains w w' := by
      obtain ⟨answer, w', ran, tried⟩ := h.fill aims here ends given
      exact ⟨answer, w', fun run => (carryOut_find hit).trans (ran run), tried⟩
    rw [findSome?_cons_or]
    refine step.bind fun asked w₁ ⟨hosts, retains⟩ => ?_
    exact (ih hosts spares (fun value hv => retains.value_ends (ends value hv)) mem).bind_safe
      fun _ _ _ => Tries.pure trivial

end Hosts

/-! What fits. -/

/-- There is a value for each slot, and it fits. -/
structure Fits (d : Descriptor) (values : List TemplateValue) : Prop where
  count : values.length = d.slots.length
  each : ∀ (i : Nat) slot value, d.slots[i]? = some slot → values[i]? = some value →
    misfit? slot value = none

/-- What a failure says is so: that there are too many or too few values, or that one does not fit its
slot. -/
def Blames (d : Descriptor) (values : List TemplateValue) (failure : RenderFailure) : Prop :=
  match failure.index with
  | none => values.length ≠ d.slots.length ∧
    failure.fault = .slotCountMismatch d.slots.length values.length
  | some i => values.length = d.slots.length ∧ ∃ slot value, d.slots[i]? = some slot ∧
    values[i]? = some value ∧ misfit? slot value = some failure.fault

theorem Blames.not_fits {failure : RenderFailure} (h : Blames d values failure) :
    ¬ Fits d values := by
  intro fits
  obtain ⟨fault, index⟩ := failure
  cases index with
  | none => exact h.1 fits.count
  | some i =>
    obtain ⟨-, slot, value, hs, hv, misfit⟩ := h
    rw [fits.each i slot value hs hv] at misfit
    cases misfit

/-- What the filling of a copy fails with. -/
def failure? (d : Descriptor) (values : List TemplateValue) : Option RenderFailure :=
  if values.length = d.slots.length then (jobs d values).findSome? (Job.failure? values)
  else some ⟨.slotCountMismatch d.slots.length values.length, none⟩

theorem misfit?_of_quoted {slot : Slot} {name : String} (h : slot.quoted? = some name) :
    misfit? slot value = value.unshown? := by
  cases slot with
  | attr => rfl
  | _ => cases h

/-- A part of a program is a slot that is put together with others there. -/
theorem partFailure?_slot (count : values.length = d.slots.length) {slot : Slot} {name : String}
    (hs : d.slots[i]? = some slot) (quoted : slot.quoted? = some name) :
    ∃ value, values[i]? = some value ∧
      partFailure? values (.slot i) = (misfit? slot value).map (⟨·, some i⟩) := by
  have bound : i < values.length := count ▸ (List.getElem?_eq_some_iff.1 hs).1
  have hv := List.getElem?_eq_getElem bound
  refine ⟨values[i], hv, ?_⟩
  unfold partFailure?
  dsimp only
  rw [hv, misfit?_of_quoted quoted]

theorem blames_of_job (allotted : d.Allotted) (count : values.length = d.slots.length)
    (hj : job ∈ jobs d values) {failure : RenderFailure} (h : job.failure? values = some failure) :
    Blames d values failure := by
  rcases mem_jobs.1 hj with ⟨i, slot, value, hs, hv, rfl⟩ | ⟨e, he, rfl⟩
  · unfold Job.failure? at h
    dsimp only at h
    split at h
    · cases h
    · obtain ⟨fault, misfit, rfl⟩ := Option.map_eq_some_iff.1 h
      exact ⟨count, slot, value, hs, hv, misfit⟩
  · obtain ⟨p, hp, h⟩ := List.exists_of_findSome?_eq_some h
    obtain ⟨part, hpart, h⟩ := List.exists_of_findSome?_eq_some h
    cases part with
    | literal => cases h
    | slot i =>
      obtain ⟨slot, name, hs, quoted⟩ := allotted.parts e he p hp i hpart
      obtain ⟨value, hv, same⟩ := partFailure?_slot count hs quoted
      rw [same] at h
      obtain ⟨fault, misfit, rfl⟩ := Option.map_eq_some_iff.1 h
      exact ⟨count, slot, value, hs, hv, misfit⟩

theorem blames_of_failure? (allotted : d.Allotted) {failure : RenderFailure}
    (h : failure? d values = some failure) : Blames d values failure := by
  unfold failure? at h
  split at h
  case isTrue count =>
    obtain ⟨job, hj, h⟩ := List.exists_of_findSome?_eq_some h
    exact blames_of_job allotted count hj h
  case isFalse count =>
    cases h
    exact ⟨count, rfl⟩

/-- A value that does not fit is found out: when its slot is filled, or with the program that the slot
is part of. -/
theorem fits_of_failure?_none (allotted : d.Allotted) (h : failure? d values = none) :
    Fits d values := by
  unfold failure? at h
  split at h
  case isFalse => cases h
  case isTrue count =>
    have well := List.findSome?_eq_none_iff.1 h
    refine ⟨count, fun i slot value hs hv => ?_⟩
    cases quoted : slot.quoted? with
    | none =>
      have fine := well _ (mem_jobs.2 (.inl ⟨i, slot, value, hs, hv, rfl⟩))
      unfold Job.failure? at fine
      dsimp only at fine
      rw [quoted] at fine
      exact Option.map_eq_none_iff.1 fine
    | some name =>
      obtain ⟨e, he, p, hp, part⟩ := allotted.quoted i slot name hs quoted
      have fine := well _ (mem_jobs.2 (.inr ⟨e, he, rfl⟩))
      have parts := List.findSome?_eq_none_iff.1 (List.findSome?_eq_none_iff.1 fine p hp) _ part
      obtain ⟨value', hv', same⟩ := partFailure?_slot count hs quoted
      obtain rfl := Option.some.inj (hv.symm.trans hv')
      rw [same] at parts
      exact Option.map_eq_none_iff.1 parts

theorem failure?_none_iff (allotted : d.Allotted) : failure? d values = none ↔ Fits d values := by
  refine ⟨fits_of_failure?_none allotted, fun fits => ?_⟩
  cases h : failure? d values with
  | none => rfl
  | some failure => exact absurd fits (blames_of_failure? allotted h).not_fits

/-! What a rendering asks. -/

/-- The signals that ask for the element of a job. -/
def Job.asks : Job → List SignalId
  | .slot _ (.directive .ref _ _) (.writable s) => [s]
  | _ => []

section
variable {run : Runner} {asked : Asked}

theorem run_atSlot_eq_ok {α : Type} {x : Fitting α} {index : Option Nat} {a : α}
    (h : (x.atSlot index).run run w = .ok (.ok a, w')) : x.run run w = .ok (.ok a, w') := by
  rw [atSlot_run] at h
  cases hx : x.run run w with
  | error e =>
    rw [hx] at h
    cases h
  | ok p =>
    obtain ⟨answer, w₁⟩ := p
    rw [hx] at h
    cases answer with
    | error fault => cases h
    | ok a => cases h; rfl

theorem nothing_asked {ε α : Type} {x : ExceptT ε Op α}
    (h : (x >>= fun _ => pure ([] : Asked)).run run w = .ok (.ok asked, w')) : asked = [] := by
  obtain ⟨_, w₁, -, ended⟩ := run_bind_eq_ok h
  cases ended
  rfl

theorem asked_of_directive {kind : Template.DirectiveKind} {name : String}
    (h : (directive e kind name value).run run w = .ok (.ok asked, w')) :
    asked.map Prod.fst = Job.asks (.slot i (.directive kind name r) value) := by
  cases kind with
  | classes => rw [nothing_asked h]; rfl
  | style => rw [nothing_asked h]; rfl
  | on =>
    cases value with
    | listener l => rw [nothing_asked h]; rfl
    | _ => cases h
  | ref =>
    cases value with
    | writable s => cases h; rfl
    | _ => cases h
  | bind =>
    cases value with
    | writable s =>
      unfold directive at h
      dsimp only at h
      split at h
      · rw [nothing_asked h]; rfl
      · cases h
    | _ => cases h

theorem asked_of_fill (h : (job.fill values e).run run w = .ok (.ok asked, w')) :
    asked.map Prod.fst = job.asks := by
  cases job with
  | programs r ps => rw [nothing_asked h]; rfl
  | slot i s value =>
    have filled := run_atSlot_eq_ok h
    cases s with
    | node r =>
      obtain ⟨n, w₁, -, rest⟩ := run_bind_eq_ok filled
      rw [nothing_asked rest]; rfl
    | component r =>
      cases value with
      | component c => rw [nothing_asked filled]; rfl
      | _ => cases filled
    | attr name quote r =>
      unfold fillElement at filled
      dsimp only at filled
      split at filled
      · rw [nothing_asked filled]; rfl
      · cases filled; rfl
    | directive kind name r => exact asked_of_directive filled

theorem asked_of_carryOutAll {locate : Aim → Ref → Fitting NodeId}
    (h : (carryOutAll locate values aim js).run run w = .ok (.ok asked, w')) :
    asked.map Prod.fst = js.flatMap Job.asks := by
  induction js generalizing aim w asked with
  | nil =>
    cases h
    rfl
  | cons job js ih =>
    obtain ⟨asked₁, asked₂, w₁, rfl, carried, rest⟩ := carryOutAll_cons h
    obtain ⟨element, w₂, -, filled⟩ := run_bind_eq_ok carried
    rw [List.map_append, asked_of_fill filled, ih rest, List.flatMap_cons]

end

/-! The theorem. -/

/-- What is left of a rendering when its copy is filled: signals are written that ask for elements. -/
def finish (fragment : NodeId) (asked : Asked) : Op (Except RenderError (List NodeId)) := do
  asked.forM fun (s, n) => Signal.put s (.node n)
  return .ok (← onNodes (·.takeForInsertion fragment))

theorem fillAll_tries (allotted : d.Allotted) (supplied : d.Supplied)
    (legible : Markup.LegibleAll d.fragment) (linked : w.nodes.Linked)
    (sole : ∀ slot ∈ d.slots,
      (Markup.elementsWithAll d.config.refAttribute slot.ref.text d.fragment).length = 1)
    (hollow : Markup.hollowAll (isOutlet d) d.fragment = true)
    (movable : Movable w.nodes d values) (ends : ∀ value ∈ values, value.Ends w) :
    Tries (failure? d values) (fillAll d w.nodes.next values) (copied w d) fun _ => True := by
  unfold failure?
  split
  case isTrue count =>
    have hosts := hosts_copied allotted sole legible linked hollow movable count
    have retains : Retains w (copied w d) := .of_eq rfl rfl
    rw [fillAll_eq values _ (own w d) count]
    refine hosts.all (fun job hj => ?_) (fun value hv => retains.value_ends (ends value hv))
      fun job hj value hv => ?_
    · rcases mem_jobs.1 hj with ⟨i, slot, value, hs, -, rfl⟩ | ⟨e, he, rfl⟩
      · exact supplied.slots slot (List.mem_of_getElem? hs)
      · intro p hp
        obtain ⟨quote, mem⟩ := supplied.programs e he p hp
        exact supplied.slots _ mem
    · rcases mem_jobs.1 hj with ⟨i, slot, value', -, mem, rfl⟩ | ⟨e, -, rfl⟩
      · cases hv
        exact List.mem_of_getElem? mem
      · cases hv
  case isFalse count =>
    unfold fillAll
    rw [if_pos count]
    exact Tries.throw _

/-- A rendering succeeds exactly if its values fit, when the outlets for text hold nothing and what comes
in is not mounted. What is left then is the writing of the signals that ask for elements. Otherwise it
fails whatever callbacks would do, with a failure that says what does not fit. -/
theorem succeeds_iff_fits {nextRef : Nat} {chunks : List String}
    (compiled : (Descriptor.compile .standard nextRef chunks).1 = .ok d)
    (sole : ∀ slot ∈ d.slots,
      (Markup.elementsWithAll d.config.refAttribute slot.ref.text d.fragment).length = 1)
    (hollow : Markup.hollowAll (isOutlet d) d.fragment = true) (linked : w.nodes.Linked)
    (movable : Movable w.nodes d values) (ends : ∀ value ∈ values, value.Ends w) :
    (Fits d values → ∃ asked w₁, asked.map Prod.fst = (jobs d values).flatMap Job.asks ∧
      ∀ run, render d values run w = finish w.nodes.next asked run w₁) ∧
    (¬ Fits d values → ∃ error w₁, Blames d values error.failure ∧
      ∀ run, render d values run w = .ok (.error error, w₁)) ∧
    ∀ run answer w', render d values run w = .ok (answer, w') →
      ((∃ nodes, answer = .ok nodes) ↔ Fits d values) := by
  have colon : ':' ∈ Config.standard.refAttribute.toList := by decide
  have allotted := Template.allotted_of_compile colon compiled
  obtain ⟨-, supplied⟩ := Template.supplied_of_compile colon compiled
  obtain ⟨s, -, read, -, -⟩ := Template.shape_of_compile compiled
  have legible := Markup.legible_of_parse read
  obtain ⟨answer, w₁, ran, fault, -⟩ :=
    fillAll_tries allotted supplied legible linked sole hollow movable ends
  cases answer with
  | ok asked =>
    have fits : Fits d values := (failure?_none_iff allotted).1 fault.symm
    have remains : ∀ run, render d values run w = finish w.nodes.next asked run w₁ := by
      intro run
      rw [render, renderBy_run, ran run]
      rfl
    refine ⟨fun _ => ⟨asked, w₁, ?_, remains⟩, fun misfits => absurd fits misfits,
      fun run answer w' h => iff_of_true ?_ fits⟩
    · have filled := ran (exec 0)
      rw [fillAll_eq values _ (own w d) fits.count] at filled
      exact asked_of_carryOutAll filled
    · rw [remains] at h
      obtain ⟨_, w₂, -, ended⟩ := bind_eq_ok h
      cases ended
      exact ⟨_, rfl⟩
  | error failure =>
    have blames : Blames d values failure := blames_of_failure? allotted fault.symm
    let error : RenderError :=
      ⟨failure, TemplateValue.diagnosticAll w₁ values, Text.trimmed d.html⟩
    let given : Forest := (w₁.nodes.olderBelow w.nodes.size w.nodes.next).foldl Forest.detach w₁.nodes
    have fails : ∀ run, render d values run w = .ok (.error error, { w₁ with nodes := given }) := by
      intro run
      rw [render, renderBy_run, ran run]
      rfl
    refine ⟨fun fits => absurd fits blames.not_fits, fun _ => ⟨error, _, blames, fails⟩,
      fun run answer w' h => iff_of_false ?_ blames.not_fits⟩
    rintro ⟨nodes, rfl⟩
    rw [fails] at h
    cases h

/-! An element as a component that holds another one, and a signal that asks for the outlet. -/

/-- A forest without links. -/
theorem linked_of_cells {f : Forest}
    (bare : ∀ cell ∈ f.cells.toList, cell.parent = none ∧ cell.children = []) : f.Linked :=
  .of_alone fun n =>
    f.get_of_cells n (P := fun cell => cell.parent = none ∧ cell.children = []) bare ⟨rfl, rfl⟩

/-- The template of some chunks. -/
def fromChunks (chunks : List String) : Descriptor :=
  match (Descriptor.compile .standard Ref.first chunks).1 with
  | .ok d => d
  | .error _ => ⟨[], "", [], .empty, .standard⟩

theorem compile_fromChunks {chunks : List String}
    (ok : (Descriptor.compile .standard Ref.first chunks).1.isOk = true) :
    (Descriptor.compile .standard Ref.first chunks).1 = .ok (fromChunks chunks) := by
  unfold fromChunks
  cases compiled : (Descriptor.compile .standard Ref.first chunks).1 with
  | ok d => rfl
  | error e =>
    rw [compiled] at ok
    cases ok

/-- A section with an outlet for a component, which has a title, asks for itself and holds a text. -/
def sectioned : Descriptor :=
  fromChunks ["<section><x title=\"a ", "\" ref:el=", " ", ">", "</x></section>"]

theorem compile_sectioned : (Descriptor.compile .standard Ref.first
    ["<section><x title=\"a ", "\" ref:el=", " ", ">", "</x></section>"]).1 = .ok sectioned :=
  compile_fromChunks (by decide +kernel)

/-- A card, a paragraph and a signal. -/
def unplaced : World :=
  worldAfter [.element "c" "my-card" [("id", "c")], .element "p" "p" [], .signal "s" (.plain .null)]

/-- The card for the outlet, with the paragraph in it. -/
def carded : List TemplateValue :=
  [.value (.string "one"), .writable ⟨0⟩, .component (.element ⟨0⟩), .value (.node ⟨1⟩)]

theorem movable_carded : Movable unplaced.nodes sectioned carded := by
  have known : ∀ value ∈ carded, ∀ g ∈ value.node?, g.index < unplaced.nodes.size := by
    decide +kernel
  have apart : carded.Pairwise fun a b => ∀ g ∈ a.node?, ∀ h ∈ b.node?, g ≠ h := by
    decide +kernel
  have roots : ∀ n, (unplaced.nodes.get n).parent = none := fun n =>
    unplaced.nodes.get_of_cells n (P := fun cell => cell.parent = none) (by decide +kernel) rfl
  have small : ∀ name ∈ (unplaced.nodes.attributes ⟨0⟩).keys, Text.lowercase name = name := by
    decide +kernel
  have element : (unplaced.nodes.get ⟨0⟩).element?.isSome = true := by decide +kernel
  refine ⟨fun g hg => ?_, fun g _ n _ => ?_, fun g _ n _ slot hs => ?_, apart.imp ?_, fun c hc => ?_⟩
  · obtain ⟨value, mem, node⟩ := hg
    exact known value mem g node
  · exact unplaced.nodes.get_of_cells n (P := fun cell => cell.connected = false)
      (by decide +kernel) rfl
  · exact unmarked_of_cells (by decide +kernel) n slot.ref
      (List.mem_append_left _ (List.mem_map_of_mem hs))
  · intro a b ne g h hg hh
    exact ⟨fun under => ne g hg h hh (under.eq_of_root (roots h)),
      fun under => ne g hg h hh (under.eq_of_root (roots g)).symm⟩
  · have here : c = .element ⟨0⟩ := by simpa [carded] using hc
    subst here
    refine ⟨⟨0⟩, rfl, ?_⟩
    unfold Dom.Node.element? at element
    split at element
    case h_1 e content =>
      refine ⟨e, content, ?_⟩
      unfold Forest.attributes Dom.Node.element? at small
      rwa [content] at small
    case h_2 => cases element

theorem succeeds_iff_fits_sectioned :
    Fits sectioned carded ∧ ∃ asked w₁, asked.map Prod.fst = [⟨0⟩] ∧
      ∀ run, render sectioned carded run unplaced = finish unplaced.nodes.next asked run w₁ := by
  have colon : ':' ∈ Config.standard.refAttribute.toList := by decide
  have allotted := Template.allotted_of_compile colon compile_sectioned
  have fits : Fits sectioned carded := (failure?_none_iff allotted).1 (by decide +kernel)
  have linked : unplaced.nodes.Linked := linked_of_cells (by decide +kernel)
  have ends : ∀ value ∈ carded, value.Ends unplaced := by simp [carded, TemplateValue.Ends]
  obtain ⟨asked, w₁, signals, remains⟩ := (succeeds_iff_fits compile_sectioned (by decide +kernel)
    (by decide +kernel) linked movable_carded ends).1 fits
  exact ⟨fits, asked, w₁, signals.trans (by decide +kernel), remains⟩

/-- What a rendering fails with. -/
def failureOf (d : Descriptor) (values : List TemplateValue) (run : Runner) (w : World) :
    Option RenderFailure :=
  match render d values run w with
  | .ok (.error e, _) => some e.failure
  | _ => none

/-- A tag that is over for the tokenizer, but for the parser still goes on: its last attribute is the
marker of the first outlet, so that the second one is in it. -/
def overgrown : Descriptor :=
  fromChunks ["<pé=\"x>\" ", "", ""]

/-- Both texts fit, but the second outlet goes with the first. -/
theorem missing_though_fits :
    (Descriptor.compile .standard Ref.first ["<pé=\"x>\" ", "", ""]).1 = .ok overgrown ∧
      (∀ slot ∈ overgrown.slots, (Markup.elementsWithAll overgrown.config.refAttribute slot.ref.text
        overgrown.fragment).length = 1) ∧
      Fits overgrown [.value (.string "one"), .value (.string "two")] ∧
      failureOf overgrown [.value (.string "one"), .value (.string "two")] (exec 10) .empty =
        some ⟨.missingReference ⟨1000002⟩, some 1⟩ := by
  have compiled : (Descriptor.compile .standard Ref.first ["<pé=\"x>\" ", "", ""]).1 =
      .ok overgrown := compile_fromChunks (by decide +kernel)
  have colon : ':' ∈ Config.standard.refAttribute.toList := by decide
  have allotted := Template.allotted_of_compile colon compiled
  have fits := (failure?_none_iff allotted).1
    (by decide +kernel : failure? overgrown [.value (.string "one"), .value (.string "two")] = none)
  exact ⟨compiled, by decide +kernel, fits, by decide +kernel⟩

end LiveMarkup.Live.Render
