import LiveMarkup.Proofs.Lockstep
import LiveMarkup.Proofs.Success

/-!
Tidy templates compile to what they show: each slot has one element, which a rendering finds, and the
program of a quoted attribute is what stands between its quotes.
-/
namespace LiveMarkup

namespace Markup

theorem readInto_of_parse {html : String} {ts : List Tree} (parsed : parse html = .ok ts) :
    ∃ b, readInto .start html.toList = .ok b ∧ ts = b.finish := by
  rw [parse_eq] at parsed
  cases read : readInto .start html.toList with
  | error e =>
    rw [read] at parsed
    cases parsed
  | ok b =>
    rw [read] at parsed
    exact ⟨b, rfl, (Except.ok.inj parsed).symm⟩

end Markup

namespace Template
open Live.Render (isOutlet)

variable {first : Nat} {chunks : List String} {d : Descriptor}

/-- What the elements of a compiled template are, when the scan of its chunks is tidy. -/
structure Found (d : Descriptor) (clean : Prop) (records : Records) (held : List Holder) : Prop where
  carriers : ∀ r : Ref, (Markup.elementsWithAll markerName r.text d.fragment).Perm
    ((held.filter fun h => h.ref == r).map Holder.attributes)
  entries : records = held.map Holder.entry
  distinct : (held.map Holder.ref).Nodup
  proper : ∀ h ∈ held, h.Proper clean
  known : ∀ s ∈ d.slots, s.ref ∈ held.map Holder.ref
  hollow : Markup.hollowAll (isOutlet d) d.fragment = true

theorem filter_holders {held : List Holder} (distinct : (held.map Holder.ref).Nodup) {h : Holder}
    (mem : h ∈ held) : held.filter (fun h' => h'.ref == h.ref) = [h] := by
  induction held with
  | nil => cases mem
  | cons h' held ih =>
    obtain ⟨new, distinct⟩ := List.nodup_cons.1 distinct
    rcases List.mem_cons.1 mem with rfl | mem
    · have none : held.filter (fun h' => h'.ref == h.ref) = [] :=
        List.filter_eq_nil_iff.2 fun h' hh same =>
          new (List.mem_map.2 ⟨h', hh, eq_of_beq same⟩)
      simp [none]
    · have other : h'.ref ≠ h.ref := fun same => new (List.mem_map.2 ⟨h, mem, same.symm⟩)
      rw [List.filter_cons, if_neg (by simpa using other), ih distinct mem]

/-- The element of a reference. -/
theorem Found.element {clean : Prop} {records : Records} {held : List Holder}
    (found : Found d clean records held) {h : Holder} (mem : h ∈ held) :
    Markup.elementsWithAll markerName h.ref.text d.fragment = [h.attributes] := by
  have carriers := found.carriers h.ref
  rw [filter_holders found.distinct mem] at carriers
  exact List.perm_singleton.1 carriers

/-- A reader finds the elements of a tidy template. -/
theorem found_of_compile (compiled : (Descriptor.compile .standard first chunks).1 = .ok d)
    (tidy : Tidy chunks) (clean : Prop) (cleans : clean → ∀ chunk ∈ chunks, Markup.Clean chunk.toList) :
    ∃ s held, (Shape.parse .standard first chunks).1 = .ok s ∧
      allPrograms .standard d.fragment s.elements.entries = .ok d.programs ∧
      d = ⟨d.fragment, s.html, s.slots, d.programs, .standard⟩ ∧ Found d clean s.records held ∧
      held.flatMap Holder.quoted = quotations first chunks := by
  obtain ⟨s, parsed, fragment, programs, whole⟩ := shape_of_compile compiled
  have slots : d.slots = s.slots := congrArg Descriptor.slots whole
  have config : d.config = .standard := congrArg Descriptor.config whole
  obtain ⟨n, allotted⟩ := allotted_of_parse parsed
  let k : Setting := {
    isOutlet := isOutlet d
    first := (tokenize .standard first chunks).2
    clean := clean
    outlets := by
      intro a outlet
      obtain ⟨slot, mem, here⟩ := List.any_eq_true.1 outlet
      cases slot with
      | node r =>
        rw [config] at here
        exact ⟨r, allotted.outlets (.node r) (slots ▸ mem) rfl, eq_of_beq here⟩
      | attr | directive | component => cases here }
  obtain ⟨b, held, n, m, read, census, quoted⟩ := tidy.census parsed k rfl cleans
  obtain ⟨b', read', finished⟩ := Markup.readInto_of_parse fragment
  obtain rfl := Except.ok.inj (read.symm.trans read')
  refine ⟨s, held, parsed, programs, whole, ?_, quoted⟩
  exact {
    carriers := fun r => by
      rw [finished]
      exact (Markup.Builder.carriers_finish markerName r.text b).trans (census.carriers r)
    entries := census.entries
    distinct := census.distinct
    proper := census.proper
    known := by rw [slots]; exact census.known
    hollow := by rw [finished]; exact census.hollow.finish }

end Template

namespace Live.Render
open Template Dom

variable {first : Nat} {chunks : List String} {d : Descriptor} {values : List TemplateValue} {w : World}

/-- Values without nodes can be rendered anywhere. -/
theorem movable_of_no_nodes (f : Forest) (d : Descriptor) (none : ∀ value ∈ values, value.node? = none) :
    Movable f d values where
  known g given := by
    obtain ⟨value, mem, node⟩ := given
    cases (none value mem).symm.trans node
  unmounted g given := by
    obtain ⟨value, mem, node⟩ := given
    cases (none value mem).symm.trans node
  unmarked g given := by
    obtain ⟨value, mem, node⟩ := given
    cases (none value mem).symm.trans node
  unnested := by
    refine (List.pairwise_of_forall_mem_list fun a ha b _ g h node => ?_)
    cases (none a ha).symm.trans node
  elements c mem := by cases none _ mem

theorem misfit?_ne_missing (slot : Slot) (value : TemplateValue) (r : Ref) :
    misfit? slot value ≠ some (.missingReference r) := by
  have unshown : value.unshown? ≠ some (.missingReference r) := by
    cases value <;> exact nofun
  intro misfit
  unfold misfit? at misfit
  split at misfit
  case h_6 =>
    split at misfit
    · cases misfit
    · cases misfit
  case h_9 | h_10 | h_11 | h_12 => exact unshown misfit
  all_goals cases misfit

theorem Blames.fault_ne {failure : RenderFailure} (h : Blames d values failure) (r : Ref) :
    failure.fault ≠ .missingReference r := by
  obtain ⟨fault, index⟩ := failure
  cases index with
  | none =>
    obtain ⟨-, rfl⟩ := h
    exact nofun
  | some i =>
    obtain ⟨-, slot, value, -, -, misfit⟩ := h
    rintro rfl
    exact misfit?_ne_missing slot value r misfit

/-- Where each slot has its element, what a rendering fails with is what does not fit. -/
theorem blames_of_render (compiled : (Descriptor.compile .standard first chunks).1 = .ok d)
    (sole : ∀ slot ∈ d.slots,
      (Markup.elementsWithAll d.config.refAttribute slot.ref.text d.fragment).length = 1)
    (hollow : Markup.hollowAll (isOutlet d) d.fragment = true) (linked : w.nodes.Linked)
    (movable : Movable w.nodes d values) (ends : ∀ value ∈ values, value.Ends w) {run : Runner}
    {error : RenderError} {w' : World} (fails : render d values run w = .ok (.error error, w')) :
    Blames d values error.failure := by
  have colon : ':' ∈ Config.standard.refAttribute.toList := by decide
  have allotted := Template.allotted_of_compile colon compiled
  obtain ⟨-, supplied⟩ := Template.supplied_of_compile colon compiled
  obtain ⟨s, -, read, -, -⟩ := Template.shape_of_compile compiled
  have legible := Markup.legible_of_parse read
  obtain ⟨answer, w₁, ran, fault, -⟩ :=
    fillAll_tries allotted supplied legible linked sole hollow movable ends
  rw [render, renderBy_run, ran run] at fails
  cases answer with
  | ok asked =>
    obtain ⟨_, w₂, -, ended⟩ := bind_eq_ok fails
    cases ended
  | error failure =>
    cases fails
    exact blames_of_failure? allotted fault.symm

/-- Every slot of a tidy template is on one element, and a rendering of values without nodes finds it: what
such a rendering can fail with is that a value does not fit. -/
theorem tidy_slots_found (compiled : (Descriptor.compile .standard first chunks).1 = .ok d)
    (tidy : Tidy chunks) :
    (∀ slot ∈ d.slots, ∃ a,
      Markup.elementsWithAll d.config.refAttribute slot.ref.text d.fragment = [a]) ∧
    ∀ (w : World) (values : List TemplateValue), w.nodes.Linked →
      (∀ value ∈ values, value.node? = none ∧ value.Ends w) →
      ∀ run error w', render d values run w = .ok (.error error, w') →
        Blames d values error.failure ∧ ∀ r, error.failure.fault ≠ .missingReference r := by
  obtain ⟨s, held, -, -, whole, found, -⟩ := found_of_compile compiled tidy False False.elim
  have config : d.config = .standard := congrArg Descriptor.config whole
  have sole : ∀ slot ∈ d.slots, ∃ a,
      Markup.elementsWithAll d.config.refAttribute slot.ref.text d.fragment = [a] := by
    intro slot mem
    obtain ⟨h, mem, ref⟩ := List.mem_map.1 (found.known slot mem)
    rw [config, ← ref]
    exact ⟨h.attributes, found.element mem⟩
  refine ⟨sole, fun w values linked plain run error w' fails => ?_⟩
  have blames := blames_of_render compiled (fun slot mem => by
    obtain ⟨a, one⟩ := sole slot mem
    rw [one]
    rfl) found.hollow linked (movable_of_no_nodes w.nodes d fun value mem => (plain value mem).1)
    (fun value mem => (plain value mem).2) fails
  exact ⟨blames, blames.fault_ne⟩

theorem render_of_failureOf {run : Runner} {failure : RenderFailure}
    (h : failureOf d values run w = some failure) :
    ∃ error w', render d values run w = .ok (.error error, w') ∧ error.failure = failure := by
  unfold failureOf at h
  split at h
  case h_1 error w' ran => exact ⟨error, w', ran, Option.some.inj h⟩
  case h_2 => cases h

/-- A paragraph with a listener, around a comment and a text with a bracket. -/
def listening : Descriptor :=
  fromChunks ["<P class='a ", "' on:click=", "><!-- <p \x22 -->1 < 2 ", "</P>"]

theorem tidy_slots_found_listening :
    (Descriptor.compile .standard Ref.first
      ["<P class='a ", "' on:click=", "><!-- <p \x22 -->1 < 2 ", "</P>"]).1 = .ok listening ∧
    Tidy ["<P class='a ", "' on:click=", "><!-- <p \x22 -->1 < 2 ", "</P>"] ∧
    (∀ slot ∈ listening.slots, ∃ a,
      Markup.elementsWithAll listening.config.refAttribute slot.ref.text listening.fragment = [a]) ∧
    ∃ error w', render listening (.replicate 3 (.value (.string "x"))) (exec 10) .empty =
        .ok (.error error, w') ∧ error.failure = ⟨.expectedListener, some 1⟩ ∧
      ∀ r, error.failure.fault ≠ .missingReference r := by
  have compiled : (Descriptor.compile .standard Ref.first
      ["<P class='a ", "' on:click=", "><!-- <p \x22 -->1 < 2 ", "</P>"]).1 = .ok listening :=
    compile_fromChunks (by decide +kernel)
  have tidy : Tidy ["<P class='a ", "' on:click=", "><!-- <p \x22 -->1 < 2 ", "</P>"] := by
    decide +kernel
  have linked : World.empty.nodes.Linked := linked_of_cells (by decide +kernel)
  have plain : ∀ value ∈ List.replicate 3 (TemplateValue.value (.string "x")),
      value.node? = none ∧ value.Ends .empty := by
    intro value mem
    rw [List.eq_of_mem_replicate mem]
    exact ⟨rfl, trivial⟩
  have failing : failureOf listening (.replicate 3 (.value (.string "x"))) (exec 10) .empty =
      some ⟨.expectedListener, some 1⟩ := by decide +kernel
  obtain ⟨error, w', fails, failure⟩ := render_of_failureOf failing
  obtain ⟨sole, never⟩ := tidy_slots_found compiled tidy
  exact ⟨compiled, tidy, sole, error, w', fails, failure, (never _ _ linked plain _ _ _ fails).2⟩

/-- A comment that is over for the tokenizer at its first bracket, but goes on for the parser. -/
def swallowing : Descriptor :=
  fromChunks ["<!-->", "-->"]

/-- The text fits, but no element carries the reference of its outlet. -/
theorem missing_in_comment :
    (Descriptor.compile .standard Ref.first ["<!-->", "-->"]).1 = .ok swallowing ∧
      (∀ chunk ∈ ["<!-->", "-->"], ¬ "__ref_".toList <:+: chunk.toList) ∧
      swallowing.slots = [.node ⟨Ref.first⟩] ∧
      (Markup.elementsWithAll swallowing.config.refAttribute (Ref.text ⟨Ref.first⟩)
        swallowing.fragment).length = 0 ∧
      Fits swallowing [.value (.string "x")] ∧
      failureOf swallowing [.value (.string "x")] (exec 10) .empty =
        some ⟨.missingReference ⟨Ref.first⟩, some 0⟩ := by
  have compiled : (Descriptor.compile .standard Ref.first ["<!-->", "-->"]).1 = .ok swallowing :=
    compile_fromChunks (by decide +kernel)
  have colon : ':' ∈ Config.standard.refAttribute.toList := by decide
  have allotted := Template.allotted_of_compile colon compiled
  have fits := (failure?_none_iff allotted).1
    (by decide +kernel : failure? swallowing [.value (.string "x")] = none)
  exact ⟨compiled, by decide +kernel, by decide +kernel, by decide +kernel, fits, by decide +kernel⟩

end Live.Render
end LiveMarkup
