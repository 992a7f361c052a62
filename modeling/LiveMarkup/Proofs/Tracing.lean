import LiveMarkup.Proofs.Upstream
import LiveMarkup.Proofs.Bookkeeping

/-!
Tracing: a match does one deed for each value that it is offered, and its output is as the deeds have left
it. It is offered the value of its source when it is started, and what the source changes to from then on,
until it is stopped. That holds however its output is subscribed to and its source is written, as long as
the source is not written again in the middle of that.
-/
namespace LiveMarkup.Live

open History

/-- A step adds a signal under a name that is not in use, or works with the signals that there are. -/
inductive Step.Extends (w : World) : Step → Prop
  | signal {name : Name} (v : Literal) (unused : w.names.signals.get? name = none) :
    Extends w (.signal name v)
  | constant {name : Name} (v : Literal) (unused : w.names.signals.get? name = none) :
    Extends w (.constant name v)
  | derive {name : Name} {r : Reading} (unused : w.names.signals.get? name = none)
    (pure : r.Pure w.names.signals w.signals.size) : Extends w (.derive name r)
  | branch {name : Name} (source : Name) (cases : List CaseSpec) (fallback : Option Formula)
    (unused : w.names.signals.get? name = none) : Extends w (.branch name source cases fallback)
  | operate {step : Step} (operates : step.Operates) : Extends w step

theorem Step.Extends.happens {fuel : Nat} {w w' : World} {step : Step} {current : Value} {a : Answer}
    (h : step.Extends w) (ran : runFrom fuel w (step.run current) = .ok (a, w')) : Happens w w' := by
  cases h with
  | signal v unused => exact .signal unused ran
  | constant v unused => exact .constant unused ran
  | derive unused pure => exact .derive unused pure ran
  | branch source cases fallback unused => exact .branch unused ran
  | operate operates => exact .operate operates ran

/-- The worlds in which a network can be when nothing is under way, if no step has changed the source of a
match more than once since the match is there. None does where the source is written by the steps alone,
and not by those who are told in their course. -/
inductive Restrained (b : BranchId) : World → Prop
  | empty : Restrained b .empty
  | step {fuel : Nat} {w w' : World} {step : Step} {current : Value} {a : Answer} :
    Restrained b w → step.Extends w → runFrom fuel w (step.run current) = .ok (a, w') →
      (b.index < w.branches.size → (w'.sourceOf b).version ≤ (w.sourceOf b).version + 1) →
        Restrained b w'
  /-- Anything may happen to the rest of the world. -/
  | elsewhere {w w' : World} : Restrained b w → Beside w w' → w'.activations = w.activations →
    w'.deeds = w.deeds → Restrained b w'

namespace Restrained
variable {b : BranchId} {w : World}

theorem network (h : Restrained b w) : Network w := by
  induction h with
  | empty => exact .now
  | step _ extend ran _ ih => exact .next ih (extend.happens ran)
  | elsewhere _ beside _ _ ih => exact .next ih (.elsewhere beside)

theorem reached (h : Restrained b w) : Reached w := by
  induction h with
  | empty => exact .empty
  | step _ _ ran _ ih => exact .step ih ran
  | elsewhere _ beside _ _ ih => exact .elsewhere ih beside.signals beside.entries

end Restrained

/-- When nothing is under way, everybody has heard of the last changes. -/
theorem Reached.reposed {w : World} (h : Reached w) (s : SignalId) :
    Reposed (w.signals.get s).past := by
  obtain ⟨faithful, upTo⟩ := h.invariant
  exact (faithful.signals s).reposed_iff.2 fun e member => upTo s e member id

/-- The source has left nobody behind since the match is there, for which nobody worked before. -/
def Minded (b : BranchId) (w : World) : Prop :=
  ∃ base, base <:+ (w.sourceOf b).past ∧ Patient base (w.sourceOf b).past ∧
    ∀ e ∈ joiners base, ∀ a, ¬ Serves w b a e

/-- What is known of a match when nothing is under way, whether it is there yet or not. -/
structure Recounted (b : BranchId) (w : World) : Prop extends Sealed w where
  unmade : w.branches.size ≤ b.index → w.deedsOf b = []
  accounted : b.index < w.branches.size → Accounted (fun _ => False) b w
  minded : b.index < w.branches.size → Minded b w

section
variable {b : BranchId} {w w' : World} {X : ActivationId → Prop} {a : ActivationId} {e : EntryId}

/-! Steps that do not concern a match. -/

/-- Nothing is changed that a match looks at. -/
structure Ignores (b : BranchId) (w w' : World) : Prop where
  made : b.index < w'.branches.size
  branch : w'.branches.get b = w.branches.get b
  source : w'.sourceOf b = w.sourceOf b
  output : w'.outputOf b = w.outputOf b
  entries : w'.entries = w.entries
  activations : w'.activations = w.activations
  deeds : w'.deeds = w.deeds

namespace Ignores

theorem matched (h : Ignores b w w') (a : ActivationId) :
    (w'.activations.get a).branch = (w.activations.get a).branch := by
  rw [h.activations]

theorem serves (h : Ignores b w w') : Serves w' b a e ↔ Serves w b a e :=
  serves_congr h.entries h.matched

theorem accounted (h : Ignores b w w') (accounted : Accounted X b w) : Accounted X b w' := by
  have deeds : w'.deedsOf b = w.deedsOf b := deedsOf_congr h.deeds
  have past : (w'.sourceOf b).past = (w.sourceOf b).past := by rw [h.source]
  have size : w'.activations.size = w.activations.size := by rw [h.activations]
  refine ⟨⟨⟨accounted.toRoster.congr h.made past h.entries size h.matched, fun d hd => ?_, ?_⟩, ?_,
    fun e he a serves => ?_⟩, ?_, fun e he a serves out => ?_⟩
  · rw [deeds] at hd
    rw [h.activations]
    exact accounted.dated d hd
  · rw [h.branch, deeds]
    exact accounted.lawful
  · rw [calls_congr past h.entries h.matched, deeds]
    exact accounted.calls
  · rw [h.source] at he
    rw [deeds, h.activations]
    exact accounted.present e he a (h.serves.1 serves)
  · rw [deeds, h.output]
    exact accounted.shows
  · rw [h.source] at he
    unfold Abreast
    rw [h.output]
    exact accounted.abreast e he a (h.serves.1 serves) out

theorem minded (h : Ignores b w w') (minded : Minded b w) : Minded b w' := by
  obtain ⟨base, within, patient, before⟩ := minded
  refine ⟨base, ?_, ?_, fun e he a => h.serves.not.2 (before e he a)⟩
  · rw [h.source]
    exact within
  · rw [h.source]
    exact patient

end Ignores

/-! Signals that are added. -/

theorem Adds.ignores {value : Option Value} {producer : Option Producer}
    (h : Adds value producer w w') (sealed : Sealed w) (laid : Laid w)
    (made : b.index < w.branches.size) : Ignores b w w' := by
  have branch := h.branch b made
  have output : (w.branches.get b).output ≠ w.signals.next := by
    intro new
    have produced := sealed.outputs b made
    rw [World.outputOf, new, Heap.get_next] at produced
    cases produced
  have source : (w.branches.get b).source ≠ w.signals.next := by
    intro new
    have earlier := sealed.earlier laid made
    have valid : (w.branches.get b).output.index < w.signals.size :=
      index_lt_of_ne Signal.producer fun none => nomatch (sealed.outputs b made).symm.trans none
    rw [new] at earlier
    exact Nat.lt_irrefl _ (Nat.lt_trans earlier valid)
  refine ⟨Nat.lt_of_lt_of_le made h.branches, branch, ?_, ?_, h.entries, h.activations, h.deeds⟩
  · unfold World.sourceOf
    rw [branch, h.old source]
  · unfold World.outputOf
    rw [branch, h.old output]

theorem Adds.sealed {value : Option Value} {producer : Option Producer}
    (h : Adds value producer w w') (sealed : Sealed w) (laid : Laid w) : Sealed w' where
  outputs b made := by
    rcases h.founded b made with old | ⟨-, new, output⟩
    · rw [(h.ignores sealed laid old).output]
      exact sealed.outputs b old
    · rw [World.outputOf, output, h.new]
      exact new
  writable name s named := by
    rcases h.writable name s named with old | ⟨rfl, none⟩
    · rw [h.old ?_]
      · exact sealed.writable name s old
      · rintro rfl
        exact Nat.lt_irrefl _ (laid.made name _ _ old)
    · rw [h.new]
      exact none

/-- A match that was just made has done nothing, and nobody has worked for it. -/
theorem Adds.recounts {value : Option Value} {producer : Option Producer}
    (h : Adds value producer w w') (laid : Laid w) (h' : Poised NoNode NoNode w')
    (unmade : w.branches.size ≤ b.index) (nothing : w.deedsOf b = [])
    (made : b.index < w'.branches.size) : Accounted X b w' ∧ Minded b w' := by
  obtain ⟨rfl, produced, output⟩ :=
    (h.founded b made).resolve_left (Nat.not_lt_of_le unmade)
  have nobody : ∀ e a, ¬ Serves w' b a e := by
    rintro e a ⟨reaction, branch⟩
    rw [h.entries] at reaction
    rw [h.activations] at branch
    have proper := laid.reactions e
    rw [reaction] at proper
    have valid := (laid.producers _ _ proper.2).1
    rw [branch] at valid
    exact Nat.not_lt_of_le unmade valid
  have deeds : w'.deedsOf b = [] := (deedsOf_congr h.deeds).trans nothing
  have fresh : w'.outputOf b = .fresh none producer := by
    unfold World.outputOf
    rw [output, h.new]
  refine ⟨⟨⟨⟨⟨made, fun e a reaction => ?_, fun e r v x told => ?_, fun e e' a serves => ?_,
    fun e a serves => ?_⟩, ?_, ?_⟩, ?_, fun e _ a serves => ?_⟩, ?_, fun e _ a serves => ?_⟩,
    (w'.sourceOf b).past, List.suffix_rfl, .start _, fun e _ a => nobody e a⟩
  · have proper := h'.reactions e
    rw [reaction] at proper
    exact proper.1
  · have recorded := h'.faithful.signals (w'.branches.get b).source
    exact recorded.known e (recorded.told e r v x told).1
  · exact absurd serves (nobody e a)
  · exact absurd serves (nobody e a)
  · rw [deeds]
    simp
  · rw [deeds]
    trivial
  · rw [deeds]
    refine List.filterMap_eq_nil_iff.2 fun m _ => ?_
    cases m with
    | told e r v x => exact Moment.call?_stranger (nobody e)
    | _ => rfl
  · exact absurd serves (nobody e a)
  · rw [deeds, fresh]
    exact ⟨rfl, rfl, rfl, (Patient.start []).cons (by simp)⟩
  · exact absurd serves (nobody e a)

/-- By cases on whether the match was there before. -/
theorem Expands.recounted (expands : Expands w w') (h : Poised NoNode NoNode w)
    (h' : Poised NoNode NoNode w') (recounted : Recounted b w) : Recounted b w' := by
  obtain ⟨value, producer, w₁, idling, adds⟩ := expands
  have beside := idling.toBeside
  have laid₁ : Laid w₁ := (beside.balanced h.toBalanced).toLaid
  have sealed₁ : Sealed w₁ := recounted.toSealed.next beside.same.toDevelops
  have deeds₁ : w₁.deedsOf b = w.deedsOf b := deedsOf_congr idling.deeds
  suffices there : b.index < w'.branches.size → Accounted (fun _ => False) b w' ∧ Minded b w' by
    refine ⟨adds.sealed sealed₁ laid₁, fun unmade => ?_, fun made => (there made).1,
      fun made => (there made).2⟩
    refine (deedsOf_congr adds.deeds).trans (deeds₁.trans (recounted.unmade ?_))
    rw [← beside.branches]
    exact Nat.le_trans adds.branches unmade
  intro made
  rcases Nat.lt_or_ge b.index w₁.branches.size with before | unmade
  · have idle : Ignores b w w₁ := by
      refine ⟨before, by rw [beside.branches], beside.sourceOf, beside.outputOf, beside.entries,
        idling.periods, idling.deeds⟩
    have ignores := adds.ignores sealed₁ laid₁ before
    rw [beside.branches] at before
    exact ⟨ignores.accounted (idle.accounted (recounted.accounted before)),
      ignores.minded (idle.minded (recounted.minded before))⟩
  · refine adds.recounts laid₁ h' unmade (deeds₁.trans (recounted.unmade ?_)) made
    rw [← beside.branches]
    exact unmade

/-! Steps that work with the signals that there are. -/

/-- The source is changed once at most, after everybody has heard of its last change. -/
theorem Minded.next (h : Minded b w) (accounted : Accounted X b w) (dev : Develops w w')
    (faithful : Faithful w) (grows : Grows w w') (repose : Reposed (w.sourceOf b).past)
    (few : (w'.sourceOf b).version ≤ (w.sourceOf b).version + 1) : Minded b w' := by
  obtain ⟨base, within, patient, before⟩ := h
  have source : w'.sourceOf b = w'.signals.get (w.branches.get b).source := by
    unfold World.sourceOf
    rw [dev.branches]
  have suffix : (w.sourceOf b).past <:+ (w'.sourceOf b).past := by
    rw [source]
    exact grows.past _
  refine ⟨base, within.trans suffix, ?_, fun e he a serves => before e he a ?_⟩
  · rw [(grows.faithful.signals _).version, (faithful.signals _).version] at few
    obtain ⟨since, past⟩ := suffix
    rw [← past] at few ⊢
    exact patient.append repose few
  · obtain ⟨reaction, branch⟩ := serves
    have known := (faithful.signals _).known e (joiners_subset_of_suffix within he)
    rw [dev.reaction e known] at reaction
    rw [dev.matched a (accounted.periods e a reaction)] at branch
    exact ⟨reaction, branch⟩

theorem Recounted.next (recounted : Recounted b w) (h : Poised NoNode NoNode w)
    (grows : Grows w w') (accounts : Accounts b 1 w w')
    (repose : b.index < w.branches.size → Reposed (w.sourceOf b).past)
    (few : b.index < w.branches.size → (w'.sourceOf b).version ≤ (w.sourceOf b).version + 1) :
    Recounted b w' := by
  refine ⟨recounted.toSealed.next accounts.toDevelops, fun unmade => ?_, fun made => ?_,
    fun made => ?_⟩
  · rw [accounts.branches] at unmade
    exact (accounts.unmade unmade).trans (recounted.unmade unmade)
  · rw [accounts.branches] at made
    refine (accounts.kept _ (recounted.accounted made) (fun _ none => none.elim)
      (.inr ⟨fun _ none => none, few made⟩)).accounted
  · rw [accounts.branches] at made
    exact (recounted.minded made).next (recounted.accounted made) accounts.toDevelops h.faithful grows
      (repose made) (few made)

/-- By induction on the steps. -/
theorem Restrained.recounted (h : Restrained b w) : Recounted b w := by
  induction h with
  | empty =>
    refine ⟨⟨fun b made => absurd made (Nat.not_lt_zero _), fun _ _ named => nomatch named⟩, fun _ => rfl,
      fun made => absurd made (Nat.not_lt_zero _), fun made => absurd made (Nat.not_lt_zero _)⟩
  | @step fuel w w' step current a before extend ran few ih =>
    have h := before.network.poised
    have h' := (extend.happens ran).poised h
    cases extend with
    | signal v unused =>
      exact (create_expands h.toBalanced unused _ _ _ _ ran).recounted h h'.1 ih
    | constant v unused =>
      exact (create_expands h.toBalanced unused _ _ _ _ ran).recounted h h'.1 ih
    | derive unused pure =>
      exact (derive_expands h.toBalanced unused pure _ _ ran).recounted h h'.1 ih
    | branch source cases fallback unused =>
      exact (branch_expands h.toBalanced unused _ _ _ ran).recounted h h'.1 ih
    | operate operates =>
      obtain ⟨-, accounts⟩ := (upkeep_accounts b).step ⟨h, ih.toSealed⟩ current operates _ _ ran
      have delivers : Delivers w w' := keeps_step _ _ _ _ _ ran
      exact ih.next h (delivers h.faithful).toGrows accounts (fun _ => before.reached.reposed _) few
  | @elsewhere w w' before beside activations deeds ih =>
    have ignores : b.index < w'.branches.size → Ignores b w w' := fun made =>
      ⟨made, by rw [beside.branches], beside.sourceOf, beside.outputOf, beside.entries, activations,
        deeds⟩
    refine ⟨ih.toSealed.next beside.same.toDevelops, fun unmade => ?_, fun made => ?_, fun made => ?_⟩
    · rw [beside.branches] at unmade
      exact (deedsOf_congr deeds).trans (ih.unmade unmade)
    · exact (ignores made).accounted (ih.accounted (beside.branches ▸ made))
    · exact (ignores made).minded (ih.minded (beside.branches ▸ made))

/-! What it comes to. -/

theorem Moment.call?_eq_some {m : Moment} {v : Value} (h : Moment.call? w b m = some (a, v)) :
    ∃ e r n x, m = .told e r n x ∧ Serves w b a e ∧ x.getD .null = v := by
  cases m with
  | told e r n x =>
    simp only [Moment.call?] at h
    split at h
    case h_1 a' reaction =>
      split at h
      case isTrue branch =>
        cases h
        exact ⟨e, r, n, x, rfl, ⟨reaction, branch⟩, rfl⟩
      case isFalse => cases h
    case h_2 => cases h
  | _ => cases h

/-- The last deed of a period that goes on is for the newest value: whoever offered it has seen the newest
version, and has offered nothing since. -/
theorem Accounted.current (h : Accounted X b w) (recorded : Recorded w.entries (w.sourceOf b))
    (member : e ∈ (w.sourceOf b).subscribers) (serves : Serves w b a e)
    (seen : (w.entries.get e).seen = (w.sourceOf b).version) :
    ∃ d past, w.deedsOf b = d :: past ∧ d.activation = a ∧
      d.value = (w.sourceOf b).value.getD .null := by
  obtain ⟨d, past, deeds, period, -⟩ := h.present e member a serves
  refine ⟨d, past, deeds, period, ?_⟩
  have calls := h.calls
  rw [deeds, List.map_cons, period] at calls
  obtain ⟨since, m, before, split, silent, call, -⟩ := List.filterMap_eq_cons_iff.1 calls
  obtain ⟨e', r, v, x, rfl, serves', value⟩ := Moment.call?_eq_some call
  obtain rfl := h.single e e' a serves serves'
  have orderly := recorded.orderly
  rw [split] at orderly
  obtain ⟨rfl, rfl, -, newer, -⟩ := orderly.of_append.1
  have newest : version before = (w.sourceOf b).version := by
    rcases recorded.latest e member with shown | ⟨late, earlier, joined, -⟩
    · obtain ⟨r', x', told⟩ := told_of_lastShown shown
      rw [seen, split, List.mem_append, List.mem_cons] at told
      rcases told with told | told | told
      · exact nomatch (silent _ told).symm.trans (Moment.call?_told serves)
      · obtain ⟨-, -, same, -⟩ := Moment.told.inj told
        exact same.symm
      · have older := newer _ _ _ told
        rw [recorded.version, split, version_append] at older
        change version since + version before < version before at older
        omega
    · exact absurd (joined ▸ List.mem_append_right late List.mem_cons_self) (h.punctual e a serves)
  have unchanged : version since = 0 := by
    rw [recorded.version, split, version_append] at newest
    change version before = version since + version before at newest
    omega
  rw [← value, recorded.value, split,
    orderly.content_append (not_mem_changed_of_version_eq_zero unchanged)]
  rfl

/-- Since the match is there, whoever worked for it when its source changed was told of that, or left
before. -/
theorem Minded.heard (h : Minded b w) (recorded : Recorded w.entries (w.sourceOf b))
    (repose : Reposed (w.sourceOf b).past) {since before : List Moment} {value : Option Value}
    (split : (w.sourceOf b).past = since ++ .changed value :: before) (member : e ∈ members before)
    (serves : Serves w b a e) :
    (∃ r, .told e r (version before + 1) value ∈ since) ∨ .left e ∈ since := by
  obtain ⟨base, within, patient, strangers⟩ := h
  have heard : History.Heard base (w.sourceOf b).past := recorded.orderly.heard patient repose
  have suffix : before <:+ (w.sourceOf b).past := by
    rw [split]
    exact (List.suffix_cons _ before).trans (List.suffix_append since _)
  rcases List.suffix_or_suffix_of_suffix within suffix with earlier | later
  · exact heard since value before split earlier e member
  · have joined := joiners_subset_of_suffix later (members_sublist_joiners.subset member)
    exact absurd serves (strangers e joined a)

/-- Whoever works for a match is told of the content of the source on joining. -/
theorem Accounted.opened (h : Accounted X b w) (recorded : Recorded w.entries (w.sourceOf b))
    (prompted : Prompted (w.sourceOf b).past) (serves : Serves w b a e) {since before : List Moment}
    {mode : Mode} (split : (w.sourceOf b).past = since ++ .joined e mode :: before) :
    ∃ later, since = later ++ [.told e none (version before) (content before)] := by
  cases mode with
  | normal =>
    refine absurd ?_ (h.punctual e a serves)
    rw [split]
    exact List.mem_append_right since List.mem_cons_self
  | immediate =>
    obtain ⟨later, v, x, rfl⟩ := prompted since e before split
    have orderly := recorded.orderly
    rw [split, List.append_assoc] at orderly
    obtain ⟨rfl, rfl, -⟩ := orderly.of_append.1
    exact ⟨later, rfl⟩

end

end LiveMarkup.Live
