import Mathlib.Data.List.Basic
import LiveMarkup.Proofs.Network
import LiveMarkup.Proofs.Deeds
import LiveMarkup.Proofs.Hearing

/-!
Accounts: the deeds of a match account for the values that its source has shown it and for what has
become of its output. Most of what goes on in a network passes the match by.
-/
namespace LiveMarkup.Live

/-- What a match did, last deed first. -/
def World.deedsOf (w : World) (b : BranchId) : List Deed :=
  w.deeds.filter (·.branch = b)

/-- The signal that a match is over. -/
abbrev World.sourceOf (w : World) (b : BranchId) : Signal :=
  w.signals.get (w.branches.get b).source

/-- The signal of a match. -/
abbrev World.outputOf (w : World) (b : BranchId) : Signal :=
  w.signals.get (w.branches.get b).output

/-- The subscriber offers values to a match in one of its periods. -/
def Serves (w : World) (b : BranchId) (a : ActivationId) (e : EntryId) : Prop :=
  (w.entries.get e).reaction = .branch a ∧ (w.activations.get a).branch = b

/-- What a moment offers to a match. -/
def Moment.call? (w : World) (b : BranchId) : Moment → Option (ActivationId × Value)
  | .told e _ _ v =>
    match (w.entries.get e).reaction with
    | .branch a => if (w.activations.get a).branch = b then some (a, v.getD .null) else none
    | _ => none
  | _ => none

/-- The values that a match was offered, last first. -/
def World.calls (w : World) (b : BranchId) : List (ActivationId × Value) :=
  (w.sourceOf b).past.filterMap (Moment.call? w b)

/-- The contents that the moments changed a signal to, last first. -/
def History.changes (past : List Moment) : List (Option Value) :=
  past.filterMap fun
    | .changed value => some value
    | _ => none

/-- A period of a match was offered the newest value of the source. -/
def ToldNow (b : BranchId) (a : ActivationId) (w : World) : Prop :=
  ∃ e r x, Serves w b a e ∧ .told e r (w.sourceOf b).version x ∈ (w.sourceOf b).past

/-- A new period of a match, in which nobody offers it values yet. -/
structure Vacant (b : BranchId) (a : ActivationId) (w : World) : Prop where
  known : a.index < w.activations.size
  cell : w.activations.get a = ⟨b, false⟩
  nobody : ∀ e, ¬ Serves w b a e

/-- What is known at all times of those who offer values to a match. -/
structure Roster (b : BranchId) (w : World) : Prop where
  made : b.index < w.branches.size
  periods : ∀ e a, (w.entries.get e).reaction = .branch a → a.index < w.activations.size
  told : ∀ e r v x, .told e r v x ∈ (w.sourceOf b).past → e.index < w.entries.size
  single : ∀ e e' a, Serves w b a e → Serves w b a e' → e = e'
  punctual : ∀ e a, Serves w b a e → .joined e .normal ∉ (w.sourceOf b).past

/-- What is known of its deeds besides. -/
structure Ledger (b : BranchId) (w : World) : Prop extends Roster b w where
  dated : ∀ d ∈ w.deedsOf b, d.activation.index < w.activations.size
  lawful : Deeds.Lawful (w.branches.get b) (w.deedsOf b)

/-- There is a deed for each value that the match was offered. Periods in `X` are in the middle of one,
and are excepted from having noted whether a case applied. -/
structure Noted (X : ActivationId → Prop) (b : BranchId) (w : World) : Prop extends Ledger b w where
  calls : w.calls b = (w.deedsOf b).map fun d => (d.activation, d.value)
  present : ∀ e ∈ (w.sourceOf b).subscribers, ∀ a, Serves w b a e →
    ∃ d past, w.deedsOf b = d :: past ∧ d.activation = a ∧
      (¬ X a → (w.activations.get a).inFallback = d.falls)

/-- A signal is as deeds have left it, and its subscribers had heard of each change when the next came. -/
structure Shows (deeds : List Deed) (signal : Signal) : Prop where
  content : signal.value = Deeds.content deeds
  changes : History.changes signal.past = Deeds.changes deeds
  subscribers : signal.subscribers = History.members signal.past
  patient : History.Patient [] signal.past

/-- Everybody who listens to a match has heard of its last change. -/
abbrev Abreast (b : BranchId) (w : World) : Prop :=
  History.Reposed (w.outputOf b).past

/-- The deeds account for everything. While a period in `X` is in the middle of one, those who listen may
not have heard of it yet. -/
structure Accounted (X : ActivationId → Prop) (b : BranchId) (w : World) : Prop
    extends Noted X b w where
  shows : Shows (w.deedsOf b) (w.outputOf b)
  abreast : ∀ e ∈ (w.sourceOf b).subscribers, ∀ a, Serves w b a e → ¬ X a → Abreast b w

/-- The deeds still account for everything. In the meantime no period of `X` has done anything, nor has
one that was vacant, which it still is; and who was offered the newest value has been offered the
newest value, unless that is a newer one. -/
structure Continued (X : ActivationId → Prop) (b : BranchId) (w w' : World) : Prop where
  accounted : Accounted X b w'
  since : ∃ since, w'.deedsOf b = since ++ w.deedsOf b ∧
    ∀ d ∈ since, ¬ X d.activation ∧ ¬ Vacant b d.activation w
  flags : ∀ a, X a → w'.activations.get a = w.activations.get a
  vacant : ∀ a, Vacant b a w → Vacant b a w'
  toldNow : (w'.sourceOf b).version = (w.sourceOf b).version → ∀ a, ToldNow b a w → ToldNow b a w'

/-- What goes on in a network, as a match sees it. As long as the source changes at most `n` times, and
not at all where periods are in the middle of a deed, the deeds account for everything. -/
structure Accounts (b : BranchId) (n : Nat) (w w' : World) : Prop extends Develops w w' where
  version : (w.sourceOf b).version ≤ (w'.sourceOf b).version
  unmade : w.branches.size ≤ b.index → w'.deedsOf b = w.deedsOf b
  kept : ∀ X, Accounted X b w → (∀ a, X a → ToldNow b a w) →
    (w'.sourceOf b).version = (w.sourceOf b).version ∨
      (∀ a, ¬ X a) ∧ (w'.sourceOf b).version ≤ (w.sourceOf b).version + n →
    Continued X b w w'

section
variable {b : BranchId} {n : Nat} {w w' w₁ w₂ : World} {X : ActivationId → Prop} {a : ActivationId}
  {e : EntryId}

namespace Continued

theorem refl (accounted : Accounted X b w) : Continued X b w w :=
  ⟨accounted, ⟨[], rfl, by simp⟩, fun _ _ => rfl, fun _ vacant => vacant, fun _ _ told => told⟩

theorem trans (h : Continued X b w w₁) (h' : Continued X b w₁ w₂)
    (le : (w.sourceOf b).version ≤ (w₁.sourceOf b).version)
    (le' : (w₁.sourceOf b).version ≤ (w₂.sourceOf b).version) : Continued X b w w₂ := by
  obtain ⟨since, eq, out⟩ := h.since
  obtain ⟨since', eq', out'⟩ := h'.since
  refine ⟨h'.accounted, ⟨since' ++ since, ?_, fun d hd => ?_⟩,
    fun a ha => (h'.flags a ha).trans (h.flags a ha),
    fun a vacant => h'.vacant a (h.vacant a vacant), fun same a told => ?_⟩
  · rw [eq', eq, List.append_assoc]
  · rcases List.mem_append.1 hd with hd | hd
    · exact ⟨(out' d hd).1, fun vacant => (out' d hd).2 (h.vacant _ vacant)⟩
    · exact out d hd
  · exact h'.toldNow (by omega) a (h.toldNow (by omega) a told)

end Continued

namespace Accounts

/-- Where the source may change, no period is in the middle of a deed. -/
theorem toldNow (h : Accounts b n w w₁) (accounted : Accounted X b w)
    (told : ∀ a, X a → ToldNow b a w)
    (once : (w₁.sourceOf b).version = (w.sourceOf b).version ∨
      (∀ a, ¬ X a) ∧ (w₁.sourceOf b).version ≤ (w.sourceOf b).version + n) :
    ∀ a, X a → ToldNow b a w₁ := by
  intro a ha
  rcases once with same | ⟨nobody, -⟩
  · exact (h.kept X accounted told (.inl same)).toldNow same a (told a ha)
  · exact absurd ha (nobody a)

theorem mono {m : Nat} (h : Accounts b n w w') (fewer : m ≤ n) : Accounts b m w w' := by
  refine ⟨h.toDevelops, h.version, h.unmade, fun X accounted told once => ?_⟩
  refine h.kept X accounted told (once.imp_right fun ⟨nobody, few⟩ => ⟨nobody, ?_⟩)
  omega

end Accounts

instance : Lasting (Accounts b n) where
  refl w := ⟨.refl w, Nat.le_refl _, fun _ => rfl, fun _ accounted _ _ => .refl accounted⟩
  trans {w₁ w₂ w₃} h h' := by
    have le := h.version
    have le' := h'.version
    refine ⟨h.toDevelops.trans h'.toDevelops, Nat.le_trans le le', fun unmade => ?_,
      fun X accounted told once => ?_⟩
    · refine (h'.unmade ?_).trans (h.unmade unmade)
      rw [h.branches]
      exact unmade
    · have first : (w₂.sourceOf b).version = (w₁.sourceOf b).version ∨
          (∀ a, ¬ X a) ∧ (w₂.sourceOf b).version ≤ (w₁.sourceOf b).version + n := by
        rcases once with same | ⟨nobody, few⟩
        · exact .inl (by omega)
        · exact .inr ⟨nobody, by omega⟩
      have second : (w₃.sourceOf b).version = (w₂.sourceOf b).version ∨
          (∀ a, ¬ X a) ∧ (w₃.sourceOf b).version ≤ (w₂.sourceOf b).version + n := by
        rcases once with same | ⟨nobody, few⟩
        · exact .inl (by omega)
        · exact .inr ⟨nobody, by omega⟩
      have before := h.kept X accounted told first
      exact before.trans (h'.kept X before.accounted (h.toldNow accounted told first) second) le le'

theorem deedsOf_congr (deeds : w'.deeds = w.deeds) : w'.deedsOf b = w.deedsOf b := by
  unfold World.deedsOf
  rw [deeds]

theorem Serves.known (h : Serves w b a e) : e.index < w.entries.size := by
  refine Nat.lt_of_not_le fun invalid => ?_
  have reaction := h.1
  rw [Heap.get_of_size_le _ _ invalid] at reaction
  cases reaction

theorem Moment.call?_told {r : Option Nat} {v : Nat} {x : Option Value} (h : Serves w b a e) :
    Moment.call? w b (.told e r v x) = some (a, x.getD .null) := by
  simp only [Moment.call?, h.1, h.2, if_true]

theorem Moment.call?_stranger {r : Option Nat} {v : Nat} {x : Option Value}
    (h : ∀ a, ¬ Serves w b a e) : Moment.call? w b (.told e r v x) = none := by
  simp only [Moment.call?]
  split
  case h_1 a reaction => exact if_neg fun here => h a ⟨reaction, here⟩
  case h_2 => rfl

theorem serves_congr (entries : w'.entries = w.entries)
    (matched : ∀ a, (w'.activations.get a).branch = (w.activations.get a).branch) :
    Serves w' b a e ↔ Serves w b a e := by
  unfold Serves
  rw [entries, matched]

theorem calls_congr (source : (w'.sourceOf b).past = (w.sourceOf b).past)
    (entries : w'.entries = w.entries)
    (matched : ∀ a, (w'.activations.get a).branch = (w.activations.get a).branch) :
    w'.calls b = w.calls b := by
  have same : Moment.call? w' b = Moment.call? w b := by
    funext m
    cases m with
    | told e r v x => simp only [Moment.call?, entries, matched]
    | _ => rfl
  unfold World.calls
  rw [same, source]

theorem Roster.congr (h : Roster b w) (made : b.index < w'.branches.size)
    (source : (w'.sourceOf b).past = (w.sourceOf b).past) (entries : w'.entries = w.entries)
    (size : w'.activations.size = w.activations.size)
    (matched : ∀ a, (w'.activations.get a).branch = (w.activations.get a).branch) : Roster b w' := by
  have serves : ∀ {a e}, Serves w' b a e → Serves w b a e := (serves_congr entries matched).1
  refine ⟨made, ?_, ?_, fun e e' a here here' => h.single e e' a (serves here) (serves here'),
    fun e a here => ?_⟩
  · rw [entries, size]
    exact h.periods
  · rw [source, entries]
    exact h.told
  · rw [source]
    exact h.punctual e a (serves here)

/-! Changes that pass a match by. -/

/-- A moment does not concern a match: it calls nobody, and lets nobody join for later, who offers
values to it. -/
def Moment.Foreign (w : World) (b : BranchId) : Moment → Prop
  | .told e _ _ _ => e.index < w.entries.size ∧ ∀ a, ¬ Serves w b a e
  | .joined e .normal => ∀ a, ¬ Serves w b a e
  | _ => True

/-- Nothing that concerns a match and its source is changed, but its output may be. -/
structure Skirts (b : BranchId) (w w' : World) : Prop extends Develops w w' where
  deedsOf : w'.deedsOf b = w.deedsOf b
  flags : ∀ a, a.index < w.activations.size → (w.activations.get a).branch = b →
    w'.activations.get a = w.activations.get a
  newcomers : ∀ e a, w.entries.size ≤ e.index → (w'.entries.get e).reaction = .branch a →
    a.index < w'.activations.size ∧ (w'.activations.get a).branch ≠ b
  history : ∃ since, (w'.sourceOf b).past = since ++ (w.sourceOf b).past ∧
    ∀ m ∈ since, m.Foreign w' b
  members : ∀ e ∈ (w'.sourceOf b).subscribers, e.index < w.entries.size →
    e ∈ (w.sourceOf b).subscribers
  version : (w.sourceOf b).version ≤ (w'.sourceOf b).version

/-- A signal goes on without a change. -/
structure Unaltered (signal signal' : Signal) : Prop where
  value : signal'.value = signal.value
  changes : History.changes signal'.past = History.changes signal.past
  subscribers : signal.subscribers = History.members signal.past →
    signal'.subscribers = History.members signal'.past
  patient : History.Patient [] signal.past → History.Patient [] signal'.past
  reposed : History.Reposed signal.past → History.Reposed signal'.past

/-- Nothing that concerns a match is changed. -/
structure Passes (b : BranchId) (w w' : World) : Prop extends Skirts b w w' where
  unaltered : Unaltered (w.outputOf b) (w'.outputOf b)

namespace Unaltered
variable {signal signal' : Signal}

theorem refl (signal : Signal) : Unaltered signal signal :=
  ⟨rfl, rfl, fun h => h, fun h => h, fun h => h⟩

theorem of_moment {m : Moment} (value : signal'.value = signal.value)
    (past : signal'.past = m :: signal.past) (unchanged : ∀ value, m ≠ .changed value)
    (subscribers : signal.subscribers = History.members signal.past →
      signal'.subscribers = History.members (m :: signal.past)) : Unaltered signal signal' := by
  refine ⟨value, ?_, ?_, ?_, ?_⟩
  · rw [past]
    cases m with
    | changed value => exact absurd rfl (unchanged value)
    | _ => rfl
  · rw [past]
    exact subscribers
  · rw [past]
    exact fun h => h.cons fun value same => absurd same (unchanged value)
  · rw [past]
    exact fun h => h.cons unchanged

theorem showing (e : EntryId) (round : Option Nat) (signal : Signal) :
    Unaltered signal (signal.showing e round) :=
  .of_moment (m := .told e round signal.version signal.value) rfl rfl (by simp) fun h => h

theorem joinedBy (e : EntryId) (mode : Mode) (signal : Signal) :
    Unaltered signal (signal.joinedBy e mode) :=
  .of_moment (m := .joined e mode) rfl rfl (by simp) fun h => congrArg (· ++ [e]) h

theorem leftBy (e : EntryId) (signal : Signal) : Unaltered signal (signal.leftBy e) :=
  .of_moment (m := .left e) rfl rfl (by simp) fun h => congrArg (·.erase e) h

theorem shows {deeds : List Deed} (h : Unaltered signal signal') (shows : Shows deeds signal) :
    Shows deeds signal' :=
  ⟨h.value.trans shows.content, h.changes.trans shows.changes, h.subscribers shows.subscribers,
    h.patient shows.patient⟩

end Unaltered

namespace Skirts

theorem serves_of (h : Skirts b w w') (ledger : Ledger b w) (serves : Serves w b a e) :
    Serves w' b a e :=
  ⟨(h.reaction e serves.known).trans serves.1,
    (h.matched a (ledger.periods e a serves.1)).trans serves.2⟩

theorem serves (h : Skirts b w w') (ledger : Ledger b w) (serves : Serves w' b a e) :
    Serves w b a e := by
  obtain ⟨reaction, branch⟩ := serves
  rcases Nat.lt_or_ge e.index w.entries.size with known | new
  · have before : (w.entries.get e).reaction = .branch a := (h.reaction e known).symm.trans reaction
    exact ⟨before, (h.matched a (ledger.periods e a before)).symm.trans branch⟩
  · exact absurd branch (h.newcomers e a new reaction).2

theorem calls (h : Skirts b w w') (ledger : Ledger b w) : w'.calls b = w.calls b := by
  obtain ⟨since, past, foreign⟩ := h.history
  have nothing : since.filterMap (Moment.call? w' b) = [] := by
    refine List.filterMap_eq_nil_iff.2 fun m hm => ?_
    have strange := foreign m hm
    cases m with
    | told e r v x => exact Moment.call?_stranger strange.2
    | _ => rfl
  have same : (w.sourceOf b).past.filterMap (Moment.call? w' b) =
      (w.sourceOf b).past.filterMap (Moment.call? w b) := by
    refine List.filterMap_congr fun m hm => ?_
    cases m with
    | told e r v x =>
      by_cases stranger : ∃ a, Serves w b a e
      · obtain ⟨a, serves⟩ := stranger
        rw [Moment.call?_told serves, Moment.call?_told (h.serves_of ledger serves)]
      · have stranger : ∀ a, ¬ Serves w b a e := fun a serves => stranger ⟨a, serves⟩
        rw [Moment.call?_stranger stranger,
          Moment.call?_stranger fun a serves => stranger a (h.serves ledger serves)]
    | _ => rfl
  unfold World.calls
  rw [past, List.filterMap_append, nothing, same, List.nil_append]

theorem ledger (h : Skirts b w w') (ledger : Ledger b w) : Ledger b w' := by
  obtain ⟨since, past, foreign⟩ := h.history
  refine ⟨⟨?_, fun e a reaction => ?_, fun e r v x told => ?_, fun e e' a serves serves' => ?_,
    fun e a serves late => ?_⟩, fun d hd => ?_, ?_⟩
  · rw [h.branches]
    exact ledger.made
  · rcases Nat.lt_or_ge e.index w.entries.size with known | new
    · have before := (h.reaction e known).symm.trans reaction
      exact Nat.lt_of_lt_of_le (ledger.periods e a before) h.activations
    · exact (h.newcomers e a new reaction).1
  · rw [past, List.mem_append] at told
    rcases told with told | told
    · exact (foreign _ told).1
    · exact Nat.lt_of_lt_of_le (ledger.told e r v x told) h.entries
  · exact ledger.single e e' a (h.serves ledger serves) (h.serves ledger serves')
  · rw [past, List.mem_append] at late
    rcases late with late | late
    · exact foreign _ late a serves
    · exact ledger.punctual e a (h.serves ledger serves) late
  · rw [h.deedsOf] at hd
    exact Nat.lt_of_lt_of_le (ledger.dated d hd) h.activations
  · rw [h.branches, h.deedsOf]
    exact ledger.lawful

theorem noted (h : Skirts b w w') (noted : Noted X b w) : Noted X b w' := by
  refine ⟨h.ledger noted.toLedger, ?_, fun e he a serves => ?_⟩
  · rw [h.calls noted.toLedger, h.deedsOf]
    exact noted.calls
  · have before := h.serves noted.toLedger serves
    obtain ⟨d, past, deeds, same, flag⟩ :=
      noted.present e (h.members e he before.known) a before
    refine ⟨d, past, h.deedsOf.trans deeds, same, fun out => ?_⟩
    rw [h.flags a (noted.periods e a before.1) before.2]
    exact flag out

theorem vacant (h : Skirts b w w') (ledger : Ledger b w) (vacant : Vacant b a w) :
    Vacant b a w' where
  known := Nat.lt_of_lt_of_le vacant.known h.activations
  cell := (h.flags a vacant.known (congrArg Activation.branch vacant.cell)).trans vacant.cell
  nobody e serves := vacant.nobody e (h.serves ledger serves)

theorem toldNow (h : Skirts b w w') (ledger : Ledger b w) (told : ToldNow b a w)
    (same : (w'.sourceOf b).version = (w.sourceOf b).version) : ToldNow b a w' := by
  obtain ⟨e, r, x, serves, told⟩ := told
  obtain ⟨since, past, -⟩ := h.history
  refine ⟨e, r, x, h.serves_of ledger serves, ?_⟩
  rw [same, past]
  exact List.mem_append_right since told

/-- A change of one signal adds moments to its past, and subscribers only if they are new. -/
theorem of_signal {t : SignalId} {f : Signal → Signal} {l : Signal → List Moment}
    (dev : Develops w w') (deeds : w'.deeds = w.deeds) (activations : w'.activations = w.activations)
    (newcomers : ∀ e a, w.entries.size ≤ e.index → (w'.entries.get e).reaction = .branch a →
      a.index < w.activations.size ∧ (w.activations.get a).branch ≠ b)
    (signals : w'.signals = w.signals.modify t f)
    (past : ∀ signal, (f signal).past = l signal ++ signal.past)
    (foreign : t = (w.branches.get b).source → ∀ signal, ∀ m ∈ l signal, m.Foreign w' b)
    (members : ∀ signal : Signal, ∀ e ∈ (f signal).subscribers, e.index < w.entries.size →
      e ∈ signal.subscribers)
    (version : ∀ signal, signal.version ≤ (f signal).version) : Skirts b w w' := by
  have source : (w'.sourceOf b) = w.sourceOf b ∨
      t = (w.branches.get b).source ∧ w'.sourceOf b = f (w.sourceOf b) := by
    unfold World.sourceOf
    rw [dev.branches, signals]
    by_cases here : t = (w.branches.get b).source
    · subst here
      rcases Nat.lt_or_ge (w.branches.get b).source.index w.signals.size with valid | invalid
      · exact .inr ⟨rfl, Heap.get_modify_self _ _ _ valid⟩
      · exact .inl (by rw [Heap.modify_of_size_le _ _ _ invalid])
    · exact .inl (Heap.get_modify_of_ne _ _ _ _ here)
  refine ⟨dev, deedsOf_congr deeds, fun a _ _ => by rw [activations], fun e a new reaction => ?_,
    ?_, ?_, ?_⟩
  · rw [activations]
    exact newcomers e a new reaction
  · rcases source with same | ⟨here, changed⟩
    · exact ⟨[], by rw [same]; rfl, by simp⟩
    · exact ⟨l (w.sourceOf b), by rw [changed, past], foreign here _⟩
  · rcases source with same | ⟨-, changed⟩
    · rw [same]
      exact fun e he _ => he
    · rw [changed]
      exact members _
  · rcases source with same | ⟨-, changed⟩
    · exact Nat.le_of_eq (congrArg Signal.version same.symm)
    · rw [changed]
      exact version _

end Skirts

namespace Passes

theorem accounts (h : Passes b w w') : Accounts b n w w' := by
  refine ⟨h.toDevelops, h.version, fun _ => h.deedsOf, fun X accounted told _ =>
    ⟨⟨h.noted accounted.toNoted, ?_, fun e he a serves out => ?_⟩, ⟨[], h.deedsOf, by simp⟩,
      fun a ha => ?_, fun a vacant => ?_, ?_⟩⟩
  · rw [h.deedsOf]
    exact h.unaltered.shows accounted.shows
  · have before := h.serves accounted.toLedger serves
    exact h.unaltered.reposed (accounted.abreast e (h.members e he before.known) a before out)
  · obtain ⟨e, -, -, serves, -⟩ := told a ha
    exact h.flags a (accounted.periods e a serves.1) serves.2
  · exact h.vacant accounted.toLedger vacant
  · exact fun same a told => h.toldNow accounted.toLedger told same

/-- The output is not the signal that changes, or it goes on without a change. -/
theorem of_skirts {t : SignalId} {f : Signal → Signal} (h : Skirts b w w')
    (signals : w'.signals = w.signals.modify t f)
    (output : t = (w.branches.get b).output → ∀ signal, Unaltered signal (f signal)) :
    Passes b w w' := by
  refine ⟨h, ?_⟩
  unfold World.outputOf
  rw [h.branches, signals]
  by_cases here : t = (w.branches.get b).output
  · subst here
    rcases Nat.lt_or_ge (w.branches.get b).output.index w.signals.size with valid | invalid
    · rw [Heap.get_modify_self _ _ _ valid]
      exact output rfl _
    · rw [Heap.modify_of_size_le _ _ _ invalid]
      exact .refl _
  · rw [Heap.get_modify_of_ne _ _ _ _ here]
    exact .refl _

/-- Nothing is changed that matches look at. -/
theorem of_eq (dev : Develops w w') (deeds : w'.deedsOf b = w.deedsOf b)
    (flags : ∀ a, a.index < w.activations.size → (w.activations.get a).branch = b →
      w'.activations.get a = w.activations.get a)
    (signals : w'.signals = w.signals) (entries : w'.entries = w.entries) : Passes b w w' := by
  have source : w'.sourceOf b = w.sourceOf b := by
    unfold World.sourceOf
    rw [signals, dev.branches]
  have output : w'.outputOf b = w.outputOf b := by
    unfold World.outputOf
    rw [signals, dev.branches]
  refine ⟨⟨dev, deeds, flags, fun e a new reaction => ?_, ⟨[], by rw [source]; rfl, by simp⟩, ?_, ?_⟩,
    ?_⟩
  · rw [entries, Heap.get_of_size_le _ _ new] at reaction
    cases reaction
  · rw [source]
    exact fun e he _ => he
  · exact Nat.le_of_eq (congrArg Signal.version source.symm)
  · rw [output]
    exact .refl _

theorem of_idling (idling : Idling w w') : Passes b w w' :=
  .of_eq idling.toBeside.same.toDevelops (deedsOf_congr idling.deeds)
    (fun _ _ _ => by rw [idling.periods]) idling.signals idling.entries

end Passes

/-! What each change to a world is to a match. -/

theorem changed_skirts (t : SignalId) (value : Option Value) :
    Skirts b w (Signal.changed t value w) := by
  refine .of_signal (f := fun signal => .bumped { signal with value })
    (l := fun signal => [.changed value]) (changed_same t value w).toDevelops rfl rfl
    (fun e a new reaction => ?_) rfl (fun _ => rfl) (fun _ _ m hm => ?_) (fun _ e he _ => he)
    fun _ => Nat.le_succ _
  · rw [show (Signal.changed t value w).entries = w.entries from rfl,
      Heap.get_of_size_le _ _ new] at reaction
    cases reaction
  · rw [List.mem_singleton.1 hm]
    trivial

/-- A change of any signal but the output. -/
theorem changed_passes {t : SignalId} (value : Option Value)
    (other : t ≠ (w.branches.get b).output) : Passes b w (Signal.changed t value w) :=
  .of_skirts (changed_skirts t value) rfl fun here => absurd here other

theorem changed_accounts {t : SignalId} (value : Option Value)
    (other : b.index < w.branches.size → t ≠ (w.branches.get b).output) :
    Accounts b n w (Signal.changed t value w) := by
  have skirts : Skirts b w (Signal.changed t value w) := changed_skirts t value
  refine ⟨skirts.toDevelops, skirts.version, fun _ => skirts.deedsOf, fun X accounted told once => ?_⟩
  exact (changed_passes value (other accounted.made)).accounts.kept X accounted told once

/-- A call of somebody who does not offer values to the match. -/
theorem marked_passes {t : SignalId} {n : Nat} (known : e.index < w.entries.size)
    (stranger : t = (w.branches.get b).source → ∀ a, ¬ Serves w b a e) :
    Passes b w (Signal.marked t n e w) := by
  have reaction : ∀ e', ((Signal.marked t n e w).entries.get e').reaction =
      (w.entries.get e').reaction :=
    fun e' => Heap.get_modify_same _ e e' _ Entry.reaction fun _ => rfl
  refine .of_skirts (t := t) (f := Signal.showing e (some n)) (.of_signal
    (l := fun signal => [.told e (some n) signal.version signal.value])
    (marked_same t n e w).toDevelops rfl rfl (fun e' a new hr => ?_) rfl (fun _ => rfl)
    (fun here _ m hm => ?_) (fun _ e he _ => he) fun _ => Nat.le_refl _) rfl fun _ => .showing e _
  · rw [reaction, Heap.get_of_size_le _ _ new] at hr
    cases hr
  · rw [List.mem_singleton.1 hm]
    refine ⟨?_, fun a serves => stranger here a ⟨(reaction e).symm.trans serves.1, serves.2⟩⟩
    rw [show (Signal.marked t n e w).entries.size = w.entries.size from Heap.size_modify ..]
    exact known

theorem entered_passes (t : SignalId) {reaction : Reaction} (mode : Mode)
    (foreign : ∀ a, reaction = .branch a →
      a.index < w.activations.size ∧ (w.activations.get a).branch ≠ b) :
    Passes b w (Signal.entered t reaction mode w) := by
  have new : ∀ e a, w.entries.size ≤ e.index →
      ((Signal.entered t reaction mode w).entries.get e).reaction = .branch a →
        reaction = .branch a := by
    intro e a he hr
    by_cases here : e = w.entries.next
    · rw [here, entered_reaction] at hr
      exact hr
    · have same : (Signal.entered t reaction mode w).entries.get e = w.entries.get e :=
        Heap.get_push_of_ne _ _ _ here
      rw [same, Heap.get_of_size_le _ _ he] at hr
      cases hr
  refine .of_skirts (t := t) (f := Signal.joinedBy w.entries.next mode) (.of_signal
    (l := fun _ => [.joined w.entries.next mode]) (entered_develops t reaction mode w) rfl rfl
    (fun e a he hr => foreign a (new e a he hr)) rfl (fun _ => rfl) (fun _ _ m hm => ?_)
    (fun _ e he known => ?_) fun _ => Nat.le_refl _) rfl fun _ => .joinedBy _ mode
  · rw [List.mem_singleton.1 hm]
    cases mode with
    | immediate => trivial
    | normal =>
      intro a serves
      exact (foreign a (new _ a (Nat.le_refl _) serves.1)).2 serves.2
  · rcases List.mem_append.1 he with he | he
    · exact he
    · rw [List.mem_singleton.1 he] at known
      exact absurd known (Nat.lt_irrefl _)

theorem greeted_passes {t : SignalId} (known : e.index < w.entries.size)
    (stranger : ∀ a, ¬ Serves w b a e) : Passes b w (Signal.greeted t e w) := by
  refine .of_skirts (t := t) (f := Signal.showing e none) (.of_signal
    (l := fun signal => [.told e none signal.version signal.value])
    (greeted_same t e w).toDevelops rfl rfl (fun e' a new hr => ?_) rfl (fun _ => rfl)
    (fun _ _ m hm => ?_) (fun _ e he _ => he) fun _ => Nat.le_refl _) rfl fun _ => .showing e none
  · rw [show (Signal.greeted t e w).entries = w.entries from rfl, Heap.get_of_size_le _ _ new] at hr
    cases hr
  · rw [List.mem_singleton.1 hm]
    exact ⟨known, fun a serves => stranger a serves⟩

theorem dropped_passes (t : SignalId) (e : EntryId) : Passes b w (Signal.dropped t e w) := by
  refine .of_skirts (t := t) (f := Signal.leftBy e) (.of_signal (l := fun _ => [.left e])
    (dropped_develops t e w) rfl rfl (fun e' a new hr => ?_) rfl (fun _ => rfl) (fun _ _ m hm => ?_)
    (fun _ _ he _ => List.mem_of_mem_erase he) fun _ => Nat.le_refl _) rfl fun _ => .leftBy e
  · rw [dropped_entry Entry.reaction fun _ => rfl, Heap.get_of_size_le _ _ new] at hr
    cases hr
  · rw [List.mem_singleton.1 hm]
    trivial

theorem flags_passes (t : SignalId) (started : Signal → Bool)
    (teardown : Signal → Option SubscriptionId) :
    Passes b w { w with signals := w.signals.modify t fun signal =>
      { signal with started := started signal, teardown := teardown signal } } := by
  refine .of_skirts (t := t) (.of_signal (l := fun _ => [])
    ((flags_evolves t started teardown w).develops rfl rfl) rfl rfl (fun e a new hr => ?_) rfl
    (fun _ => rfl) (fun _ _ m hm => ?_) (fun _ _ he _ => he) fun _ => Nat.le_refl _) rfl
    fun _ _ => ⟨rfl, rfl, fun h => h, fun h => h, fun h => h⟩
  · dsimp only at hr
    rw [Heap.get_of_size_le _ _ new] at hr
    cases hr
  · cases hm

theorem made_passes (c : Cancel) : Passes b w (Subscription.made c w) :=
  .of_eq (made_same c w).toDevelops rfl (fun _ _ _ => rfl) rfl rfl

theorem spent_passes (sub : SubscriptionId) : Passes b w (Subscription.spent sub w) :=
  .of_eq ((spent_evolves sub w).develops rfl rfl) rfl (fun _ _ _ => rfl) rfl rfl

theorem activated_passes (b' : BranchId) : Passes b w (Branch.activated b' w) :=
  .of_eq (activated_same b' w).toDevelops rfl (fun _ ha _ => Heap.get_push_of_lt _ _ _ ha) rfl rfl

theorem named_passes (name : Name) (sub : SubscriptionId) :
    Passes b w { w with names :=
      { w.names with subscriptions := w.names.subscriptions.insert name sub } } := by
  have ev : Evolves w { w with names :=
      { w.names with subscriptions := w.names.subscriptions.insert name sub } } :=
    ⟨rfl, fun _ => rfl, rfl, fun _ => rfl, fun _ => rfl, rfl, Nat.le_refl _, fun _ _ => rfl,
      Nat.le_refl _, fun _ _ => .inl rfl⟩
  exact .of_eq (ev.develops rfl rfl) rfl (fun _ _ _ => rfl) rfl rfl

theorem cell_passes (d : DerivationId) (f : Derivation → Derivation)
    (reading : ∀ cell, (f cell).reading = cell.reading)
    (output : ∀ cell, (f cell).output = cell.output) :
    Passes b w { w with derivations := w.derivations.modify d f } :=
  .of_eq ((cell_evolves d f reading output w).develops rfl rfl) rfl (fun _ _ _ => rfl) rfl rfl

theorem record_passes {run : Runner} (d : Deed) (other : d.branch ≠ b) :
    Ensures run (Branch.record d) w fun _ w' => Passes b w w' := by
  have beside := record_beside d run w
  refine (ensures_modify ..).2 (.of_eq ((ensures_modify ..).1 beside).same.toDevelops ?_
    (fun _ _ _ => rfl) rfl rfl)
  exact List.filter_cons_of_neg (by simpa using other)

theorem setInFallback_passes {run : Runner} (inFallback : Bool)
    (other : (w.activations.get a).branch ≠ b) :
    Ensures run (Branch.setInFallback a inFallback) w fun _ w' => Passes b w w' := by
  have beside := setInFallback_beside a inFallback run w
  refine (ensures_modify ..).2 (.of_eq ((ensures_modify ..).1 beside).same.toDevelops rfl
    (fun a' _ own => Heap.get_modify_of_ne _ _ _ _ ?_) rfl rfl)
  rintro rfl
  exact other own

end

end LiveMarkup.Live
