import LiveMarkup.Proofs.Runs
import LiveMarkup.Proofs.History

/-!
Delivery: subscribers hear of every change in order, with the value of the moment, and once. A
signal keeps its history, and a round of calls leaves nobody behind whom it set out to reach, however
deeply the callbacks write, subscribe and cancel in between.
-/
namespace LiveMarkup.Live

open History

/-- What a signal and the entries say agrees with the signal's history, which is orderly. -/
structure Recorded (entries : Heap .entry Entry) (signal : Signal) : Prop where
  orderly : Orderly signal.past
  value : signal.value = content signal.past
  version : signal.version = version signal.past
  subscribers : signal.subscribers = members signal.past
  sorted : (joiners signal.past).Pairwise (·.index < ·.index)
  known : ∀ e ∈ joiners signal.past, e.index < entries.size
  active : ∀ e ∈ joiners signal.past, (entries.get e).active = true ↔ e ∈ signal.subscribers
  seen : ∀ e ∈ signal.subscribers, (entries.get e).seen ≤ signal.version
  told : ∀ e r v x, .told e r v x ∈ signal.past →
    e ∈ joiners signal.past ∧ v ≤ (entries.get e).seen
  rounds : ∀ e n v x, .told e (some n) v x ∈ signal.past → n ≤ signal.version
  latest : ∀ e ∈ signal.subscribers,
    lastShown e signal.past = some (entries.get e).seen ∨
      JoinedAt e (entries.get e).seen signal.past

namespace Recorded
variable {entries entries' : Heap .entry Entry} {signal : Signal} {e : EntryId}

theorem joined (h : Recorded entries signal) (he : e ∈ signal.subscribers) :
    e ∈ joiners signal.past :=
  members_sublist_joiners.subset (h.subscribers ▸ he)

theorem nodup (h : Recorded entries signal) : signal.subscribers.Nodup := by
  have hj : (joiners signal.past).Nodup := by
    refine h.sorted.imp fun hab heq => ?_
    subst heq
    omega
  rw [h.subscribers]
  exact hj.sublist members_sublist_joiners

/-- Those who never joined a signal do not matter to it. -/
theorem of_entries (h : Recorded entries signal) (size : entries.size ≤ entries'.size)
    (same : ∀ e ∈ joiners signal.past, entries'.get e = entries.get e) :
    Recorded entries' signal where
  orderly := h.orderly
  value := h.value
  version := h.version
  subscribers := h.subscribers
  sorted := h.sorted
  known e he := Nat.lt_of_lt_of_le (h.known e he) size
  active e he := by
    rw [same e he]
    exact h.active e he
  seen e he := by
    rw [same e (h.joined he)]
    exact h.seen e he
  told e r v x ht := by
    rw [same e (h.told e r v x ht).1]
    exact h.told e r v x ht
  rounds := h.rounds
  latest e he := by
    rw [same e (h.joined he)]
    exact h.latest e he

theorem default : Recorded entries (Inhabited.default : Signal) where
  orderly := trivial
  value := rfl
  version := rfl
  subscribers := rfl
  sorted := .nil
  known _ he := nomatch he
  active _ he := nomatch he
  seen _ he := nomatch he
  told _ _ _ _ ht := nomatch ht
  rounds _ _ _ _ ht := nomatch ht
  latest _ he := nomatch he

theorem fresh (value : Option Value) (producer : Option Producer) :
    Recorded entries (.fresh value producer) where
  orderly := ⟨rfl, trivial⟩
  value := rfl
  version := rfl
  subscribers := rfl
  sorted := .nil
  known _ he := nomatch he
  active _ he := nomatch he
  seen _ he := nomatch he
  told _ _ _ _ ht := by simp [Signal.fresh] at ht
  rounds _ _ _ _ ht := by simp [Signal.fresh] at ht
  latest _ he := nomatch he

theorem flags (h : Recorded entries signal) (started : Bool) (teardown : Option SubscriptionId) :
    Recorded entries { signal with started, teardown } := by
  obtain ⟨h₁, h₂, h₃, h₄, h₅, h₆, h₇, h₈, h₉, h₁₀, h₁₁⟩ := h
  exact ⟨h₁, h₂, h₃, h₄, h₅, h₆, h₇, h₈, h₉, h₁₀, h₁₁⟩

theorem bumped (h : Recorded entries signal) (value : Option Value) :
    Recorded entries (Signal.bumped { signal with value }) where
  orderly := ⟨trivial, h.orderly⟩
  value := rfl
  version := congrArg (· + 1) h.version
  subscribers := h.subscribers
  sorted := h.sorted
  known := h.known
  active := h.active
  seen e he := Nat.le_succ_of_le (h.seen e he)
  told e r v x ht := by
    simp only [Signal.bumped, List.mem_cons, reduceCtorEq, false_or] at ht
    exact h.told e r v x ht
  rounds e n v x ht := by
    simp only [Signal.bumped, List.mem_cons, reduceCtorEq, false_or] at ht
    exact Nat.le_succ_of_le (h.rounds e n v x ht)
  latest e he := (h.latest e he).imp id JoinedAt.cons

/-- Showing the newest version to a subscriber who has not seen it, in a round in which nobody who
came later was called. -/
theorem showing (h : Recorded entries signal) (he : e ∈ signal.subscribers)
    (unseen : (entries.get e).seen < signal.version) {n : Nat} (hn : n ≤ signal.version)
    (order : ∀ e' u x, .told e' (some n) u x ∈ signal.past → e'.index < e.index) :
    Recorded (entries.modify e fun entry => { entry with seen := signal.version })
      (signal.showing e (some n)) := by
  have hk := h.known e (h.joined he)
  have self := entries.get_modify_self e (fun entry => { entry with seen := signal.version }) hk
  have other : ∀ e', e' ≠ e → (entries.modify e fun entry =>
      { entry with seen := signal.version }).get e' = entries.get e' :=
    fun e' ne => entries.get_modify_of_ne e e' _ ne.symm
  constructor
  case orderly =>
    refine ⟨⟨h.value, h.version, h.subscribers ▸ he, ?_, ?_⟩, h.orderly⟩
    · intro r u x ht
      exact Nat.lt_of_le_of_lt (h.told e r u x ht).2 unseen
    · rintro _ ⟨⟩
      refine ⟨hn, fun e' u x ht => ?_⟩
      exact pair_sublist h.sorted (h.told _ _ _ _ ht).1 (h.joined he) (order e' u x ht)
  case value => exact h.value
  case version => exact h.version
  case subscribers => exact h.subscribers
  case sorted => exact h.sorted
  case known =>
    intro e' he'
    rw [Heap.size_modify]
    exact h.known e' he'
  case active =>
    intro e' he'
    by_cases heq : e' = e
    · subst heq
      rw [self]
      exact h.active e' he'
    · rw [other e' heq]
      exact h.active e' he'
  case seen =>
    intro e' he'
    by_cases heq : e' = e
    · subst heq
      rw [self]
      exact Nat.le_refl _
    · rw [other e' heq]
      exact h.seen e' he'
  case told =>
    intro e' r v x ht
    by_cases heq : e' = e
    · subst heq
      refine ⟨h.joined he, ?_⟩
      rw [self]
      rcases List.mem_cons.1 ht with ht | ht
      · cases ht
        exact Nat.le_refl _
      · exact Nat.le_of_lt (Nat.lt_of_le_of_lt (h.told e' r v x ht).2 unseen)
    · rw [other e' heq]
      rcases List.mem_cons.1 ht with ht | ht
      · cases ht
        exact absurd rfl heq
      · exact h.told e' r v x ht
  case rounds =>
    intro e' k v x ht
    rcases List.mem_cons.1 ht with ht | ht
    · cases ht
      exact hn
    · exact h.rounds e' k v x ht
  case latest =>
    intro e' he'
    by_cases heq : e' = e
    · subst heq
      rw [self]
      left
      simp [Signal.showing, lastShown]
    · rw [other e' heq]
      refine (h.latest e' he').imp (fun hl => ?_) JoinedAt.cons
      simp only [Signal.showing, lastShown, if_neg (Ne.symm heq)]
      exact hl

/-- A subscriber that leaves, and is told nothing from then on. -/
theorem leftBy (h : Recorded entries signal) (he : e ∈ signal.subscribers) :
    Recorded (entries.modify e fun entry => { entry with active := false })
      (signal.leftBy e) := by
  have hk := h.known e (h.joined he)
  have self := entries.get_modify_self e (fun entry => { entry with active := false }) hk
  have other : ∀ e', e' ≠ e → (entries.modify e fun entry =>
      { entry with active := false }).get e' = entries.get e' :=
    fun e' ne => entries.get_modify_of_ne e e' _ ne.symm
  have seen : ∀ e', ((entries.modify e fun entry => { entry with active := false }).get e').seen =
      (entries.get e').seen := by
    intro e'
    by_cases heq : e' = e
    · subst heq
      rw [self]
    · rw [other e' heq]
  have staying : ∀ e', e' ∈ signal.subscribers.erase e → e' ∈ signal.subscribers :=
    fun e' he' => List.mem_of_mem_erase he'
  constructor
  case orderly => exact ⟨trivial, h.orderly⟩
  case value => exact h.value
  case version => exact h.version
  case subscribers => exact congrArg (·.erase e) h.subscribers
  case sorted => exact h.sorted
  case known =>
    intro e' he'
    rw [Heap.size_modify]
    exact h.known e' he'
  case active =>
    intro e' he'
    by_cases heq : e' = e
    · subst heq
      rw [self]
      have gone : e' ∉ signal.subscribers.erase e' := h.nodup.not_mem_erase
      simp [Signal.leftBy, gone]
    · rw [other e' heq]
      exact (h.active e' he').trans (List.mem_erase_of_ne heq).symm
  case seen =>
    intro e' he'
    rw [seen]
    exact h.seen e' (staying e' he')
  case told =>
    intro e' r v x ht
    rw [seen]
    simp only [Signal.leftBy, List.mem_cons, reduceCtorEq, false_or] at ht
    exact h.told e' r v x ht
  case rounds =>
    intro e' n v x ht
    simp only [Signal.leftBy, List.mem_cons, reduceCtorEq, false_or] at ht
    exact h.rounds e' n v x ht
  case latest =>
    intro e' he'
    rw [seen]
    exact (h.latest e' (staying e' he')).imp id JoinedAt.cons

theorem leftByStranger (h : Recorded entries signal) (he : e ∉ signal.subscribers) :
    Recorded entries (signal.leftBy e) := by
  have same : signal.subscribers.erase e = signal.subscribers := List.erase_of_not_mem he
  constructor
  case orderly => exact ⟨trivial, h.orderly⟩
  case value => exact h.value
  case version => exact h.version
  case subscribers => exact congrArg (·.erase e) h.subscribers
  case sorted => exact h.sorted
  case known => exact h.known
  case active =>
    intro e' he'
    simp only [Signal.leftBy, same]
    exact h.active e' he'
  case seen =>
    intro e' he'
    simp only [Signal.leftBy, same] at he'
    exact h.seen e' he'
  case told =>
    intro e' r v x ht
    simp only [Signal.leftBy, List.mem_cons, reduceCtorEq, false_or] at ht
    exact h.told e' r v x ht
  case rounds =>
    intro e' n v x ht
    simp only [Signal.leftBy, List.mem_cons, reduceCtorEq, false_or] at ht
    exact h.rounds e' n v x ht
  case latest =>
    intro e' he'
    simp only [Signal.leftBy, same] at he'
    exact (h.latest e' he').imp id JoinedAt.cons

end Recorded

/-- A signal after a subscriber joined, and was called at once if it asked for that. -/
def Signal.withJoined (e : EntryId) (mode : Mode) (signal : Signal) : Signal :=
  match mode with
  | .normal => signal.joinedBy e .normal
  | .immediate => (signal.joinedBy e .immediate).showing e none

namespace Recorded
variable {entries entries' : Heap .entry Entry} {signal : Signal} {e : EntryId}

theorem withJoined (h : Recorded entries signal) (mode : Mode) (reaction : Reaction) :
    Recorded (entries.push ⟨true, signal.version, reaction⟩)
      (signal.withJoined entries.next mode) := by
  have new := entries.get_push_next ⟨true, signal.version, reaction⟩
  have old : ∀ e ∈ joiners signal.past,
      (entries.push ⟨true, signal.version, reaction⟩).get e = entries.get e :=
    fun e he => entries.get_push_of_lt e _ (h.known e he)
  have stranger : entries.next ∉ joiners signal.past :=
    fun he => Nat.lt_irrefl _ (h.known _ he)
  have joiners_eq : joiners (signal.withJoined entries.next mode).past =
      joiners signal.past ++ [entries.next] := by
    cases mode <;> rfl
  have subscribers_eq : (signal.withJoined entries.next mode).subscribers =
      signal.subscribers ++ [entries.next] := by
    cases mode <;> rfl
  have version_eq : (signal.withJoined entries.next mode).version = signal.version := by
    cases mode <;> rfl
  have told_cases : ∀ e r v x, .told e r v x ∈ (signal.withJoined entries.next mode).past →
      .told e r v x ∈ signal.past ∨ e = entries.next ∧ r = none ∧ v = signal.version := by
    intro e r v x ht
    cases mode <;>
      simp only [Signal.withJoined, Signal.joinedBy, Signal.showing, List.mem_cons, reduceCtorEq,
        false_or, Moment.told.injEq] at ht
    · exact .inl ht
    · rcases ht with ⟨h₁, h₂, h₃, -⟩ | ht
      · exact .inr ⟨h₁, h₂, h₃⟩
      · exact .inl ht
  constructor
  case orderly =>
    cases mode with
    | normal => exact ⟨stranger, h.orderly⟩
    | immediate =>
      refine ⟨⟨h.value, h.version, ?_, ?_, ?_⟩, stranger, h.orderly⟩
      · simp [Signal.joinedBy, members]
      · intro r u x ht
        simp only [Signal.joinedBy, List.mem_cons, reduceCtorEq, false_or] at ht
        exact absurd (h.told _ _ _ _ ht).1 stranger
      · rintro _ ⟨⟩
  case value =>
    cases mode with
    | normal => exact h.value
    | immediate => exact h.value
  case version =>
    cases mode with
    | normal => exact h.version
    | immediate => exact h.version
  case subscribers =>
    cases mode with
    | normal => exact congrArg (· ++ [entries.next]) h.subscribers
    | immediate => exact congrArg (· ++ [entries.next]) h.subscribers
  case sorted =>
    rw [joiners_eq, List.pairwise_append]
    refine ⟨h.sorted, List.pairwise_singleton _ _, fun e he e' he' => ?_⟩
    rw [List.mem_singleton.1 he']
    exact h.known e he
  case known =>
    intro e he
    rw [Heap.size_push]
    rw [joiners_eq, List.mem_append, List.mem_singleton] at he
    rcases he with he | rfl
    · exact Nat.lt_succ_of_lt (h.known e he)
    · exact Nat.lt_succ_self _
  case active =>
    intro e he
    rw [joiners_eq, List.mem_append, List.mem_singleton] at he
    rw [subscribers_eq, List.mem_append, List.mem_singleton]
    rcases he with he | rfl
    · have ne : e ≠ entries.next := fun heq => stranger (heq ▸ he)
      rw [old e he, h.active e he]
      simp [ne]
    · simp
  case seen =>
    intro e he
    rw [version_eq]
    rw [subscribers_eq, List.mem_append, List.mem_singleton] at he
    rcases he with he | rfl
    · rw [old e (h.joined he)]
      exact h.seen e he
    · simp only [new, Nat.le_refl]
  case told =>
    intro e r v x ht
    rw [joiners_eq, List.mem_append, List.mem_singleton]
    rcases told_cases e r v x ht with ht | ⟨rfl, -, rfl⟩
    · have he := (h.told e r v x ht).1
      rw [old e he]
      exact ⟨.inl he, (h.told e r v x ht).2⟩
    · rw [new]
      exact ⟨.inr rfl, Nat.le_refl _⟩
  case rounds =>
    intro e n v x ht
    rw [version_eq]
    rcases told_cases e (some n) v x ht with ht | ⟨-, hr, -⟩
    · exact h.rounds e n v x ht
    · cases hr
  case latest =>
    intro e he
    rw [subscribers_eq, List.mem_append, List.mem_singleton] at he
    rcases he with he | rfl
    · have ne : e ≠ entries.next := fun heq => stranger (heq ▸ h.joined he)
      rw [old e (h.joined he)]
      cases mode with
      | normal => exact (h.latest e he).imp id JoinedAt.cons
      | immediate =>
        refine (h.latest e he).imp (fun hl => ?_) fun hj => hj.cons.cons
        simp only [Signal.withJoined, Signal.showing, lastShown, if_neg ne.symm]
        exact hl
    · rw [new]
      cases mode with
      | normal => exact .inr ⟨[], signal.past, rfl, h.version.symm⟩
      | immediate => exact .inl (by simp [Signal.withJoined, Signal.showing, lastShown, Signal.joinedBy])

end Recorded

/-- Every signal is recorded faithfully, and nobody joins two signals. -/
structure Faithful (w : World) : Prop where
  signals : ∀ s, Recorded w.entries (w.signals.get s)
  owner : ∀ s t e, e ∈ joiners (w.signals.get s).past → e ∈ joiners (w.signals.get t).past → s = t

/-- The subscribers have seen the newest versions, up to those who are excepted. -/
def UpTo (P : EntryId → Prop) (w : World) : Prop :=
  ∀ s, ∀ e ∈ (w.signals.get s).subscribers, ¬ P e →
    (w.entries.get e).seen = (w.signals.get s).version

/-- Nothing is forgotten on the way from one world to another. -/
structure Grows (w w' : World) : Prop where
  faithful : Faithful w'
  entries : w.entries.size ≤ w'.entries.size
  version : ∀ s, (w.signals.get s).version ≤ (w'.signals.get s).version
  past : ∀ s, (w.signals.get s).past <:+ (w'.signals.get s).past

/-- What every operation does: nothing is forgotten, the rounds of before call nobody any more, and
whoever was up to date stays so. -/
structure Progress (w w' : World) : Prop extends Grows w w' where
  rounds : ∀ s, ∀ n ≤ (w.signals.get s).version, ∀ e v x,
    .told e (some n) v x ∈ (w'.signals.get s).past → .told e (some n) v x ∈ (w.signals.get s).past
  upTo : ∀ P, UpTo P w → UpTo P w'

/-- Progress from every world that is faithful. -/
def Delivers (w w' : World) : Prop :=
  Faithful w → Progress w w'

theorem Grows.refl {w : World} (h : Faithful w) : Grows w w where
  faithful := h
  entries := Nat.le_refl _
  version _ := Nat.le_refl _
  past _ := List.suffix_rfl

theorem Grows.trans {w₁ w₂ w₃ : World} (h : Grows w₁ w₂) (h' : Grows w₂ w₃) : Grows w₁ w₃ where
  faithful := h'.faithful
  entries := Nat.le_trans h.entries h'.entries
  version s := Nat.le_trans (h.version s) (h'.version s)
  past s := (h.past s).trans (h'.past s)

theorem Delivers.refl (w : World) : Delivers w w :=
  fun h => ⟨.refl h, fun _ _ _ _ _ _ ht => ht, fun _ up => up⟩

theorem Delivers.trans {w₁ w₂ w₃ : World} (h : Delivers w₁ w₂) (h' : Delivers w₂ w₃) :
    Delivers w₁ w₃ := by
  intro hw
  have p := h hw
  have p' := h' p.faithful
  refine ⟨p.toGrows.trans p'.toGrows, fun s n hn e v x ht => ?_, fun P up => p'.upTo P (p.upTo P up)⟩
  exact p.rounds s n hn e v x (p'.rounds s n (Nat.le_trans hn (p.version s)) e v x ht)

/-- Nobody's history is touched by changes of anything else. -/
theorem Delivers.apart {w w' : World} (signals : w'.signals = w.signals)
    (entries : w'.entries = w.entries) : Delivers w w' := by
  intro h
  have faithful : Faithful w' := by
    constructor
    · rw [signals, entries]
      exact h.signals
    · rw [signals]
      exact h.owner
  refine ⟨⟨faithful, ?_, fun s => ?_, fun s => ?_⟩, fun s n hn e v x ht => ?_, fun P up => ?_⟩
  · simp only [entries, Nat.le_refl]
  · simp only [signals, Nat.le_refl]
  · simp only [signals, List.suffix_rfl]
  · rw [signals] at ht
    exact ht
  · unfold UpTo
    rw [signals, entries]
    exact up

/-- One signal goes on; the others, and those who joined them, stay as they are. -/
structure Advances (s : SignalId) (w w' : World) : Prop where
  others : ∀ t, t ≠ s → w'.signals.get t = w.signals.get t
  strangers : ∀ t, t ≠ s → ∀ e ∈ joiners (w.signals.get t).past,
    w'.entries.get e = w.entries.get e
  entries : w.entries.size ≤ w'.entries.size
  version : (w.signals.get s).version ≤ (w'.signals.get s).version
  past : (w.signals.get s).past <:+ (w'.signals.get s).past
  newcomers : ∀ e ∈ joiners (w'.signals.get s).past,
    e ∈ joiners (w.signals.get s).past ∨ w.entries.size ≤ e.index

namespace Advances
variable {s : SignalId} {w w' : World}

theorem grows (a : Advances s w w') (h : Faithful w)
    (recorded : Recorded w'.entries (w'.signals.get s)) : Grows w w' := by
  have apart : ∀ t, t ≠ s → ∀ e ∈ joiners (w'.signals.get s).past,
      e ∉ joiners (w.signals.get t).past := by
    intro t ht e he he'
    rcases a.newcomers e he with hold | hnew
    · exact ht (h.owner t s e he' hold)
    · exact absurd ((h.signals t).known e he') (Nat.not_lt.2 hnew)
  have faithful : Faithful w' := by
    constructor
    · intro t
      by_cases ht : t = s
      · subst ht
        exact recorded
      · rw [a.others t ht]
        exact (h.signals t).of_entries a.entries (a.strangers t ht)
    · intro t u e het heu
      by_cases ht : t = s
      · by_cases hu : u = s
        · rw [ht, hu]
        · rw [a.others u hu] at heu
          exact absurd heu (apart u hu e (ht ▸ het))
      · rw [a.others t ht] at het
        by_cases hu : u = s
        · exact absurd het (apart t ht e (hu ▸ heu))
        · rw [a.others u hu] at heu
          exact h.owner t u e het heu
  refine ⟨faithful, a.entries, fun t => ?_, fun t => ?_⟩
  · by_cases ht : t = s
    · rw [ht]
      exact a.version
    · simp only [a.others t ht, Nat.le_refl]
  · by_cases ht : t = s
    · rw [ht]
      exact a.past
    · simp only [a.others t ht, List.suffix_rfl]

theorem upTo (a : Advances s w w') (h : Faithful w) {P P' : EntryId → Prop} (up : UpTo P w)
    (weaker : ∀ e, P e → P' e) (here : ∀ e ∈ (w'.signals.get s).subscribers, ¬ P' e →
      (w'.entries.get e).seen = (w'.signals.get s).version) : UpTo P' w' := by
  intro t e he hP
  by_cases ht : t = s
  · subst ht
    exact here e he hP
  · rw [a.others t ht] at he ⊢
    rw [a.strangers t ht e ((h.signals t).joined he)]
    exact up t e he fun hp => hP (weaker e hp)

/-- A change that calls nobody in a round, and after which its signal's subscribers are up to date
if they were before. -/
theorem progress (a : Advances s w w') (h : Faithful w)
    (recorded : Recorded w'.entries (w'.signals.get s))
    (calls : ∀ e n v x, .told e (some n) v x ∈ (w'.signals.get s).past →
      .told e (some n) v x ∈ (w.signals.get s).past)
    (here : ∀ P, UpTo P w → ∀ e ∈ (w'.signals.get s).subscribers, ¬ P e →
      (w'.entries.get e).seen = (w'.signals.get s).version) : Progress w w' := by
  refine ⟨a.grows h recorded, fun t n _ e v x ht => ?_, fun P up => ?_⟩
  · by_cases hts : t = s
    · subst hts
      exact calls e n v x ht
    · rw [a.others t hts] at ht
      exact ht
  · exact a.upTo h up (fun _ hp => hp) (here P up)

end Advances

/-- Changing the past of a signal, and entries that are its own or nobody's. -/
theorem advances_modify {s : SignalId} {w w' : World} (hs : s.index < w.signals.size)
    {f : Signal → Signal} (signals : w'.signals = w.signals.modify s f)
    (entries : w.entries.size ≤ w'.entries.size)
    (strangers : ∀ t, t ≠ s → ∀ e ∈ joiners (w.signals.get t).past,
      w'.entries.get e = w.entries.get e)
    (version : (w.signals.get s).version ≤ (f (w.signals.get s)).version)
    (past : (w.signals.get s).past <:+ (f (w.signals.get s)).past)
    (newcomers : ∀ e ∈ joiners (f (w.signals.get s)).past,
      e ∈ joiners (w.signals.get s).past ∨ w.entries.size ≤ e.index) :
    Advances s w w' ∧ w'.signals.get s = f (w.signals.get s) := by
  have self : w'.signals.get s = f (w.signals.get s) := by
    rw [signals, Heap.get_modify_self _ _ _ hs]
  refine ⟨⟨fun t ht => ?_, strangers, entries, ?_, ?_, ?_⟩, self⟩
  · rw [signals, Heap.get_modify_of_ne _ _ _ _ ht.symm]
  · rw [self]
    exact version
  · rw [self]
    exact past
  · rw [self]
    exact newcomers

/-- The world in which a subscriber counts as having been called in a round. -/
def Signal.marked (s : SignalId) (round : Nat) (e : EntryId) (w : World) : World :=
  { w with
    entries := w.entries.modify e fun entry => { entry with seen := (w.signals.get s).version },
    signals := w.signals.modify s (Signal.showing e (some round)) }

/-- The world in which a signal has a new content. -/
def Signal.changed (s : SignalId) (value : Option Value) (w : World) : World :=
  { w with signals := w.signals.modify s fun signal => .bumped { signal with value } }

/-- Tells those who are subscribed of the newest version. -/
def Signal.tellAll (s : SignalId) (w : World) : Op Unit :=
  (w.signals.get s).subscribers.forM (Signal.tell s (w.signals.get s).version)

/-- When a subscriber may be called in a round: it joined, the round is under way, and nobody who
joined later was called in it. -/
structure Callable (s : SignalId) (n : Nat) (e : EntryId) (w : World) : Prop where
  joined : e ∈ joiners (w.signals.get s).past
  round : n ≤ (w.signals.get s).version
  order : ∀ e' v x, .told e' (some n) v x ∈ (w.signals.get s).past → e'.index < e.index

/-- What calls of subscribers in one round lead to: of the rounds of before, only that one goes on,
and those who were called are up to date. -/
structure Called (s : SignalId) (n : Nat) (l : List EntryId) (w w' : World) : Prop
    extends Grows w w' where
  rounds : ∀ t, ∀ k ≤ (w.signals.get t).version, ∀ e v x,
    .told e (some k) v x ∈ (w'.signals.get t).past →
      .told e (some k) v x ∈ (w.signals.get t).past ∨ t = s ∧ k = n ∧ e ∈ l
  upTo : ∀ P, UpTo (fun e => P e ∨ e ∈ l) w → UpTo P w'

section
variable {s : SignalId} {w : World} {run : Runner}

theorem Called.cons {n : Nat} {e : EntryId} {l : List EntryId} {w₁ w₂ : World}
    (c : Called s n [e] w w₁) (c' : Called s n l w₁ w₂) : Called s n (e :: l) w w₂ := by
  refine ⟨c.toGrows.trans c'.toGrows, fun t k hk e' v x ht => ?_, fun P up => ?_⟩
  · rcases c'.rounds t k (Nat.le_trans hk (c.version t)) e' v x ht with ht | ⟨hts, hkn, he'⟩
    · refine (c.rounds t k hk e' v x ht).imp id fun ⟨hts, hkn, he'⟩ => ?_
      exact ⟨hts, hkn, List.mem_cons.2 (.inl (List.mem_singleton.1 he'))⟩
    · exact .inr ⟨hts, hkn, List.mem_cons_of_mem _ he'⟩
  · refine c'.upTo P (c.upTo _ ?_)
    intro t e' he' hP
    refine up t e' he' fun hp => hP ?_
    simp only [List.mem_cons, List.not_mem_nil, or_false] at hp ⊢
    rcases hp with hp | hp | hp
    · exact .inl (.inl hp)
    · exact .inr hp
    · exact .inl (.inr hp)

theorem index_lt_of_joined {e : EntryId} (he : e ∈ joiners (w.signals.get s).past) :
    s.index < w.signals.size := by
  rcases Nat.lt_or_ge s.index w.signals.size with hs | hs
  · exact hs
  · rw [Heap.get_of_size_le _ _ hs] at he
    cases he

/-- A call either goes on from the world in which it is marked, or is passed over. -/
theorem tell_eq (n : Nat) (e : EntryId) :
    Signal.tell s n e run w =
      if (w.entries.get e).active && (w.entries.get e).seen < (w.signals.get s).version then
        run (.react (w.entries.get e).reaction (w.signals.get s).value) (Signal.marked s n e w)
      else .ok ((), w) := by
  have read : Signal.tell s n e run w =
      (if (w.entries.get e).active && (w.entries.get e).seen < (w.signals.get s).version then do
        set (Signal.marked s n e w)
        invoke (.react (w.entries.get e).reaction (w.signals.get s).value)
      else pure () : Op Unit) run w := rfl
  rw [read]
  split
  · rfl
  · rfl

theorem marked_called {n : Nat} {e : EntryId} (h : Faithful w) (c : Callable s n e w)
    (active : (w.entries.get e).active = true)
    (unseen : (w.entries.get e).seen < (w.signals.get s).version) :
    Called s n [e] w (Signal.marked s n e w) := by
  have recorded := h.signals s
  have member := (recorded.active e c.joined).1 active
  have strangers : ∀ t, t ≠ s → ∀ e' ∈ joiners (w.signals.get t).past,
      (Signal.marked s n e w).entries.get e' = w.entries.get e' := by
    intro t ht e' he'
    have ne : e ≠ e' := fun heq => ht (h.owner t s e (heq ▸ he') c.joined)
    exact Heap.get_modify_of_ne _ _ _ _ ne
  obtain ⟨a, self⟩ : Advances s w (Signal.marked s n e w) ∧ _ :=
    advances_modify (index_lt_of_joined c.joined) rfl (Nat.le_of_eq (Heap.size_modify ..).symm)
      strangers (Nat.le_refl _) (List.suffix_cons ..) fun e' he' => .inl he'
  refine ⟨a.grows h ?_, fun t k hk e' v x ht => ?_, fun P up t e' he' hP => ?_⟩
  · rw [self]
    exact recorded.showing member unseen c.round c.order
  · by_cases hts : t = s
    · subst hts
      rw [self] at ht
      rcases List.mem_cons.1 ht with ht | ht
      · cases ht
        exact .inr ⟨rfl, rfl, List.mem_singleton_self _⟩
      · exact .inl ht
    · rw [a.others t hts] at ht
      exact .inl ht
  · simp only [List.mem_singleton] at up
    by_cases hts : t = s
    · subst hts
      rw [self] at he' ⊢
      by_cases heq : e' = e
      · subst heq
        exact congrArg Entry.seen (Heap.get_modify_self _ _ _ (recorded.known e' c.joined))
      · have same : (Signal.marked t n e w).entries.get e' = w.entries.get e' :=
          Heap.get_modify_of_ne _ _ _ _ (Ne.symm heq)
        rw [same]
        exact up t e' he' fun hp => hp.elim hP heq
    · rw [a.others t hts] at he' ⊢
      have joined := (h.signals t).joined he'
      rw [strangers t hts e' joined]
      refine up t e' he' fun hp => hp.elim hP fun heq => ?_
      exact hts (h.owner t s e (heq ▸ joined) c.joined)

theorem tell_calls [KeptBy Delivers run] {n : Nat} {e : EntryId} (h : Faithful w)
    (c : Callable s n e w) :
    Ensures run (Signal.tell s n e) w fun _ w' => Called s n [e] w w' := by
  intro _ w' hw'
  rw [tell_eq] at hw'
  split at hw'
  case isTrue due =>
    simp only [Bool.and_eq_true, decide_eq_true_eq] at due
    have m := marked_called h c due.1 due.2
    have after := KeptBy.task (R := Delivers) _ _ w' hw' m.faithful
    refine ⟨m.toGrows.trans after.toGrows, fun t k hk e' v x ht => ?_, fun P up => ?_⟩
    · have hk₁ := Nat.le_trans hk (m.version t)
      exact m.rounds t k hk e' v x (after.rounds t k hk₁ e' v x ht)
    · exact after.upTo P (m.upTo P up)
  case isFalse notDue =>
    cases hw'
    refine ⟨.refl h, fun _ _ _ _ _ _ ht => .inl ht, fun P up t e' he' hP => ?_⟩
    by_cases heq : e' = e
    · subst heq
      have ht : t = s := h.owner t s e' ((h.signals t).joined he') c.joined
      subst ht
      have active := ((h.signals t).active e' c.joined).2 he'
      have seen := (h.signals t).seen e' he'
      simp only [active, Bool.true_and, decide_eq_true_eq] at notDue
      omega
    · exact up t e' he' fun hp => hp.elim hP fun hmem => heq (List.mem_singleton.1 hmem)

/-- A round, by induction on those who are left to be called. It keeps whatever each call keeps. -/
theorem tellEach_calls [KeptBy Delivers run] {I : World → Prop} {n : Nat} {l : List EntryId}
    (keeps : ∀ e w, Faithful w → Callable s n e w → I w →
      Ensures run (Signal.tell s n e) w fun _ w' => I w')
    (h : Faithful w) (sorted : l.Pairwise (·.index < ·.index))
    (callable : ∀ e ∈ l, Callable s n e w) (hI : I w) :
    Ensures run (l.forM (Signal.tell s n)) w fun _ w' => Called s n l w w' ∧ I w' := by
  induction l generalizing w with
  | nil =>
    refine (ensures_pure ..).2 ⟨⟨.refl h, fun _ _ _ _ _ _ ht => .inl ht, fun P up => ?_⟩, hI⟩
    intro t e he hP
    exact up t e he fun hp => hp.elim hP fun hnil => nomatch hnil
  | cons e l ih =>
    obtain ⟨first, rest⟩ := List.pairwise_cons.1 sorted
    have ce := callable e List.mem_cons_self
    refine (ensures_bind ..).2 fun _ w₁ hw₁ => ?_
    have c : Called s n [e] w w₁ := tell_calls h ce _ _ hw₁
    have hI₁ : I w₁ := keeps e w h ce hI _ _ hw₁
    have callable₁ : ∀ e' ∈ l, Callable s n e' w₁ := by
      intro e' he'
      have ce' := callable e' (List.mem_cons_of_mem _ he')
      refine ⟨joiners_subset_of_suffix (c.past s) ce'.joined,
        Nat.le_trans ce'.round (c.version s), fun e'' v x ht => ?_⟩
      rcases c.rounds s n ce'.round e'' v x ht with ht | ⟨-, -, heq⟩
      · exact ce'.order e'' v x ht
      · rw [List.mem_singleton.1 heq]
        exact first e' he'
    exact (ih c.faithful rest callable₁ hI₁).mono fun _ _ h' => ⟨c.cons h'.1, h'.2⟩

theorem changed_advances (hs : s.index < w.signals.size) (value : Option Value) :
    Advances s w (Signal.changed s value w) ∧
      (Signal.changed s value w).signals.get s = .bumped { w.signals.get s with value } := by
  have signals : (Signal.changed s value w).signals =
      w.signals.modify s fun signal => .bumped { signal with value } := rfl
  exact advances_modify hs signals (Nat.le_refl _) (fun _ _ _ _ => rfl) (Nat.le_succ _)
    (List.suffix_cons ..) fun _ he => .inl he

theorem changed_unknown (hs : w.signals.size ≤ s.index) (value : Option Value) :
    Signal.changed s value w = w := by
  unfold Signal.changed
  rw [Heap.modify_of_size_le _ _ _ hs]

theorem changed_grows (h : Faithful w) (value : Option Value) :
    Grows w (Signal.changed s value w) := by
  rcases Nat.lt_or_ge s.index w.signals.size with hs | hs
  · obtain ⟨a, self⟩ := changed_advances hs value
    refine a.grows h ?_
    rw [self]
    exact (h.signals s).bumped value
  · rw [changed_unknown hs]
    exact .refl h

theorem changed_told {value : Option Value} {t : SignalId} {e : EntryId} {r : Option Nat} {v : Nat}
    {x : Option Value} (ht : .told e r v x ∈ ((Signal.changed s value w).signals.get t).past) :
    .told e r v x ∈ (w.signals.get t).past := by
  rcases Nat.lt_or_ge s.index w.signals.size with hs | hs
  · obtain ⟨a, self⟩ := changed_advances hs value
    by_cases hts : t = s
    · subst hts
      rw [self] at ht
      simp only [Signal.bumped, List.mem_cons, reduceCtorEq, false_or] at ht
      exact ht
    · rw [a.others t hts] at ht
      exact ht
  · rw [changed_unknown hs] at ht
    exact ht

theorem changed_version (hs : s.index < w.signals.size) (value : Option Value) :
    ((Signal.changed s value w).signals.get s).version = (w.signals.get s).version + 1 := by
  rw [(changed_advances hs value).2]
  rfl

/-- After a change, the round that tells of it may begin. -/
theorem changed_callable (h : Faithful w) (value : Option Value) {e : EntryId}
    (he : e ∈ ((Signal.changed s value w).signals.get s).subscribers) :
    Callable s ((Signal.changed s value w).signals.get s).version e
      (Signal.changed s value w) := by
  have joined := ((changed_grows h value).faithful.signals s).joined he
  have hs : s.index < w.signals.size := by
    have := index_lt_of_joined joined
    simpa [Signal.changed] using this
  refine ⟨joined, Nat.le_refl _, fun e' v x ht => ?_⟩
  have hn := (h.signals s).rounds _ _ _ _ (changed_told ht)
  rw [changed_version hs] at hn
  omega

theorem tellAll_calls [KeptBy Delivers run] {I : World → Prop} (value : Option Value)
    (keeps : ∀ n e w, Faithful w → Callable s n e w → I w →
      Ensures run (Signal.tell s n e) w fun _ w' => I w')
    (h : Faithful w) (hI : I (Signal.changed s value w)) :
    let w₁ := Signal.changed s value w
    Ensures run (Signal.tellAll s w₁) w₁ fun _ w' =>
      Called s (w₁.signals.get s).version (w₁.signals.get s).subscribers w₁ w' ∧ I w' := by
  intro w₁
  have faithful : Faithful w₁ := (changed_grows h value).faithful
  have sorted : (w₁.signals.get s).subscribers.Pairwise (·.index < ·.index) := by
    rw [(faithful.signals s).subscribers]
    exact (faithful.signals s).sorted.sublist members_sublist_joiners
  exact tellEach_calls (keeps _) faithful sorted (fun e he => changed_callable h value he) hI

theorem round_delivers [KeptBy Delivers run] (value : Option Value) :
    let w₁ := Signal.changed s value w
    Ensures run (Signal.tellAll s w₁) w₁ fun _ w' => Delivers w w' := by
  intro w₁ a w' hw' h
  have grows₁ : Grows w w₁ := changed_grows h value
  have c : Called s (w₁.signals.get s).version (w₁.signals.get s).subscribers w₁ w' :=
    (tellAll_calls (I := fun _ => True) value (fun _ _ _ _ _ _ _ _ _ => trivial) h trivial
      a w' hw').1
  rcases Nat.lt_or_ge s.index w.signals.size with hs | hs
  case inr =>
    have unknown : w₁ = w := changed_unknown hs value
    have nobody : (w.signals.get s).subscribers = [] := by
      rw [Heap.get_of_size_le _ _ hs]
      rfl
    rw [unknown] at hw'
    unfold Signal.tellAll at hw'
    rw [nobody] at hw'
    cases hw'
    exact Delivers.refl w h
  case inl =>
    obtain ⟨adv, self⟩ := changed_advances hs value
    refine ⟨grows₁.trans c.toGrows, fun t k hk e v x ht => ?_, fun P up => ?_⟩
    · rcases c.rounds t k (Nat.le_trans hk (grows₁.version t)) e v x ht with ht | ⟨rfl, rfl, -⟩
      · exact changed_told ht
      · exact absurd hk (by rw [changed_version hs value]; omega)
    · refine c.upTo P (adv.upTo h up (fun e hp => .inl hp) fun e he hP => ?_)
      exact absurd (.inr he) hP

theorem replace_eq (s : SignalId) (value : Option Value) :
    Signal.replace s value run w =
      Signal.tellAll s (Signal.changed s value w) run (Signal.changed s value w) := by
  have fused : Signal.changed s value w = { w with signals :=
      (w.signals.modify s fun signal => { signal with value }).modify s Signal.bumped } := by
    rw [Heap.modify_modify]
    rfl
  rw [fused]
  rfl

theorem notify_eq (s : SignalId) :
    Signal.notify s run w = Signal.tellAll s (Signal.changed s (w.signals.get s).value w) run
      (Signal.changed s (w.signals.get s).value w) := by
  have same : Signal.changed s (w.signals.get s).value w =
      { w with signals := w.signals.modify s Signal.bumped } := by
    have signals : (w.signals.modify s fun signal =>
        .bumped { signal with value := (w.signals.get s).value }) =
          w.signals.modify s Signal.bumped := Heap.modify_congr _ _ rfl
    unfold Signal.changed
    rw [signals]
  rw [same]
  rfl

theorem replace_delivers [KeptBy Delivers run] (s : SignalId) (value : Option Value) :
    Keeps Delivers run (Signal.replace s value) := by
  intro w a w' hw'
  rw [replace_eq] at hw'
  exact round_delivers value a w' hw'

theorem notify_delivers [KeptBy Delivers run] (s : SignalId) :
    Keeps Delivers run (Signal.notify s) := by
  intro w a w' hw'
  rw [notify_eq] at hw'
  exact round_delivers _ a w' hw'

/-- Joining, with the call that comes with it. -/
theorem joined_delivers (s : SignalId) (reaction : Reaction) (mode : Mode) {w w₁ : World}
    (signals : w₁.signals = w.signals.modify s (Signal.withJoined w.entries.next mode))
    (entries : w₁.entries = w.entries.push ⟨true, (w.signals.get s).version, reaction⟩) :
    Delivers w w₁ := by
  intro h
  have size : w.entries.size ≤ w₁.entries.size := by
    rw [entries, Heap.size_push]
    exact Nat.le_succ _
  have known : ∀ t, ∀ e ∈ joiners (w.signals.get t).past,
      w₁.entries.get e = w.entries.get e := by
    intro t e he
    rw [entries]
    exact Heap.get_push_of_lt _ _ _ ((h.signals t).known e he)
  rcases Nat.lt_or_ge s.index w.signals.size with hs | hs
  case inr =>
    have same : w₁.signals = w.signals := by rw [signals, Heap.modify_of_size_le _ _ _ hs]
    have faithful : Faithful w₁ := by
      constructor
      · rw [same]
        exact fun t => (h.signals t).of_entries size (known t)
      · rw [same]
        exact h.owner
    refine ⟨⟨faithful, size, fun t => ?_, fun t => ?_⟩, fun t n hn e v x ht => ?_, fun P up => ?_⟩
    · simp only [same, Nat.le_refl]
    · simp only [same, List.suffix_rfl]
    · rw [same] at ht
      exact ht
    · intro t e he hP
      rw [same] at he ⊢
      rw [known t e ((h.signals t).joined he)]
      exact up t e he hP
  case inl =>
    have joiners_eq : joiners ((w.signals.get s).withJoined w.entries.next mode).past =
        joiners (w.signals.get s).past ++ [w.entries.next] := by
      cases mode <;> rfl
    have subscribers_eq : ((w.signals.get s).withJoined w.entries.next mode).subscribers =
        (w.signals.get s).subscribers ++ [w.entries.next] := by
      cases mode <;> rfl
    have version_eq : ((w.signals.get s).withJoined w.entries.next mode).version =
        (w.signals.get s).version := by
      cases mode <;> rfl
    obtain ⟨adv, self⟩ : Advances s w w₁ ∧ w₁.signals.get s = _ := by
      refine advances_modify hs signals size (fun t _ => known t) (Nat.le_of_eq version_eq.symm)
        ?_ ?_
      · cases mode with
        | normal => exact List.suffix_cons ..
        | immediate => exact List.suffix_append [_, _] _
      · intro e he
        rw [joiners_eq, List.mem_append, List.mem_singleton] at he
        refine he.imp id fun heq => ?_
        rw [heq]
        exact Nat.le_refl _
    have recorded₁ : Recorded w₁.entries (w₁.signals.get s) := by
      rw [self, entries]
      exact (h.signals s).withJoined mode reaction
    refine adv.progress h recorded₁ (fun e n v x ht => ?_) fun P up e he hP => ?_
    · rw [self] at ht
      cases mode <;>
        simp only [Signal.withJoined, Signal.joinedBy, Signal.showing, List.mem_cons,
          reduceCtorEq, false_or, Moment.told.injEq, false_and, and_false] at ht
      · exact ht
      · exact ht
    · rw [self, subscribers_eq, List.mem_append, List.mem_singleton] at he
      rw [self, version_eq]
      rcases he with he | rfl
      · rw [known s e ((h.signals s).joined he)]
        exact up s e he hP
      · rw [entries, Heap.get_push_next]

theorem join_delivers [KeptBy Delivers run] (s : SignalId) (reaction : Reaction) (mode : Mode) :
    Keeps Delivers run (Signal.join s reaction mode) := by
  intro w
  simp only [Signal.join, Signal.enter, Signal.greet, modifySignal, ensures_bind, ensures_get,
    ensures_set, ensures_pure]
  cases mode with
  | normal =>
    rw [if_neg Mode.noConfusion]
    simp only [ensures_pure]
    exact joined_delivers s reaction .normal rfl rfl
  | immediate =>
    simp only [if_true, ensures_bind, ensures_modify, ensures_get, ensures_invoke, ensures_pure]
    intro w' hw'
    refine Delivers.trans ?_ (KeptBy.task _ _ _ hw')
    exact joined_delivers s reaction .immediate (Heap.modify_modify ..) rfl

theorem left_delivers {e : EntryId} (he : e ∈ (w.signals.get s).subscribers) {w₁ : World}
    (signals : w₁.signals = w.signals.modify s (Signal.leftBy e))
    (entries : w₁.entries = w.entries.modify e fun entry => { entry with active := false }) :
    Delivers w w₁ := by
  intro h
  have hj := (h.signals s).joined he
  have other : ∀ e', e' ≠ e → w₁.entries.get e' = w.entries.get e' := by
    intro e' ne
    rw [entries]
    exact Heap.get_modify_of_ne _ _ _ _ ne.symm
  obtain ⟨adv, self⟩ : Advances s w w₁ ∧ w₁.signals.get s = _ := by
    refine advances_modify (index_lt_of_joined hj) signals ?_ (fun t ht e' he' => ?_)
      (Nat.le_refl _) (List.suffix_cons ..) fun e' he' => .inl he'
    · simp only [entries, Heap.size_modify, Nat.le_refl]
    · exact other e' fun heq => ht (h.owner t s e (heq ▸ he') hj)
  have recorded₁ : Recorded w₁.entries (w₁.signals.get s) := by
    rw [self, entries]
    exact (h.signals s).leftBy he
  refine adv.progress h recorded₁ (fun e' n v x ht => ?_) fun P up e' he' hP => ?_
  · rw [self] at ht
    simp only [Signal.leftBy, List.mem_cons, reduceCtorEq, false_or] at ht
    exact ht
  · rw [self] at he' ⊢
    have ne : e' ≠ e := by
      rintro rfl
      exact (h.signals s).nodup.not_mem_erase he'
    rw [other e' ne]
    exact up s e' (List.mem_of_mem_erase he') hP

theorem left_stranger_delivers {e : EntryId} (he : e ∉ (w.signals.get s).subscribers)
    {w₁ : World} (signals : w₁.signals = w.signals.modify s (Signal.leftBy e))
    (entries : w₁.entries = w.entries) : Delivers w w₁ := by
  rcases Nat.lt_or_ge s.index w.signals.size with hs | hs
  case inr =>
    rw [Heap.modify_of_size_le _ _ _ hs] at signals
    exact .apart signals entries
  case inl =>
    intro h
    obtain ⟨adv, self⟩ : Advances s w w₁ ∧ w₁.signals.get s = _ :=
      advances_modify hs signals (Nat.le_of_eq (by rw [entries])) (fun _ _ _ _ => by rw [entries])
        (Nat.le_refl _) (List.suffix_cons ..) fun e' he' => .inl he'
    have recorded₁ : Recorded w₁.entries (w₁.signals.get s) := by
      rw [self, entries]
      exact (h.signals s).leftByStranger he
    refine adv.progress h recorded₁ (fun e' n v x ht => ?_) fun P up e' he' hP => ?_
    · rw [self] at ht
      simp only [Signal.leftBy, List.mem_cons, reduceCtorEq, false_or] at ht
      exact ht
    · rw [self] at he' ⊢
      rw [entries]
      exact up s e' (List.mem_of_mem_erase he') hP

theorem drop_delivers (s : SignalId) (e : EntryId) : Keeps Delivers run (Signal.drop s e) := by
  intro w
  simp only [Signal.drop, modifySignal, ensures_bind, ensures_get]
  by_cases he : e ∈ (w.signals.get s).subscribers
  · rw [if_pos (List.contains_iff_mem.2 he)]
    simp only [ensures_bind, ensures_modify]
    exact left_delivers he rfl rfl
  · rw [if_neg fun hc => he (List.contains_iff_mem.1 hc)]
    simp only [ensures_modify]
    exact left_stranger_delivers he rfl rfl

theorem made_delivers {w w₁ : World} (value : Option Value) (producer : Option Producer)
    (signals : w₁.signals = w.signals.push (.fresh value producer))
    (entries : w₁.entries = w.entries) : Delivers w w₁ := by
  intro h
  have new : w₁.signals.get w.signals.next = .fresh value producer := by
    rw [signals, Heap.get_push_next]
  have unknown : w.signals.get w.signals.next = default :=
    Heap.get_of_size_le _ _ (Nat.le_refl _)
  have adv : Advances w.signals.next w w₁ := by
    refine ⟨fun t ht => ?_, fun t _ e _ => ?_, ?_, ?_, ?_, ?_⟩
    · rw [signals, Heap.get_push_of_ne _ _ _ ht]
    · rw [entries]
    · simp only [entries, Nat.le_refl]
    · rw [new, unknown]
      exact Nat.le_refl _
    · rw [new, unknown]
      exact List.nil_suffix
    · rw [new, unknown]
      exact fun e he => .inl he
  refine adv.progress h ?_ (fun e n v x ht => ?_) fun P up e he hP => ?_
  · rw [new]
    exact Recorded.fresh value producer
  · rw [new] at ht
    simp [Signal.fresh] at ht
  · rw [new] at he
    simp [Signal.fresh] at he

theorem flags_delivers {w : World} (s : SignalId) (started : Signal → Bool)
    (teardown : Signal → Option SubscriptionId) :
    Delivers w { w with signals := w.signals.modify s fun signal =>
      { signal with started := started signal, teardown := teardown signal } } := by
  rcases Nat.lt_or_ge s.index w.signals.size with hs | hs
  case inr => exact .apart (Heap.modify_of_size_le _ _ _ hs) rfl
  case inl =>
    intro h
    let w₁ : World := { w with signals := w.signals.modify s fun signal =>
      { signal with started := started signal, teardown := teardown signal } }
    obtain ⟨adv, self⟩ : Advances s w w₁ ∧ w₁.signals.get s = _ :=
      advances_modify hs rfl (Nat.le_refl _) (fun _ _ _ _ => rfl) (Nat.le_refl _)
        List.suffix_rfl fun e he => .inl he
    refine adv.progress h ?_ (fun e n v x ht => ?_) fun P up e he hP => ?_
    · rw [self]
      exact (h.signals s).flags _ _
    · rw [self] at ht
      exact ht
    · rw [self] at he ⊢
      exact up s e he hP

instance : Steady Delivers where
  refl := Delivers.refl
  trans := Delivers.trans
  apart signals entries _ := .apart signals entries
  make value producer signals entries _ := made_delivers value producer signals entries
  flags := flags_delivers
  replace _ _ := replace_delivers
  notify _ _ := notify_delivers
  join _ _ := join_delivers
  drop _ := drop_delivers

end

/-- The worlds that a session, or a part of one, leads to when no round is under way. -/
inductive Reached : World → Prop
  | empty : Reached .empty
  | step {fuel : Nat} {w w' : World} {current : Value} {step : Step} {a : Answer} :
    Reached w → runFrom fuel w (step.run current) = .ok (a, w') → Reached w'
  | task {fuel : Nat} {w w' : World} {t : Task} :
    Reached w → exec fuel t w = .ok ((), w') → Reached w'
  /-- Anything may happen to the rest of the world. -/
  | elsewhere {w w' : World} :
    Reached w → w'.signals = w.signals → w'.entries = w.entries → Reached w'

theorem Faithful.empty : Faithful .empty where
  signals _ := .default
  owner _ _ _ he := nomatch he

/-- By induction on how the world was reached; each operation is one `Delivers`. -/
theorem Reached.invariant {w : World} (h : Reached w) : Faithful w ∧ UpTo (fun _ => False) w := by
  have go : ∀ {w w'}, Delivers w w' → Faithful w ∧ UpTo (fun _ => False) w →
      Faithful w' ∧ UpTo (fun _ => False) w' :=
    fun d h => ⟨(d h.1).faithful, (d h.1).upTo _ h.2⟩
  induction h with
  | empty => exact ⟨.empty, fun _ _ he => nomatch he⟩
  | step _ run ih => exact go (keeps_step _ _ _ _ _ run) ih
  | task _ run ih => exact go (KeptBy.task _ _ _ run) ih
  | elsewhere _ signals entries ih => exact go (.apart signals entries) ih

/-- Whoever has seen the newest version was shown it, or joined after the last change. -/
theorem Recorded.settled {entries : Heap .entry Entry} {signal : Signal}
    (h : Recorded entries signal)
    (up : ∀ e ∈ signal.subscribers, (entries.get e).seen = signal.version) :
    Settled signal.past := by
  intro e he
  rw [← h.subscribers] at he
  have hs := h.latest e he
  rw [up e he, h.version] at hs
  exact hs.imp id JoinedAt.late

end LiveMarkup.Live
