import LiveMarkup.Proofs.Delivery

/-!
Hearing: who misses nothing. If at every change everybody who is subscribed has heard of the one before,
everybody hears of all changes from joining to leaving; and who asks for it hears the content on joining.
-/
namespace LiveMarkup.Live

namespace History

/-- The moments since the last change. -/
def recent : List Moment → List Moment
  | [] => []
  | .changed _ :: _ => []
  | m :: past => m :: recent past

/-- Whoever is subscribed has joined since the last change, or has been told since. -/
def Reposed (past : List Moment) : Prop :=
  ∀ e ∈ members past,
    (∃ mode, .joined e mode ∈ recent past) ∨ ∃ r v x, .told e r v x ∈ recent past

/-- Since the moments of `base`, no change came before everybody had heard of the one before. -/
def Patient (base past : List Moment) : Prop :=
  ∀ since value before, past = since ++ .changed value :: before → base <:+ before → Reposed before

/-- Since the moments of `base`, whoever was subscribed at a change was told of it, or left before
that. -/
def Heard (base past : List Moment) : Prop :=
  ∀ since value before, past = since ++ .changed value :: before → base <:+ before →
    ∀ e ∈ members before, (∃ r, .told e r (version before + 1) value ∈ since) ∨ .left e ∈ since

/-- Whoever asked for it was told on joining, before anything else. -/
def Prompted (past : List Moment) : Prop :=
  ∀ since e before, past = since ++ .joined e .immediate :: before →
    ∃ later v x, since = later ++ [.told e none v x]

variable {e : EntryId} {base past since before rest : List Moment} {m : Moment}

theorem recent_cons (unchanged : ∀ value, m ≠ .changed value) :
    recent (m :: past) = m :: recent past := by
  cases m with
  | changed value => exact absurd rfl (unchanged value)
  | _ => rfl

theorem recent_append (unchanged : ∀ value, .changed value ∉ since) :
    recent (since ++ past) = since ++ recent past := by
  induction since with
  | nil => rfl
  | cons m since ih =>
    simp only [List.mem_cons, not_or] at unchanged
    rw [List.cons_append, recent_cons fun value heq => (unchanged value).1 heq.symm,
      ih fun value => (unchanged value).2, List.cons_append]

theorem version_append_of_unchanged (unchanged : ∀ value, .changed value ∉ since) :
    version (since ++ past) = version past := by
  induction since with
  | nil => rfl
  | cons m since ih =>
    simp only [List.mem_cons, not_or] at unchanged
    have same := ih fun value => (unchanged value).2
    cases m with
    | changed value => exact absurd rfl (unchanged value).1
    | _ => exact same

/-- What is recent came after the last change. -/
theorem split_of_mem_recent (h : m ∈ recent past) :
    ∃ since before, past = since ++ m :: before ∧ ∀ value, .changed value ∉ since := by
  induction past with
  | nil => cases h
  | cons m' past ih =>
    have later (h : m ∈ recent past) (unchanged : ∀ value, m' ≠ .changed value) :
        ∃ since before, m' :: past = since ++ m :: before ∧ ∀ value, .changed value ∉ since := by
      obtain ⟨since, before, rfl, none⟩ := ih h
      refine ⟨m' :: since, before, rfl, fun value hv => ?_⟩
      exact (List.mem_cons.1 hv).elim (fun heq => unchanged value heq.symm) (none value)
    cases m' with
    | changed value => cases h
    | _ =>
      rcases List.mem_cons.1 h with rfl | h
      · exact ⟨[], past, rfl, by simp⟩
      · exact later h (by simp)

theorem Reposed.cons (h : Reposed past) (unchanged : ∀ value, m ≠ .changed value) :
    Reposed (m :: past) := by
  have keep : ∀ e ∈ members past, (∃ mode, .joined e mode ∈ recent (m :: past)) ∨
      ∃ r v x, .told e r v x ∈ recent (m :: past) := by
    intro e he
    rw [recent_cons unchanged]
    exact (h e he).imp (fun ⟨mode, hm⟩ => ⟨mode, List.mem_cons_of_mem _ hm⟩)
      fun ⟨r, v, x, hm⟩ => ⟨r, v, x, List.mem_cons_of_mem _ hm⟩
  cases m with
  | made value => exact keep
  | changed value => exact absurd rfl (unchanged value)
  | told e' r v x => exact keep
  | left e' => exact fun e he => keep e (List.mem_of_mem_erase he)
  | joined e' mode =>
    intro e he
    rcases List.mem_append.1 he with he | he
    · exact keep e he
    · rw [List.mem_singleton.1 he]
      exact .inl ⟨mode, List.mem_cons_self⟩

theorem Reposed.append (h : Reposed past) (unchanged : ∀ value, .changed value ∉ since) :
    Reposed (since ++ past) := by
  induction since with
  | nil => exact h
  | cons m since ih =>
    simp only [List.mem_cons, not_or] at unchanged
    exact (ih fun value => (unchanged value).2).cons fun value heq => (unchanged value).1 heq.symm

/-- So far, nothing has changed since then. -/
theorem Patient.start (past : List Moment) : Patient past past := by
  rintro since value before rfl short
  have le := short.length_le
  simp only [List.length_append, List.length_cons] at le
  omega

theorem Patient.cons (h : Patient base past) (repose : ∀ value, m = .changed value → Reposed past) :
    Patient base (m :: past) := by
  intro since value before split within
  cases since with
  | nil =>
    obtain ⟨rfl, rfl⟩ := List.cons.inj split
    exact repose value rfl
  | cons m' since => exact h since value before (List.cons.inj split).2 within

theorem Patient.tail (h : Patient base (m :: past)) : Patient base past :=
  fun since value before split => h (m :: since) value before (congrArg (m :: ·) split)

/-- One more change is no harm where everybody has heard of the one before. -/
theorem Patient.append (h : Patient base past) (repose : Reposed past)
    (few : version (since ++ past) ≤ version past + 1) : Patient base (since ++ past) := by
  induction since with
  | nil => exact h
  | cons m since ih =>
    refine (ih (Nat.le_trans version_le_cons few)).cons ?_
    rintro value rfl
    refine repose.append (not_mem_changed_of_version_eq_zero ?_)
    rw [List.cons_append, version, version_append] at few
    omega

/-- By induction on what happened since. -/
theorem mem_members_or_left (h : e ∈ members past) :
    e ∈ members (since ++ past) ∨ .left e ∈ since := by
  induction since with
  | nil => exact .inl h
  | cons m since ih =>
    rcases ih with here | left
    · cases m with
      | left e' =>
        by_cases same : e' = e
        · exact .inr (same ▸ List.mem_cons_self)
        · exact .inl ((List.mem_erase_of_ne (Ne.symm same)).2 here)
      | joined e' mode => exact .inl (List.mem_append_left _ here)
      | _ => exact .inl here
    · exact .inr (List.mem_cons_of_mem _ left)

/-- At the next change, or now if none came, everybody has heard of what was before. -/
theorem Patient.reposed_after (h : Patient base (since ++ rest)) (within : base <:+ rest)
    (repose : (∃ value, .changed value ∈ since) ∨ Reposed (since ++ rest)) :
    ∃ later mid, since = later ++ mid ∧ (∀ value, .changed value ∉ mid) ∧ Reposed (mid ++ rest) := by
  induction since with
  | nil => exact ⟨[], [], rfl, by simp, repose.resolve_left (by simp)⟩
  | cons m since ih =>
    by_cases change : ∃ value, .changed value ∈ since
    · obtain ⟨later, mid, rfl, unchanged, reposed⟩ := ih h.tail (.inl change)
      exact ⟨m :: later, mid, rfl, unchanged, reposed⟩
    have unchanged : ∀ value, .changed value ∉ since := fun value hv => change ⟨value, hv⟩
    cases m with
    | changed value =>
      refine ⟨[.changed value], since, rfl, unchanged, h [] value _ rfl ?_⟩
      exact within.trans (List.suffix_append since rest)
    | _ =>
      refine ⟨[], _ :: since, rfl, by simpa using unchanged, repose.resolve_left ?_⟩
      simpa using unchanged

namespace Orderly

/-- What came after something that is no longer the first moment was not made. -/
theorem content_append (h : Orderly (since ++ m :: past)) (unchanged : ∀ value, .changed value ∉ since) :
    content (since ++ m :: past) = content (m :: past) := by
  induction since with
  | nil => rfl
  | cons m' since ih =>
    simp only [List.mem_cons, not_or] at unchanged
    have same := ih h.2 fun value => (unchanged value).2
    cases m' with
    | made value => exact absurd h.1 (by simp [Allowed])
    | changed value => exact absurd rfl (unchanged value).1
    | _ => exact same

/-- Who was told anything had joined. -/
theorem joined_of_told {r : Option Nat} {v : Nat} {x : Option Value} (h : Orderly past)
    (told : .told e r v x ∈ past) : e ∈ joiners past := by
  obtain ⟨since, before, rfl⟩ := List.append_of_mem told
  obtain ⟨-, -, member, -⟩ := h.of_append.1
  refine joiners_subset_of_suffix (List.suffix_append since (.told e r v x :: before)) ?_
  exact members_sublist_joiners.subset member

/-- Nobody joins twice. -/
theorem joined_once {since' before' : List Moment} {mode mode' : Mode}
    (h : Orderly (since ++ .joined e mode :: before))
    (same : since ++ .joined e mode :: before = since' ++ .joined e mode' :: before') :
    since' = since ∧ mode' = mode ∧ before' = before := by
  have once : ∀ {s s' b b' : List Moment} {m m' : Mode} {m₁ : Moment},
      Orderly (s ++ .joined e m :: b) → .joined e m :: b ≠ m₁ :: (s' ++ .joined e m' :: b') := by
    rintro s s' b b' m m' m₁ h heq
    have joined : e ∈ joiners b := by
      rw [(List.cons.inj heq).2]
      exact mem_joiners (List.mem_append_right _ List.mem_cons_self)
    exact h.of_append.1 joined
  rcases List.append_eq_append_iff.1 same with ⟨between, eq, eq'⟩ | ⟨between, eq, eq'⟩
  · cases between with
    | nil =>
      obtain ⟨⟨-, rfl⟩, rfl⟩ : (e = e ∧ mode = mode') ∧ before = before' := by simpa using eq'
      exact ⟨by simpa using eq, rfl, rfl⟩
    | cons m₁ between => exact absurd eq' (once h)
  · cases between with
    | nil =>
      obtain ⟨⟨-, rfl⟩, rfl⟩ : (e = e ∧ mode' = mode) ∧ before' = before := by simpa using eq'
      exact ⟨by simpa using eq.symm, rfl, rfl⟩
    | cons m₁ between =>
      rw [same] at h
      exact absurd eq' (once h)

/-- Nobody misses a change where nobody is left behind by the next one. -/
theorem heard (h : Orderly past) (patient : Patient base past) (repose : Reposed past) :
    Heard base past := by
  rintro since value before rfl within e member
  obtain ⟨later, mid, rfl, unchanged, reposed⟩ :=
    patient.reposed_after (within.trans (List.suffix_cons _ before)) (.inr repose)
  rw [List.append_assoc] at h
  have orderly := h.of_append
  have subscribed : e ∈ members (.changed value :: before) := member
  have again : e ∈ members (mid ++ .changed value :: before) ∨ .left e ∈ mid :=
    mem_members_or_left subscribed
  rcases again with staying | left
  · have here := reposed e staying
    rw [recent_append unchanged] at here
    simp only [recent, List.append_nil] at here
    rcases here with ⟨mode, joined⟩ | ⟨r, v, x, told⟩
    · -- Whoever was subscribed before does not join afterwards.
      obtain ⟨since, between, rfl⟩ := List.append_of_mem joined
      rw [List.append_assoc] at orderly
      refine absurd (members_sublist_joiners.subset member) fun known => orderly.of_append.1 ?_
      exact (joiners_append_subset between (.changed value :: before)).subset known
    · obtain ⟨since, between, rfl⟩ := List.append_of_mem told
      rw [List.append_assoc] at orderly
      obtain ⟨content, version, -⟩ : Allowed (between ++ .changed value :: before) (.told e r v x) :=
        orderly.of_append.1
      have unchanged' : ∀ value, .changed value ∉ between := fun value hv =>
        unchanged value (List.mem_append_right _ (List.mem_cons_of_mem _ hv))
      rw [version_append_of_unchanged unchanged'] at version
      rw [orderly.of_append.2.content_append unchanged'] at content
      subst content version
      exact .inl ⟨r, List.mem_append_right _ told⟩
  · exact .inr (List.mem_append_right _ left)

end Orderly

end History

open History

/-! Who has seen the newest version. -/

section
variable {entries : Heap .entry Entry} {signal : Signal} {e : EntryId} {past : List Moment}

theorem History.told_of_lastShown {v : Nat} (h : lastShown e past = some v) :
    ∃ r x, .told e r v x ∈ past := by
  induction past with
  | nil => cases h
  | cons m past ih =>
    have later (h : lastShown e past = some v) : ∃ r x, .told e r v x ∈ m :: past := by
      obtain ⟨r, x, told⟩ := ih h
      exact ⟨r, x, List.mem_cons_of_mem _ told⟩
    cases m with
    | told e' r v' x =>
      simp only [lastShown] at h
      split at h
      case isTrue same =>
        cases h
        exact ⟨r, x, same ▸ List.mem_cons_self⟩
      case isFalse => exact later h
    | _ => exact later h

/-- Whoever was told of the newest version was told recently. -/
theorem History.Orderly.mem_recent {r : Option Nat} {v : Nat} {x : Option Value} (h : Orderly past)
    (told : .told e r v x ∈ past) (newest : v = version past) : .told e r v x ∈ recent past := by
  induction past with
  | nil => cases told
  | cons m past ih =>
    have old : .told e r v x ∈ past → v ≤ version past := by
      intro told
      obtain ⟨since, before, rfl⟩ := List.append_of_mem told
      obtain ⟨-, rfl, -⟩ := h.2.of_append.1
      rw [version_append]
      exact Nat.le_add_left ..
    cases m with
    | changed value =>
      have le := old ((List.mem_cons.1 told).resolve_left nofun)
      rw [newest, version] at le
      exact absurd le (Nat.not_succ_le_self _)
    | _ =>
      rcases List.mem_cons.1 told with here | told
      · exact here ▸ List.mem_cons_self
      · exact List.mem_cons_of_mem _ (ih h.2 told newest)

/-- Everybody has heard of the last change just if everybody has seen the newest version. -/
theorem Recorded.reposed_iff (h : Recorded entries signal) : Reposed signal.past ↔
    ∀ e ∈ signal.subscribers, (entries.get e).seen = signal.version := by
  constructor
  · intro repose e member
    have le := h.seen e member
    have newest : ∀ {r v x}, .told e r v x ∈ recent signal.past → (entries.get e).seen = signal.version := by
      intro r v x told
      obtain ⟨since, before, split, unchanged⟩ := split_of_mem_recent told
      have orderly := h.orderly
      rw [split] at orderly
      obtain ⟨-, version, -⟩ := orderly.of_append.1
      have seen := (h.told e r v x (split ▸ List.mem_append_right _ List.mem_cons_self)).2
      have same := h.version
      rw [split, version_append_of_unchanged unchanged] at same
      change signal.version = History.version before at same
      omega
    rcases repose e (h.subscribers ▸ member) with ⟨mode, joined⟩ | ⟨r, v, x, told⟩
    · obtain ⟨since, before, split, unchanged⟩ := split_of_mem_recent joined
      have orderly := h.orderly
      rw [split] at orderly
      have version := h.version
      rw [split, version_append_of_unchanged unchanged] at version
      change signal.version = History.version before at version
      rcases h.latest e member with shown | ⟨since', before', split', same⟩
      · obtain ⟨r, x, told⟩ := told_of_lastShown shown
        rw [split, List.mem_append, List.mem_cons] at told
        rcases told with told | told | told
        · refine newest (r := r) (v := (entries.get e).seen) (x := x) ?_
          rw [split, recent_append unchanged]
          exact List.mem_append_left _ told
        · cases told
        · exact absurd (orderly.of_append.2.joined_of_told told) orderly.of_append.1
      · obtain ⟨-, -, rfl⟩ := orderly.joined_once (split ▸ split')
        rw [← same, version]
    · exact newest told
  · intro seen e member
    rw [← h.subscribers] at member
    rcases h.latest e member with shown | joined
    · obtain ⟨r, x, told⟩ := told_of_lastShown shown
      refine .inr ⟨r, _, x, h.orderly.mem_recent told ?_⟩
      rw [seen e member, h.version]
    · rw [seen e member, h.version] at joined
      obtain ⟨since, before, split, unchanged⟩ := joined.late
      refine .inl ⟨.normal, ?_⟩
      rw [split, recent_append unchanged]
      exact List.mem_append_right _ List.mem_cons_self

/-- Where everybody has heard of the last change of a signal, everybody will have heard of the last
change in the end. Whoever is subscribed elsewhere does not matter. -/
theorem Delivers.reposed {w w' : World} (h : Delivers w w') (faithful : Faithful w) (s : SignalId)
    (repose : Reposed (w.signals.get s).past) : Reposed (w'.signals.get s).past := by
  let P : EntryId → Prop := fun e => ∃ t, t ≠ s ∧ e ∈ (w.signals.get t).subscribers
  have progress := h faithful
  have upTo : UpTo P w := by
    intro t e member out
    by_cases here : t = s
    · subst here
      exact (faithful.signals t).reposed_iff.1 repose e member
    · exact absurd ⟨t, here, member⟩ out
  refine (progress.faithful.signals s).reposed_iff.2 fun e member => ?_
  refine progress.upTo P upTo s e member ?_
  rintro ⟨t, other, before⟩
  refine other (progress.faithful.owner t s e ?_ ((progress.faithful.signals s).joined member))
  exact joiners_subset_of_suffix (progress.past t) ((faithful.signals t).joined before)

end

/-! Who is told on joining. -/

/-- Whoever asks for it goes on being told on joining. -/
def Prompts (w w' : World) : Prop :=
  (∀ s, Prompted (w.signals.get s).past) → ∀ s, Prompted (w'.signals.get s).past

section
variable {w w' : World} {s : SignalId} {e : EntryId} {past : List Moment} {m : Moment} {run : Runner}

theorem History.Prompted.cons (h : Prompted past) (other : ∀ e, m ≠ .joined e .immediate) :
    Prompted (m :: past) := by
  intro since e before split
  cases since with
  | nil => exact absurd (List.cons.inj split).1 (other e)
  | cons m' since =>
    obtain ⟨later, v, x, rfl⟩ := h since e before (List.cons.inj split).2
    exact ⟨m' :: later, v, x, rfl⟩

theorem History.Prompted.greeted (h : Prompted past) (v : Nat) (x : Option Value) :
    Prompted (.told e none v x :: .joined e .immediate :: past) := by
  intro since e' before split
  cases since with
  | nil => cases split
  | cons m since =>
    obtain ⟨rfl, rest⟩ := List.cons.inj split
    cases since with
    | nil =>
      cases rest
      exact ⟨[], v, x, rfl⟩
    | cons m since =>
      obtain ⟨later, v', x', rfl⟩ := h since e' before (List.cons.inj rest).2
      exact ⟨_ :: m :: later, v', x', rfl⟩

instance : Lasting Prompts where
  refl _ h := h
  trans h h' := fun prompted => h' (h prompted)

theorem signal_prompts {f : Signal → Signal} (signals : w'.signals = w.signals.modify s f)
    (prompted : ∀ signal, Prompted signal.past → Prompted (f signal).past) : Prompts w w' := by
  intro h t
  rw [signals]
  by_cases here : s = t
  · subst here
    rcases Nat.lt_or_ge s.index w.signals.size with valid | invalid
    · rw [Heap.get_modify_self _ _ _ valid]
      exact prompted _ (h s)
    · rw [Heap.modify_of_size_le _ _ _ invalid]
      exact h s
  · rw [Heap.get_modify_of_ne _ _ _ _ here]
    exact h t

theorem modifySignal_prompts {f : Signal → Signal}
    (prompted : ∀ signal, Prompted signal.past → Prompted (f signal).past) :
    Keeps Prompts run (modifySignal s f) := fun _ =>
  (ensures_modify ..).2 (signal_prompts rfl prompted)

variable [KeptBy Prompts run]

theorem notify_prompts : Keeps Prompts run (Signal.notify s) := by
  refine keeps_bind (modifySignal_prompts fun _ h => h.cons nofun) fun _ =>
    keeps_bind keeps_get fun _ => keeps_forM fun e w => ?_
  refine (ensures_bind ..).2 ((ensures_get _).2 ?_)
  dsimp only
  split
  case isTrue =>
    refine (ensures_bind ..).2 ((ensures_set ..).2 ((ensures_invoke ..).2 fun w' hw' => ?_))
    exact Lasting.trans (signal_prompts (f := Signal.showing e _) rfl fun _ h => h.cons nofun)
      (KeptBy.task _ _ _ hw')
  case isFalse => exact (ensures_pure ..).2 (Lasting.refl w)

theorem join_prompts (reaction : Reaction) (mode : Mode) :
    Keeps Prompts run (Signal.join s reaction mode) := by
  intro w
  simp only [Signal.join, Signal.enter, Signal.greet, modifySignal, ensures_bind, ensures_get,
    ensures_set, ensures_pure]
  cases mode with
  | normal =>
    rw [if_neg Mode.noConfusion]
    simp only [ensures_pure]
    exact signal_prompts (f := Signal.joinedBy _ .normal) rfl fun _ h => h.cons nofun
  | immediate =>
    simp only [if_true, ensures_bind, ensures_modify, ensures_get, ensures_invoke, ensures_pure]
    intro w' hw'
    refine Lasting.trans ?_ (KeptBy.task _ _ _ hw')
    exact signal_prompts (Heap.modify_modify ..) fun _ h => h.greeted _ _

omit [KeptBy Prompts run] in
theorem drop_prompts : Keeps Prompts run (Signal.drop s e) := by
  refine keeps_bind keeps_get fun w => ?_
  have left : Keeps Prompts run (modifySignal s (Signal.leftBy e)) :=
    modifySignal_prompts fun _ h => h.cons nofun
  split
  · exact keeps_bind (fun w => (ensures_modify ..).2 fun h => h) fun _ => left
  · exact left

end

instance : Steady Prompts where
  apart signals _ _ h := by
    rw [signals]
    exact h
  make {w _} value producer signals _ _ h s := by
    rw [signals]
    by_cases here : s = w.signals.next
    · subst here
      rw [Heap.get_push_next]
      intro since e before split
      have size := congrArg List.length split
      cases since with
      | nil => cases split
      | cons m since => simp [Signal.fresh] at size
    · rw [Heap.get_push_of_ne _ _ _ here]
      exact h s
  flags _ _ _ := signal_prompts rfl fun _ h => h
  replace _ _ s _ := keeps_bind (modifySignal_prompts fun _ h => h) fun _ => notify_prompts
  notify _ _ s := notify_prompts
  join _ _ s := join_prompts
  drop _ _ _ := drop_prompts

/-- Whoever asked to be told on joining was, whatever came of it. -/
theorem Reached.prompted {w : World} (h : Reached w) (s : SignalId) :
    Prompted (w.signals.get s).past := by
  have all : ∀ s, Prompted (w.signals.get s).past := by
    induction h with
    | empty =>
      intro s since e before split
      exact absurd (show [] = since ++ .joined e .immediate :: before from split) (by simp)
    | step _ run ih => exact keeps_step (R := Prompts) _ _ _ _ _ run ih
    | task _ run ih => exact KeptBy.task (R := Prompts) _ _ _ run ih
    | elsewhere _ signals _ ih =>
      rw [signals]
      exact ih
  exact all s

end LiveMarkup.Live
