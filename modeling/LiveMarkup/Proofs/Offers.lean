import LiveMarkup.Proofs.Accounts

/-!
Offers: a match that is offered a value does one deed, which the law allows. Its output may be written
in the middle of that, and callbacks may do much before the deed is done; but as long as they leave the
source alone, the period that does it is not offered another value meanwhile.
-/
namespace LiveMarkup.Live

/-- A period of a match was offered a value and has not done its deed yet. -/
structure Pending (X : ActivationId → Prop) (b : BranchId) (a : ActivationId) (v : Value) (w : World) :
    Prop extends Ledger b w where
  now : ToldNow b a w
  calls : w.calls b = (a, v) :: (w.deedsOf b).map fun d => (d.activation, d.value)
  alone : ∀ e ∈ (w.sourceOf b).subscribers, ∀ a', Serves w b a' e → a' = a
  /-- It has done the last deed, or it is a new one. -/
  order : (∃ d past, w.deedsOf b = d :: past ∧ d.activation = a ∧
      (w.activations.get a).inFallback = d.falls) ∨
    (w.activations.get a).inFallback = false ∧ ∀ d ∈ w.deedsOf b, d.activation ≠ a
  value : (w.sourceOf b).value.getD .null = v
  started : (w.outputOf b).started = true
  shows : Shows (w.deedsOf b) (w.outputOf b)
  abreast : Abreast b w
  out : ¬ X a

/-- A period that was offered a value does its deed, as long as the source does not change. -/
structure Responds (b : BranchId) (a : ActivationId) (v : Value) (w w' : World) : Prop where
  version : (w.sourceOf b).version ≤ (w'.sourceOf b).version
  kept : ∀ X, Pending X b a v w → (∀ a', X a' → ToldNow b a' w) →
    (w'.sourceOf b).version = (w.sourceOf b).version → Continued X b w w'

section
variable {b : BranchId} {w w' w₁ w₂ w₃ : World} {X X' : ActivationId → Prop} {a : ActivationId}
  {e : EntryId} {v : Value} {d : Deed} {past : List Deed}

namespace Pending

theorem known (h : Pending X b a v w) : a.index < w.activations.size := by
  obtain ⟨e, -, -, serves, -⟩ := h.now
  exact h.periods e a serves.1

theorem occupied (h : Pending X b a v w) : ¬ Vacant b a w := by
  obtain ⟨e, -, -, serves, -⟩ := h.now
  exact fun vacant => vacant.nobody e serves

/-- A period does not come after one that came after it. -/
theorem inOrder (h : Pending X b a v w) :
    (∃ d' before, w.deedsOf b = d' :: before ∧ d'.activation = a) ∨
      ∀ d' ∈ w.deedsOf b, d'.activation ≠ a := by
  rcases h.order with ⟨d, past, deeds, same, -⟩ | ⟨-, new⟩
  · exact .inl ⟨d, past, deeds, same⟩
  · exact .inr new

/-- It is noted whether no case applied just before. -/
theorem falling_iff (h : Pending X b a v w) :
    (w.activations.get a).inFallback = true ↔ Deeds.Falling a (w.deedsOf b) := by
  constructor
  · intro flag
    rcases h.order with ⟨d, past, deeds, same, falls⟩ | ⟨no, -⟩
    · exact ⟨d, past, deeds, same, falls.symm.trans flag⟩
    · cases no.symm.trans flag
  · rintro ⟨d, before, deeds, same, falls⟩
    rcases h.order with ⟨d', past, deeds', -, flag⟩ | ⟨-, new⟩
    · rw [deeds] at deeds'
      cases deeds'
      exact flag.trans falls
    · rw [deeds] at new
      exact absurd same (new d List.mem_cons_self)

end Pending

namespace Beside

theorem sourceOf (h : Beside w w') : w'.sourceOf b = w.sourceOf b := by
  unfold World.sourceOf
  rw [h.signals, h.branches]

theorem outputOf (h : Beside w w') : w'.outputOf b = w.outputOf b := by
  unfold World.outputOf
  rw [h.signals, h.branches]

theorem serves (h : Beside w w') : Serves w' b a e ↔ Serves w b a e :=
  serves_congr h.entries h.matched

theorem roster (h : Beside w w') (roster : Roster b w) : Roster b w' :=
  roster.congr (by rw [h.branches]; exact roster.made) (by rw [h.sourceOf]) h.entries h.activations
    h.matched

theorem toldNow (h : Beside w w') : ToldNow b a w' ↔ ToldNow b a w := by
  simp only [ToldNow, h.sourceOf, h.serves]

theorem vacant (h : Beside w w') (cell : w'.activations.get a = w.activations.get a) :
    Vacant b a w' ↔ Vacant b a w := by
  constructor
  · rintro ⟨known, fresh, nobody⟩
    exact ⟨h.activations ▸ known, cell.symm.trans fresh, fun e => h.serves.not.1 (nobody e)⟩
  · rintro ⟨known, fresh, nobody⟩
    exact ⟨h.activations.symm ▸ known, cell.trans fresh, fun e => h.serves.not.2 (nobody e)⟩

theorem calls (h : Beside w w') : w'.calls b = w.calls b :=
  calls_congr (by rw [h.sourceOf]) h.entries h.matched

end Beside

/-! Deeds that are recorded. -/

/-- A deed is done, whatever its period notes about cases. -/
structure Does (d : Deed) (w w' : World) : Prop extends Beside w w' where
  deeds : w'.deeds = d :: w.deeds
  others : ∀ a, a ≠ d.activation → w'.activations.get a = w.activations.get a

theorem Does.deedsOf (h : Does d w w') (own : d.branch = b) :
    w'.deedsOf b = d :: w.deedsOf b := by
  unfold World.deedsOf
  rw [h.deeds, List.filter_cons_of_pos (by simpa using own)]

/-- A deed for a value that was offered. -/
structure Meets (b : BranchId) (a : ActivationId) (v : Value) (w : World) (d : Deed) : Prop where
  own : d.branch = b
  period : d.activation = a
  offered : d.value = v
  allowed : Deeds.Allowed (w.branches.get b) (w.deedsOf b) d

/-- What was offered is accounted for, once the deed is recorded. -/
theorem Does.noted (h : Does d w w') (pending : Pending X b a v w) (meets : Meets b a v w d)
    (flag : ¬ X' a → (w'.activations.get a).inFallback = d.falls) : Noted X' b w' := by
  have deeds := h.deedsOf meets.own
  refine ⟨⟨h.roster pending.toRoster, fun d' hd => ?_, ?_⟩, ?_, fun e he a' serves => ?_⟩
  · rw [deeds] at hd
    rw [h.activations]
    rcases List.mem_cons.1 hd with rfl | hd
    · exact meets.period ▸ pending.known
    · exact pending.dated d' hd
  · rw [h.branches, deeds]
    exact ⟨meets.allowed, pending.lawful⟩
  · rw [h.calls, deeds, pending.calls, List.map_cons, meets.period, meets.offered]
  · rw [h.sourceOf] at he
    obtain rfl := pending.alone e he a' (h.serves.1 serves)
    exact ⟨d, w.deedsOf b, deeds, meets.period, flag⟩

theorem Does.shows (h : Does d w w') (pending : Pending X b a v w) :
    Shows (w.deedsOf b) (w'.outputOf b) := by
  rw [h.outputOf]
  exact pending.shows

theorem Does.abreast (h : Does d w w') (pending : Pending X b a v w) : Abreast b w' := by
  unfold Abreast
  rw [h.outputOf]
  exact pending.abreast

/-- What goes on after the deed goes on after what was before it. -/
theorem Does.continued (h : Does d w w₁) (pending : Pending X b a v w) (meets : Meets b a v w d)
    (after : Continued X b w₁ w₂) : Continued X b w w₂ := by
  obtain ⟨since, eq, others⟩ := after.since
  have vacant : ∀ a', Vacant b a' w → Vacant b a' w₁ := by
    intro a' empty
    refine (h.vacant (h.others a' ?_)).2 empty
    rintro rfl
    exact pending.occupied (meets.period ▸ empty)
  refine ⟨after.accounted, ⟨since ++ [d], ?_, fun d' hd => ?_⟩, fun a' ha => ?_,
    fun a' empty => after.vacant a' (vacant a' empty), fun same a' told => ?_⟩
  · rw [eq, h.deedsOf meets.own]
    simp
  · rcases List.mem_append.1 hd with hd | hd
    · exact ⟨(others d' hd).1, fun empty => (others d' hd).2 (vacant _ empty)⟩
    · rw [List.mem_singleton.1 hd, meets.period]
      exact ⟨pending.out, pending.occupied⟩
  · refine (after.flags a' ha).trans (h.others a' ?_)
    rintro rfl
    exact pending.out (meets.period ▸ ha)
  · exact after.toldNow (by rw [h.sourceOf]; exact same) a' (h.toldNow.2 told)

/-! Writes to the output. -/

/-- Telling the subscribers of the output of a new content keeps accounts, and leaves nobody behind. -/
def RoundAccounts (run : Runner) (b : BranchId) (value : Option Value) (w : World) : Prop :=
  let w' := Signal.changed (w.branches.get b).output value w
  Ensures run (Signal.tellAll (w.branches.get b).output w') w' fun _ w'' => Accounts b 0 w' w'' ∧
    ((w.outputOf b).subscribers = History.members (w.outputOf b).past → Abreast b w → Abreast b w'')

/-- Nobody is told where nobody listens. -/
theorem roundAccounts_of_nobody {run : Runner} (nobody : (w.outputOf b).subscribers = [])
    (value : Option Value) : RoundAccounts run b value w := by
  intro _ w' hw'
  have silent : ((Signal.changed (w.branches.get b).output value w).signals.get
      (w.branches.get b).output).subscribers = [] :=
    (Heap.get_modify_same w.signals _ _ (fun signal => .bumped { signal with value })
      Signal.subscribers fun _ => rfl).trans nobody
  rw [tellAll_nobody silent] at hw'
  cases hw'
  refine ⟨Lasting.refl _, fun subscribers _ e member => ?_⟩
  have same : History.members ((Signal.changed (w.branches.get b).output value w).outputOf b).past =
      History.members (w.outputOf b).past :=
    Heap.get_modify_same w.signals _ _ (fun signal => .bumped { signal with value })
      (fun signal => History.members signal.past) fun _ => rfl
  rw [same, ← subscribers, nobody] at member
  cases member

variable {run : Runner} {value : Option Value}

/-- The output of a match that is started was made. -/
theorem index_lt_of_started (started : (w.outputOf b).started = true) :
    (w.branches.get b).output.index < w.signals.size :=
  index_lt_of_ne Signal.started fun heq => nomatch started.symm.trans heq

/-- What a deed writes becomes the content of the output, or goes unnoticed. The period that does it is
in the middle of its deed meanwhile. -/
theorem write_continues (round : RoundAccounts run b value w) :
    Ensures run (Signal.write (w.branches.get b).output value) w fun _ w' =>
      (w.sourceOf b).version ≤ (w'.sourceOf b).version ∧
        ∀ X past d, Noted X b w → (w.outputOf b).started = true → w.deedsOf b = d :: past →
          Shows past (w.outputOf b) → Abreast b w → d.written = some value →
            (∀ a, X a → ToldNow b a w) →
              (∀ e ∈ (w.sourceOf b).subscribers, ∀ a, Serves w b a e → X a) →
                (w'.sourceOf b).version = (w.sourceOf b).version → Continued X b w w' ∧ Abreast b w' := by
  refine (ensures_bind ..).2 ((ensures_get _).2 ?_)
  split
  case isTrue unnoticed =>
    refine (ensures_pure ..).2
      ⟨Nat.le_refl _, fun X past d noted _ deeds shows abreast written _ busy _ => ⟨?_, abreast⟩⟩
    have same : sameContent (Deeds.content past) value = true := shows.content ▸ unnoticed
    obtain ⟨content, changes⟩ := Deeds.content_of_unnoticed written same
    refine .refl ⟨noted, ?_, fun e he a serves out => absurd (busy e he a serves) out⟩
    rw [deeds]
    exact ⟨shows.content.trans content.symm, shows.changes.trans changes.symm, shows.subscribers,
      shows.patient⟩
  case isFalse noticed =>
    intro _ w' hw'
    rw [replace_eq] at hw'
    let w₁ := Signal.changed (w.branches.get b).output value w
    have skirts : Skirts b w w₁ := changed_skirts _ value
    obtain ⟨accounts, leaves⟩ : Accounts b 0 w₁ w' ∧ _ := round _ w' hw'
    refine ⟨Nat.le_trans skirts.version accounts.version,
      fun X past d noted started deeds shows abreast written told busy same =>
        ⟨?_, leaves shows.subscribers abreast⟩⟩
    have le := skirts.version
    have le' := accounts.version
    have other : ¬ sameContent (Deeds.content past) value = true := shows.content ▸ noticed
    obtain ⟨content, changes⟩ := Deeds.content_of_noticed written other
    have output : w₁.outputOf b = .bumped { w.outputOf b with value } :=
      Heap.get_modify_self _ _ _ (index_lt_of_started started)
    have accounted : Accounted X b w₁ := by
      refine ⟨skirts.noted noted, ?_, fun e he a serves out => ?_⟩
      · rw [skirts.deedsOf, deeds, output]
        exact ⟨content.symm, (congrArg (value :: ·) shows.changes).trans changes.symm,
          shows.subscribers, shows.patient.cons fun _ _ => abreast⟩
      · have before := skirts.serves noted.toLedger serves
        exact absurd (busy e (skirts.members e he before.known) a before) out
    have first : Continued X b w w₁ :=
      ⟨accounted, ⟨[], skirts.deedsOf, by simp⟩, fun _ _ => rfl, fun a => skirts.vacant noted.toLedger,
        fun same a told => skirts.toldNow noted.toLedger told same⟩
    have unchanged : (w₁.sourceOf b).version = (w.sourceOf b).version := by omega
    refine first.trans (accounts.kept X accounted (fun a ha => ?_) (.inl (by omega))) le le'
    exact first.toldNow unchanged a (told a ha)

/-- A deed is recorded, and what it writes is written. -/
theorem record_continues (beside : Beside w w₁) (deeds : w₁.deeds = w.deeds)
    (others : ∀ a, a ≠ d.activation → w₁.activations.get a = w.activations.get a)
    (round : ∀ w₂, Beside w w₂ → RoundAccounts run b value w₂) (written : d.written = some value) :
    Ensures run (do Branch.record d; Signal.write (w.branches.get b).output value) w₁ fun _ w' =>
      (w.sourceOf b).version ≤ (w'.sourceOf b).version ∧
        ∀ X, Pending X b a v w → Meets b a v w d → (∀ a', X a' → ToldNow b a' w) →
          (w'.sourceOf b).version = (w.sourceOf b).version →
            ∃ w₂, Does d w w₂ ∧ w₂.activations = w₁.activations ∧
              Continued (fun a' => X a' ∨ a' = a) b w₂ w' ∧ Abreast b w' := by
  refine (ensures_bind ..).2 ((ensures_modify ..).2 ?_)
  let w₂ : World := { w₁ with deeds := d :: w₁.deeds }
  have does : Does d w w₂ :=
    ⟨Lasting.trans beside (record_beside d run w₁ () w₂ rfl), congrArg (d :: ·) deeds, others⟩
  have output : (w.branches.get b).output = (w₂.branches.get b).output := by
    rw [does.branches]
  rw [output]
  refine (write_continues (round w₂ does.toBeside)).mono ?_
  rintro _ w' ⟨version, continues⟩
  rw [does.sourceOf] at version continues
  refine ⟨version, fun X pending meets told same => ⟨w₂, does, rfl, ?_⟩⟩
  refine continues _ (w.deedsOf b) d (does.noted pending meets fun out => absurd (.inr rfl) out) ?_
    (does.deedsOf meets.own) (does.shows pending) (does.abreast pending) written ?_ ?_ same
  · rw [does.outputOf]
    exact pending.started
  · rintro a' (ha | rfl)
    · exact does.toldNow.2 (told a' ha)
    · exact does.toldNow.2 pending.now
  · exact fun e he a' serves => .inr (pending.alone e he a' (does.serves.1 serves))

/-! Offers. -/

/-- The period is no longer in the middle of its deed. The last deed is still its own if it can be
offered values at all. -/
theorem Does.finished (does : Does d w w₁) (pending : Pending X b a v w) (meets : Meets b a v w d)
    (after : Continued (fun a' => X a' ∨ a' = a) b w₁ w₂) (beside : Beside w₂ w₃)
    (deeds : w₃.deeds = w₂.deeds)
    (others : ∀ a', a' ≠ a → w₃.activations.get a' = w₂.activations.get a') (abreast : Abreast b w₂)
    (flag : a.index < w₂.activations.size → (w₃.activations.get a).inFallback = d.falls) :
    Continued X b w w₃ := by
  have noted := after.accounted.toNoted
  obtain ⟨since, eq, out⟩ := after.since
  have same : w₃.deedsOf b = w₂.deedsOf b := deedsOf_congr deeds
  have accounted : Accounted X b w₃ := by
    refine ⟨⟨⟨beside.roster noted.toRoster, fun d' hd => ?_, ?_⟩, ?_, fun e he a' serves => ?_⟩, ?_,
      fun e he a' serves _ => ?_⟩
    · rw [same] at hd
      rw [beside.activations]
      exact noted.dated d' hd
    · rw [beside.branches, same]
      exact noted.lawful
    · rw [beside.calls, same]
      exact noted.calls
    · rw [beside.sourceOf] at he
      have before := beside.serves.1 serves
      obtain ⟨d', past', split, period, noted'⟩ := noted.present e he a' before
      refine ⟨d', past', same.trans split, period, fun outside => ?_⟩
      by_cases here : a' = a
      · subst here
        rw [flag (noted.periods e a' before.1)]
        -- Whatever was done since was done by other periods, but this one has done the last deed.
        cases since with
        | nil =>
          rw [List.nil_append, does.deedsOf meets.own, split] at eq
          rw [(List.cons.inj eq).1]
        | cons d'' since =>
          rw [List.cons_append, split] at eq
          have last := (out d'' List.mem_cons_self).1
          rw [← (List.cons.inj eq).1, period] at last
          exact absurd (.inr rfl) last
      · rw [others a' here]
        exact noted' fun either => either.elim outside here
    · rw [same, beside.outputOf]
      exact after.accounted.shows
    · unfold Abreast
      rw [beside.outputOf]
      exact abreast
  refine does.continued pending meets ⟨accounted, ⟨since, same.trans eq, fun d' hd => ?_⟩,
    fun a' ha => ?_, fun a' vacant => ?_, fun same a' told => ?_⟩
  · exact ⟨fun hX => (out d' hd).1 (.inl hX), (out d' hd).2⟩
  · refine (others a' ?_).trans (after.flags a' (.inl ha))
    rintro rfl
    exact pending.out ha
  · refine (beside.vacant (others a' ?_)).2 (after.vacant a' vacant)
    rintro rfl
    obtain ⟨e, -, -, serves, -⟩ := pending.now
    exact vacant.nobody e (does.serves.2 serves)
  · rw [beside.sourceOf] at same
    exact beside.toldNow.2 (after.toldNow same a' told)

/-- The same, where the fallthrough is noted last. -/
theorem Does.fallen (does : Does d w w₁) (pending : Pending X b a v w) (meets : Meets b a v w d)
    (falls : d.falls = true) (after : Continued (fun a' => X a' ∨ a' = a) b w₁ w₂) (abreast : Abreast b w₂) :
    Ensures run (Branch.setInFallback a true) w₂ fun _ w' => Continued X b w w' := by
  have beside := (ensures_modify ..).1 (setInFallback_beside a true run w₂)
  refine (ensures_modify ..).2 (does.finished pending meets after beside rfl
    (fun a' ne => Heap.get_modify_of_ne _ _ _ _ (Ne.symm ne)) abreast fun known => ?_)
  rw [falls]
  exact congrArg Activation.inFallback (Heap.get_modify_self _ _ _ known)

/-- A deed without a result of a case: what it writes is written before the fallthrough is noted. -/
theorem fall_responds {deed : Deed} (beside : Beside w w₁) (deeds : w₁.deeds = w.deeds)
    (periods : w₁.activations = w.activations)
    (round : ∀ w₂, Beside w w₂ → RoundAccounts run b value w₂) (written : deed.written = some value)
    (falls : deed.falls = true)
    (meets : ∀ X, Pending X b a v w → Meets b a v w deed) :
    Ensures run (do
      Branch.record deed
      Signal.write (w.branches.get b).output value
      Branch.setInFallback a true) w₁ fun _ w' => Responds b a v w w' := by
  have recorded := record_continues (a := a) (v := v) beside deeds (fun _ _ => by rw [periods]) round
    written
  rw [ensures_bind] at recorded
  refine (ensures_bind ..).2 (recorded.mono fun _ w₂ written => (ensures_bind ..).2 ?_)
  refine written.mono fun _ w₃ ⟨version, continues⟩ => (ensures_modify ..).2 ?_
  refine ⟨version, fun X pending told same => ?_⟩
  obtain ⟨w₄, does, -, after, abreast⟩ := continues X pending (meets X pending) told same
  have noted : Ensures run (Branch.setInFallback a true) w₃ fun _ w' => Continued X b w w' :=
    does.fallen pending (meets X pending) falls after abreast
  exact (ensures_modify ..).1 noted

/-- By cases on what the table and the fallback have for the value. -/
theorem offer_responds (here : (w.activations.get a).branch = b)
    (rounds : ∀ value w₁, Beside w w₁ → RoundAccounts run b value w₁) (v : Value) :
    Ensures run (Branch.offer a v) w fun _ w' => Responds b a v w w' := by
  refine (ensures_bind ..).2 ((ensures_get _).2 ?_)
  dsimp only
  rw [here]
  split
  case h_1 f applies =>
    refine (ensures_bind ..).2 ((ensures_modify ..).2 ((ensures_bind ..).2 fun result w₂ handled => ?_))
    let w₁ : World := { w with
      activations := w.activations.modify a fun cell => { cell with inFallback := false } }
    have idling : Idling w₁ w₂ := Idle.handle f v w₁ _ _ handled
    have beside : Beside w w₂ :=
      Lasting.trans (setInFallback_beside a false run w () w₁ rfl) idling.toBeside
    have others : ∀ a', a' ≠ a → w₂.activations.get a' = w.activations.get a' := by
      intro a' ne
      rw [idling.periods]
      exact Heap.get_modify_of_ne _ _ _ _ (Ne.symm ne)
    refine (record_continues (a := a) (v := v) beside idling.deeds others (rounds _) rfl).mono ?_
    rintro _ w' ⟨version, continues⟩
    refine ⟨version, fun X pending told same => ?_⟩
    have meets : Meets b a v w (Deed.mk b a (w.outputOf b).started w.facets v (.handled f result)) :=
      ⟨rfl, rfl, rfl, pending.started, pending.inOrder, applies, run, w₁, w₂, handled⟩
    obtain ⟨w₃, does, periods, after, abreast⟩ := continues X pending meets told same
    refine does.finished pending meets after (Lasting.refl w') rfl (fun _ _ => rfl) abreast fun _ => ?_
    rw [after.flags a (.inr rfl), periods, idling.periods]
    exact congrArg Activation.inFallback (Heap.get_modify_self _ _ _ pending.known)
  case h_2 none =>
    split
    case h_1 f fallback =>
      split
      case isTrue flag =>
        -- Nothing is written, so the deed is done when the fallthrough is noted.
        refine (ensures_bind ..).2 ((ensures_modify ..).2 ?_)
        let deed := Deed.mk b a (w.outputOf b).started w.facets v .stayed
        let w₁ : World := { w with deeds := deed :: w.deeds }
        have does : Does deed w w₁ := ⟨record_beside deed run w () w₁ rfl, rfl, fun _ _ => rfl⟩
        refine (ensures_modify ..).2 ⟨Nat.le_refl _, fun X pending told same => ?_⟩
        have meets : Meets b a v w deed := by
          refine ⟨rfl, rfl, rfl, pending.started, pending.inOrder, none, ?_,
            pending.falling_iff.1 flag⟩
          rw [fallback]
          exact Option.some_ne_none f
        obtain ⟨content, changes⟩ :
            Deeds.content (deed :: w.deedsOf b) = Deeds.content (w.deedsOf b) ∧
              Deeds.changes (deed :: w.deedsOf b) = Deeds.changes (w.deedsOf b) :=
          Deeds.content_of_unwritten rfl
        have shows := does.shows pending
        have accounted : Accounted (fun a' => X a' ∨ a' = a) b w₁ := by
          refine ⟨does.noted pending meets fun out => absurd (.inr rfl) out, ?_,
            fun _ _ _ _ _ => does.abreast pending⟩
          rw [does.deedsOf rfl]
          exact ⟨shows.content.trans content.symm, shows.changes.trans changes.symm,
            shows.subscribers, shows.patient⟩
        have noted : Ensures run (Branch.setInFallback a true) w₁ fun _ w' => Continued X b w w' :=
          does.fallen pending meets rfl (.refl accounted) (does.abreast pending)
        exact (ensures_modify ..).1 noted
      case isFalse flag =>
        refine (ensures_bind ..).2 fun result w₁ ran => ?_
        have idling : Idling w w₁ := Idle.fallBack f _ w _ _ ran
        refine fall_responds idling.toBeside idling.deeds idling.periods (rounds _) rfl rfl
          fun X pending => ?_
        refine ⟨rfl, rfl, rfl, pending.started, pending.inOrder, none, fallback,
          fun falling => flag (pending.falling_iff.2 falling), run, w, w₁, ?_⟩
        rw [← pending.value]
        exact ran
    case h_2 fallback =>
      refine fall_responds (Lasting.refl w) rfl rfl (rounds _) rfl rfl fun X pending => ?_
      exact ⟨rfl, rfl, rfl, pending.started, pending.inOrder, none, fallback⟩

/-! What leads to an offer. -/

/-- A subscriber of the source is about to be called for a period of a match. -/
structure Eligible (X : ActivationId → Prop) (b : BranchId) (a : ActivationId) (e : EntryId) (w : World) :
    Prop extends Ledger b w where
  serves : Serves w b a e
  calls : w.calls b = (w.deedsOf b).map fun d => (d.activation, d.value)
  alone : ∀ e ∈ (w.sourceOf b).subscribers, ∀ a', Serves w b a' e → a' = a
  order : (∃ d past, w.deedsOf b = d :: past ∧ d.activation = a ∧
      (w.activations.get a).inFallback = d.falls) ∨
    (w.activations.get a).inFallback = false ∧ ∀ d ∈ w.deedsOf b, d.activation ≠ a
  started : (w.outputOf b).started = true
  earlier : (w.branches.get b).source.index < (w.branches.get b).output.index
  shows : Shows (w.deedsOf b) (w.outputOf b)
  abreast : Abreast b w
  out : ¬ X a

/-- A subscriber of the source was called. -/
structure Offered (b : BranchId) (e : EntryId) (w w' : World) : Prop where
  branches : w'.branches = w.branches
  activations : w'.activations = w.activations
  deeds : w'.deeds = w.deeds
  entries : w'.entries.size = w.entries.size
  reaction : ∀ e', (w'.entries.get e').reaction = (w.entries.get e').reaction
  signals : ∃ r, w'.signals = w.signals.modify (w.branches.get b).source (Signal.showing e r)

theorem marked_offered (n : Nat) :
    Offered b e w (Signal.marked (w.branches.get b).source n e w) :=
  ⟨rfl, rfl, rfl, Heap.size_modify .., fun e' => Heap.get_modify_same _ e e' _ Entry.reaction fun _ => rfl,
    some n, rfl⟩

theorem greeted_offered : Offered b e w (Signal.greeted (w.branches.get b).source e w) :=
  ⟨rfl, rfl, rfl, rfl, fun _ => rfl, none, rfl⟩

namespace Offered

theorem serves {e' : EntryId} (h : Offered b e w w') : Serves w' b a e' ↔ Serves w b a e' := by
  unfold Serves
  rw [h.reaction, h.activations]

theorem deedsOf (h : Offered b e w w') : w'.deedsOf b = w.deedsOf b :=
  deedsOf_congr h.deeds

theorem sourceOf (h : Offered b e w w') (eligible : Eligible X b a e w) :
    ∃ r, w'.sourceOf b = Signal.showing e r (w.sourceOf b) := by
  obtain ⟨r, signals⟩ := h.signals
  refine ⟨r, ?_⟩
  unfold World.sourceOf
  rw [h.branches, signals]
  exact Heap.get_modify_self _ _ _
    (Nat.lt_trans eligible.earlier (index_lt_of_started eligible.started))

theorem outputOf (h : Offered b e w w') (eligible : Eligible X b a e w) :
    w'.outputOf b = w.outputOf b := by
  obtain ⟨r, signals⟩ := h.signals
  unfold World.outputOf
  rw [h.branches, signals]
  refine Heap.get_modify_of_ne _ _ _ _ fun same => ?_
  have earlier := eligible.earlier
  rw [same] at earlier
  exact Nat.lt_irrefl _ earlier

theorem call? (h : Offered b e w w') : Moment.call? w' b = Moment.call? w b := by
  funext m
  cases m with
  | told e r v x => simp only [Moment.call?, h.reaction, h.activations]
  | _ => rfl

/-- The call is an offer. -/
theorem pending (h : Offered b e w w') (eligible : Eligible X b a e w) :
    Pending X b a ((w.sourceOf b).value.getD .null) w' := by
  obtain ⟨r, source⟩ := h.sourceOf eligible
  have output := h.outputOf eligible
  refine ⟨⟨⟨?_, fun e' a' reaction => ?_, fun e' r' v' x told => ?_,
    fun e₁ e₂ a' serves serves' => ?_, fun e' a' serves late => ?_⟩, fun d hd => ?_, ?_⟩,
    ⟨e, r, (w.sourceOf b).value, h.serves.2 eligible.serves, ?_⟩, ?_, fun e' he a' serves => ?_, ?_, ?_, ?_,
    ?_, ?_, eligible.out⟩
  · rw [h.branches]
    exact eligible.made
  · rw [h.reaction] at reaction
    rw [h.activations]
    exact eligible.periods e' a' reaction
  · rw [source] at told
    rw [h.entries]
    rcases List.mem_cons.1 told with now | before
    · cases now
      exact eligible.serves.known
    · exact eligible.told e' r' v' x before
  · exact eligible.single e₁ e₂ a' (h.serves.1 serves) (h.serves.1 serves')
  · rw [source] at late
    exact eligible.punctual e' a' (h.serves.1 serves) ((List.mem_cons.1 late).resolve_left nofun)
  · rw [h.deedsOf] at hd
    rw [h.activations]
    exact eligible.dated d hd
  · rw [h.branches, h.deedsOf]
    exact eligible.lawful
  · rw [source]
    exact List.mem_cons_self
  · have offered : Moment.call? w b (.told e r (w.sourceOf b).version (w.sourceOf b).value) =
        some (a, (w.sourceOf b).value.getD .null) := Moment.call?_told eligible.serves
    unfold World.calls
    rw [source, h.call?, h.deedsOf]
    simp only [Signal.showing, List.filterMap_cons, offered]
    exact congrArg _ eligible.calls
  · rw [source] at he
    exact eligible.alone e' he a' (h.serves.1 serves)
  · rw [h.deedsOf, h.activations]
    exact eligible.order
  · rw [source]
    rfl
  · rw [output]
    exact eligible.started
  · rw [output, h.deedsOf]
    exact eligible.shows
  · unfold Abreast
    rw [output]
    exact eligible.abreast

theorem vacant {a' : ActivationId} (h : Offered b e w w') (vacant : Vacant b a' w) : Vacant b a' w' := by
  obtain ⟨known, cell, nobody⟩ := vacant
  refine ⟨?_, ?_, fun e' serves => nobody e' (h.serves.1 serves)⟩
  · rw [h.activations]
    exact known
  · rw [h.activations]
    exact cell

theorem toldNow {a' : ActivationId} (h : Offered b e w w') (eligible : Eligible X b a e w)
    (told : ToldNow b a' w) : ToldNow b a' w' := by
  obtain ⟨r, source⟩ := h.sourceOf eligible
  obtain ⟨e', r', x, serves, told⟩ := told
  refine ⟨e', r', x, h.serves.2 serves, ?_⟩
  rw [source]
  exact List.mem_cons_of_mem _ told

theorem version (h : Offered b e w w') (eligible : Eligible X b a e w) :
    (w'.sourceOf b).version = (w.sourceOf b).version := by
  obtain ⟨r, source⟩ := h.sourceOf eligible
  rw [source]
  rfl

/-- What goes on after the call goes on after what was before it. -/
theorem continued (h : Offered b e w w₁) (eligible : Eligible X b a e w) (after : Continued X b w₁ w₂) :
    Continued X b w w₂ := by
  obtain ⟨since, eq, others⟩ := after.since
  refine ⟨after.accounted, ⟨since, eq.trans (congrArg (since ++ ·) h.deedsOf), fun d hd => ?_⟩,
    fun a' ha => (after.flags a' ha).trans (by rw [h.activations]),
    fun a' empty => after.vacant a' (h.vacant empty), fun same a' told => ?_⟩
  · exact ⟨(others d hd).1, fun empty => (others d hd).2 (h.vacant empty)⟩
  · exact after.toldNow (same.trans (h.version eligible).symm) a' (h.toldNow eligible told)

end Offered

/-- A subscriber that has not seen the newest value yet may be told of it. -/
theorem Accounted.eligible (h : Accounted X b w) (told : ∀ a, X a → ToldNow b a w)
    (recorded : Recorded w.entries (w.sourceOf b)) (serves : Serves w b a e)
    (member : e ∈ (w.sourceOf b).subscribers)
    (unseen : (w.entries.get e).seen < (w.sourceOf b).version)
    (alone : ∀ e' ∈ (w.sourceOf b).subscribers, ∀ a', Serves w b a' e' → a' = a)
    (started : (w.outputOf b).started = true)
    (earlier : (w.branches.get b).source.index < (w.branches.get b).output.index) :
    Eligible X b a e w := by
  -- Whoever is in the middle of a deed was offered the newest value, and this one was not.
  have out : ¬ X a := by
    intro hX
    obtain ⟨e', r, x, serves', now⟩ := told a hX
    cases h.single e e' a serves serves'
    exact Nat.not_lt_of_le (recorded.told e r _ x now).2 unseen
  obtain ⟨d, past, deeds, same, flag⟩ := h.present e member a serves
  exact ⟨h.toLedger, serves, h.calls, alone, .inl ⟨d, past, deeds, same, flag out⟩, started, earlier,
    h.shows, h.abreast e member a serves out, out⟩

/-! The subscriber that a match makes for a new period. -/

theorem entered_serves {s : SignalId} {a' : ActivationId} {mode : Mode}
    (serves : Serves (Signal.entered s (.branch a) mode w) b a' e) :
    e = w.entries.next ∧ a' = a ∨ Serves w b a' e := by
  obtain ⟨reaction, branch⟩ := serves
  by_cases here : e = w.entries.next
  · subst here
    rw [entered_reaction] at reaction
    cases reaction
    exact .inl ⟨rfl, rfl⟩
  · have old : (Signal.entered s (.branch a) mode w).entries.get e = w.entries.get e :=
      Heap.get_push_of_ne _ _ _ here
    rw [old] at reaction
    exact .inr ⟨reaction, branch⟩

theorem entered_vacant {s : SignalId} {a' : ActivationId} (mode : Mode) (vacant : Vacant b a' w)
    (other : a' ≠ a) : Vacant b a' (Signal.entered s (.branch a) mode w) :=
  ⟨vacant.known, vacant.cell, fun _ serves =>
    (entered_serves serves).elim (fun new => other new.2) (vacant.nobody _)⟩

theorem entered_toldNow {s : SignalId} {a' : ActivationId} (mode : Mode) (told : ToldNow b a' w) :
    ToldNow b a' (Signal.entered s (.branch a) mode w) := by
  obtain ⟨e, r, x, serves, told⟩ := told
  have old : (Signal.entered s (.branch a) mode w).entries.get e = w.entries.get e := by
    refine Heap.get_push_of_ne _ _ _ ?_
    rintro rfl
    exact Nat.lt_irrefl _ serves.known
  have version : ((Signal.entered s (.branch a) mode w).sourceOf b).version =
      (w.sourceOf b).version := Heap.get_modify_same _ s _ _ Signal.version fun _ => rfl
  refine ⟨e, r, x, ⟨(congrArg Entry.reaction old).trans serves.1, serves.2⟩, ?_⟩
  rw [version]
  by_cases here : s = (w.branches.get b).source
  · subst here
    rcases Nat.lt_or_ge (w.branches.get b).source.index w.signals.size with valid | invalid
    · have source : (Signal.entered (w.branches.get b).source (.branch a) mode w).sourceOf b =
          Signal.joinedBy w.entries.next mode (w.sourceOf b) := Heap.get_modify_self _ _ _ valid
      rw [source]
      exact List.mem_cons_of_mem _ told
    · rw [World.sourceOf, Heap.get_of_size_le _ _ invalid] at told
      cases told
  · have source : (Signal.entered s (.branch a) mode w).sourceOf b = w.sourceOf b :=
      Heap.get_modify_of_ne _ _ _ _ here
    rw [source]
    exact told

/-- It may be told of the value at once. -/
theorem entered_eligible (h : Accounted X b w) (recorded : Recorded w.entries (w.sourceOf b))
    (vacant : Vacant b a w) (idle : ∀ d ∈ w.deedsOf b, d.activation ≠ a)
    (nobody : ∀ e ∈ (w.sourceOf b).subscribers, ∀ a', ¬ Serves w b a' e)
    (started : (w.outputOf b).started = true) (silent : (w.outputOf b).subscribers = [])
    (earlier : (w.branches.get b).source.index < (w.branches.get b).output.index) (out : ¬ X a) :
    Eligible X b a w.entries.next
      (Signal.entered (w.branches.get b).source (.branch a) .immediate w) := by
  let w' := Signal.entered (w.branches.get b).source (.branch a) .immediate w
  have source : w'.sourceOf b = Signal.joinedBy w.entries.next .immediate (w.sourceOf b) :=
    Heap.get_modify_self _ _ _ (Nat.lt_trans earlier (index_lt_of_started started))
  have output : w'.outputOf b = w.outputOf b := by
    refine Heap.get_modify_of_ne _ _ _ _ fun same => ?_
    rw [same] at earlier
    exact Nat.lt_irrefl _ earlier
  have old : ∀ e, e ≠ w.entries.next → w'.entries.get e = w.entries.get e :=
    fun e he => Heap.get_push_of_ne _ _ _ he
  have new : (w'.entries.get w.entries.next).reaction = .branch a :=
    entered_reaction _ _ .immediate
  have size : w'.entries.size = w.entries.size + 1 := Heap.size_push ..
  have known : ∀ e, e.index < w.entries.size → e ≠ w.entries.next := by
    rintro e he rfl
    exact Nat.lt_irrefl _ he
  have calls : w'.calls b = w.calls b := by
    unfold World.calls
    rw [source]
    refine (List.filterMap_cons_none rfl).trans (List.filterMap_congr fun m hm => ?_)
    cases m with
    | told e r v x =>
      have same := old e (known e (h.told e r v x hm))
      simp only [Moment.call?, same]
      rfl
    | _ => rfl
  refine ⟨⟨⟨h.made, fun e a' reaction => ?_, fun e r v x told => ?_, fun e e' a' here here' => ?_,
    fun e a' here late => ?_⟩, h.dated, h.lawful⟩, ⟨new, congrArg Activation.branch vacant.cell⟩,
    calls.trans h.calls, fun e he a' here => ?_, .inr ⟨congrArg Activation.inFallback vacant.cell, idle⟩, ?_,
    earlier, ?_, fun e member => ?_, out⟩
  · by_cases here : e = w.entries.next
    · subst here
      rw [new] at reaction
      cases reaction
      exact vacant.known
    · rw [old e here] at reaction
      exact h.periods e a' reaction
  · rw [source] at told
    rw [size]
    exact Nat.lt_succ_of_lt (h.told e r v x ((List.mem_cons.1 told).resolve_left Moment.noConfusion))
  · rcases entered_serves here with ⟨rfl, rfl⟩ | before
    · rcases entered_serves here' with ⟨rfl, -⟩ | before'
      · rfl
      · exact absurd before' (vacant.nobody e')
    · rcases entered_serves here' with ⟨rfl, rfl⟩ | before'
      · exact absurd before (vacant.nobody e)
      · exact h.single e e' a' before before'
  · rw [source] at late
    have late := (List.mem_cons.1 late).resolve_left (by simp)
    rcases entered_serves here with ⟨rfl, -⟩ | before
    · exact known _ (recorded.known _ (History.mem_joiners late)) rfl
    · exact h.punctual e a' before late
  · rw [source] at he
    rcases entered_serves here with ⟨-, same⟩ | before
    · exact same
    · rcases List.mem_append.1 he with member | member
      · exact absurd before (nobody e member a')
      · rw [List.mem_singleton.1 member] at before
        exact absurd rfl (known _ before.known)
  · rw [output]
    exact started
  · rw [output]
    exact h.shows
  · rw [output, ← h.shows.subscribers, silent] at member
    cases member

/-- What goes on once a new period has joined goes on after what was before the period. -/
theorem Continued.joined {s : SignalId} (before : Continued X b w w₁) (new : w.activations.size ≤ a.index)
    (after : Continued X b (Signal.entered s (.branch a) .immediate w₁) w₂)
    (version : (w₂.sourceOf b).version = (w.sourceOf b).version →
      (w₁.sourceOf b).version = (w.sourceOf b).version) : Continued X b w w₂ := by
  obtain ⟨since, eq, out⟩ := before.since
  obtain ⟨since', eq', out'⟩ := after.since
  have vacant : ∀ a', Vacant b a' w → Vacant b a' (Signal.entered s (.branch a) .immediate w₁) := by
    intro a' empty
    refine entered_vacant .immediate (before.vacant a' empty) ?_
    rintro rfl
    exact Nat.not_lt_of_le new empty.known
  have unchanged : ((Signal.entered s (.branch a) .immediate w₁).sourceOf b).version =
      (w₁.sourceOf b).version := Heap.get_modify_same _ s _ _ Signal.version fun _ => rfl
  refine ⟨after.accounted, ⟨since' ++ since, ?_, fun d hd => ?_⟩,
    fun a' ha => (after.flags a' ha).trans (before.flags a' ha),
    fun a' empty => after.vacant a' (vacant a' empty), fun same a' told => ?_⟩
  · have deeds : (Signal.entered s (.branch a) .immediate w₁).deedsOf b = w₁.deedsOf b := rfl
    rw [eq', deeds, eq, List.append_assoc]
  · rcases List.mem_append.1 hd with hd | hd
    · exact ⟨(out' d hd).1, fun empty => (out' d hd).2 (vacant _ empty)⟩
    · exact out d hd
  · have first := version same
    refine after.toldNow (by rw [unchanged, first, same]) a' ?_
    exact entered_toldNow .immediate (before.toldNow first a' told)

end

end LiveMarkup.Live
