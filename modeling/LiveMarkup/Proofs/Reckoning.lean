import LiveMarkup.Proofs.Offers

/-!
Reckoning: starting signals keeps the accounts of a match. Most of what is started passes the match by.
When the match itself is started it is offered the value of its source before anybody listens to it.
-/
namespace LiveMarkup.Live

/-- The outputs of matches are theirs, and names that allow writes lead to signals that nobody makes. -/
structure Sealed (w : World) : Prop where
  outputs : ∀ b, b.index < w.branches.size → (w.outputOf b).producer = some (.branch b)
  writable : ∀ name s, w.names.signals.get? name = some (s, .writable) →
    (w.signals.get s).producer = none

namespace Sealed
variable {w w' : World} {b : BranchId}

theorem next (h : Sealed w) (dev : Develops w w') : Sealed w' where
  outputs b made := by
    rw [dev.branches] at made
    unfold World.outputOf
    rw [dev.branches, dev.producer]
    exact h.outputs b made
  writable name s named := by
    rw [dev.names] at named
    rw [dev.producer]
    exact h.writable name s named

/-- The output of a match is what the match makes, and nothing else. -/
theorem ne_of_producer (h : Sealed w) (made : b.index < w.branches.size) {s : SignalId}
    (other : (w.signals.get s).producer ≠ some (.branch b)) : s ≠ (w.branches.get b).output := by
  rintro rfl
  exact other (h.outputs b made)

theorem ne_of_real (h : Sealed w) (made : b.index < w.branches.size) {d : DerivationId}
    (real : Real d w) : (w.derivations.get d).output ≠ (w.branches.get b).output := by
  refine h.ne_of_producer made fun produced => ?_
  cases real.symm.trans produced

theorem ne_of_proper (h : Sealed w) (made : b.index < w.branches.size) {a : ActivationId}
    (proper : Reaction.Proper w (.branch a)) (other : (w.activations.get a).branch ≠ b) :
    (w.branches.get (w.activations.get a).branch).output ≠ (w.branches.get b).output := by
  refine h.ne_of_producer made fun produced => other ?_
  rw [proper.2] at produced
  exact (Producer.branch.inj (Option.some.inj produced))

theorem ne_of_writable (h : Sealed w) (made : b.index < w.branches.size) {name : Name} {s : SignalId}
    (named : w.names.signals.get? name = some (s, .writable)) : s ≠ (w.branches.get b).output := by
  refine h.ne_of_producer made fun produced => ?_
  rw [h.writable name s named] at produced
  cases produced

theorem earlier (h : Sealed w) (laid : Laid w) (made : b.index < w.branches.size) :
    (w.branches.get b).source.index < (w.branches.get b).output.index :=
  (laid.producers _ _ (h.outputs b made)).2.2

end Sealed

/-- What a runner does to the accounts of a match. -/
class Reckons (b : BranchId) (run : Runner) : Prop where
  script : ∀ {steps current w w'}, Sealed w → (∀ step ∈ steps, step.Operates) →
    Poised NoNode NoNode w → run (.script steps current) w = .ok ((), w') → Accounts b 1 w w'
  told : ∀ {name steps v w w'}, Sealed w → (∀ step ∈ steps, step.Operates) →
    Poised NoNode NoNode w → run (.react (.told name steps) v) w = .ok ((), w') → Accounts b 1 w w'
  refresh : ∀ {d v w w'}, Sealed w → Poised NoNode NoNode w → Real d w →
    (w.signals.get (w.derivations.get d).output).started = true →
    run (.react (.refresh d) v) w = .ok ((), w') → Accounts b 1 w w'
  /-- Other matches write other outputs. -/
  branch : ∀ {a v w w'}, Sealed w → Poised NoNode NoNode w → Reaction.Proper w (.branch a) →
    (w.activations.get a).branch ≠ b → run (.react (.branch a) v) w = .ok ((), w') →
      Accounts b 1 w w'
  own : ∀ {a v w w'}, Sealed w → Poised NoNode NoNode w → (w.activations.get a).branch = b →
    run (.react (.branch a) v) w = .ok ((), w') → Responds b a (v.getD .null) w w'
  unheard : ∀ {a v w w'}, Sealed w → Reaction.Proper w (.branch a) →
    (w.activations.get a).branch ≠ b → (w.outputOf (w.activations.get a).branch).subscribers = [] →
    run (.react (.branch a) v) w = .ok ((), w') → Accounts b 1 w w'
  unheardOwn : ∀ {a v w w'}, (w.activations.get a).branch = b → (w.outputOf b).subscribers = [] →
    run (.react (.branch a) v) w = .ok ((), w') → Responds b a (v.getD .null) w w'
  effect : ∀ {n e v w w'}, run (.react (.effect n e) v) w = .ok ((), w') → Accounts b 1 w w'
  start : ∀ {D s w w'}, Sealed w → Poised D NoNode w → ¬ D s → (w.signals.get s).producer ≠ none →
    (w.signals.get s).subscribers = [] → (w.signals.get s).started = false →
    (∀ n, D n → s.index < n.index) → run (.start s) w = .ok ((), w') → Accounts b 1 w w'
  cancel : ∀ {D c w w'}, Sealed w → Poised D NoNode w → Permits D w c →
    run (.cancel c) w = .ok ((), w') → Accounts b 1 w w'

section
variable (b : BranchId) {run : Runner} [Reckons b run] {D : SignalId → Prop} {w w₂ w₅ : World}
  {s n : SignalId} {d : DerivationId} {X : ActivationId → Prop}

theorem wake_accounts (sealed : Sealed w) (h : Poised D NoNode w) (out : ¬ D s)
    (before : ∀ n, D n → s.index < n.index) :
    Ensures run (Signal.wake s) w fun _ w' => Accounts b 1 w w' := by
  simp only [Signal.wake, ensures_bind, ensures_get]
  by_cases idle : Signal.isIdle w s = true
  · rw [if_pos idle, ensures_invoke]
    intro w' hw'
    simp only [Signal.isIdle, Bool.and_eq_true, List.isEmpty_iff, Bool.not_eq_eq_eq_not,
      Bool.not_true] at idle
    obtain ⟨⟨nobody, notStarted⟩, produced⟩ := idle
    exact Reckons.start sealed h out (Option.isSome_iff_ne_none.1 produced) nobody notStarted before hw'
  · rw [if_neg idle, ensures_pure]
    exact Lasting.refl w

/-! Derived signals. -/

theorem subscribe_accounts (sealed : Sealed w) (h : AtWork D d w)
    (earlier : s.index < (w.derivations.get d).output.index) :
    Ensures run (Signal.subscribe s (.refresh d) .normal) w fun _ w' => Accounts b 1 w w' := by
  have out : ¬ D s := fun hs => Nat.not_le_of_lt earlier (h.last s hs)
  have before : ∀ n, D n → s.index < n.index :=
    fun n hn => Nat.lt_of_lt_of_le earlier (h.last n hn)
  refine (ensures_bind ..).2 ((wake_accounts b sealed h.toPoised out before).mono fun _ w₁ woken => ?_)
  refine (ensures_bind ..).2 ((join_ensures s (.refresh d)).mono ?_)
  rintro _ w₂ ⟨rfl, rfl⟩
  simp only [Subscription.create, ensures_bind, ensures_get, ensures_set, ensures_pure]
  have entered : Accounts b 1 w₁ (Signal.entered s (.refresh d) .normal w₁) :=
    (entered_passes s .normal fun _ => Reaction.noConfusion).accounts
  exact Lasting.trans woken (Lasting.trans entered (made_passes _).accounts)

theorem follow_accounts (sealed : Sealed w) (h : AtWork D d w)
    (earlier : s.index < (w.derivations.get d).output.index) :
    Ensures run (Derivation.follow d s) w fun _ w' => Accounts b 1 w w' := by
  refine (ensures_bind ..).2 ((subscribe_accounts b sealed h earlier).mono fun sub w₁ subscribed => ?_)
  refine (ensures_modify ..).2 (Lasting.trans subscribed (cell_passes d _ ?_ ?_).accounts)
  · exact fun _ => rfl
  · exact fun _ => rfl

omit [Reckons b run] in
theorem learning_accounts (d : DerivationId) (s : SignalId) :
    Accounts b 1 w (Derivation.learning d s w) :=
  (cell_passes d (fun cell => { cell with
    shown := s :: cell.shown
    tracked := if s ∈ cell.tracked then cell.tracked else cell.tracked ++ [s] })
    (fun _ => rfl) fun _ => rfl).accounts

theorem track_accounts (sealed : Sealed w) (h : AtWork D d w)
    (earlier : s.index < (w.derivations.get d).output.index)
    (bound : Bound d (w.derivations.get d).tracked w) :
    Ensures run (Derivation.track s (.recording d)) w fun _ w' => Accounts b 1 w w' := by
  obtain ⟨h₁, rises₁, -⟩ := learning_balances h earlier bound
  have learned : Accounts b 1 w (Derivation.learning d s w) := learning_accounts b d s
  intro _ w' hw'
  rw [track_eq] at hw'
  split at hw'
  case isTrue =>
    cases hw'
    exact learned
  case isFalse =>
    rw [← rises₁.output] at earlier
    exact Lasting.trans learned
      (follow_accounts b (sealed.next learned.toDevelops) h₁ earlier _ _ hw')

omit [Reckons b run] in
/-- A write to a signal that nobody listens to. -/
theorem write_accounts_of_nobody (nobody : (w.signals.get s).subscribers = [])
    (other : b.index < w.branches.size → s ≠ (w.branches.get b).output) (value : Option Value) :
    Ensures run (Signal.write s value) w fun _ w' => Accounts b 1 w w' := by
  refine (ensures_bind ..).2 ((ensures_get _).2 ?_)
  split
  case isTrue => exact (ensures_pure ..).2 (Lasting.refl w)
  case isFalse =>
    intro _ w' hw'
    have silent : ((Signal.changed s value w).signals.get s).subscribers = [] :=
      (Heap.get_modify_same w.signals s s (fun signal => .bumped { signal with value })
        Signal.subscribers fun _ => rfl).trans nobody
    rw [replace_eq, tellAll_nobody silent] at hw'
    cases hw'
    exact changed_accounts value other

variable [KeptBy Delivers run] [Balances run]

/-- By induction on the computation. -/
theorem reading_accounts {r : Reading} {limit : Nat} {names : Ordered Name (SignalId × Role)}
    (sealed : Sealed w) (hr : r.Grounded names limit) (hnames : w.names.signals = names)
    (h : AtWork D d w) (hlimit : limit = (w.derivations.get d).output.index)
    (bound : Bound d (w.derivations.get d).tracked w) :
    Ensures run (r.run (.recording d)) w fun _ w' => Accounts b 1 w w' := by
  induction hr generalizing w with
  | done v => exact (ensures_pure ..).2 (Lasting.refl w)
  | @get t next earlier rest ih =>
    refine (ensures_bind ..).2 fun _ w₁ hw₁ => ?_
    obtain ⟨balanced₁, rises₁, bound₁⟩ := track_balances h (hlimit ▸ earlier) bound _ _ hw₁
    have tracked : Accounts b 1 w w₁ := track_accounts b sealed h (hlimit ▸ earlier) bound _ _ hw₁
    have h₁ : AtWork D d w₁ := h.next (keeps_track t _ w _ _ hw₁) balanced₁ rises₁.toDevelops
    refine (ensures_bind ..).2 ((ensures_get _).2 ?_)
    have hlimit₁ : limit = (w₁.derivations.get d).output.index := by
      rw [hlimit, rises₁.output]
    exact (ih _ (sealed.next tracked.toDevelops) (rises₁.names.trans hnames) h₁ hlimit₁ bound₁).mono
      fun _ w₂ computed => Lasting.trans tracked computed
  | @signal name t role next named rest ih =>
    refine (ensures_bind ..).2 ((ensures_get _).2 ?_)
    have lookup : require name (w.names.signals.get? name) = pure (t, role) := by
      rw [hnames, named]
      rfl
    rw [lookup]
    exact (ensures_bind ..).2 ((ensures_pure ..).2 (ih sealed hnames h hlimit bound))
  | literal rest ih =>
    exact (ensures_bind ..).2 ((ensures_pure ..).2 (ih sealed hnames h hlimit bound))
  | text rest ih => exact (ensures_bind ..).2 ((ensures_get _).2 (ih _ sealed hnames h hlimit bound))

/-- By induction on the signals that are followed. -/
theorem followEach_accounts {l done : List SignalId} (sealed : Sealed w) (h : AtWork D d w)
    (earlier : ∀ t ∈ l, t.index < (w.derivations.get d).output.index) (bound : Bound d done w)
    (distinct : (done ++ l).Nodup) :
    Ensures run (l.forM (Derivation.follow d)) w fun _ w' => Accounts b 1 w w' := by
  induction l generalizing w done with
  | nil => exact (ensures_pure ..).2 (Lasting.refl w)
  | cons t l ih =>
    have new : t ∉ done := fun mem =>
      (List.nodup_append.1 distinct).2.2 t mem t List.mem_cons_self rfl
    refine (ensures_bind ..).2 fun _ w₁ hw₁ => ?_
    obtain ⟨balanced₁, rises₁, bound₁, -⟩ :=
      follow_balances h (earlier t List.mem_cons_self) bound new _ _ hw₁
    have followed : Accounts b 1 w w₁ :=
      follow_accounts b sealed h (earlier t List.mem_cons_self) _ _ hw₁
    have h₁ : AtWork D d w₁ :=
      h.next (keeps_followSignal d t w _ _ hw₁) balanced₁ rises₁.toDevelops
    have rest : done ++ t :: l = done ++ [t] ++ l := by simp
    rw [rest] at distinct
    refine (ih (sealed.next followed.toDevelops) h₁ (fun u hu => ?_) bound₁ distinct).mono
      fun _ w₂ others => Lasting.trans followed others
    rw [rises₁.output]
    exact earlier u (List.mem_cons_of_mem _ hu)

theorem startDerivation_accounts (sealed : Sealed w) (h : AtWork D d w)
    (nobody : (w.signals.get (w.derivations.get d).output).subscribers = [])
    (unlinked : ∀ t, links w (w.derivations.get d).output t = []) :
    Ensures run (Derivation.start d) w fun _ w' => Accounts b 1 w w' := by
  have bound : Bound d [] w := by
    constructor
    · intro t
      simp [unlinked]
    · intro t e he
      rw [unlinked] at he
      cases he
  refine (ensures_bind ..).2 ((ensures_get _).2 ((ensures_bind ..).2 ?_))
  intro _ w₁ hw₁
  have makes := h.producers _ _ h.real
  obtain ⟨balanced₁, rises₁, bound₁, tracked₁⟩ :=
    followEach_balances h makes.2.2.2 bound (h.seen d).1 _ _ hw₁
  have followed : Accounts b 1 w w₁ :=
    followEach_accounts b sealed h makes.2.2.2 bound (h.seen d).1 _ _ hw₁
  have sealed₁ := sealed.next followed.toDevelops
  have h₁ : AtWork D d w₁ :=
    h.next (keeps_forM (keeps_followSignal d) w _ _ hw₁) balanced₁ rises₁.toDevelops
  rw [List.nil_append, ← tracked₁] at bound₁
  refine (ensures_bind ..).2 ((ensures_bind ..).2 ((ensures_get _).2 ((ensures_bind ..).2 ?_)))
  intro v w₂ hw₂
  have pure := (h₁.producers _ _ h₁.real).2.2.1
  obtain ⟨-, rises₂, -⟩ := reading_balances pure rfl h₁ rfl bound₁ _ _ hw₂
  have computed : Accounts b 1 w₁ w₂ := reading_accounts b sealed₁ pure rfl h₁ rfl bound₁ _ _ hw₂
  have output : (w₁.derivations.get d).output = (w.derivations.get d).output := rises₁.output d
  have alone : (w₂.signals.get (w₁.derivations.get d).output).subscribers = [] := by
    rw [rises₂.above _ (Nat.le_refl _), output, rises₁.above _ (Nat.le_refl _), nobody]
  have other : b.index < w₂.branches.size →
      (w₁.derivations.get d).output ≠ (w₂.branches.get b).output := by
    rw [computed.branches]
    exact fun made => sealed₁.ne_of_real made h₁.real
  refine (write_accounts_of_nobody b alone other (some v)).mono fun _ w₃ written => ?_
  simp only [Subscription.create, ensures_bind, ensures_get, ensures_set, ensures_pure]
  exact Lasting.trans (Lasting.trans followed computed)
    (Lasting.trans written (made_passes _).accounts)

/-! Matches. -/

/-- Another match is started. -/
theorem startOther_accounts {b' : BranchId} (sealed : Sealed w) (h : Poised D NoNode w) (hn : D n)
    (last : ∀ m, D m → n.index ≤ m.index)
    (produced : (w.signals.get n).producer = some (.branch b'))
    (nobody : (w.signals.get n).subscribers = []) (other : b' ≠ b) :
    Ensures run (Branch.start b') w fun _ w' => Accounts b 1 w w' := by
  refine (startBranch_begins h hn last produced nobody).mono ?_
  rintro _ _ ⟨w₂, w₅, begins, -, rfl⟩
  let source := (w.branches.get b').source
  let a := w.activations.next
  let w₁ := Branch.activated b' w
  let w₃ := Branch.joined b' w w₂
  let w₄ := Branch.shown b' w w₂
  have activated : Accounts b 1 w w₁ := (activated_passes b').accounts
  have sealed₁ := sealed.next activated.toDevelops
  have woken : Accounts b 1 w₁ w₂ :=
    wake_accounts b sealed₁ begins.poised₁
      (fun hs => Nat.not_le_of_lt begins.earlier (last _ hs))
      (fun m hm => Nat.lt_of_lt_of_le begins.earlier (last m hm)) _ _ begins.woken
  have cell : (w₂.activations.get a).branch = b' := by
    refine (begins.rises₂.matched a ?_).trans (congrArg Activation.branch (Heap.get_push_next ..))
    simp [Branch.activated, a, Heap.next]
  have own : ∀ a', Reaction.branch a = .branch a' → (w₂.activations.get a').branch ≠ b := by
    rintro _ ⟨⟩
    rw [cell]
    exact other
  have entered : Accounts b 1 w₂ w₃ :=
    (entered_passes source .immediate fun a' same =>
      ⟨Reaction.branch.inj same ▸ begins.proper.1, own a' same⟩).accounts
  have known : w₂.entries.next.index < w₃.entries.size := by
    simp [w₃, Signal.entered, Heap.next]
  have greeted : Accounts b 1 w₃ w₄ := by
    refine (greeted_passes known fun a' serves => own a' ?_ serves.2).accounts
    rw [← serves.1, entered_reaction]
  have proper : Reaction.Proper w₄ (.branch a) :=
    (greeted_same source _ w₃).proper (begins.rises₃.proper begins.proper)
  have node : (w₄.branches.get (w₄.activations.get a).branch).output = n :=
    Option.some.inj begins.node
  have sealed₄ : Sealed w₄ :=
    ((sealed₁.next woken.toDevelops).next entered.toDevelops).next greeted.toDevelops
  have offered : Accounts b 1 w₄ w₅ := by
    refine Reckons.unheard sealed₄ proper (own a rfl) ?_ begins.offered
    unfold World.outputOf
    rw [node]
    exact begins.alone
  exact Lasting.trans (Lasting.trans activated woken)
    (Lasting.trans (Lasting.trans entered greeted) (Lasting.trans offered (made_passes _).accounts))

/-- Nobody has been told anything for a period that begins. -/
theorem activated_vacant (accounted : Accounted X b w) :
    Vacant b w.activations.next (Branch.activated b w) := by
  refine ⟨by simp [Branch.activated, Heap.next], Heap.get_push_next .., fun e serves => ?_⟩
  exact Nat.lt_irrefl _ (accounted.periods e _ serves.1)

omit [Reckons b run] [KeptBy Delivers run] [Balances run] in
/-- A period that begins may be told of the value as soon as its entry is among the subscribers. -/
theorem begins_eligible (begins : Begins run D b (w.branches.get b).output w w₂ w₅)
    (h : Poised D NoNode w) (accounted : Accounted X b w) (told : ∀ a, X a → ToldNow b a w)
    (branches : w₂.branches = w.branches) (continued : Continued X b (Branch.activated b w) w₂)
    (nobody : (w.outputOf b).subscribers = []) (started : (w.outputOf b).started = true)
    (unlinked : ∀ t, links w (w.branches.get b).output t = []) :
    Eligible X b w.activations.next w₂.entries.next (Branch.joined b w w₂) := by
  have unknown : ∀ a, a.index < w.activations.size → a ≠ w.activations.next := by
    rintro a known rfl
    exact Nat.lt_irrefl _ known
  have vacant : Vacant b w.activations.next (Branch.activated b w) := activated_vacant b accounted
  have joined : Branch.joined b w w₂ =
      Signal.entered (w₂.branches.get b).source (.branch w.activations.next) .immediate w₂ := by
    rw [branches]
  rw [joined]
  refine entered_eligible continued.accounted (begins.poised₂.faithful.signals _)
    (continued.vacant _ vacant) (fun d hd same => ?_) (fun e he a serves => ?_) ?_ ?_ ?_ fun ha => ?_
  · obtain ⟨since, eq, others⟩ := continued.since
    rw [eq, (activated_passes b).deedsOf] at hd
    rcases List.mem_append.1 hd with hd | hd
    · exact (others d hd).2 (same ▸ vacant)
    · exact unknown _ (accounted.dated d hd) same
  · -- Nobody works for a match that is being started.
    have link : e ∈ links w₂ (w.branches.get b).output (w.branches.get b).source := by
      refine mem_links.2 ⟨branches ▸ he, ?_⟩
      rw [serves.1, Reaction.node?, serves.2, branches]
    rw [begins.rises₂.links _ begins.earlier id, (activated_same b w).links_eq h.toLaid,
      unlinked] at link
    cases link
  · unfold World.outputOf
    rw [branches]
    exact begins.rises₂.started _ started
  · unfold World.outputOf
    rw [branches, begins.rises₂.above _ begins.earlier]
    exact nobody
  · rw [branches]
    exact begins.earlier
  · obtain ⟨e, -, -, serves, -⟩ := told _ ha
    exact unknown _ (accounted.periods e _ serves.1) rfl

/-- The match is started: its new period is offered the value of the source. -/
theorem startOwn_accounts (sealed : Sealed w) (h : Poised D NoNode w) (hn : D n)
    (last : ∀ m, D m → n.index ≤ m.index)
    (produced : (w.signals.get n).producer = some (.branch b))
    (nobody : (w.signals.get n).subscribers = []) (started : (w.signals.get n).started = true)
    (unlinked : ∀ t, links w n t = []) :
    Ensures run (Branch.start b) w fun _ w' => Accounts b 1 w w' := by
  refine (startBranch_begins h hn last produced nobody).mono ?_
  rintro _ _ ⟨w₂, w₅, begins, -, rfl⟩
  obtain ⟨made, rfl, -⟩ := h.producers n _ produced
  let a := w.activations.next
  let e := w₂.entries.next
  let w₁ := Branch.activated b w
  let w₃ := Branch.joined b w w₂
  let w₄ := Branch.shown b w w₂
  have activated : Passes b w w₁ := activated_passes b
  have sealed₁ := sealed.next activated.toDevelops
  have woken : Accounts b 1 w₁ w₂ :=
    wake_accounts b sealed₁ begins.poised₁
      (fun hs => Nat.not_le_of_lt begins.earlier (last _ hs))
      (fun m hm => Nat.lt_of_lt_of_le begins.earlier (last m hm)) _ _ begins.woken
  have branches₂ : w₂.branches = w.branches := woken.branches
  have cell : (w₄.activations.get a).branch = b := by
    refine (begins.rises₂.matched a ?_).trans (congrArg Activation.branch (Heap.get_push_next ..))
    simp [Branch.activated, a, Heap.next]
  have hushed : Hushed (w.branches.get b).output w₄ w₅ :=
    Balances.unheard (Option.some.inj begins.node) begins.alone begins.offered
  have source₃ : (w₃.branches.get b).source = (w.branches.get b).source :=
    congrArg (fun branches => (branches.get b).source) branches₂
  have responds : Responds b a ((w₃.sourceOf b).value.getD .null) w₄ w₅ := by
    have nobody₄ : (w₄.outputOf b).subscribers = [] :=
      (congrArg (fun branches => (w₄.signals.get (branches.get b).output).subscribers)
        branches₂).trans begins.alone
    have responds := Reckons.unheardOwn cell nobody₄ begins.offered
    unfold Signal.content at responds
    rw [← source₃] at responds
    exact responds
  have offered : Offered b e w₃ w₄ := by
    have offered : Offered b e w₃ (Signal.greeted (w₃.branches.get b).source e w₃) :=
      greeted_offered
    rw [source₃] at offered
    exact offered
  have dev₂₄ : Develops w₂ w₄ :=
    begins.rises₃.toDevelops.trans (greeted_same _ _ _).toDevelops
  have version₃ : (w₃.sourceOf b).version = (w₂.sourceOf b).version :=
    Heap.get_modify_same _ _ _ _ Signal.version fun _ => rfl
  have version₄ : (w₄.sourceOf b).version = (w₃.sourceOf b).version :=
    Heap.get_modify_same _ _ _ _ Signal.version fun _ => rfl
  have version₅ : (w₅.sourceOf b).version = (w₄.sourceOf b).version := by
    have others := hushed.others (w₄.branches.get b).source fun same => ?_
    · unfold World.sourceOf
      rw [hushed.branches, others]
    · rw [dev₂₄.branches, branches₂] at same
      exact Nat.lt_irrefl _ (same ▸ begins.earlier)
  let w₆ := Subscription.made (.entry (w.branches.get b).source e) w₅
  have made₆ : Accounts b 1 w₅ w₆ := (made_passes _).accounts
  have le := activated.version
  have le' := woken.version
  have version₆ : (w₆.sourceOf b).version = (w₅.sourceOf b).version := rfl
  change Accounts b 1 w w₆
  refine ⟨((activated.toDevelops.trans woken.toDevelops).trans dev₂₄).trans
    (hushed.toDevelops.trans made₆.toDevelops), by omega,
    fun unmade => absurd made (Nat.not_lt_of_le unmade), fun X accounted told once => ?_⟩
  have once₁ : (w₁.sourceOf b).version = (w.sourceOf b).version ∨ (∀ a, ¬ X a) ∧
      (w₁.sourceOf b).version ≤ (w.sourceOf b).version + 1 := .inl rfl
  have once₂ : (w₂.sourceOf b).version = (w₁.sourceOf b).version ∨ (∀ a, ¬ X a) ∧
      (w₂.sourceOf b).version ≤ (w₁.sourceOf b).version + 1 := by
    rcases once with same | ⟨nobody, few⟩
    · exact .inl (by omega)
    · exact .inr ⟨nobody, by omega⟩
  have continued₁ : Continued X b w w₁ := activated.accounts.kept X accounted told once₁
  have told₁ := activated.accounts.toldNow accounted told once₁
  have continued₂ : Continued X b w₁ w₂ := woken.kept X continued₁.accounted told₁ once₂
  have told₂ := woken.toldNow continued₁.accounted told₁ once₂
  have eligible : Eligible X b a e w₃ :=
    begins_eligible b begins h accounted told branches₂ continued₂ nobody started unlinked
  have after : Continued X b w₄ w₅ := by
    refine responds.kept X (offered.pending eligible) (fun a' ha => ?_) version₅
    exact offered.toldNow eligible (entered_toldNow .immediate (told₂ a' ha))
  have joined := (continued₁.trans continued₂ le le').joined (Nat.le_refl _)
    (offered.continued eligible after) fun same => by omega
  refine joined.trans (made₆.kept X joined.accounted (fun a' ha => ?_) (.inl rfl))
    (by omega) (Nat.le_refl _)
  rcases once with same | ⟨nobody, -⟩
  · exact joined.toldNow same a' (told a' ha)
  · exact absurd ha (nobody a')

/-! Any node. -/

/-- By cases on what makes the signal. -/
theorem activate_accounts (sealed : Sealed w) (h : Poised D NoNode w) (out : ¬ D s)
    (produced : (w.signals.get s).producer ≠ none) (nobody : (w.signals.get s).subscribers = [])
    (idle : (w.signals.get s).started = false) (before : ∀ n, D n → s.index < n.index) :
    Ensures run (Signal.activate s) w fun _ w' => Accounts b 1 w w' := by
  obtain ⟨p, hp⟩ := Option.ne_none_iff_exists'.1 produced
  let w₁ := Signal.begun s w
  have begun : Accounts b 1 w w₁ := (flags_passes s (fun _ => true) Signal.teardown).accounts
  have sealed₁ := sealed.next begun.toDevelops
  have h₁ : Poised (fun m => D m ∨ m = s) NoNode w₁ := begun_poised h produced
  have self : w₁.signals.get s = { w.signals.get s with started := true } :=
    Heap.get_modify_self _ _ _ (index_lt_of_ne Signal.producer produced)
  have nobody₁ : (w₁.signals.get s).subscribers = [] := by
    rw [self]
    exact nobody
  have unlinked : ∀ t, links w₁ s t = [] := begun_unlinked h out idle
  have last : ∀ m, D m ∨ m = s → s.index ≤ m.index := by
    rintro m (hm | rfl)
    · exact Nat.le_of_lt (before m hm)
    · exact Nat.le_refl _
  have finish : ∀ {x : Op SubscriptionId}, Ensures run x w₁ (fun _ w₂ => Accounts b 1 w₁ w₂) →
      Ensures run (do
        let teardown ← x
        modifySignal s fun signal => { signal with teardown := some teardown }) w₁
        fun _ w' => Accounts b 1 w w' := by
    intro x hx
    refine (ensures_bind ..).2 (hx.mono fun t w₂ started => (ensures_modify ..).2 ?_)
    exact Lasting.trans begun
      (Lasting.trans started (flags_passes s Signal.started fun _ => some t).accounts)
  refine (ensures_bind ..).2 ((ensures_get _).2 ?_)
  rw [hp]
  refine (ensures_bind ..).2 ((ensures_modify ..).2 (finish ?_))
  cases p with
  | derivation d =>
    obtain ⟨real, output⟩ := h.toLaid.real_of_producer hp
    have output₁ : (w₁.derivations.get d).output = s := output
    have work : AtWork (fun m => D m ∨ m = s) d w₁ := by
      refine ⟨h₁, ?_, begun.real.2 real, ?_⟩
      · rw [output₁]
        exact .inr rfl
      · rw [output₁]
        exact last
    rw [← output₁] at nobody₁ unlinked
    exact startDerivation_accounts b sealed₁ work nobody₁ unlinked
  | branch b' =>
    have produced₁ : (w₁.signals.get s).producer = some (.branch b') := (begun.producer s).trans hp
    by_cases own : b' = b
    · subst own
      refine startOwn_accounts b' sealed₁ h₁ (.inr rfl) last produced₁ nobody₁ ?_ unlinked
      rw [self]
    · exact startOther_accounts b sealed₁ h₁ (.inr rfl) last produced₁ nobody₁ own
  | script name start stop => exact (h.producers s _ hp).elim

end

end LiveMarkup.Live
