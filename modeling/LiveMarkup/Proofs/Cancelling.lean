import LiveMarkup.Proofs.Graph
import Mathlib.Data.Set.Insert

/-!
Cancelling: an account of who is cancelled when. The work of a cancellation may cancel others on its
way, so that cancellations are nested as calls are, and an account of a run is a list of trees of
them. Such a list is orderly if nothing is cancelled that was before, and if an aggregate has its
members cancelled in turn, those left out that were cancelled in the meantime.
-/
namespace LiveMarkup.Live

/-- The cancellation of a subscription: the work of it, and the cancellations on the way. -/
inductive Cancellation where
  | mk (handle : SubscriptionId) (work : Cancel) (within : List Cancellation)

namespace Cancellation

mutual

/-- The subscriptions that are cancelled, those that come first before those on the way. -/
def handles : Cancellation → List SubscriptionId
  | .mk s _ within => s :: handlesAll within

def handlesAll : List Cancellation → List SubscriptionId
  | [] => []
  | x :: rest => x.handles ++ handlesAll rest

end

/-- The same as a set. -/
def cancelled (l : List Cancellation) : Set SubscriptionId :=
  {s | s ∈ handlesAll l}

/-- Each member of an aggregate in turn is passed over if it was cancelled already, on the way of
another one perhaps, and is cancelled if it was not. -/
inductive InTurn : Set SubscriptionId → List SubscriptionId → List Cancellation → Prop
  | nil {before : Set SubscriptionId} : InTurn before [] []
  | passed {before : Set SubscriptionId} {s : SubscriptionId} {members : List SubscriptionId}
    {l : List Cancellation} (idle : s ∈ before) (rest : InTurn before members l) :
    InTurn before (s :: members) l
  | turn {before : Set SubscriptionId} {s : SubscriptionId} {c : Cancel}
    {members : List SubscriptionId} {within l : List Cancellation} (active : s ∉ before)
    (rest : InTurn (before ∪ cancelled [.mk s c within]) members l) :
    InTurn before (s :: members) (.mk s c within :: l)

mutual

/-- Nothing is cancelled that was before, and members are cancelled in turn. -/
def Orderly (before : Set SubscriptionId) : Cancellation → Prop
  | .mk s c within =>
    s ∉ before ∧ OrderlyAll (insert s before) within ∧
      ∀ members, c = .all members → InTurn (insert s before) members within

/-- And so on, one after another. -/
def OrderlyAll (before : Set SubscriptionId) : List Cancellation → Prop
  | [] => True
  | x :: rest => Orderly before x ∧ OrderlyAll (before ∪ cancelled [x]) rest

end

/-- A cancellation is among others, or on the way of one of them. -/
inductive Among (x : Cancellation) : List Cancellation → Prop
  | here {l : List Cancellation} (mem : x ∈ l) : Among x l
  | within {s : SubscriptionId} {c : Cancel} {l inner : List Cancellation} (mem : .mk s c inner ∈ l)
    (deeper : Among x inner) : Among x l

/-- A subscription was a member of an aggregate when that was cancelled. -/
def Member (l : List Cancellation) (m a : SubscriptionId) : Prop :=
  ∃ members within, Among (.mk a (.all members) within) l ∧ m ∈ members

variable {before : Set SubscriptionId} {l l' : List Cancellation} {x : Cancellation}
  {s : SubscriptionId}

theorem handlesAll_append (l l' : List Cancellation) :
    handlesAll (l ++ l') = handlesAll l ++ handlesAll l' := by
  induction l with
  | nil => rfl
  | cons x l ih => rw [List.cons_append, handlesAll, handlesAll, ih, List.append_assoc]

@[simp] theorem cancelled_nil : cancelled [] = ∅ := by
  ext s
  simp [cancelled, handlesAll]

theorem cancelled_append (l l' : List Cancellation) :
    cancelled (l ++ l') = cancelled l ∪ cancelled l' := by
  ext s
  simp [cancelled, handlesAll_append]

theorem cancelled_cons (x : Cancellation) (l : List Cancellation) :
    cancelled (x :: l) = cancelled [x] ∪ cancelled l :=
  cancelled_append [x] l

theorem cancelled_mk (s : SubscriptionId) (c : Cancel) (within : List Cancellation) :
    cancelled [.mk s c within] = insert s (cancelled within) := by
  ext m
  simp [cancelled, handlesAll, handles]

theorem orderlyAll_append :
    OrderlyAll before (l ++ l') ↔ OrderlyAll before l ∧ OrderlyAll (before ∪ cancelled l) l' := by
  induction l generalizing before with
  | nil => simp [OrderlyAll]
  | cons x l ih =>
    rw [List.cons_append, OrderlyAll, OrderlyAll, ih, cancelled_cons x l, Set.union_assoc, and_assoc]

/-! What is orderly has no subscription twice. -/

mutual

theorem Orderly.nodup {before : Set SubscriptionId} {x : Cancellation} (h : Orderly before x) :
    x.handles.Nodup ∧ ∀ s ∈ x.handles, s ∉ before := by
  cases x with
  | mk s c within =>
    obtain ⟨new, inner, -⟩ := h
    obtain ⟨once, fresh⟩ := inner.nodup
    refine ⟨List.nodup_cons.2 ⟨fun again => fresh s again (Set.mem_insert s before), once⟩, ?_⟩
    intro m hm
    rcases List.mem_cons.1 hm with rfl | hm
    · exact new
    · exact fun old => fresh m hm (Set.mem_insert_of_mem s old)

theorem OrderlyAll.nodup {before : Set SubscriptionId} {l : List Cancellation}
    (h : OrderlyAll before l) : (handlesAll l).Nodup ∧ ∀ s ∈ handlesAll l, s ∉ before := by
  cases l with
  | nil => exact ⟨.nil, nofun⟩
  | cons x rest =>
    obtain ⟨first, others⟩ := h
    obtain ⟨once, fresh⟩ := first.nodup
    obtain ⟨once', fresh'⟩ := others.nodup
    have apart : ∀ s ∈ x.handles, s ∉ handlesAll rest := by
      intro s hs hs'
      refine fresh' s hs' (.inr ?_)
      simpa [cancelled, handlesAll] using hs
    refine ⟨List.nodup_append.2 ⟨once, once', fun s hs s' hs' same => ?_⟩, fun s hs => ?_⟩
    · exact apart s hs (same ▸ hs')
    · rcases List.mem_append.1 hs with hs | hs
      · exact fresh s hs
      · exact fun old => fresh' s hs (.inl old)

end

/-! And an aggregate goes with all its members. -/

theorem InTurn.members {members : List SubscriptionId} (h : InTurn before members l)
    (mem : s ∈ members) : s ∈ before ∪ cancelled l := by
  induction h with
  | nil => cases mem
  | passed idle rest ih =>
    rcases List.mem_cons.1 mem with rfl | mem
    · exact .inl idle
    · exact ih mem
  | @turn before t c members within l active rest ih =>
    rw [cancelled_cons _ l, ← Set.union_assoc]
    rcases List.mem_cons.1 mem with rfl | mem
    · refine .inl (.inr ?_)
      rw [cancelled_mk]
      exact Set.mem_insert s _
    · exact ih mem

/-- A cancellation has its place, with what was cancelled before. -/
theorem Among.orderly (h : Among x l) (orderly : OrderlyAll before l) :
    ∃ before', before ⊆ before' ∧ Orderly before' x ∧
      before' ∪ cancelled [x] ⊆ before ∪ cancelled l := by
  induction h generalizing before with
  | @here l mem =>
    obtain ⟨l₁, l₂, rfl⟩ := List.append_of_mem mem
    obtain ⟨-, here, -⟩ := orderlyAll_append.1 orderly
    refine ⟨_, Set.subset_union_left, here, ?_⟩
    rw [cancelled_append, cancelled_cons x l₂, Set.union_assoc]
    exact Set.union_subset_union_right _ (Set.union_subset_union_right _ Set.subset_union_left)
  | @within s c l inner mem deeper ih =>
    obtain ⟨l₁, l₂, rfl⟩ := List.append_of_mem mem
    obtain ⟨-, ⟨-, inside, -⟩, -⟩ := orderlyAll_append.1 orderly
    obtain ⟨before', later, here, all⟩ := ih inside
    refine ⟨before', ?_, here, all.trans ?_⟩
    · exact (Set.subset_union_left.trans (Set.subset_insert s _)).trans later
    · rw [cancelled_append, cancelled_cons _ l₂, cancelled_mk, ← Set.union_assoc, Set.insert_union,
        ← Set.union_insert]
      exact Set.union_subset_union_right _ Set.subset_union_left

theorem Among.mono (h : Among x l) (sub : ∀ y ∈ l, y ∈ l') : Among x l' := by
  cases h with
  | here mem => exact .here (sub _ mem)
  | within mem deeper => exact .within (sub _ mem) deeper

/-- Who was a member of an aggregate that was cancelled, or of a member, was cancelled. -/
theorem OrderlyAll.member {m a : SubscriptionId} (h : OrderlyAll before l)
    (member : Relation.TransGen (Member l) m a) : m ∈ before ∪ cancelled l := by
  have direct : ∀ {m a : SubscriptionId}, Member l m a → m ∈ before ∪ cancelled l := by
    rintro m a ⟨members, within, among, mem⟩
    obtain ⟨before', -, ⟨-, -, inTurn⟩, all⟩ := among.orderly h
    rw [cancelled_mk, Set.union_insert, ← Set.insert_union] at all
    exact all ((inTurn members rfl).members mem)
  induction member using Relation.TransGen.head_induction_on with
  | single member => exact direct member
  | head member _ _ => exact direct member

end Cancellation

/-! Accounts of runs. -/

/-- The subscriptions that were cancelled. -/
def World.ended (w : World) : Set SubscriptionId :=
  {s | s.index < w.subscriptions.size ∧ w.subscriptions.get s = none}

/-- No subscription is cancelled; there may be new ones. -/
structure World.Spares (w w' : World) : Prop where
  size : w.subscriptions.size ≤ w'.subscriptions.size
  old : ∀ s, s.index < w.subscriptions.size → w'.subscriptions.get s = w.subscriptions.get s
  new : ∀ s, w.subscriptions.size ≤ s.index → s.index < w'.subscriptions.size →
    w'.subscriptions.get s ≠ none

/-- What callbacks do: a task, the world before it, the cancellations meanwhile and the world after
it. -/
abbrev Conduct :=
  Task → World → List Cancellation → World → Prop

/-- An operation leads from a world to an answer and another world by way of cancellations, if
callbacks do what `Calls` says. It is taken apart into what asks for no callback and cancels
nothing, calls, and cancellations of subscriptions that are active still. -/
inductive Account (Calls : Conduct) :
    {α : Type} → Op α → World → List Cancellation → α → World → Prop
  | still {α : Type} {x : Op α} {w w' : World} {a : α} (aside : ∀ run, x run w = .ok (a, w'))
    (spares : w.Spares w') : Account Calls x w [] a w'
  | bind {α β : Type} {x : Op α} {f : α → Op β} {w w₁ w₂ : World} {l l' : List Cancellation} {a : α}
    {b : β} (first : Account Calls x w l a w₁) (rest : Account Calls (f a) w₁ l' b w₂) :
    Account Calls (x >>= f) w (l ++ l') b w₂
  | call {t : Task} {w w' : World} {l : List Cancellation} (other : ∀ c, t ≠ .cancel c)
    (done : Calls t w l w') : Account Calls (invoke t) w l () w'
  | cancel {s : SubscriptionId} {c : Cancel} {w w' : World} {l : List Cancellation}
    (active : w.subscriptions.get s = some c)
    (done : Calls (.cancel c) (Subscription.spent s w) l w') :
    Account Calls (Subscription.cancel s) w [.mk s c l] () w'

/-- The same of cancelling subscriptions one after another. -/
inductive EachAccount (Calls : Conduct) :
    List SubscriptionId → World → List Cancellation → World → Prop
  | nil {w : World} : EachAccount Calls [] w [] w
  | passed {s : SubscriptionId} {members : List SubscriptionId} {w w' : World} {l : List Cancellation}
    (idle : s ∈ w.ended) (rest : EachAccount Calls members w l w') :
    EachAccount Calls (s :: members) w l w'
  | cancel {s : SubscriptionId} {c : Cancel} {members : List SubscriptionId} {w w₁ w' : World}
    {l l' : List Cancellation} (active : w.subscriptions.get s = some c)
    (done : Calls (.cancel c) (Subscription.spent s w) l w₁)
    (rest : EachAccount Calls members w₁ l' w') :
    EachAccount Calls (s :: members) w (.mk s c l :: l') w'

/-- What a task does. An aggregate cancels its members one after another. -/
def Conduct.next (Calls : Conduct) : Conduct
  | .cancel (.all members), w, l, w' => EachAccount Calls members w l w'
  | t, w, l, w' => Account Calls t.run w l () w'

/-- What tasks do that have callbacks nested no more deeply than the fuel allows. -/
def Performs : Nat → Conduct
  | 0 => fun _ _ _ _ => False
  | fuel + 1 => (Performs fuel).next

variable {Calls : Conduct} {α : Type} {x : Op α} {a : α} {w w₁ w₂ w' : World}
  {l l' : List Cancellation} {members : List SubscriptionId} {s : SubscriptionId} {c : Cancel}

theorem Conduct.next_of_account {t : Task} (other : ∀ members, t ≠ .cancel (.all members))
    (h : Account Calls t.run w l () w') : Calls.next t w l w' := by
  unfold Conduct.next
  split
  · exact absurd rfl (other _)
  · exact h

/-! An account is one of what happens. -/

theorem cancel_of_active (active : w.subscriptions.get s = some c) (run : Runner) :
    Subscription.cancel s run w = run (.cancel c) (Subscription.spent s w) := by
  have read : (get : Op World) run w = .ok (w, w) := rfl
  rw [Subscription.cancel, bind_of_ok read, active]
  rfl

theorem cancel_of_ended (ended : w.subscriptions.get s = none) (run : Runner) :
    Subscription.cancel s run w = .ok ((), w) := by
  have read : (get : Op World) run w = .ok (w, w) := rfl
  rw [Subscription.cancel, bind_of_ok read, ended]
  rfl

theorem Account.runs {run : Runner} (h : Account Calls x w l a w')
    (does : ∀ t w l w', Calls t w l w' → run t w = .ok ((), w')) : x run w = .ok (a, w') := by
  induction h with
  | still aside _ => exact aside run
  | bind _ _ ih ih' => rw [bind_of_ok ih, ih']
  | call _ done => exact does _ _ _ _ done
  | cancel active done => rw [cancel_of_active active, does _ _ _ _ done]

theorem EachAccount.runs {run : Runner} (h : EachAccount Calls members w l w')
    (does : ∀ t w l w', Calls t w l w' → run t w = .ok ((), w')) :
    Subscription.cancelEach members run w = .ok ((), w') := by
  induction h with
  | nil => rfl
  | passed idle _ ih => exact (bind_of_ok (cancel_of_ended idle.2 run)).trans ih
  | cancel active done _ ih =>
    exact (bind_of_ok ((cancel_of_active active run).trans (does _ _ _ _ done))).trans ih

theorem Performs.runs {fuel : Nat} {t : Task} (h : Performs fuel t w l w') :
    exec fuel t w = .ok ((), w') := by
  induction fuel generalizing t w l w' with
  | zero => exact h.elim
  | succ fuel ih =>
    change (Performs fuel).next t w l w' at h
    change t.run (exec fuel) w = .ok ((), w')
    unfold Conduct.next at h
    split at h
    · exact h.runs fun _ _ _ _ => ih
    · exact h.runs fun _ _ _ _ => ih

/-! And an account is orderly. -/

/-- Cancellations that lead from a world to another one. -/
structure Tallies (w : World) (l : List Cancellation) (w' : World) : Prop where
  orderly : Cancellation.OrderlyAll w.ended l
  ended : w'.ended = w.ended ∪ Cancellation.cancelled l
  size : w.subscriptions.size ≤ w'.subscriptions.size
  /-- Whoever was active is so with the work it had, or was cancelled, and that was the work. -/
  work : ∀ s c, w.subscriptions.get s = some c → w'.subscriptions.get s = some c ∨
    w'.subscriptions.get s = none ∧ ∃ within, Cancellation.Among (.mk s c within) l

theorem World.Spares.ended (h : w.Spares w') : w'.ended = w.ended := by
  ext s
  constructor
  · rintro ⟨known, idle⟩
    rcases Nat.lt_or_ge s.index w.subscriptions.size with old | new
    · exact ⟨old, (h.old s old).symm.trans idle⟩
    · exact absurd idle (h.new s new known)
  · rintro ⟨known, idle⟩
    exact ⟨Nat.lt_of_lt_of_le known h.size, (h.old s known).trans idle⟩

theorem known_of_active (active : w.subscriptions.get s = some c) :
    s.index < w.subscriptions.size := by
  rcases Nat.lt_or_ge s.index w.subscriptions.size with known | unknown
  · exact known
  · rw [Heap.get_of_size_le _ _ unknown] at active
    cases active

namespace Tallies

theorem spares (h : w.Spares w') : Tallies w [] w' := by
  refine ⟨trivial, ?_, h.size, fun s c active => .inl ?_⟩
  · rw [h.ended, Cancellation.cancelled_nil, Set.union_empty]
  · rw [h.old s (known_of_active active), active]

theorem trans (h : Tallies w l w₁) (h' : Tallies w₁ l' w₂) : Tallies w (l ++ l') w₂ := by
  refine ⟨Cancellation.orderlyAll_append.2 ⟨h.orderly, h.ended ▸ h'.orderly⟩, ?_,
    Nat.le_trans h.size h'.size, fun s c active => ?_⟩
  · rw [h'.ended, h.ended, Cancellation.cancelled_append, Set.union_assoc]
  · rcases h.work s c active with same | ⟨idle, within, among⟩
    · refine (h'.work s c same).imp_right fun ⟨idle, within, among⟩ => ⟨idle, within, ?_⟩
      exact among.mono fun x hx => List.mem_append_right l hx
    · refine .inr ⟨?_, within, among.mono fun x hx => List.mem_append_left l' hx⟩
      have known : s.index < w₁.subscriptions.size :=
        Nat.lt_of_lt_of_le (known_of_active active) h.size
      have gone : s ∈ w₂.ended := h'.ended ▸ .inl ⟨known, idle⟩
      exact gone.2

/-- A subscription that is active is cancelled. -/
theorem cancel (active : w.subscriptions.get s = some c)
    (h : Tallies (Subscription.spent s w) l w')
    (inTurn : ∀ members, c = .all members →
      Cancellation.InTurn (Subscription.spent s w).ended members l) :
    Tallies w [.mk s c l] w' := by
  have known := known_of_active active
  have size : (Subscription.spent s w).subscriptions.size = w.subscriptions.size :=
    Heap.size_modify ..
  have here : (Subscription.spent s w).subscriptions.get s = none := Heap.get_modify_self _ _ _ known
  have other : ∀ t, s ≠ t → (Subscription.spent s w).subscriptions.get t = w.subscriptions.get t :=
    fun t ne => Heap.get_modify_of_ne _ _ _ _ ne
  have ended : (Subscription.spent s w).ended = insert s w.ended := by
    ext t
    by_cases ht : s = t
    · subst ht
      exact iff_of_true ⟨size ▸ known, here⟩ (.inl rfl)
    · simp only [World.ended, size, other t ht, Set.mem_ofPred_eq, Set.mem_insert_iff, Ne.symm ht,
        false_or]
  have fresh : s ∉ w.ended := by
    rintro ⟨-, idle⟩
    rw [active] at idle
    cases idle
  have inner := h.orderly
  rw [ended] at inner inTurn
  refine ⟨⟨⟨fresh, inner, inTurn⟩, trivial⟩, ?_, size ▸ h.size, fun t d active' => ?_⟩
  · rw [h.ended, ended, Cancellation.cancelled_mk, Set.insert_union, Set.union_insert]
  · by_cases ht : s = t
    · subst ht
      obtain rfl : c = d := Option.some.inj (active.symm.trans active')
      have gone : s ∈ w'.ended := h.ended ▸ .inl (ended ▸ Set.mem_insert s w.ended)
      exact .inr ⟨gone.2, l, .here (List.mem_singleton_self _)⟩
    · refine (h.work t d ((other t ht).trans active')).imp_right fun ⟨idle, within, among⟩ => ?_
      exact ⟨idle, within, .within (List.mem_singleton_self _) among⟩

end Tallies

/-- What callbacks do is orderly. -/
def Conduct.Fair (Calls : Conduct) : Prop :=
  ∀ t w l w', Calls t w l w' → Tallies w l w' ∧
    ∀ members, t = .cancel (.all members) → Cancellation.InTurn w.ended members l

theorem Account.tallies (fair : Calls.Fair) (h : Account Calls x w l a w') : Tallies w l w' := by
  induction h with
  | still _ spares => exact .spares spares
  | bind _ _ ih ih' => exact ih.trans ih'
  | call _ done => exact (fair _ _ _ _ done).1
  | cancel active done =>
    obtain ⟨tallies, inTurn⟩ := fair _ _ _ _ done
    exact .cancel active tallies fun members all => inTurn members (all ▸ rfl)

theorem EachAccount.tallies (fair : Calls.Fair) (h : EachAccount Calls members w l w') :
    Tallies w l w' ∧ Cancellation.InTurn w.ended members l := by
  induction h with
  | nil =>
    exact ⟨.spares ⟨Nat.le_refl _, fun _ _ => rfl, fun _ h h' => absurd h' (Nat.not_lt.2 h)⟩, .nil⟩
  | passed idle _ ih => exact ⟨ih.1, .passed idle ih.2⟩
  | @cancel s c members w w₁ w' l l' active done _ ih =>
    obtain ⟨tallies, inTurn⟩ := fair _ _ _ _ done
    have first := Tallies.cancel active tallies fun members all => inTurn members (all ▸ rfl)
    refine ⟨first.trans ih.1, .turn ?_ (first.ended ▸ ih.2)⟩
    rintro ⟨-, idle⟩
    rw [active] at idle
    cases idle

theorem Conduct.Fair.next (fair : Calls.Fair) : Calls.next.Fair := by
  intro t w l w' h
  unfold Conduct.next at h
  split at h
  · obtain ⟨tallies, inTurn⟩ := EachAccount.tallies fair h
    refine ⟨tallies, fun members all => ?_⟩
    cases all
    exact inTurn
  · next other => exact ⟨Account.tallies fair h, fun members all => absurd all (other members)⟩

theorem Performs.fair (fuel : Nat) : (Performs fuel).Fair := by
  induction fuel with
  | zero => exact fun _ _ _ _ h => h.elim
  | succ fuel ih => exact ih.next

end LiveMarkup.Live
