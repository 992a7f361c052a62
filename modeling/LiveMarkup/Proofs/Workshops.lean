import LiveMarkup.Proofs.Objections
import LiveMarkup.Proofs.Cancelling
import LiveMarkup.Proofs.Consistency

/-!
Workshops: worlds of plain signals and of lazy ones whose producers run scripts, where one producer
has a name that no other one has. How often it was started and how often it was stopped is told by
the notes. What each change to a world does to the signal of that producer, and to the difference of
the two numbers.
-/
namespace LiveMarkup.Live

/-! What scripts may do there. -/

/-- A computation that takes no note of a start or a stop, for only producers do that. -/
inductive Reading.Sober : Reading → Prop
  | done (v : Value) : Sober (.done v)
  | get {s : SignalId} {next : Option Value → Reading} (rest : ∀ v, Sober (next v)) :
    Sober (.get s next)
  | peek {s : SignalId} {next : Option Value → Reading} (rest : ∀ v, Sober (next v)) :
    Sober (.peek s next)
  | track {s : SignalId} {next : Reading} (rest : Sober next) : Sober (.track s next)
  | mode {next : Option Bool → Reading} (rest : ∀ m, Sober (next m)) : Sober (.mode next)
  | signal {name : Name} {next : SignalId → Reading} (rest : ∀ s, Sober (next s)) :
    Sober (.signal name next)
  | literal {l : Literal} {next : Value → Reading} (rest : ∀ v, Sober (next v)) :
    Sober (.literal l next)
  | text {v : Value} {next : String → Reading} (rest : ∀ t, Sober (next t)) : Sober (.text v next)
  | note {n : Note} {next : Reading} (other : ∀ name, n ≠ .started name ∧ n ≠ .stopped name)
    (rest : Sober next) : Sober (.note n next)

namespace Expr

mutual

theorem andThen_sober {current : Value} {next : Value → Reading} (rest : ∀ v, (next v).Sober) :
    ∀ e : Expr, (e.andThen current next).Sober
  | .literal l => .literal rest
  | .current => rest current
  | .get name => .signal fun _ => .get fun _ => rest _
  | .peek name => .signal fun _ => .peek fun _ => rest _
  | .track name => .signal fun _ => .track (rest _)
  | .tracking => .mode fun _ => rest _
  | .ran name x => .mode fun _ => .note (fun _ => ⟨nofun, nofun⟩) (andThen_sober rest x)
  | .sum xs => andThenAll_sober (fun _ => rest _) xs
  | .product x y => andThen_sober (fun _ => andThen_sober (fun _ => rest _) y) x
  | .concat xs => andThenJoined_sober (fun _ => rest _) "" xs
  | .equal x y => andThen_sober (fun _ => andThen_sober (fun _ => rest _) y) x
  | .greater x y => andThen_sober (fun _ => andThen_sober (fun _ => rest _) y) x
  | .not x => andThen_sober (fun _ => rest _) x
  | .choose condition x y => by
    refine andThen_sober (fun c => ?_) condition
    split
    · exact andThen_sober rest x
    · exact andThen_sober rest y

theorem andThenAll_sober {current : Value} {next : List Value → Reading}
    (rest : ∀ vs, (next vs).Sober) : ∀ xs : List Expr, (andThenAll current next xs).Sober
  | [] => rest []
  | x :: xs => andThen_sober (fun _ => andThenAll_sober (fun _ => rest _) xs) x

theorem andThenJoined_sober {current : Value} {next : String → Reading}
    (rest : ∀ t, (next t).Sober) (soFar : String) :
    ∀ xs : List Expr, (andThenJoined current next soFar xs).Sober
  | [] => rest soFar
  | x :: xs => andThen_sober (fun _ => .text fun _ => andThenJoined_sober rest _ xs) x

end

/-- Every formula that can be written down is sober. -/
theorem formula_sober (e : Expr) (v : Value) : (e.formula v).Sober :=
  andThen_sober .done e

end Expr

/-- A step that works with signals and subscriptions, callbacks and producers included, and makes no
lazy signal of a name. -/
inductive Step.Plays (own : Name) : Step → Prop
  | ask (q : Query) : Plays own (.ask q)
  | signal (name : Name) (v : Literal) : Plays own (.signal name v)
  | constant (name : Name) (v : Literal) : Plays own (.constant name v)
  | readOnly (name sig : Name) : Plays own (.readOnly name sig)
  | lazy {name : Name} {v : Literal} {start stop : List Step} (other : name ≠ own)
    (starts : ∀ step ∈ start, Plays own step) (stops : ∀ step ∈ stop, Plays own step) :
    Plays own (.lazy name v start stop)
  | emit {name : Name} {v : Formula} (sober : ∀ u, (v u).Sober) : Plays own (.emit name v)
  | orphanEmit {v : Formula} (sober : ∀ u, (v u).Sober) : Plays own (.orphanEmit v)
  | set {sig : Name} {v : Formula} (sober : ∀ u, (v u).Sober) : Plays own (.set sig v)
  | update {sig : Name} {v : Formula} (sober : ∀ u, (v u).Sober) : Plays own (.update sig v)
  | change (sig : Name) (suffix : String) (v : Option Literal) : Plays own (.change sig suffix v)
  | subscribe {name sig : Name} {mode : Mode} {script : List Step}
    (steps : ∀ step ∈ script, Plays own step) : Plays own (.subscribe name sig mode script)
  | unsubscribe (sub : Name) : Plays own (.unsubscribe sub)
  | subscribeAll (name : Name) (subs : List Name) : Plays own (.subscribeAll name subs)
  | subscribeNone (name : Name) : Plays own (.subscribeNone name)
  | subscriptionClone (name sub : Name) : Plays own (.subscriptionClone name sub)
  | log {v : Formula} (sober : ∀ u, (v u).Sober) : Plays own (.log v)
  | choose {v : Formula} {yes no : List Step} (sober : ∀ u, (v u).Sober)
    (yesSteps : ∀ step ∈ yes, Plays own step) (noSteps : ∀ step ∈ no, Plays own step) :
    Plays own (.choose v yes no)

/-- A script of such steps. -/
def Script.Plays (own : Name) (script : Script) : Prop :=
  ∀ step ∈ script, step.Plays own

def Reaction.Plays (own : Name) : Reaction → Prop
  | .told _ script => script.Plays own
  | _ => False

def Producer.Plays (own : Name) : Producer → Prop
  | .script _ start stop => start.Plays own ∧ stop.Plays own
  | _ => False

/-- The producer runs scripts under a name. -/
def Producer.hasName (own : Name) : Producer → Bool
  | .script name _ _ => name = own
  | _ => false

/-! Signals at work. -/

/-- What of a signal tells whether it is at work. -/
structure Engine where
  producer : Option Producer
  started : Bool
  teardown : Option SubscriptionId
  subscribers : List EntryId

def Signal.engine (signal : Signal) : Engine :=
  ⟨signal.producer, signal.started, signal.teardown, signal.subscribers⟩

def World.engine (w : World) (s : SignalId) : Engine :=
  (w.signals.get s).engine

namespace Engine

/-- Nobody is subscribed, and nothing is at work. -/
def Off (g : Engine) : Prop :=
  g.started = false ∧ g.teardown = none ∧ g.subscribers = []

/-- Somebody is subscribed, the producer has started, and what stops it is known. -/
def On (g : Engine) : Prop :=
  g.started = true ∧ g.teardown ≠ none ∧ g.subscribers ≠ []

/-- How a signal is found while no operation on it is in progress. -/
def AtRest (g : Engine) : Prop :=
  g.Off ∨ g.On

/-- The start function is running. -/
def Waking (g : Engine) : Prop :=
  g.started = true ∧ g.teardown = none

/-- The start function has returned, for a subscriber who is about to join. -/
def Ready (g : Engine) : Prop :=
  g.started = true ∧ g.teardown ≠ none

theorem On.ready {g : Engine} (h : g.On) : g.Ready :=
  ⟨h.1, h.2.1⟩

end Engine

/-- How much more often than it was stopped a producer was started, by the notes. -/
def World.surplus (own : Name) (w : World) : Int :=
  w.log.count (.started own) - w.log.count (.stopped own)

/-- How many runs of a producer its signal does not account for. -/
def World.stray (own : Name) (o : Option SignalId) (w : World) : Int :=
  w.surplus own - (o.any fun s => (w.engine s).started).toNat

/-- No run of the producer gets lost, and the signal comes to rest again or is on its way still. -/
structure Fair (own : Name) (o : Option SignalId) (w w' : World) : Prop where
  stray : w'.stray own o = w.stray own o
  rest : (∀ s ∈ o, (w.engine s).AtRest) → ∀ s ∈ o, (w'.engine s).AtRest
  waking : (∀ s ∈ o, (w.engine s).Waking) → ∀ s ∈ o, (w'.engine s).Waking

/-- A run of the producer gets lost. -/
def Foul (own : Name) (o : Option SignalId) (w w' : World) : Prop :=
  w.stray own o < w'.stray own o

instance (own : Name) (o : Option SignalId) : Graded (Fair own o) (Foul own o) where
  refl _ := ⟨rfl, id, id⟩
  trans h h' := ⟨h'.stray.trans h.stray, h'.rest ∘ h.rest, h'.waking ∘ h.waking⟩
  early h h' := by
    have := h'.stray
    unfold Foul at *
    omega
  late h h' := by
    have := h.stray
    unfold Foul at *
    omega
  both := Int.lt_trans

/-! The workshop. -/

/-- A subscription was made, and cancelling it does not stop the producer of a name. -/
def Foreign (own : Name) (sub : SubscriptionId) (w : World) : Prop :=
  sub.index < w.subscriptions.size ∧ ∀ script, w.subscriptions.get sub ≠ some (.stopped own script)

/-- No foreign subscription turns into one that stops the producer. -/
def Spared (own : Name) (w w' : World) : Prop :=
  ∀ sub, Foreign own sub w → Foreign own sub w'

instance (own : Name) : Lasting (Spared own) where
  refl _ _ := id
  trans h h' sub hs := h' sub (h sub hs)

theorem Spared.of_eq {own : Name} {w w' : World}
    (subscriptions : w'.subscriptions = w.subscriptions) : Spared own w w' := by
  intro sub hs
  unfold Foreign
  rwa [subscriptions]

/-- What is left to do for a subscription is of a kind that such steps give rise to. -/
def Cancel.Plays (own : Name) (w : World) : Cancel → Prop
  | .nothing | .entry _ _ => True
  | .all members => ∀ sub ∈ members, Foreign own sub w
  | .stopped _ script => script.Plays own
  | .release _ => False

/-- A world in which only such steps were run. There may be a signal with a producer of the name;
what stops that producer is known to the signal alone. -/
structure Workshop (own : Name) (o : Option SignalId) (w : World) : Prop where
  made : ∀ s ∈ o, ∃ start stop, (w.engine s).producer = some (.script own start stop)
  producers : ∀ s p, (w.engine s).producer = some p →
    p.Plays own ∧ (p.hasName own = true → s ∈ o)
  reactions : ∀ e, (w.entries.get e).reaction.Plays own
  cancels : ∀ sub c, w.subscriptions.get sub = some c → c.Plays own w
  named : ∀ name sub, w.names.subscriptions.get? name = some sub → Foreign own sub w
  teardown : ∀ s ∈ o, ∀ t, (w.engine s).teardown = some t →
    ∃ stop, w.subscriptions.get t = some (.stopped own stop)
  teardowns : ∀ s t, (w.engine s).teardown = some t → s ∉ o → Foreign own t w

/-- Nothing changes but the values of signals, the names of anything but subscriptions, and what has
nothing to do with signals. -/
structure Unaffected (own : Name) (w w' : World) : Prop where
  engine : ∀ s, w'.engine s = w.engine s
  reactions : ∀ e, (w'.entries.get e).reaction = (w.entries.get e).reaction
  subscriptions : w'.subscriptions = w.subscriptions
  named : w'.names.subscriptions = w.names.subscriptions
  surplus : w'.surplus own = w.surplus own

instance (own : Name) : Lasting (Unaffected own) where
  refl _ := ⟨fun _ => rfl, fun _ => rfl, rfl, rfl, rfl⟩
  trans h h' := ⟨fun s => (h'.engine s).trans (h.engine s),
    fun e => (h'.reactions e).trans (h.reactions e), h'.subscriptions.trans h.subscriptions,
    h'.named.trans h.named, h'.surplus.trans h.surplus⟩

variable {own : Name} {o : Option SignalId} {w w' : World}

/-- Subscribers may come and go, and what stops a signal may be forgotten. -/
theorem Workshop.next (h : Workshop own o w)
    (producer : ∀ s, (w'.engine s).producer = (w.engine s).producer)
    (teardown : ∀ s t, (w'.engine s).teardown = some t → (w.engine s).teardown = some t)
    (reactions : ∀ e, (w'.entries.get e).reaction.Plays own)
    (subscriptions : w'.subscriptions = w.subscriptions)
    (named : w'.names.subscriptions = w.names.subscriptions) : Workshop own o w' := by
  have foreign : Spared own w w' := .of_eq subscriptions
  refine ⟨fun s hs => ?_, fun s p hp => ?_, reactions, fun sub c hc => ?_, fun name sub hn => ?_,
    fun s hs t ht => ?_, fun s t ht hs => ?_⟩
  · rw [producer]
    exact h.made s hs
  · rw [producer] at hp
    exact h.producers s p hp
  · rw [subscriptions] at hc
    have plays := h.cancels sub c hc
    cases c with
    | all members => exact fun sub hs => foreign sub (plays sub hs)
    | _ => exact plays
  · rw [named] at hn
    exact foreign sub (h.named name sub hn)
  · rw [subscriptions]
    exact h.teardown s hs t (teardown s t ht)
  · exact foreign t (h.teardowns s t (teardown s t ht) hs)

theorem Workshop.unaffected (h : Workshop own o w) (u : Unaffected own w w') : Workshop own o w' :=
  h.next (fun s => congrArg Engine.producer (u.engine s)) (fun s t ht => by rwa [u.engine] at ht)
    (fun e => u.reactions e ▸ h.reactions e) u.subscriptions u.named

/-- Only what becomes of the one signal matters. -/
theorem Fair.of_engine (engine : ∀ s ∈ o, w'.engine s = w.engine s)
    (surplus : w'.surplus own = w.surplus own) : Fair own o w w' := by
  refine ⟨?_, fun h s hs => engine s hs ▸ h s hs, fun h s hs => engine s hs ▸ h s hs⟩
  unfold World.stray
  cases o with
  | none => rw [surplus, Option.any_none, Option.any_none]
  | some s => rw [surplus, Option.any_some, Option.any_some, engine s rfl]

theorem Unaffected.fair (u : Unaffected own w w') : Fair own o w w' :=
  .of_engine (fun s _ => u.engine s) u.surplus

/-! Changes that leave the engines alone. -/

namespace Unaffected

/-- Where signals, entries, subscriptions, their names and the log stay as they are. -/
theorem of_eq (signals : w'.signals = w.signals) (entries : w'.entries = w.entries)
    (subscriptions : w'.subscriptions = w.subscriptions)
    (named : w'.names.subscriptions = w.names.subscriptions) (log : w'.log = w.log) :
    Unaffected own w w' :=
  ⟨fun s => by unfold World.engine; rw [signals], fun e => by rw [entries], subscriptions, named,
    by unfold World.surplus; rw [log]⟩

/-- Changes to a signal that leave its engine alone. -/
theorem of_modify (s : SignalId) {f : Signal → Signal} (same : ∀ g, (f g).engine = g.engine)
    (w : World) : Unaffected own w { w with signals := w.signals.modify s f } :=
  ⟨fun t => Heap.get_modify_same w.signals s t f Signal.engine same, fun _ => rfl, rfl, rfl, rfl⟩

theorem noted {n : Note} (started : n ≠ .started own) (stopped : n ≠ .stopped own) (w : World) :
    Unaffected own w { w with log := n :: w.log } := by
  refine ⟨fun _ => rfl, fun _ => rfl, rfl, rfl, ?_⟩
  simp only [World.surplus, List.count_cons_of_ne started, List.count_cons_of_ne stopped]

theorem changed (s : SignalId) (value : Option Value) (w : World) :
    Unaffected own w (Signal.changed s value w) :=
  of_modify s (f := fun signal => .bumped { signal with value }) (fun _ => rfl) w

theorem marked (s : SignalId) (round : Nat) (e : EntryId) (w : World) :
    Unaffected own w (Signal.marked s round e w) :=
  ⟨fun t => Heap.get_modify_same w.signals s t _ Signal.engine fun _ => rfl,
    fun e' => Heap.get_modify_same w.entries e e' _ Entry.reaction fun _ => rfl, rfl, rfl, rfl⟩

/-- A signal without a producer looks as if it had been there before. -/
theorem added (value : Option Value) (w : World) :
    Unaffected own w (Signal.added value none w) := by
  refine ⟨fun s => ?_, fun _ => rfl, rfl, rfl, rfl⟩
  by_cases new : s = w.signals.next
  · subst new
    simp only [World.engine, Signal.added, Heap.get_push_next, Heap.get_next]
    rfl
  · simp only [World.engine, Signal.added, Heap.get_push_of_ne _ _ _ new]

end Unaffected

/-! Changes to subscriptions. -/

theorem Foreign.next {sub : SubscriptionId} (h : Foreign own sub w) (ev : Evolves w w') :
    Foreign own sub w' := by
  refine ⟨Nat.lt_of_lt_of_le h.1 ev.subscriptions, fun script => ?_⟩
  rcases ev.cancel sub h.1 with same | none
  · exact same ▸ h.2 script
  · exact none ▸ nofun

theorem Cancel.Plays.next {c : Cancel} (h : c.Plays own w) (ev : Evolves w w') :
    c.Plays own w' := by
  cases c with
  | all members => exact fun sub hs => (h sub hs).next ev
  | _ => exact h

/-- A new subscription that does not stop the producer. -/
theorem foreign_made {c : Cancel} (other : ∀ script, c ≠ .stopped own script) :
    Foreign own w.subscriptions.next (Subscription.made c w) := by
  refine ⟨by simp [Subscription.made, Heap.next], fun script => ?_⟩
  simp only [Subscription.made, Heap.get_push_next, ne_eq, Option.some.injEq]
  exact other script

theorem Workshop.subscription_made (h : Workshop own o w) {c : Cancel} (plays : c.Plays own w) :
    Workshop own o (Subscription.made c w) := by
  have ev := made_evolves c w
  have known : ∀ {t c'}, w.subscriptions.get t = some c' →
      (Subscription.made c w).subscriptions.get t = some c' :=
    fun ht => (Heap.get_push_of_lt _ _ _ (known_of_active ht)).trans ht
  refine ⟨h.made, h.producers, h.reactions, fun sub c' hc => ?_,
    fun name sub hn => (h.named name sub hn).next ev, fun s hs t ht => ?_,
    fun s t ht hs => (h.teardowns s t ht hs).next ev⟩
  · by_cases new : sub = w.subscriptions.next
    · subst new
      simp only [Subscription.made, Heap.get_push_next, Option.some.injEq] at hc
      exact hc ▸ plays.next ev
    · have old : w.subscriptions.get sub = some c' := (Heap.get_push_of_ne _ _ _ new).symm.trans hc
      exact (h.cancels sub c' old).next ev
  · exact (h.teardown s hs t ht).imp fun stop => known

/-- What the one signal needs to stop is not spent by others. -/
theorem Workshop.subscription_spent (h : Workshop own o w) {sub : SubscriptionId}
    (unused : ∀ s ∈ o, (w.engine s).teardown ≠ some sub) :
    Workshop own o (Subscription.spent sub w) := by
  have ev := spent_evolves sub w
  have cell : ∀ {t c'}, (Subscription.spent sub w).subscriptions.get t = some c' →
      w.subscriptions.get t = some c' := by
    intro t c' ht
    by_cases here : sub = t
    · subst here
      rcases Nat.lt_or_ge sub.index w.subscriptions.size with known | unknown
      · rw [Subscription.spent, Heap.get_modify_self _ _ _ known] at ht
        cases ht
      · rwa [Subscription.spent, Heap.modify_of_size_le _ _ _ unknown] at ht
    · exact (Heap.get_modify_of_ne _ _ _ _ here).symm.trans ht
  refine ⟨h.made, h.producers, h.reactions, fun t c' hc => ?_,
    fun name t hn => (h.named name t hn).next ev, fun s hs t ht => ?_,
    fun s t ht hs => (h.teardowns s t ht hs).next ev⟩
  · exact (h.cancels t c' (cell hc)).next ev
  · refine (h.teardown s hs t ht).imp fun stop ht' => ?_
    have ne : sub ≠ t := fun same => unused s hs (same ▸ ht)
    exact (Heap.get_modify_of_ne _ _ _ _ ne).trans ht'

/-- A foreign subscription is not what the one signal needs to stop. -/
theorem Workshop.unused (h : Workshop own o w) {sub : SubscriptionId}
    (foreign : Foreign own sub w) : ∀ s ∈ o, (w.engine s).teardown ≠ some sub := by
  intro s hs ht
  obtain ⟨stop, cell⟩ := h.teardown s hs sub ht
  exact foreign.2 stop cell

theorem Workshop.subscription_named (h : Workshop own o w) {sub : SubscriptionId}
    (foreign : Foreign own sub w) (name : Name) :
    Workshop own o { w with
      names := { w.names with subscriptions := w.names.subscriptions.insert name sub } } := by
  refine ⟨h.made, h.producers, h.reactions, h.cancels, fun other t hn => ?_, h.teardown,
    h.teardowns⟩
  by_cases here : other = name
  · subst here
    rw [Ordered.get?_insert_self] at hn
    cases hn
    exact foreign
  · rw [Ordered.get?_insert_of_ne _ here] at hn
    exact h.named other t hn

/-! Changes to signals. -/

theorem engine_modify {s : SignalId} (hs : s.index < w.signals.size) (f : Signal → Signal) :
    ((w.signals.modify s f).get s).engine = (f (w.signals.get s)).engine := by
  rw [Heap.get_modify_self _ _ _ hs]

theorem engine_modify_of_ne {s t : SignalId} (ne : s ≠ t) (f : Signal → Signal) :
    ((w.signals.modify s f).get t).engine = w.engine t := by
  rw [Heap.get_modify_of_ne _ _ _ _ ne]
  rfl

theorem Workshop.valid (h : Workshop own o w) {s : SignalId} (hs : s ∈ o) :
    s.index < w.signals.size := by
  rcases Nat.lt_or_ge s.index w.signals.size with valid | invalid
  · exact valid
  · obtain ⟨start, stop, made⟩ := h.made s hs
    rw [World.engine, Heap.get_of_size_le _ _ invalid] at made
    cases made

theorem ne_of_not_mem {s t : SignalId} (hs : s ∉ o) (ht : t ∈ o) : s ≠ t :=
  fun same => hs (same ▸ ht)

/-- What happens to other signals is fair. -/
theorem Fair.of_modify {s : SignalId} (other : s ∉ o) {f : Signal → Signal}
    (signals : w'.signals = w.signals.modify s f) (log : w'.log = w.log) : Fair own o w w' := by
  refine .of_engine (fun t ht => ?_) (by unfold World.surplus; rw [log])
  rw [World.engine, signals]
  exact engine_modify_of_ne (ne_of_not_mem other ht) f

/-- One more subscriber. -/
theorem Workshop.entered (h : Workshop own o w) (s : SignalId) {reaction : Reaction} (mode : Mode)
    (plays : reaction.Plays own) : Workshop own o (Signal.entered s reaction mode w) := by
  refine h.next (fun t => Heap.get_modify_same w.signals s t _ Signal.producer fun _ => rfl)
    (fun t sub ht => ?_) (fun e => ?_) rfl rfl
  · exact (Heap.get_modify_same w.signals s t (Signal.joinedBy w.entries.next mode) Signal.teardown
      fun _ => rfl).symm.trans ht
  · by_cases new : e = w.entries.next
    · subst new
      simp only [Signal.entered, Heap.get_push_next]
      exact plays
    · simp only [Signal.entered, Heap.get_push_of_ne _ _ _ new]
      exact h.reactions e

/-- One subscriber less. -/
theorem Workshop.dropped (h : Workshop own o w) (s : SignalId) (e : EntryId) :
    Workshop own o (Signal.dropped s e w) := by
  refine h.next (fun t => Heap.get_modify_same w.signals s t _ Signal.producer fun _ => rfl)
    (fun t sub ht => ?_) (fun e' => ?_) rfl rfl
  · exact (Heap.get_modify_same w.signals s t (Signal.leftBy e) Signal.teardown
      fun _ => rfl).symm.trans ht
  · rw [dropped_entry Entry.reaction fun _ => rfl]
    exact h.reactions e'

theorem Workshop.begun (h : Workshop own o w) (s : SignalId) :
    Workshop own o (Signal.begun s w) := by
  refine h.next (fun t => Heap.get_modify_same w.signals s t _ Signal.producer fun _ => rfl)
    (fun t sub ht => ?_) h.reactions rfl rfl
  exact (Heap.get_modify_same w.signals s t (fun signal => { signal with started := true })
    Signal.teardown fun _ => rfl).symm.trans ht

theorem Workshop.stopped (h : Workshop own o w) (s : SignalId) :
    Workshop own o (Signal.stopped s w) := by
  refine h.next (fun t => Heap.get_modify_same w.signals s t _ Signal.producer fun _ => rfl)
    (fun t sub ht => ?_) h.reactions rfl rfl
  by_cases here : s = t
  · subst here
    rcases Nat.lt_or_ge s.index w.signals.size with valid | invalid
    · rw [World.engine, Signal.stopped, engine_modify valid] at ht
      cases ht
    · rwa [World.engine, Signal.stopped, Heap.modify_of_size_le _ _ _ invalid] at ht
  · rwa [World.engine, Signal.stopped, engine_modify_of_ne here] at ht

/-- What stops the signal is known to it. -/
theorem Workshop.tended (h : Workshop own o w) {s : SignalId} {t : SubscriptionId}
    (own_stop : s ∈ o → ∃ stop, w.subscriptions.get t = some (.stopped own stop))
    (foreign : s ∉ o → Foreign own t w) : Workshop own o (Signal.tended s t w) := by
  have producer : ∀ s', ((Signal.tended s t w).engine s').producer = (w.engine s').producer :=
    fun s' => Heap.get_modify_same w.signals s s' _ Signal.producer fun _ => rfl
  have teardown : ∀ {s' t'}, ((Signal.tended s t w).engine s').teardown = some t' →
      s' = s ∧ t' = t ∨ (w.engine s').teardown = some t' := by
    intro s' t' ht
    by_cases here : s = s'
    · subst here
      rcases Nat.lt_or_ge s.index w.signals.size with valid | invalid
      · rw [World.engine, Signal.tended, engine_modify valid] at ht
        exact .inl ⟨rfl, (Option.some.inj ht).symm⟩
      · rw [World.engine, Signal.tended, Heap.modify_of_size_le _ _ _ invalid] at ht
        exact .inr ht
    · rw [World.engine, Signal.tended, engine_modify_of_ne here] at ht
      exact .inr ht
  refine ⟨fun s' hs => ?_, fun s' p hp => ?_, h.reactions, h.cancels, h.named,
    fun s' hs t' ht => ?_, fun s' t' ht hs => ?_⟩
  · rw [producer]
    exact h.made s' hs
  · rw [producer] at hp
    exact h.producers s' p hp
  · rcases teardown ht with ⟨rfl, rfl⟩ | old
    · exact own_stop hs
    · exact h.teardown s' hs t' old
  · rcases teardown ht with ⟨rfl, rfl⟩ | old
    · exact foreign hs
    · exact h.teardowns s' t' old hs

/-! A new signal. -/

theorem added_engine (value : Option Value) (producer : Option Producer) (s : SignalId) :
    ((w.signals.push (.fresh value producer)).get s).engine =
      if s = w.signals.next then ⟨producer, false, none, []⟩ else w.engine s := by
  by_cases new : s = w.signals.next
  · rw [if_pos new, new, Heap.get_push_next]
    rfl
  · rw [if_neg new, Heap.get_push_of_ne _ _ _ new]
    rfl

theorem Workshop.unmade (h : Workshop own o w) : w.signals.next ∉ o :=
  fun hs => Nat.lt_irrefl _ (h.valid hs)

theorem Workshop.added (h : Workshop own o w) (value : Option Value) {producer : Producer}
    (plays : producer.Plays own) (other : producer.hasName own = false) :
    Workshop own o (Signal.added value (some producer) w) := by
  have engine : ∀ s, s ≠ w.signals.next →
      (Signal.added value (some producer) w).engine s = w.engine s :=
    fun s hs => (added_engine value (some producer) s).trans (if_neg hs)
  have here : (Signal.added value (some producer) w).engine w.signals.next =
      ⟨some producer, false, none, []⟩ :=
    (added_engine value (some producer) _).trans (if_pos rfl)
  have old : ∀ s ∈ o, s ≠ w.signals.next := fun s hs same => h.unmade (same ▸ hs)
  refine ⟨fun s hs => ?_, fun s p hp => ?_, h.reactions, h.cancels, h.named, fun s hs t ht => ?_,
    fun s t ht hs => ?_⟩
  · rw [engine s (old s hs)]
    exact h.made s hs
  · by_cases new : s = w.signals.next
    · rw [new, here, Option.some.injEq] at hp
      subst hp
      rw [other]
      exact ⟨plays, nofun⟩
    · rw [engine s new] at hp
      exact h.producers s p hp
  · rw [engine s (old s hs)] at ht
    exact h.teardown s hs t ht
  · by_cases new : s = w.signals.next
    · rw [new, here] at ht
      cases ht
    · rw [engine s new] at ht
      exact h.teardowns s t ht hs

theorem Workshop.added_fair (h : Workshop own o w) (value : Option Value) (producer : Producer) :
    Fair own o w (Signal.added value (some producer) w) := by
  refine .of_engine (fun s hs => ?_) rfl
  refine (added_engine value (some producer) s).trans (if_neg ?_)
  rintro rfl
  exact h.unmade hs

/-- The signal of the producer is made. -/
theorem Workshop.opened (h : Workshop own none w) (value : Option Value) {start stop : Script}
    (starts : start.Plays own) (stops : stop.Plays own) :
    Workshop own (some w.signals.next)
      (Signal.added value (some (.script own start stop)) w) := by
  have engine : ∀ s, s ≠ w.signals.next →
      (Signal.added value (some (.script own start stop)) w).engine s = w.engine s :=
    fun s hs => (added_engine value _ s).trans (if_neg hs)
  have here : (Signal.added value (some (.script own start stop)) w).engine w.signals.next =
      ⟨some (.script own start stop), false, none, []⟩ :=
    (added_engine value _ _).trans (if_pos rfl)
  refine ⟨?_, fun s p hp => ?_, h.reactions, h.cancels, h.named, ?_, fun s t ht hs => ?_⟩
  · rintro s ⟨⟩
    exact ⟨start, stop, congrArg Engine.producer here⟩
  · by_cases new : s = w.signals.next
    · rw [new, here, Option.some.injEq] at hp
      subst hp
      exact ⟨⟨starts, stops⟩, fun _ => congrArg some new.symm⟩
    · rw [engine s new] at hp
      exact ⟨(h.producers s p hp).1, fun same => nomatch (h.producers s p hp).2 same⟩
  · rintro s ⟨⟩ t ht
    rw [here] at ht
    cases ht
  · rw [engine s fun same => hs (congrArg some same.symm)] at ht
    exact h.teardowns s t ht nofun

end LiveMarkup.Live
