import LiveMarkup.Proofs.Fields
import LiveMarkup.Proofs.Graph

/-!
Sharing: fields come to be bound to one signal, and are mounted. What a mount runs are the hooks of
nodes that come to be mounted; where they bind fields, the fields show the signal, and listen to it,
from then on.
-/
namespace LiveMarkup.Live

open Dom (Node Element BindingKey Forest)

variable {w w₁ w₂ w' : World} {s t : SignalId} {n m p : NodeId} {e : EntryId} {v u : Value}
  {fuel : Nat} {fields : List Field} {todo : NodeId → List Task} {effect : Effect} {g : FollowId}

theorem mem_entered {reaction : Reaction} {mode : Mode}
    (he : e ∈ ((Signal.entered t reaction mode w).signals.get s).subscribers) :
    e ∈ (w.signals.get s).subscribers ∨ e = w.entries.next ∧ t = s := by
  by_cases here : t = s
  · subst here
    rcases Nat.lt_or_ge t.index w.signals.size with known | unknown
    · have cell : (Signal.entered t reaction mode w).signals.get t =
          (w.signals.get t).joinedBy w.entries.next mode := Heap.get_modify_self _ _ _ known
      rw [cell] at he
      exact (List.mem_append.1 he).imp_right fun new => ⟨List.mem_singleton.1 new, rfl⟩
    · have same : (Signal.entered t reaction mode w).signals = w.signals :=
        Heap.modify_of_size_le _ _ _ unknown
      rw [same] at he
      exact .inl he
  · have same : (Signal.entered t reaction mode w).signals.get s = w.signals.get s :=
      Heap.get_modify_of_ne _ _ _ _ here
    rw [same] at he
    exact .inl he

theorem entered_version {reaction : Reaction} {mode : Mode} :
    ((Signal.entered t reaction mode w).signals.get s).version = (w.signals.get s).version :=
  Heap.get_modify_same _ t s _ Signal.version fun _ => rfl

theorem entered_producer {reaction : Reaction} {mode : Mode} :
    ((Signal.entered t reaction mode w).signals.get s).producer = (w.signals.get s).producer :=
  Heap.get_modify_same _ t s _ Signal.producer fun _ => rfl

theorem entered_content {reaction : Reaction} {mode : Mode} :
    Signal.content (Signal.entered t reaction mode w) s = Signal.content w s :=
  Heap.get_modify_same _ t s _ Signal.value fun _ => rfl

namespace Tied

/-- One more subscriber with an effect. -/
theorem entered (h : Tied s fields todo w) (t : SignalId) (mode : Mode)
    (form : ∀ key, effect = .form key → t = s ∧ (n, key) ∈ fields) :
    Tied s fields todo (Signal.entered t (.effect n effect) mode w) := by
  let w₁ := Signal.entered t (.effect n effect) mode w
  have size : w₁.entries.size = w.entries.size + 1 := Heap.size_push ..
  have new : w₁.entries.get w.entries.next = ⟨true, (w.signals.get t).version, .effect n effect⟩ :=
    Heap.get_push_next ..
  have old : ∀ e ∈ (w.signals.get s).subscribers, w₁.entries.get e = w.entries.get e :=
    fun e he => entered_entry t _ mode (h.entries e he)
  refine ⟨Nat.lt_of_lt_of_eq h.known (Heap.size_modify ..).symm, entered_producer.trans h.plain,
    fun e he => ?_, fun e he => ?_, fun e he => ?_, h.one, h.written, h.once, fun m task ht => ?_,
    h.listeners, fun f hf => ?_, h.heeded⟩
  · rw [size]
    rcases mem_entered he with he | ⟨rfl, -⟩
    · exact Nat.lt_succ_of_lt (h.entries e he)
    · exact Nat.lt_succ_self _
  · rw [entered_version]
    rcases mem_entered he with he | ⟨rfl, rfl⟩
    · rw [old e he]
      exact h.seen e he
    · rw [new]
  · rcases mem_entered he with he | ⟨rfl, rfl⟩
    · rw [old e he]
      exact h.reactions e he
    · rw [new]
      exact ⟨n, effect, rfl, fun key eq => (form key eq).2⟩
  · exact (h.timid m task ht).mono (List.Subset.refl _)
      (fun _ known => ⟨Nat.lt_of_lt_of_eq known (Heap.size_modify ..).symm, entered_producer⟩)
      (fun _ _ known => ⟨known, rfl⟩) fun _ known => ⟨known, rfl⟩
  · rcases h.heard f hf with ⟨e, he, on, eq⟩ | due
    · refine .inl ⟨e, (entered_subscribers t _ mode s).subset he, ?_, ?_⟩
      · rw [old e he]
        exact on
      · rw [old e he]
        exact eq
    · exact .inr due

end Tied

/-- The hooks of a node but for the first, which was run. -/
def Rest (todo : NodeId → List Task) (n : NodeId) (rest : List Task) : NodeId → List Task :=
  Function.update todo n rest

section
variable {task : Task} {rest : List Task} (next : todo n = task :: rest)
include next

theorem mem_of_mem_rest {task' : Task} (mem : task' ∈ Rest todo n rest m) : task' ∈ todo m := by
  unfold Rest at mem
  by_cases here : m = n
  · subst here
    rw [Function.update_self] at mem
    rw [next]
    exact List.mem_cons_of_mem _ mem
  · rwa [Function.update_of_ne here] at mem

theorem rest_or_eq {task' : Task} (mem : task' ∈ todo m) :
    task' ∈ Rest todo n rest m ∨ m = n ∧ task' = task := by
  unfold Rest
  by_cases here : m = n
  · subst here
    rw [next] at mem
    rw [Function.update_self]
    exact (List.mem_cons.1 mem).symm.imp_right fun eq => ⟨rfl, eq⟩
  · rw [Function.update_of_ne here]
    exact .inl mem

theorem once_rest (once : ∀ m, (todo m).Nodup) (m : NodeId) : (Rest todo n rest m).Nodup := by
  unfold Rest
  by_cases here : m = n
  · subst here
    rw [Function.update_self]
    have both := once m
    rw [next] at both
    exact (List.nodup_cons.1 both).2
  · rw [Function.update_of_ne here]
    exact once m

theorem not_mem_rest (once : ∀ m, (todo m).Nodup) : task ∉ Rest todo n rest n := by
  unfold Rest
  rw [Function.update_self]
  have both := once n
  rw [next] at both
  exact (List.nodup_cons.1 both).1

end

/-! The hooks of a mount. -/

/-- Nothing has changed in the tree, nor the hooks that wait for mounts. -/
structure Calm (w w' : World) : Prop where
  connected : ∀ m, (w'.nodes.get m).connected = (w.nodes.get m).connected
  size : w'.nodes.size = w.nodes.size
  mountHooks : w'.mountHooks = w.mountHooks

namespace Calm

theorem refl (w : World) : Calm w w :=
  ⟨fun _ => rfl, rfl, rfl⟩

theorem trans (h : Calm w w₁) (h' : Calm w₁ w₂) : Calm w w₂ :=
  ⟨fun m => (h'.connected m).trans (h.connected m), h'.size.trans h.size,
    h'.mountHooks.trans h.mountHooks⟩

end Calm

theorem Spread.calm (h : Spread w w') : Calm w w' where
  connected := h.connected
  size := h.size
  mountHooks := by rw [h.rest]

section
variable {rest : List Task}

/-- What was due is due still, or the field is that of the follow that was started. -/
theorem Due.slotted (next : todo n = .hook (.follow g) :: rest) {f : Field} (due : Due todo w f)
    (slot : Option SubscriptionId) :
    Due (Rest todo n rest) (Lifecycle.slotted g slot w) f ∨
      (w.follows.get g).reaction = f.reaction := by
  obtain ⟨g', mem, reaction⟩ := due
  rcases rest_or_eq next mem with mem | ⟨-, eq⟩
  · refine .inl ⟨g', mem, Eq.trans ?_ reaction⟩
    exact Heap.get_modify_same _ g g' _ Follow.reaction fun _ => rfl
  · cases eq
    exact .inr reaction

/-- A follow was started: its field, if it is that of one, follows the signal now. -/
theorem Tied.slotted (h : Tied s fields todo w) (next : todo n = .hook (.follow g) :: rest)
    (slot : Option SubscriptionId)
    (heard : ∀ f ∈ fields, (w.follows.get g).reaction = f.reaction → Heard s w f) :
    Tied s fields (Rest todo n rest) (Lifecycle.slotted g slot w) := by
  have first : Timid s fields w n (.hook (.follow g)) := h.timid n _ (next ▸ List.mem_cons_self)
  obtain ⟨-, t, effect, cell, -⟩ := first
  refine ⟨h.known, h.plain, h.entries, h.seen, h.reactions, h.one, h.written, once_rest next h.once,
    fun m task ht => ?_, h.listeners, fun f hf => ?_, fun f hf => ?_⟩
  · have timid := h.timid m task (mem_of_mem_rest next ht)
    refine timid.mono (List.Subset.refl _) (fun _ known => ⟨known, rfl⟩) (fun g' eq known' => ?_)
      fun _ known => ⟨known, rfl⟩
    obtain rfl := eq
    obtain ⟨-, t', effect', cell', -⟩ := timid
    -- A follow is that of one node, and of one hook of the node.
    have other : g ≠ g' := by
      rintro rfl
      obtain ⟨-, eq, -⟩ := Follow.mk.inj (cell.symm.trans cell')
      obtain ⟨rfl, -⟩ := Reaction.effect.inj eq
      exact not_mem_rest next h.once ht
    exact ⟨Nat.lt_of_lt_of_eq known' (Heap.size_modify ..).symm,
      Heap.get_modify_of_ne _ _ _ _ other⟩
  · rcases h.heard f hf with now | due
    · exact .inl now
    · exact (due.slotted next slot).symm.imp_left (heard f hf)
  · rcases h.heeded f hf with now | ⟨l, mem⟩
    · exact .inl now
    · rcases rest_or_eq next mem with mem | ⟨-, eq⟩
      · exact .inr ⟨l, mem⟩
      · cases eq

end

/-- The world in which a signal has one more subscriber, which is about to be shown the signal. -/
def Signal.greeting (t : SignalId) (reaction : Reaction) (w : World) : World :=
  { Signal.entered t reaction .immediate w with
    signals := (Signal.entered t reaction .immediate w).signals.modify t
      (Signal.showing w.entries.next none) }

/-- The world in which, besides, the effect of the subscriber has shown the signal at its node. -/
def Signal.welcomed (t : SignalId) (n : NodeId) (effect : Effect) (w : World) : World :=
  { Signal.greeting t (.effect n effect) w with
    nodes := w.nodes.modify n (effect.stamp (Signal.greeting t (.effect n effect) w)
      ((Signal.content (Signal.greeting t (.effect n effect) w) t).getD .null)) }

theorem join_effect (t : SignalId) (n : NodeId) (effect : Effect) :
    Signal.join t (.effect n effect) .immediate (exec (fuel + 1)) w =
      .ok (w.entries.next, Signal.welcomed t n effect w) := by
  let w₁ := Signal.greeting t (.effect n effect) w
  have applied := effect.apply_stamp (w := w₁) n ((Signal.content w₁ t).getD .null) (exec fuel)
  have greeted : Signal.greet t w.entries.next (.effect n effect) (exec (fuel + 1))
      (Signal.entered t (.effect n effect) .immediate w) =
        .ok ((), Signal.welcomed t n effect w) := applied
  have read : Signal.join t (.effect n effect) .immediate (exec (fuel + 1)) w =
      (Signal.greet t w.entries.next (.effect n effect) >>= fun _ => pure w.entries.next)
        (exec (fuel + 1)) (Signal.entered t (.effect n effect) .immediate w) := rfl
  rw [read, bind_of_ok greeted]
  rfl

/-- The world in which a follow of a signal without a producer was started. -/
def Lifecycle.started (g : FollowId) (t : SignalId) (n : NodeId) (effect : Effect) (w : World) :
    World :=
  Lifecycle.slotted g (some w.subscriptions.next) { Signal.welcomed t n effect w with
    subscriptions := w.subscriptions.push (some (.entry t w.entries.next)) }

/-- Nobody has to start a signal without a producer. -/
theorem wake_plain (plain : (w.signals.get t).producer = none) (run : Runner) :
    Signal.wake t run w = .ok ((), w) := by
  have asleep : Signal.isIdle w t = false := by
    unfold Signal.isIdle
    dsimp only
    rw [plain]
    exact Bool.and_false _
  have read : Signal.wake t run w =
      (if Signal.isIdle w t then invoke (.start t) else pure () : Op Unit) run w := rfl
  rw [read, asleep]
  rfl

theorem startFollow_eq (cell : w.follows.get g = ⟨t, .effect n effect, .immediate, none⟩)
    (plain : (w.signals.get t).producer = none) :
    Lifecycle.startFollow g (exec (fuel + 1)) w = .ok ((), Lifecycle.started g t n effect w) := by
  let w₁ : World := { Signal.welcomed t n effect w with
    subscriptions := w.subscriptions.push (some (.entry t w.entries.next)) }
  have subscribed : Signal.subscribe t (.effect n effect) .immediate (exec (fuel + 1)) w =
      .ok (w.subscriptions.next, w₁) := by
    unfold Signal.subscribe
    rw [bind_of_ok (wake_plain plain _), bind_of_ok (join_effect t n effect)]
    rfl
  have read : Lifecycle.startFollow g (exec (fuel + 1)) w = (do
      let sub ← Signal.subscribe (w.follows.get g).signal (w.follows.get g).reaction
        (w.follows.get g).mode
      let previous := ((← get).follows.get g).slot
      Lifecycle.setSlot g (some sub)
      previous.forM Subscription.cancel) (exec (fuel + 1)) w := rfl
  rw [read, cell, bind_of_ok subscribed]
  have slot : (w₁.follows.get g).slot = none := congrArg Follow.slot cell
  have rest : (do
      let previous := ((← get).follows.get g).slot
      Lifecycle.setSlot g (some w.subscriptions.next)
      previous.forM Subscription.cancel : Op Unit) (exec (fuel + 1)) w₁ =
      ((w₁.follows.get g).slot.forM Subscription.cancel : Op Unit) (exec (fuel + 1))
        (Lifecycle.started g t n effect w) := rfl
  rw [rest, slot]
  rfl

/-- The effect cannot be called without fuel. -/
theorem startFollow_unfueled (cell : w.follows.get g = ⟨t, .effect n effect, .immediate, none⟩)
    (plain : (w.signals.get t).producer = none) :
    Lifecycle.startFollow g (exec 0) w = .error .outOfFuel := by
  have subscribed : Signal.subscribe t (.effect n effect) .immediate (exec 0) w =
      .error .outOfFuel := by
    unfold Signal.subscribe
    rw [bind_of_ok (wake_plain plain _)]
    rfl
  have read : Lifecycle.startFollow g (exec 0) w =
      (Signal.subscribe (w.follows.get g).signal (w.follows.get g).reaction
        (w.follows.get g).mode (exec 0) w).bind fun p => (do
          let previous := ((← get).follows.get g).slot
          Lifecycle.setSlot g (some p.1)
          previous.forM Subscription.cancel : Op Unit) (exec 0) p.2 := rfl
  rw [read, cell, subscribed]
  rfl

theorem greeted_content {reaction : Reaction} :
    Signal.content (Signal.greeting t reaction w) s = Signal.content w s := by
  have shown : Signal.content (Signal.greeting t reaction w) s =
      Signal.content (Signal.entered t reaction .immediate w) s :=
    Heap.get_modify_same _ t s _ Signal.value fun _ => rfl
  rw [shown, entered_content]

theorem greeted_subscribers {reaction : Reaction} :
    ((Signal.greeting t reaction w).signals.get s).subscribers =
      ((Signal.entered t reaction .immediate w).signals.get s).subscribers :=
  Heap.get_modify_same (Signal.entered t reaction .immediate w).signals t s _ Signal.subscribers
    fun _ => rfl

/-- Whoever is greeted by the signal of a field with the reaction of the field lets the field hear. -/
theorem greeted_heard (known : s.index < w.signals.size) (f : Field) :
    Heard s (Signal.greeting s f.reaction w) f := by
  have cell : (Signal.entered s f.reaction .immediate w).signals.get s =
      (w.signals.get s).joinedBy w.entries.next .immediate := Heap.get_modify_self _ _ _ known
  have entry : (Signal.greeting s f.reaction w).entries.get w.entries.next =
      ⟨true, (w.signals.get s).version, f.reaction⟩ := Heap.get_push_next ..
  refine ⟨w.entries.next, ?_, ?_, ?_⟩
  · rw [greeted_subscribers, cell]
    exact List.mem_append_right _ (List.mem_singleton_self _)
  · rw [entry]
  · rw [entry]

theorem Tied.greeted (h : Tied s fields todo w)
    (form : ∀ key, effect = .form key → t = s ∧ (n, key) ∈ fields) :
    Tied s fields todo (Signal.greeting t (.effect n effect) w) := by
  have entered := h.entered t .immediate form
  refine entered.of_signals (Heap.size_modify ..) (fun t' => ?_) ?_ rfl (fun _ => rfl)
    (fun _ => rfl) fun e he => ?_
  · exact Heap.get_modify_same _ t t' _ Signal.producer fun _ => rfl
  · exact greeted_subscribers
  · have version : ((Signal.greeting t (.effect n effect) w).signals.get s).version =
        ((Signal.entered t (.effect n effect) .immediate w).signals.get s).version :=
      Heap.get_modify_same _ t s _ Signal.version fun _ => rfl
    exact version ▸ entered.seen e he

/-- A follow of a node has started: the network is in order, and what the follow shows is shown. -/
theorem Attuned.started {rest : List Task} (h : Attuned s fields todo w)
    (next : todo n = .hook (.follow g) :: rest)
    (cell : w.follows.get g = ⟨t, .effect n effect, .immediate, none⟩)
    (form : ∀ key, effect = .form key → t = s ∧ (n, key) ∈ fields) :
    Attuned s fields (Rest todo n rest) (Lifecycle.started g t n effect w) := by
  let w₁ := Signal.greeting t (.effect n effect) w
  have greeted : Tied s fields todo w₁ := h.toTied.greeted form
  have welcomed := greeted.stamp (fun key eq => (form key eq).2) ((Signal.content w₁ t).getD .null)
  let w₂ : World := { Signal.welcomed t n effect w with
    subscriptions := w.subscriptions.push (some (.entry t w.entries.next)) }
  have bound : Tied s fields todo w₂ := welcomed.of_nodes welcomed.written
  -- The follow is that of a field only if its node and its effect are those of the field.
  have its : ∀ f ∈ fields, (w.follows.get g).reaction = f.reaction →
      t = s ∧ n = f.1 ∧ effect = f.effect := by
    intro f hf eq
    rw [cell] at eq
    obtain ⟨rfl, rfl⟩ := Reaction.effect.inj eq
    exact ⟨(form f.2 rfl).1, rfl, rfl⟩
  refine ⟨bound.slotted next _ fun f hf eq => ?_, fun v value plain f hf => ?_⟩
  · obtain ⟨rfl, rfl, rfl⟩ := its f hf eq
    exact greeted_heard h.known f
  · have value : Signal.content w s = some v := greeted_content.symm.trans value
    have shown : effect = f.effect → (Signal.content w₁ t).getD .null = v := by
      intro same
      obtain ⟨rfl, -⟩ := form f.2 same
      rw [greeted_content, value]
      rfl
    rcases h.even v value plain f hf with due | shows
    · refine (due.slotted next _).imp id fun eq => ?_
      obtain ⟨rfl, rfl, rfl⟩ := its f hf eq
      exact (greeted.written f hf).shown plain (shown rfl)
    · refine .inr ?_
      have shows₁ : f.Shows v w₁ := shows
      exact shows₁.stamped (h.suits hf fun key eq => (form key eq).2) plain shown

/-- A hook has a follow start. -/
theorem follow_keeps {rest : List Task} (h : Attuned s fields todo w)
    (next : todo n = .hook (.follow g) :: rest) :
    Ensures (exec fuel) (invoke (.hook (.follow g))) w fun _ w' =>
      Attuned s fields (Rest todo n rest) w' ∧ Calm w w' := by
  have first : Timid s fields w n (.hook (.follow g)) := h.timid n _ (next ▸ List.mem_cons_self)
  obtain ⟨known, t, effect, cell, -, plain, form⟩ := first
  refine (ensures_invoke ..).2 fun w' ran => ?_
  rcases fuel with - | - | fuel
  · cases ran
  · have stuck : exec 1 (.hook (.follow g)) w = .error .outOfFuel := startFollow_unfueled cell plain
    rw [stuck] at ran
    cases ran
  · have started : exec (fuel + 2) (.hook (.follow g)) w =
        .ok ((), Lifecycle.started g t n effect w) := startFollow_eq cell plain
    rw [started] at ran
    cases ran
    refine ⟨h.started next cell form, fun m => ?_, Heap.size_modify .., rfl⟩
    exact Heap.get_modify_same _ n m _ Node.connected (effect.stamp_connected _ _)

/-- An element was given a listener. -/
theorem Attuned.listening {rest : List Task} {l : ListenerId} (h : Attuned s fields todo w)
    (next : todo n = .hook (.listen n "input" l) :: rest)
    {registrations : List (NodeId × String × ListenerId)}
    (here : (n, "input", l) ∈ registrations) (kept : w.registrations ⊆ registrations)
    (only : ∀ r ∈ registrations, r ∈ w.registrations ∨ r = (n, "input", l)) :
    Attuned s fields (Rest todo n rest) { w with registrations } := by
  have first : Timid s fields w n (.hook (.listen n "input" l)) :=
    h.timid n _ (next ▸ List.mem_cons_self)
  obtain ⟨-, known, -, key, field, handler⟩ := first
  have due : ∀ f, Due todo w f → Due (Rest todo n rest) { w with registrations } f := by
    rintro f ⟨g, mem, reaction⟩
    rcases rest_or_eq next mem with mem | ⟨-, eq⟩
    · exact ⟨g, mem, reaction⟩
    · cases eq
  have bound : Tied s fields (Rest todo n rest) { w with registrations } := by
    refine ⟨h.known, h.plain, h.entries, h.seen, h.reactions, h.one, h.written,
      once_rest next h.once, fun m task ht => ?_, fun f hf l' hl => ?_,
      fun f hf => (h.heard f hf).imp_right (due f), fun f hf => ?_⟩
    · exact (h.timid m task (mem_of_mem_rest next ht)).mono (List.Subset.refl _)
        (fun _ known => ⟨known, rfl⟩) (fun _ _ known => ⟨known, rfl⟩) fun _ known => ⟨known, rfl⟩
    · rcases only _ hl with old | eq
      · exact h.listeners f hf l' old
      · obtain ⟨rfl, eq'⟩ := Prod.mk.inj eq
        obtain ⟨-, rfl⟩ := Prod.mk.inj eq'
        rw [h.one f.1 f.2 key hf field]
        exact ⟨known, handler⟩
    · rcases h.heeded f hf with ⟨l', hl⟩ | ⟨l', mem⟩
      · exact .inl ⟨l', kept hl⟩
      · rcases rest_or_eq next mem with mem | ⟨rfl, eq⟩
        · exact .inr ⟨l', mem⟩
        · cases eq
          exact .inl ⟨l, here⟩
  exact ⟨bound, fun v value plain f hf => (h.even v value plain f hf).imp_left (due f)⟩

/-- A hook registers a listener. -/
theorem listen_keeps {rest : List Task} {event : String} {l : ListenerId}
    (h : Attuned s fields todo w) (next : todo n = .hook (.listen m event l) :: rest) :
    Ensures (exec fuel) (invoke (.hook (.listen m event l))) w fun _ w' =>
      Attuned s fields (Rest todo n rest) w' ∧ Calm w w' := by
  have first : Timid s fields w n (.hook (.listen m event l)) :=
    h.timid n _ (next ▸ List.mem_cons_self)
  obtain ⟨rfl, -, rfl, -⟩ := first
  refine (ensures_invoke ..).2 fun w' ran => ?_
  cases fuel with
  | zero => cases ran
  | succ fuel =>
    have listened : exec (fuel + 1) (.hook (.listen m "input" l)) w = .ok ((),
        if w.registrations.contains (m, "input", l) then w
        else { w with registrations := w.registrations ++ [(m, "input", l)] }) := rfl
    rw [listened] at ran
    cases ran
    split
    case isTrue present =>
      exact ⟨h.listening next (List.contains_iff_mem.1 present) (List.Subset.refl _)
        fun r hr => .inl hr, .refl w⟩
    case isFalse =>
      refine ⟨h.listening next (List.mem_append_right _ (List.mem_singleton_self _))
        (List.subset_append_left _ _) fun r hr => ?_, fun _ => rfl, rfl, rfl⟩
      exact (List.mem_append.1 hr).imp_right List.mem_singleton.1

/-- The hooks of a node. By induction on their list. -/
theorem hooks_keep {tasks : List Task} (h : Attuned s fields todo w) (all : todo n = tasks) :
    Ensures (exec fuel) (invokeAll tasks) w fun _ w' =>
      Attuned s fields (Rest todo n []) w' ∧ Calm w w' := by
  induction tasks generalizing todo w with
  | nil =>
    refine (ensures_pure ..).2 ⟨?_, .refl w⟩
    have same : Rest todo n [] = todo := by
      unfold Rest
      rw [← all, Function.update_eq_self]
    rwa [same]
  | cons task tasks ih =>
    have first : Ensures (exec fuel) (invoke task) w fun _ w' =>
        Attuned s fields (Rest todo n tasks) w' ∧ Calm w w' := by
      have timid := h.timid n task (all ▸ List.mem_cons_self)
      cases task with
      | hook hook =>
        cases hook with
        | follow g => exact follow_keeps h all
        | listen m event l => exact listen_keeps h all
        | _ => exact timid.elim
      | _ => exact timid.elim
    refine (ensures_bind ..).2 (first.mono ?_)
    rintro _ w₁ ⟨h₁, calm⟩
    refine (ih h₁ (Function.update_self ..)).mono ?_
    rintro _ w₂ ⟨h₂, calm'⟩
    have same : Rest (Rest todo n tasks) n [] = Rest todo n [] := Function.update_idem ..
    exact ⟨same ▸ h₂, calm.trans calm'⟩

/-! Mounting. -/

/-- The hooks that a node waits to have run: those of a node that is not mounted. -/
def World.waiting (w : World) (n : NodeId) : List Task :=
  if (w.nodes.get n).connected then [] else hooksOf n w.mountHooks

/-- Fields are bound to their signal, and show it where they are mounted. -/
structure Prepared (s : SignalId) (fields : List Field) (w : World) : Prop
    extends Attuned s fields w.waiting w where
  hooked : ∀ m h, (m, h) ∈ w.mountHooks → m.index < w.nodes.size

/-- Nodes may change where their content does not. -/
theorem Attuned.of_contents (h : Attuned s fields todo w) {nodes : Forest}
    (same : ∀ m, (nodes.get m).content = (w.nodes.get m).content) :
    Attuned s fields todo { w with nodes } where
  toTied := h.toTied.of_nodes fun f hf => (Field.holds_congr (same f.1)).2 (h.written f hf)
  even v value plain f hf :=
    (h.even v value plain f hf).imp_right (Field.holds_congr (same f.1)).2

/-- Links between nodes do not matter. -/
theorem Prepared.relinked (h : Prepared s fields w) {nodes : Forest}
    (relinked : Forest.Relinked w.nodes nodes) : Prepared s fields { w with nodes } := by
  have waiting : World.waiting { w with nodes } = w.waiting := by
    funext m
    unfold World.waiting
    rw [relinked.connected m]
  refine ⟨?_, fun m hook mem => Nat.lt_of_lt_of_eq (h.hooked m hook mem) relinked.size.symm⟩
  rw [waiting]
  exact h.toAttuned.of_contents relinked.content

/-- Whatever was mounted is mounted still. -/
def Lasts (w w' : World) : Prop :=
  ∀ m, (w.nodes.get m).connected = true → (w'.nodes.get m).connected = true

/-- A runner that mounts nodes as it should. -/
def Mounts (s : SignalId) (fields : List Field) (run : Runner) : Prop :=
  ∀ w n, Prepared s fields w →
    Ensures run (invoke (.connect n true)) w fun _ w' => Prepared s fields w' ∧ Lasts w w'

/-- Nodes one after another. By induction on their list. -/
theorem mountEach {run : Runner} (mounts : Mounts s fields run) (h : Prepared s fields w)
    (l : List NodeId) :
    Ensures run (invokeAll (l.map fun c => .connect c true)) w fun _ w' =>
      Prepared s fields w' ∧ Lasts w w' := by
  induction l generalizing w with
  | nil => exact (ensures_pure ..).2 ⟨h, fun _ => id⟩
  | cons c l ih =>
    refine (ensures_bind ..).2 ((mounts w c h).mono ?_)
    rintro _ w₁ ⟨h₁, lasts⟩
    refine (ih h₁).mono ?_
    rintro _ w₂ ⟨h₂, lasts'⟩
    exact ⟨h₂, fun m => lasts' m ∘ lasts m⟩

/-- The hooks of a node that comes to be mounted are run, and so nothing waits for it. -/
theorem connect_keeps (mounts : Mounts s fields (exec fuel)) (h : Prepared s fields w)
    (n : NodeId) :
    Ensures (exec fuel) (Mount.connect n true) w fun _ w' =>
      Prepared s fields w' ∧ Lasts w w' := by
  by_cases same : (w.nodes.get n).connected = true
  · intro _ w' ran
    rw [Mount.connect_same same] at ran
    cases ran
    exact ⟨h, fun _ => id⟩
  let w₁ := Mount.flagged n true w
  have content : ∀ m, (w₁.nodes.get m).content = (w.nodes.get m).content :=
    fun m => Heap.get_modify_same w.nodes n m _ Node.content fun _ => rfl
  have h₁ : Attuned s fields w.waiting w₁ := h.toAttuned.of_contents content
  have all : w.waiting n = hooksOf n w₁.mountHooks := if_neg same
  intro _ w' ran
  rw [Mount.connect_true same] at ran
  revert ran
  suffices ensured : Ensures (exec fuel) (do
      invokeAll (hooksOf n (← get).mountHooks)
      invokeAll (((← get).nodes.get n).children.map fun c => .connect c true) : Op Unit) w₁
      fun _ w' => Prepared s fields w' ∧ Lasts w w' from ensured () w'
  simp only [ensures_bind, ensures_get]
  refine (hooks_keep h₁ all).mono ?_
  rintro _ w₂ ⟨h₂, calm⟩
  have other : ∀ m, m ≠ n → (w₂.nodes.get m).connected = (w.nodes.get m).connected := by
    intro m ne
    rw [calm.connected m]
    exact congrArg Node.connected (Heap.get_modify_of_ne _ _ _ _ ne.symm)
  have waiting : Rest w.waiting n [] = w₂.waiting := by
    funext m
    unfold Rest
    by_cases here : m = n
    · subst here
      rw [Function.update_self]
      unfold World.waiting
      rcases Nat.lt_or_ge m.index w.nodes.size with known | unknown
      · have flag : (w₂.nodes.get m).connected = true := by
          rw [calm.connected m]
          exact congrArg Node.connected (Heap.get_modify_self _ _ _ known)
        rw [if_pos flag]
      · have none : hooksOf m w₂.mountHooks = [] := by
          refine List.eq_nil_iff_forall_not_mem.2 fun task mem => ?_
          obtain ⟨hook, -, mem⟩ := mem_hooksOf.1 mem
          rw [calm.mountHooks] at mem
          exact absurd (h.hooked m hook mem) (Nat.not_lt.2 unknown)
        rw [none, ite_self]
    · rw [Function.update_of_ne here]
      unfold World.waiting
      rw [other m here, calm.mountHooks]
      rfl
  have prepared : Prepared s fields w₂ := by
    refine ⟨waiting ▸ h₂, fun m hook mem => ?_⟩
    rw [calm.mountHooks] at mem
    rw [calm.size]
    exact Nat.lt_of_lt_of_eq (h.hooked m hook mem) (Heap.size_modify ..).symm
  refine (mountEach mounts prepared _).mono ?_
  rintro _ w₃ ⟨h₃, lasts⟩
  refine ⟨h₃, fun m on => lasts m ?_⟩
  have ne : m ≠ n := fun eq => same (eq ▸ on)
  exact (other m ne).trans on

/-- By induction on the fuel. -/
theorem mounts_exec (fuel : Nat) : Mounts s fields (exec fuel) := by
  induction fuel with
  | zero =>
    intro w n _
    refine (ensures_invoke ..).2 fun w' ran => ?_
    cases ran
  | succ fuel ih => exact fun w n h => connect_keeps ih h n

/-- Nodes that are put below a mounted node. By induction on their list. -/
theorem appendAll_keeps (h : Prepared s fields w) (on : (w.nodes.get p).connected = true)
    (l : List NodeId) :
    Ensures (exec fuel) (l.forM (Mount.appendOne p)) w fun _ w' =>
      Prepared s fields w' ∧ Lasts w w' := by
  induction l generalizing w with
  | nil => exact (ensures_pure ..).2 ⟨h, fun _ => id⟩
  | cons n l ih =>
    let w₁ : World := { w with nodes := (w.nodes.detach n).attach p n }
    have relinked : Forest.Relinked w.nodes w₁.nodes := (Forest.Relinked.detach n).trans (.attach p n)
    have on₁ : Mount.isConnected w₁ p = true := (relinked.connected p).trans on
    have first : Ensures (exec fuel) (Mount.appendOne p n) w fun _ w' =>
        Prepared s fields w' ∧ Lasts w w' := by
      have read : Mount.appendOne p n (exec fuel) w =
          Mount.connect n (Mount.isConnected w₁ p) (exec fuel) w₁ := rfl
      intro _ w' ran
      rw [read, on₁] at ran
      obtain ⟨h', lasts⟩ := connect_keeps (mounts_exec fuel) (h.relinked relinked) n () w' ran
      exact ⟨h', fun m hm => lasts m ((relinked.connected m).trans hm)⟩
    refine (ensures_bind ..).2 (first.mono ?_)
    rintro _ w₂ ⟨h₂, lasts⟩
    refine (ih h₂ (lasts p on)).mono ?_
    rintro _ w₃ ⟨h₃, lasts'⟩
    exact ⟨h₃, fun m => lasts' m ∘ lasts m⟩

/-- A node is put below a mounted node. -/
theorem append_keeps (h : Prepared s fields w) (on : (w.nodes.get p).connected = true)
    (n : NodeId) :
    Ensures (exec fuel) (Mount.append p n) w fun _ w' => Prepared s fields w' ∧ Lasts w w' := by
  let w₁ : World := { w with nodes := (w.nodes.takeForInsertion n).2 }
  have relinked : Forest.Relinked w.nodes w₁.nodes := .takeForInsertion n
  have read : Mount.append p n (exec fuel) w =
      (w.nodes.takeForInsertion n).1.forM (Mount.appendOne p) (exec fuel) w₁ := rfl
  intro _ w' ran
  rw [read] at ran
  obtain ⟨h', lasts⟩ :=
    appendAll_keeps (h.relinked relinked) ((relinked.connected p).trans on) _ () w' ran
  exact ⟨h', fun m hm => lasts m ((relinked.connected m).trans hm)⟩

/-! Binding. -/

/-- The world in which an effect has shown a signal at a node, which is to follow the signal once it is
mounted. -/
def Effect.bound (effect : Effect) (n : NodeId) (t : SignalId) (w : World) : World :=
  { w with
    nodes := w.nodes.modify n (effect.stamp w ((Signal.content w t).getD .null))
    follows := w.follows.push ⟨t, .effect n effect, .immediate, none⟩
    mountHooks := w.mountHooks ++ [(n, .follow w.follows.next)]
    unmountHooks := w.unmountHooks ++ [(n, .unfollow w.follows.next)] }

/-- The world in which a node is to be given a listener once it is mounted. -/
def Events.awaited (n : NodeId) (event : String) (h : Handler) (w : World) : World :=
  { w with
    listeners := w.listeners.push h
    mountHooks := w.mountHooks ++ [(n, .listen n event w.listeners.next)]
    unmountHooks := w.unmountHooks ++ [(n, .unlisten n event w.listeners.next)] }

/-- A hook is not run where its node is not mounted. -/
theorem onMount_off (off : (w.nodes.get n).connected = false) (hook : Hook) (run : Runner) :
    Lifecycle.onMount n hook run w =
      .ok ((), { w with mountHooks := w.mountHooks ++ [(n, hook)] }) := by
  let w₁ : World := { w with mountHooks := w.mountHooks ++ [(n, hook)] }
  have read : Lifecycle.onMount n hook run w =
      (if Mount.isConnected w₁ n then invoke (.hook hook) else pure () : Op Unit) run w₁ := rfl
  have off₁ : Mount.isConnected w₁ n = false := off
  rw [read, off₁]
  rfl

theorem bind_off (off : (w.nodes.get n).connected = false) (effect : Effect) (t : SignalId)
    (run : Runner) : effect.bind n t run w = .ok ((), effect.bound n t w) := by
  let v := (Signal.content w t).getD .null
  let w₁ : World := { w with nodes := w.nodes.modify n (effect.stamp w v) }
  let w₂ : World := { w₁ with follows := w₁.follows.push ⟨t, .effect n effect, .immediate, none⟩ }
  have off₂ : (w₂.nodes.get n).connected = false :=
    (Heap.get_modify_same _ n n _ Node.connected (effect.stamp_connected w v)).trans off
  have read : effect.bind n t run w = (effect.apply n v >>= fun _ =>
      Lifecycle.follow n t (.effect n effect) .immediate) run w := rfl
  have follow : Lifecycle.follow n t (.effect n effect) .immediate run w₁ = (do
      Lifecycle.onMount n (.follow w₁.follows.next)
      Lifecycle.onUnmount n (.unfollow w₁.follows.next) : Op Unit) run w₂ := rfl
  rw [read, bind_of_ok (effect.apply_stamp n v run), follow, bind_of_ok (onMount_off off₂ _ run)]
  rfl

/-- Before form state is bound both ways, an element that is not mounted is given a listener. -/
theorem twoWay_off (off : (w.nodes.get n).connected = false) (key : BindingKey) (s : SignalId)
    (run : Runner) : Render.twoWay n s key run w =
      Effect.bind n s (.form key) run (Events.awaited n "input" (.write s key) w) := by
  let w₁ : World := { w with listeners := w.listeners.push (.write s key) }
  have listened : Events.listenWhileMounted n "input" w.listeners.next run w₁ =
      .ok ((), Events.awaited n "input" (.write s key) w) := by
    unfold Events.listenWhileMounted
    have off₁ : (w₁.nodes.get n).connected = false := off
    rw [bind_of_ok (onMount_off off₁ _ run)]
    rfl
  have read : Render.twoWay n s key run w =
      (Events.listenWhileMounted n "input" w.listeners.next >>= fun _ =>
        Effect.bind n s (.form key)) run w₁ := rfl
  rw [read, bind_of_ok listened]

/-- A directive that binds form state both ways, on an element that is not mounted. -/
theorem directive_off (off : (w.nodes.get n).connected = false) (key : BindingKey) (s : SignalId)
    (run : Runner) : (Render.directive n .bind key.name (.writable s)).run run w =
      .ok (.ok [], (Effect.form key).bound n s (Events.awaited n "input" (.write s key) w)) := by
  have off₁ : ((Events.awaited n "input" (.write s key) w).nodes.get n).connected = false := off
  have bound := (twoWay_off off key s run).trans (bind_off off₁ (.form key) s run)
  unfold Render.directive
  dsimp only
  rw [BindingKey.ofName?_name]
  dsimp only
  rw [run_liftM_bind, bind_of_ok bound]
  rfl

theorem hooksOf_append (a b : List (NodeId × Hook)) :
    hooksOf n (a ++ b) = hooksOf n a ++ hooksOf n b :=
  List.filterMap_append

theorem hooksOf_own (hooks : List Hook) : hooksOf n (hooks.map (n, ·)) = hooks.map .hook := by
  unfold hooksOf
  rw [List.filterMap_map]
  refine List.filterMap_eq_map_iff_forall_eq_some.2 fun hook _ => ?_
  exact if_pos rfl

theorem hooksOf_others (ne : n ≠ m) (hooks : List Hook) : hooksOf m (hooks.map (n, ·)) = [] := by
  unfold hooksOf
  rw [List.filterMap_map]
  refine List.filterMap_eq_nil_iff.2 fun hook _ => ?_
  exact if_neg ne

/-- What a node that is not mounted is given: hooks that have it listened to, and an effect that follows
a signal. The effect may make a field of it. -/
structure Gift (s : SignalId) (fields new : List Field) (n : NodeId) (t : SignalId) (effect : Effect)
    (listens : List Hook) (w w₁ : World) : Prop where
  off : (w.nodes.get n).connected = false
  known : n.index < w.nodes.size
  signal : t.index < w.signals.size
  plain : (w.signals.get t).producer = none
  one : ∀ m key key', (m, key) ∈ new ++ fields → (m, key') ∈ new ++ fields → key = key'
  form : ∀ key, effect = .form key → t = s ∧ (n, key) ∈ new ++ fields
  field : ∀ f ∈ new, f.1 = n ∧ effect = f.effect ∧ ∃ a, (w.nodes.get n).content = .element a
  silent : ∀ f ∈ new, ∀ l, (f.1, "input", l) ∉ w.registrations
  heeded : ∀ f ∈ new, ∃ l, Hook.listen f.1 "input" l ∈ listens
  timid : ∀ hook ∈ listens, Timid s (new ++ fields) w₁ n (.hook hook)
  fresh : (w.waiting n ++ listens.map Task.hook).Nodup
  follows : ∀ g, Hook.follow g ∉ listens
  listeners : ∀ l, l.index < w.listeners.size →
    l.index < w₁.listeners.size ∧ w₁.listeners.get l = w.listeners.get l
  mountHooks : w₁.mountHooks = w.mountHooks ++ listens.map (n, ·)
  rest : w₁ = { w with
    listeners := w₁.listeners, mountHooks := w₁.mountHooks, unmountHooks := w₁.unmountHooks }

namespace Gift
variable {new : List Field} {listens : List Hook} (gift : Gift s fields new n t effect listens w w₁)
include gift

theorem connected (m : NodeId) :
    ((effect.bound n t w₁).nodes.get m).connected = (w.nodes.get m).connected := by
  have same : ((effect.bound n t w₁).nodes.get m).connected = (w₁.nodes.get m).connected :=
    Heap.get_modify_same _ n m _ Node.connected (effect.stamp_connected _ _)
  rw [same, gift.rest]

/-- The node has more hooks to wait for. -/
theorem waiting_here : (effect.bound n t w₁).waiting n =
    w.waiting n ++ (listens.map Task.hook ++ [.hook (.follow w.follows.next)]) := by
  have hooks : (effect.bound n t w₁).mountHooks =
      w.mountHooks ++ (listens.map (n, ·) ++ [Hook.follow w.follows.next].map (n, ·)) := by
    have follows : w₁.follows = w.follows := by rw [gift.rest]
    unfold Effect.bound
    dsimp only
    rw [gift.mountHooks, follows, List.append_assoc]
    rfl
  unfold World.waiting
  rw [gift.connected, gift.off, if_neg Bool.false_ne_true, if_neg Bool.false_ne_true, hooks,
    hooksOf_append, hooksOf_append, hooksOf_own, hooksOf_own]
  rfl

/-- Other nodes have the hooks that they had. -/
theorem waiting_other (ne : n ≠ m) : (effect.bound n t w₁).waiting m = w.waiting m := by
  have hooks : (effect.bound n t w₁).mountHooks =
      w.mountHooks ++ (listens.map (n, ·) ++ [Hook.follow w₁.follows.next].map (n, ·)) := by
    unfold Effect.bound
    dsimp only
    rw [gift.mountHooks, List.append_assoc]
    rfl
  unfold World.waiting
  rw [gift.connected, hooks, hooksOf_append, hooksOf_append, hooksOf_others ne, hooksOf_others ne,
    List.append_nil, List.append_nil]

theorem suits {f : Field} (hf : f ∈ new ++ fields) : f.Suits n effect := by
  rintro key eq rfl
  exact gift.one f.1 key f.2 (gift.form key eq).2 hf

/-- What was waited for is waited for still. -/
theorem waits {task : Task} (mem : task ∈ w.waiting m) :
    task ∈ (effect.bound n t w₁).waiting m := by
  by_cases here : n = m
  · subst here
    rw [gift.waiting_here]
    exact List.mem_append_left _ mem
  · rwa [gift.waiting_other here]

theorem cell {g : FollowId} (known : g.index < w.follows.size) :
    (effect.bound n t w₁).follows.get g = w.follows.get g := by
  have same : (effect.bound n t w₁).follows.get g = w₁.follows.get g := by
    refine Heap.get_push_of_lt _ _ _ ?_
    rw [gift.rest]
    exact known
  rw [same, gift.rest]

/-- The follow of the new effect. -/
theorem new_cell : (effect.bound n t w₁).follows.get w.follows.next =
    ⟨t, .effect n effect, .immediate, none⟩ := by
  have follows : w₁.follows = w.follows := by rw [gift.rest]
  unfold Effect.bound
  dsimp only
  rw [follows]
  exact Heap.get_push_next ..

theorem due (h : Prepared s fields w) {f : Field} (due : Due w.waiting w f) :
    Due (effect.bound n t w₁).waiting (effect.bound n t w₁) f := by
  obtain ⟨g, mem, reaction⟩ := due
  obtain ⟨known, -⟩ := h.timid f.1 _ mem
  exact ⟨g, gift.waits mem, (congrArg Follow.reaction (gift.cell known)).trans reaction⟩

theorem new_due {f : Field} (hf : f ∈ new) :
    Due (effect.bound n t w₁).waiting (effect.bound n t w₁) f := by
  obtain ⟨rfl, rfl, -⟩ := gift.field f hf
  refine ⟨w.follows.next, ?_, congrArg Follow.reaction gift.new_cell⟩
  rw [gift.waiting_here]
  exact List.mem_append_right _ (List.mem_append_right _ (List.mem_singleton_self _))

theorem once (h : Prepared s fields w) (m : NodeId) : ((effect.bound n t w₁).waiting m).Nodup := by
  by_cases here : n = m
  · subst here
    rw [gift.waiting_here, ← List.append_assoc]
    refine List.nodup_append.2 ⟨gift.fresh, List.nodup_singleton _, ?_⟩
    rintro task mem _ last rfl
    obtain rfl := List.mem_singleton.1 last
    rcases List.mem_append.1 mem with old | listen
    · obtain ⟨known, -⟩ := h.timid n _ old
      exact Nat.lt_irrefl _ known
    · obtain ⟨hook, mem, eq⟩ := List.mem_map.1 listen
      cases eq
      exact gift.follows _ mem
  · rw [gift.waiting_other here]
    exact h.once m

theorem timid' (h : Prepared s fields w) (m : NodeId) (task : Task)
    (mem : task ∈ (effect.bound n t w₁).waiting m) :
    Timid s (new ++ fields) (effect.bound n t w₁) m task := by
  have signals : (effect.bound n t w₁).signals = w.signals := by
    unfold Effect.bound
    dsimp only
    rw [gift.rest]
  have size : w.follows.size < (effect.bound n t w₁).follows.size := by
    have follows : w₁.follows = w.follows := by rw [gift.rest]
    unfold Effect.bound
    dsimp only
    rw [follows, Heap.size_push]
    exact Nat.lt_succ_self _
  have old {task : Task} (mem : task ∈ w.waiting m) :
      Timid s (new ++ fields) (effect.bound n t w₁) m task :=
    (h.timid m task mem).mono (List.subset_append_right _ _) (fun t known => ⟨by rwa [signals], by rw [signals]⟩)
      (fun g _ known => ⟨Nat.lt_trans known size, gift.cell known⟩) gift.listeners
  by_cases here : n = m
  · subst here
    rw [gift.waiting_here] at mem
    rcases List.mem_append.1 mem with mem | mem
    · exact old mem
    rcases List.mem_append.1 mem with mem | mem
    · obtain ⟨hook, given, rfl⟩ := List.mem_map.1 mem
      refine (gift.timid hook given).mono (List.Subset.refl _) (fun _ known => ⟨known, rfl⟩) ?_
        fun _ known => ⟨known, rfl⟩
      intro g eq
      cases eq
      exact absurd given (gift.follows g)
    · obtain rfl := List.mem_singleton.1 mem
      refine ⟨size, t, effect, gift.new_cell, ?_, ?_, gift.form⟩
      · rw [signals]
        exact gift.signal
      · rw [signals]
        exact gift.plain
  · rw [gift.waiting_other here] at mem
    exact old mem

/-- An effect writes the form state of the field that it makes. -/
theorem written (h : Prepared s fields w) {f : Field} (hf : f ∈ new ++ fields) :
    f.Written (effect.bound n t w₁) := by
  have nodes : w₁.nodes = w.nodes := by rw [gift.rest]
  rcases List.mem_append.1 hf with mem | mem
  · obtain ⟨rfl, rfl, a, content⟩ := gift.field f mem
    rw [← nodes] at content
    exact (Field.set content _).mono fun _ _ => trivial
  · have written : f.Written w₁ := (Field.holds_congr (by rw [nodes])).2 (h.written f mem)
    exact written.stamped (gift.suits hf) _

end Gift

/-- A node that is not mounted was given hooks and an effect. -/
theorem Prepared.given {new : List Field} {listens : List Hook} (h : Prepared s fields w)
    (gift : Gift s fields new n t effect listens w w₁) :
    Prepared s (new ++ fields) (effect.bound n t w₁) := by
  have signals : (effect.bound n t w₁).signals = w.signals := by
    unfold Effect.bound
    dsimp only
    rw [gift.rest]
  have entries : (effect.bound n t w₁).entries = w.entries := by
    unfold Effect.bound
    dsimp only
    rw [gift.rest]
  have registrations : (effect.bound n t w₁).registrations = w.registrations := by
    unfold Effect.bound
    dsimp only
    rw [gift.rest]
  have size : (effect.bound n t w₁).nodes.size = w.nodes.size := by
    have nodes : w₁.nodes = w.nodes := by rw [gift.rest]
    unfold Effect.bound
    dsimp only
    rw [Heap.size_modify, nodes]
  have heard {f : Field} (hf : Heard s w f) : Heard s (effect.bound n t w₁) f := by
    unfold Heard
    rw [signals, entries]
    exact hf
  have bound : Tied s (new ++ fields) (effect.bound n t w₁).waiting (effect.bound n t w₁) := by
    refine ⟨?_, ?_, ?_, ?_, ?_, gift.one, fun f hf => gift.written h hf, gift.once h, gift.timid' h,
      fun f hf l hl => ?_, fun f hf => ?_, fun f hf => ?_⟩
    · rw [signals]
      exact h.known
    · rw [signals]
      exact h.plain
    · rw [signals, entries]
      exact h.entries
    · rw [signals, entries]
      exact h.seen
    · rw [signals, entries]
      intro e he
      obtain ⟨m, effect', eq, form⟩ := h.reactions e he
      exact ⟨m, effect', eq, fun key eq => List.mem_append_right _ (form key eq)⟩
    · rw [registrations] at hl
      rcases List.mem_append.1 hf with mem | mem
      · exact absurd hl (gift.silent f mem l)
      · obtain ⟨known, handler⟩ := h.listeners f mem l hl
        obtain ⟨known', same⟩ := gift.listeners l known
        exact ⟨known', same.trans handler⟩
    · rcases List.mem_append.1 hf with mem | mem
      · exact .inr (gift.new_due mem)
      · exact (h.heard f mem).imp heard (gift.due h)
    · rcases List.mem_append.1 hf with mem | mem
      · obtain ⟨l, listens⟩ := gift.heeded f mem
        obtain ⟨rfl, -⟩ := gift.field f mem
        refine .inr ⟨l, ?_⟩
        rw [gift.waiting_here]
        exact List.mem_append_right _ (List.mem_append_left _ (List.mem_map_of_mem listens))
      · rw [registrations]
        refine (h.heeded f mem).imp_right ?_
        rintro ⟨l, mem⟩
        exact ⟨l, gift.waits mem⟩
  refine ⟨⟨bound, fun v value plain f hf => ?_⟩, fun m hook mem => ?_⟩
  · have value : Signal.content w s = some v := by
      unfold Signal.content at value
      rwa [signals] at value
    rcases List.mem_append.1 hf with mem | mem
    · exact .inl (gift.new_due mem)
    · refine (h.even v value plain f mem).imp (gift.due h) fun shows => ?_
      have nodes : w₁.nodes = w.nodes := by rw [gift.rest]
      have shows₁ : f.Shows v w₁ := (Field.holds_congr (by rw [nodes])).2 shows
      refine shows₁.stamped (gift.suits hf) plain fun eq => ?_
      obtain ⟨rfl, -⟩ := gift.form f.2 eq
      have content : Signal.content w₁ t = Signal.content w t := by rw [gift.rest]; rfl
      rw [content, value]
      rfl
  · rw [size]
    have hooks : (effect.bound n t w₁).mountHooks =
        w.mountHooks ++ listens.map (n, ·) ++ [(n, .follow w₁.follows.next)] := by
      unfold Effect.bound
      dsimp only
      rw [gift.mountHooks]
    rw [hooks] at mem
    rcases List.mem_append.1 mem with mem | mem
    · rcases List.mem_append.1 mem with mem | mem
      · exact h.hooked m hook mem
      · obtain ⟨hook', -, eq⟩ := List.mem_map.1 mem
        cases eq
        exact gift.known
    · cases List.mem_singleton.1 mem
      exact gift.known

end LiveMarkup.Live
