import LiveMarkup.Proofs.Sharing

/-!
Agreement: fields that share a signal read as the signal's value does under their keys, after any writes
to the signal and any edits of the fields.
-/
namespace LiveMarkup

theorem Dom.Forest.content_of_isElement {f : Dom.Forest} {n : NodeId} (h : f.isElement n = true) :
    ∃ a, (f.get n).content = .element a := by
  unfold isElement Node.element? at h
  cases content : (f.get n).content with
  | element a => exact ⟨a, rfl⟩
  | _ =>
    rw [content] at h
    cases h

namespace Live

open Dom (Node Element BindingKey Forest)

variable {w w' : World} {s t : SignalId} {n p : NodeId} {fuel : Nat} {fields : List Field}
  {todo : NodeId → List Task} {effect : Effect}

/-- What goes on in the meantime: anything that leaves alone the signal of the fields, what the fields
hold and who listens to them, all entries and follows, the hooks that wait for mounts, and which nodes
are mounted. -/
structure Meanwhile (s : SignalId) (fields : List Field) (w w' : World) : Prop where
  signal : w'.signals.get s = w.signals.get s
  signals : ∀ t, t.index < w.signals.size →
    t.index < w'.signals.size ∧ (w'.signals.get t).producer = (w.signals.get t).producer
  entries : ∀ e, e.index < w.entries.size →
    e.index < w'.entries.size ∧ w'.entries.get e = w.entries.get e
  follows : ∀ g, g.index < w.follows.size →
    g.index < w'.follows.size ∧ w'.follows.get g = w.follows.get g
  listeners : ∀ l, l.index < w.listeners.size →
    l.index < w'.listeners.size ∧ w'.listeners.get l = w.listeners.get l
  mountHooks : w'.mountHooks = w.mountHooks
  nodes : ∀ m, m.index < w.nodes.size →
    m.index < w'.nodes.size ∧ (w'.nodes.get m).connected = (w.nodes.get m).connected
  content : ∀ f ∈ fields, (w'.nodes.get f.1).content = (w.nodes.get f.1).content
  registrations : ∀ f ∈ fields, ∀ l,
    (f.1, "input", l) ∈ w'.registrations ↔ (f.1, "input", l) ∈ w.registrations

theorem hooksOf_unknown (h : Prepared s fields w) (unknown : w.nodes.size ≤ n.index) :
    hooksOf n w.mountHooks = [] := by
  refine List.eq_nil_iff_forall_not_mem.2 fun task mem => ?_
  obtain ⟨hook, -, mem⟩ := mem_hooksOf.1 mem
  exact absurd (h.hooked n hook mem) (Nat.not_lt.2 unknown)

theorem Prepared.meanwhile (h : Prepared s fields w) (aside : Meanwhile s fields w w') :
    Prepared s fields w' := by
  have waiting : w'.waiting = w.waiting := by
    funext m
    unfold World.waiting
    rw [aside.mountHooks]
    rcases Nat.lt_or_ge m.index w.nodes.size with known | unknown
    · rw [(aside.nodes m known).2]
    · rw [hooksOf_unknown h unknown, ite_self, ite_self]
  have due {f : Field} (due : Due w.waiting w f) : Due w.waiting w' f := by
    obtain ⟨g, mem, reaction⟩ := due
    obtain ⟨known, -⟩ := h.timid f.1 _ mem
    exact ⟨g, mem, (congrArg Follow.reaction (aside.follows g known).2).trans reaction⟩
  have bound : Tied s fields w.waiting w' := by
    refine ⟨(aside.signals s h.known).1, ?_, ?_, ?_, ?_, h.one,
      fun f hf => (Field.holds_congr (aside.content f hf)).2 (h.written f hf), h.once,
      fun m task mem => (h.timid m task mem).mono (List.Subset.refl _) aside.signals
        (fun g _ => aside.follows g) aside.listeners, fun f hf l hl => ?_, fun f hf => ?_,
      fun f hf => ?_⟩
    · rw [aside.signal]
      exact h.plain
    · rw [aside.signal]
      exact fun e he => (aside.entries e (h.entries e he)).1
    · rw [aside.signal]
      intro e he
      rw [(aside.entries e (h.entries e he)).2]
      exact h.seen e he
    · rw [aside.signal]
      intro e he
      rw [(aside.entries e (h.entries e he)).2]
      exact h.reactions e he
    · obtain ⟨known, handler⟩ := h.listeners f hf l ((aside.registrations f hf l).1 hl)
      obtain ⟨known', same⟩ := aside.listeners l known
      exact ⟨known', same.trans handler⟩
    · refine (h.heard f hf).imp ?_ due
      rintro ⟨e, he, active, reaction⟩
      refine ⟨e, ?_, ?_⟩
      · rw [aside.signal]
        exact he
      · rw [(aside.entries e (h.entries e he)).2]
        exact ⟨active, reaction⟩
    · refine (h.heeded f hf).imp_left ?_
      rintro ⟨l, hl⟩
      exact ⟨l, (aside.registrations f hf l).2 hl⟩
  refine ⟨?_, fun m hook mem => ?_⟩
  · rw [waiting]
    refine ⟨bound, fun v value plain f hf => ?_⟩
    have value : Signal.content w s = some v :=
      (congrArg Signal.value aside.signal).symm.trans value
    exact (h.even v value plain f hf).imp due (Field.holds_congr (aside.content f hf)).2
  · rw [aside.mountHooks] at mem
    exact (aside.nodes m (h.hooked m hook mem)).1

/-- How fields come to share a signal. A directive makes a field of an element that is not mounted; any
effect but that of a field may follow any signal that is not computed; nodes are mounted, the signal is
written, and fields are edited. -/
inductive Sharing (s : SignalId) : List Field → World → Prop
  | start {w : World} (known : s.index < w.signals.size)
      (plain : (w.signals.get s).producer = none) (alone : (w.signals.get s).subscribers = [])
      (settled : ∀ m hook, (m, hook) ∈ w.mountHooks → (w.nodes.get m).connected = true) :
      Sharing s [] w
  | bind {fields : List Field} {w w' : World} {n : NodeId} {key : BindingKey} {fuel : Nat}
      {asked : Except RenderFault Render.Asked} (h : Sharing s fields w)
      (element : w.nodes.isElement n = true) (off : (w.nodes.get n).connected = false)
      (new : ∀ key', (n, key') ∉ fields) (silent : Events.listenersOf w n "input" = [])
      (ran : runFrom fuel w (Render.directive n .bind key.name (.writable s)).run =
        .ok (asked, w')) :
      Sharing s ((n, key) :: fields) w'
  | show {fields : List Field} {w w' : World} {n : NodeId} {t : SignalId} {effect : Effect}
      {fuel : Nat} (h : Sharing s fields w) (known : n.index < w.nodes.size)
      (off : (w.nodes.get n).connected = false) (signal : t.index < w.signals.size)
      (plain : (w.signals.get t).producer = none) (other : ∀ key, effect ≠ .form key)
      (ran : runFrom fuel w (effect.bind n t) = .ok ((), w')) : Sharing s fields w'
  | mount {fields : List Field} {w w' : World} {n p : NodeId} {fuel : Nat}
      (h : Sharing s fields w) (on : (w.nodes.get p).connected = true)
      (ran : runFrom fuel w (Mount.append p n) = .ok ((), w')) : Sharing s fields w'
  | act {fields : List Field} {w w' : World} {act : Act} {fuel : Nat} (h : Sharing s fields w)
      (fits : act.Fits fields)
      (on : ∀ n edit, act = .edit n edit → (w.nodes.get n).connected = true)
      (ran : runFrom fuel w (act.run s) = .ok ((), w')) : Sharing s fields w'
  | meanwhile {fields : List Field} {w w' : World} (h : Sharing s fields w)
      (aside : Meanwhile s fields w w') : Sharing s fields w'

/-- In a world where only mounted nodes have hooks nothing waits for a mount. -/
theorem Prepared.start (known : s.index < w.signals.size)
    (plain : (w.signals.get s).producer = none) (alone : (w.signals.get s).subscribers = [])
    (settled : ∀ m hook, (m, hook) ∈ w.mountHooks → (w.nodes.get m).connected = true) :
    Prepared s [] w := by
  have nobody : ∀ e, e ∉ (w.signals.get s).subscribers := fun e => alone ▸ List.not_mem_nil
  have none : ∀ m, w.waiting m = [] := by
    intro m
    unfold World.waiting
    split
    · rfl
    case isFalse off =>
      refine List.eq_nil_iff_forall_not_mem.2 fun task mem => ?_
      obtain ⟨hook, -, mem⟩ := mem_hooksOf.1 mem
      exact off (settled m hook mem)
  refine ⟨⟨⟨known, plain, fun e he => absurd he (nobody e), fun e he => absurd he (nobody e),
    fun e he => absurd he (nobody e), fun _ _ _ mem => absurd mem List.not_mem_nil,
    List.forall_mem_nil _, fun m => ?_, fun m task mem => ?_, List.forall_mem_nil _,
    List.forall_mem_nil _, List.forall_mem_nil _⟩, fun _ _ _ => List.forall_mem_nil _⟩, ?_⟩
  · rw [none]
    exact List.nodup_nil
  · rw [none] at mem
    exact absurd mem List.not_mem_nil
  · intro m hook mem
    rcases Nat.lt_or_ge m.index w.nodes.size with known | unknown
    · exact known
    · have on := settled m hook mem
      rw [Heap.get_of_size_le _ _ unknown] at on
      cases on

/-- A directive binds an element that is not mounted. -/
theorem Prepared.bind (h : Prepared s fields w) (element : w.nodes.isElement n = true) (off : (w.nodes.get n).connected = false)
    {key : BindingKey} (new : ∀ key', (n, key') ∉ fields)
    (silent : Events.listenersOf w n "input" = []) :
    Prepared s ((n, key) :: fields)
      ((Effect.form key).bound n s (Events.awaited n "input" (.write s key) w)) := by
  obtain ⟨a, content⟩ := Forest.content_of_isElement element
  let listen : Hook := .listen n "input" w.listeners.next
  have gift : Gift s fields [(n, key)] n s (.form key) [listen] w
      (Events.awaited n "input" (.write s key) w) := by
    refine ⟨off, Field.known_of_element content, h.known, h.plain, ?_, ?_, ?_, ?_, ?_, ?_, ?_, ?_, ?_,
      rfl, rfl⟩
    · intro m key₁ key₂ h₁ h₂
      rcases List.mem_cons.1 h₁ with eq₁ | h₁
      · obtain ⟨rfl, rfl⟩ := Prod.mk.inj eq₁
        rcases List.mem_cons.1 h₂ with eq₂ | h₂
        · exact (Prod.mk.inj eq₂).2.symm
        · exact absurd h₂ (new key₂)
      · rcases List.mem_cons.1 h₂ with eq₂ | h₂
        · obtain ⟨here, -⟩ := Prod.mk.inj eq₂
          exact absurd (here ▸ h₁) (new key₁)
        · exact h.one m key₁ key₂ h₁ h₂
    · rintro key' ⟨⟩
      exact ⟨rfl, List.mem_cons_self⟩
    · intro f hf
      obtain rfl := List.mem_singleton.1 hf
      exact ⟨rfl, rfl, a, content⟩
    · intro f hf l hl
      obtain rfl := List.mem_singleton.1 hf
      rw [← mem_listenersOf, silent] at hl
      exact List.not_mem_nil hl
    · intro f hf
      obtain rfl := List.mem_singleton.1 hf
      exact ⟨w.listeners.next, List.mem_singleton_self _⟩
    · intro hook mem
      obtain rfl := List.mem_singleton.1 mem
      exact ⟨rfl, Nat.lt_of_lt_of_eq (Nat.lt_succ_self _) (Heap.size_push ..).symm, rfl, key,
        List.mem_cons_self, Heap.get_push_next ..⟩
    · refine List.nodup_append.2 ⟨h.once n, List.nodup_singleton _, ?_⟩
      rintro task mem _ last rfl
      obtain rfl := List.mem_singleton.1 last
      obtain ⟨-, known, -⟩ := h.timid n _ mem
      exact Nat.lt_irrefl _ known
    · intro g mem
      have eq : Hook.follow g = .listen n "input" w.listeners.next := List.mem_singleton.1 mem
      cases eq
    · exact fun l known => ⟨Nat.lt_of_lt_of_eq (Nat.lt_succ_of_lt known) (Heap.size_push ..).symm,
        Heap.get_push_of_lt _ _ _ known⟩
  exact h.given gift

/-- An effect that is not that of a field is to follow a signal. -/
theorem Prepared.show (h : Prepared s fields w) (known : n.index < w.nodes.size)
    (off : (w.nodes.get n).connected = false) (signal : t.index < w.signals.size)
    (plain : (w.signals.get t).producer = none) (other : ∀ key, effect ≠ .form key) :
    Prepared s fields (effect.bound n t w) := by
  have gift : Gift s fields [] n t effect [] w w := by
    refine ⟨off, known, signal, plain, h.one, fun key eq => absurd eq (other key),
      List.forall_mem_nil _, List.forall_mem_nil _, List.forall_mem_nil _, List.forall_mem_nil _, ?_,
      fun _ => List.not_mem_nil, fun _ known => ⟨known, rfl⟩, (List.append_nil _).symm, rfl⟩
    rw [List.map_nil, List.append_nil]
    exact h.once n
  exact h.given gift

/-- What is done by an act leaves hooks and mounted nodes as they are. -/
theorem Agreed.prepared (h : Prepared s fields w) (spread : Spread w w')
    (agreed : Agreed s fields w.waiting w') : Prepared s fields w' := by
  have mountHooks : w'.mountHooks = w.mountHooks := by rw [spread.rest]
  have waiting : w'.waiting = w.waiting := by
    funext m
    unfold World.waiting
    rw [spread.connected, mountHooks]
  refine ⟨waiting ▸ agreed.attuned, fun m hook mem => ?_⟩
  rw [mountHooks] at mem
  exact Nat.lt_of_lt_of_eq (h.hooked m hook mem) spread.size.symm

/-- Nothing waits for a node that is mounted. -/
theorem waiting_on (on : (w.nodes.get n).connected = true) : w.waiting n = [] :=
  if_pos on

/-- By induction on how the fields came to share the signal. -/
theorem Sharing.prepared (h : Sharing s fields w) : Prepared s fields w := by
  induction h with
  | start known plain alone settled => exact .start known plain alone settled
  | bind h element off new silent ran ih =>
    unfold runFrom at ran
    rw [directive_off off] at ran
    cases ran
    exact ih.bind element off new silent
  | «show» h known off signal plain other ran ih =>
    unfold runFrom at ran
    rw [bind_off off] at ran
    cases ran
    exact ih.show known off signal plain other
  | mount h on ran ih => exact (append_keeps ih on _ () _ ran).1
  | act h fits on ran ih =>
    obtain ⟨agreed, spread⟩ := (act_agrees ih.toAttuned _ fits
      (fun n edit eq => waiting_on (on n edit eq))).ensures () _ ran
    exact agreed.prepared ih spread
  | meanwhile h aside ih => exact ih.meanwhile aside

/-- Acts one after another keep fields in agreement. By induction on their list. -/
theorem acts_agree {acts : List Act} (h : Agreed s fields todo w)
    (fits : ∀ act ∈ acts, act.Fits fields)
    (idle : ∀ act ∈ acts, ∀ n edit, act = .edit n edit → todo n = []) :
    Sure (1 < fuel) (exec fuel) (acts.forM (Act.run s)) w fun _ w' => Agreed s fields todo w' := by
  induction acts generalizing w with
  | nil => exact .pure h
  | cons act acts ih =>
    obtain ⟨fits, restFits⟩ := List.forall_mem_cons.1 fits
    obtain ⟨idle, restIdle⟩ := List.forall_mem_cons.1 idle
    refine Sure.bind (act_agrees h.attuned act fits idle) ?_
    rintro _ w₁ ⟨agreed, -⟩
    exact ih agreed restFits restIdle

/-- After writes to the signal that they share, and edits of them with the events that tell of these, all
fields, if they are mounted, read as the value of the signal does under their keys. -/
theorem fields_agree (h : Sharing s fields w)
    (mounted : ∀ f ∈ fields, (w.nodes.get f.1).connected = true) {acts : List Act}
    (some : acts ≠ []) (fits : ∀ act ∈ acts, act.Fits fields) (enough : 1 < fuel) :
    ∃ w' v, runFrom fuel w (acts.forM (Act.run s)) = .ok ((), w') ∧
      Signal.content w' s = .some v ∧ v.node? = none ∧ ∀ f ∈ fields, ∃ a,
        (w'.nodes.get f.1).content = .element a ∧
          (f.2.read a).equal (f.2.coerce w'.nodes.textContent v) = true := by
  have prepared := h.prepared
  have idle : ∀ act ∈ acts, ∀ n edit, act = .edit n edit → w.waiting n = [] := by
    rintro act mem n edit rfl
    obtain ⟨key, field⟩ := fits _ mem
    exact waiting_on (mounted _ field)
  have all : Sure (1 < fuel) (exec fuel) (acts.forM (Act.run s)) w fun _ w' =>
      Agreed s fields w.waiting w' := by
    cases acts with
    | nil => exact absurd rfl some
    | cons act acts =>
      obtain ⟨fits, restFits⟩ := List.forall_mem_cons.1 fits
      obtain ⟨idle, restIdle⟩ := List.forall_mem_cons.1 idle
      refine Sure.bind (act_agrees prepared.toAttuned act fits idle) ?_
      rintro _ w₁ ⟨agreed, -⟩
      exact acts_agree agreed restFits restIdle
  obtain ⟨⟨⟩, w', ran⟩ := all.returns enough
  obtain ⟨v, value, plain, level⟩ := (all.ensures () w' ran).agree
  refine ⟨w', v, ran, value, plain, fun f hf => ?_⟩
  rcases level f hf with ⟨g, mem, -⟩ | ⟨a, content, -, agrees⟩
  · rw [waiting_on (mounted f hf)] at mem
    exact absurd mem List.not_mem_nil
  · exact ⟨a, content, agrees _⟩

/-- A number field and a check box. The write is a text that is a number, as the field shows it, and then
the box is unchecked. -/
theorem fields_agree_mixed :
    let made : World := { World.empty with
      signals := Heap.empty.push (.fresh (some (.string "7")) none)
      nodes := ((Heap.empty.push ⟨.element (.ofTag "body"), none, [], true⟩).push
        (.alone (.element (.ofTag "input")))).push (.alone (.element (.ofTag "input"))) }
    let number := (Effect.form .number).bound ⟨1⟩ ⟨0⟩
      (Events.awaited ⟨1⟩ "input" (.write ⟨0⟩ .number) made)
    let box := (Effect.form .boolean).bound ⟨2⟩ ⟨0⟩
      (Events.awaited ⟨2⟩ "input" (.write ⟨0⟩ .boolean) number)
    let first := afterwards box (Mount.append ⟨0⟩ ⟨1⟩)
    let mounted := afterwards first (Mount.append ⟨0⟩ ⟨2⟩)
    ∃ w' v, runFrom 10 mounted ([Act.write (.string " 12 "), .edit ⟨2⟩ (.checked false)].forM
        (Act.run ⟨0⟩)) = .ok ((), w') ∧
      Signal.content w' ⟨0⟩ = some v ∧ v.node? = none ∧
        ∀ f ∈ [(⟨2⟩, BindingKey.boolean), (⟨1⟩, BindingKey.number)], ∃ a,
          (w'.nodes.get f.1).content = .element a ∧
            (f.2.read a).equal (f.2.coerce w'.nodes.textContent v) = true := by
  intro made number box first mounted
  have start : Sharing ⟨0⟩ [] made :=
    .start (by decide +kernel) rfl rfl fun m hook mem => absurd mem List.not_mem_nil
  have bound : Sharing ⟨0⟩ [(⟨1⟩, .number)] number :=
    .bind start (by decide +kernel) (by decide +kernel) (fun _ => List.not_mem_nil)
      (by decide +kernel)
      (directive_off (w := made) (by decide +kernel) .number ⟨0⟩ (exec 10))
  have both : Sharing ⟨0⟩ [(⟨2⟩, .boolean), (⟨1⟩, .number)] box :=
    .bind bound (by decide +kernel) (by decide +kernel) (fun key => by cases key <;> decide)
      (by decide +kernel)
      (directive_off (w := number) (by decide +kernel) .boolean ⟨0⟩ (exec 10))
  have one := both.mount (by decide +kernel)
    (runFrom_afterwards box (Mount.append ⟨0⟩ ⟨1⟩) (by decide +kernel))
  have two := one.mount (by decide +kernel)
    (runFrom_afterwards first (Mount.append ⟨0⟩ ⟨2⟩) (by decide +kernel))
  refine fields_agree two (by decide +kernel) (List.cons_ne_nil _ _) (fun act mem => ?_) (by decide)
  rcases List.mem_cons.1 mem with rfl | mem
  · exact rfl
  · obtain rfl := List.mem_singleton.1 mem
    exact ⟨.boolean, by decide⟩

end Live
end LiveMarkup
