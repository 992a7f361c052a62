import LiveMarkup.Proofs.Coercion
import LiveMarkup.Proofs.Delivery
import LiveMarkup.Proofs.Mounting
import LiveMarkup.Proofs.Moves

/-!
Fields: elements whose form state is bound to one signal, both ways. Whatever the subscribers of the
signal write, a round of calls leaves every field that follows the signal with the signal's value, as
its key has it, and so does an edit of a field once the field was asked for its value.
-/
namespace LiveMarkup.Live

open Dom (Node Element BindingKey)

variable {w w₁ w₂ w' : World} {s t : SignalId} {n m : NodeId} {e : EntryId} {v u : Value}
  {fuel round : Nat}

/-! What effects do to form state. -/

/-- What an effect makes of its node. -/
def Effect.stamp (w : World) (v : Value) : Effect → Node → Node
  | .attr name => Node.mapElement fun e =>
      { e with attributes :=
          if v.isNull then e.attributes.remove name else e.attributes.set name (w.text v) }
  | .wholeAttr name => Node.mapElement fun e =>
      { e with attributes := e.attributes.set name (w.text v) }
  | .classes name => Node.mapElement fun e =>
      { e with attributes := e.attributes.toggleClass name v.isTruthy }
  | .style property => Node.mapElement fun e =>
      { e with attributes := e.attributes.setStyle property (w.text v) }
  | .form key => Node.mapElement (key.write w.nodes.textContent · v)
  | .text => Node.withData (w.textOrEmpty v)

theorem Effect.apply_stamp (effect : Effect) (n : NodeId) (v : Value) (run : Runner) :
    effect.apply n v run w =
      .ok ((), { w with nodes := w.nodes.modify n (effect.stamp w v) }) := by
  cases effect <;> rfl

theorem Effect.stamp_connected (effect : Effect) (w : World) (v : Value) (node : Node) :
    (effect.stamp w v node).connected = node.connected := by
  obtain ⟨content, parent, children, connected⟩ := node
  cases effect <;> cases content <;> rfl

/-- An effect leaves an element an element. The form effects write form state through their keys, and
the others leave it alone. -/
theorem Effect.stamp_element {node : Node} {a : Element} (content : node.content = .element a)
    (effect : Effect) (w : World) (v : Value) :
    ∃ a', (effect.stamp w v node).content = .element a' ∧
      ((∃ key, effect = .form key ∧ a' = key.write w.nodes.textContent a v) ∨
        (∀ key, effect ≠ .form key) ∧ a'.value = a.value ∧ a'.checked = a.checked) := by
  obtain ⟨_, parent, children, connected⟩ := node
  obtain rfl := content
  cases effect with
  | form key => exact ⟨_, rfl, .inl ⟨key, rfl, rfl⟩⟩
  | text => exact ⟨a, rfl, .inr ⟨fun _ => Effect.noConfusion, rfl, rfl⟩⟩
  | _ => exact ⟨_, rfl, .inr ⟨fun _ => Effect.noConfusion, rfl, rfl⟩⟩

/-- An element, and the key under which its form state is bound. -/
abbrev Field := NodeId × BindingKey

namespace Field
variable {f : Field}

/-- The form state of a field, which was written, satisfies a condition. -/
def Holds (w : World) (f : Field) (P : Element → Prop) : Prop :=
  ∃ a, (w.nodes.get f.1).content = .element a ∧ f.2.Written a ∧ P a

/-- The form state of a field was written. -/
def Written (w : World) (f : Field) : Prop :=
  f.Holds w fun _ => True

/-- A field reads as a value does, wherever the value is no node. -/
def Shows (v : Value) (w : World) (f : Field) : Prop :=
  f.Holds w fun a => ∀ content, (f.2.read a).equal (f.2.coerce content v) = true

theorem Shows.written (h : f.Shows v w) : f.Written w := by
  obtain ⟨a, content, written, -⟩ := h
  exact ⟨a, content, written, trivial⟩

/-- The effect that shows a signal in a field. -/
def effect (f : Field) : Effect := .form f.2

/-- The reaction that shows a signal in a field. -/
def reaction (f : Field) : Reaction := .effect f.1 f.effect

/-- An effect on a node is that of no field, or of the field of the node. -/
def Suits (f : Field) (m : NodeId) (effect : Effect) : Prop :=
  ∀ key, effect = .form key → m = f.1 → key = f.2

theorem Holds.mono {P Q : Element → Prop} (h : f.Holds w P) (imp : ∀ a, P a → Q a) : f.Holds w Q := by
  obtain ⟨a, content, written, holds⟩ := h
  exact ⟨a, content, written, imp a holds⟩

theorem known_of_element {a : Element} (content : (w.nodes.get n).content = .element a) :
    n.index < w.nodes.size := by
  rcases Nat.lt_or_ge n.index w.nodes.size with known | unknown
  · exact known
  · rw [Heap.get_of_size_le _ _ unknown] at content
    cases content

/-- The effect of a field writes a value through its key. -/
theorem set {a : Element} (content : (w.nodes.get f.1).content = .element a) (v : Value) :
    f.Holds { w with nodes := w.nodes.modify f.1 (f.effect.stamp w v) } fun a' =>
      a' = f.2.write w.nodes.textContent a v := by
  have cell : (w.nodes.modify f.1 (f.effect.stamp w v)).get f.1 =
      f.effect.stamp w v (w.nodes.get f.1) := Heap.get_modify_self _ _ _ (known_of_element content)
  refine ⟨_, ?_, f.2.written_write w.nodes.textContent a v, rfl⟩
  dsimp only
  rw [cell]
  unfold effect Effect.stamp Node.mapElement
  dsimp only
  rw [content]

/-- What an effect does to a field. -/
theorem stamped {effect : Effect} (suits : f.Suits m effect) {P : Element → Prop} (h : f.Holds w P)
    (v : Value) : f.Holds { w with nodes := w.nodes.modify m (effect.stamp w v) } fun a' =>
      if m = f.1 ∧ effect = f.effect then ∃ a, a' = f.2.write w.nodes.textContent a v
      else ∃ a, P a ∧ f.2.read a' = f.2.read a := by
  obtain ⟨a, content, written, holds⟩ := h
  by_cases its : m = f.1 ∧ effect = f.effect
  · obtain ⟨rfl, rfl⟩ := its
    refine (set content v).mono fun a' eq => ?_
    rw [if_pos ⟨rfl, rfl⟩]
    exact ⟨a, eq⟩
  simp only [if_neg its]
  by_cases here : m = f.1
  · subst here
    have cell : (w.nodes.modify f.1 (effect.stamp w v)).get f.1 =
        effect.stamp w v (w.nodes.get f.1) := Heap.get_modify_self _ _ _ (known_of_element content)
    obtain ⟨a', content', ⟨key, rfl, -⟩ | ⟨-, value, checked⟩⟩ := effect.stamp_element content w v
    · exact absurd ⟨rfl, congrArg Effect.form (suits key rfl rfl)⟩ its
    · obtain ⟨written', read⟩ := BindingKey.read_congr written value checked
      exact ⟨a', (congrArg Node.content cell).trans content', written', a, holds, read⟩
  · refine ⟨a, ?_, written, a, holds, rfl⟩
    exact (congrArg Node.content (Heap.get_modify_of_ne _ _ _ _ here)).trans content

/-- An effect leaves a field written. -/
theorem Written.stamped {effect : Effect} (h : f.Written w) (suits : f.Suits m effect) (v : Value) :
    f.Written { w with nodes := w.nodes.modify m (effect.stamp w v) } :=
  (Field.stamped suits h v).mono fun _ _ => trivial

/-- The effect of a field shows a value in it. -/
theorem Written.shown (h : f.Written w) (plain : v.node? = none) (same : u = v) :
    f.Shows v { w with nodes := w.nodes.modify f.1 (f.effect.stamp w u) } := by
  subst u
  obtain ⟨a, content, -⟩ := h
  refine (set content v).mono fun a' eq content' => ?_
  rw [eq, f.2.coerce_congr plain content' w.nodes.textContent]
  exact f.2.read_write w.nodes.textContent a v

/-- Where a field shows a value, it does so after any effect that shows the same value. -/
theorem Shows.stamped {effect : Effect} (h : f.Shows v w) (suits : f.Suits m effect)
    (plain : v.node? = none) (same : effect = f.effect → u = v) :
    f.Shows v { w with nodes := w.nodes.modify m (effect.stamp w u) } := by
  by_cases here : m = f.1 ∧ effect = f.effect
  · obtain ⟨rfl, rfl⟩ := here
    exact h.written.shown plain (same rfl)
  · refine (Field.stamped suits h u).mono fun a' made content => ?_
    rw [if_neg here] at made
    obtain ⟨a, holds, read⟩ := made
    rw [read]
    exact holds content

theorem holds_congr {P : Element → Prop} (same : (w'.nodes.get f.1).content = (w.nodes.get f.1).content) :
    f.Holds w' P ↔ f.Holds w P := by
  unfold Holds
  rw [same]

end Field

/-! The network of a signal with fields. -/

variable {fields : List Field} {todo todo' : NodeId → List Task}

/-- A hook of a node that has an effect follow a signal, or the signal of the fields listen to a
field. The follow has no subscription yet, and a form effect is that of a field. -/
def Timid (s : SignalId) (fields : List Field) (w : World) (n : NodeId) : Task → Prop
  | .hook (.follow g) => g.index < w.follows.size ∧ ∃ t effect,
      w.follows.get g = ⟨t, .effect n effect, .immediate, none⟩ ∧
        t.index < w.signals.size ∧ (w.signals.get t).producer = none ∧
          ∀ key, effect = .form key → t = s ∧ (n, key) ∈ fields
  | .hook (.listen m event l) => m = n ∧ l.index < w.listeners.size ∧ event = "input" ∧
      ∃ key, (n, key) ∈ fields ∧ w.listeners.get l = .write s key
  | _ => False

/-- What such a hook looks at stays as it is. -/
theorem Timid.mono {fields' : List Field} {task : Task} (h : Timid s fields w n task)
    (more : fields ⊆ fields')
    (signals : ∀ t, t.index < w.signals.size →
      t.index < w'.signals.size ∧ (w'.signals.get t).producer = (w.signals.get t).producer)
    (follows : ∀ g, task = .hook (.follow g) → g.index < w.follows.size →
      g.index < w'.follows.size ∧ w'.follows.get g = w.follows.get g)
    (listeners : ∀ l, l.index < w.listeners.size →
      l.index < w'.listeners.size ∧ w'.listeners.get l = w.listeners.get l) :
    Timid s fields' w' n task := by
  cases task with
  | hook hook =>
    cases hook with
    | follow g =>
      obtain ⟨known, t, effect, cell, signal, plain, form⟩ := h
      obtain ⟨known', same⟩ := follows g rfl known
      obtain ⟨signal', producer⟩ := signals t signal
      exact ⟨known', t, effect, same.trans cell, signal', producer.trans plain,
        fun key eq => ⟨(form key eq).1, more (form key eq).2⟩⟩
    | listen m event l =>
      obtain ⟨here, known, input, key, field, handler⟩ := h
      obtain ⟨known', same⟩ := listeners l known
      exact ⟨here, known', input, key, more field, same.trans handler⟩
    | _ => exact h.elim
  | _ => exact h.elim

/-- A subscriber shows the signal in a field. -/
def Heard (s : SignalId) (w : World) (f : Field) : Prop :=
  ∃ e ∈ (w.signals.get s).subscribers,
    (w.entries.get e).active = true ∧ (w.entries.get e).reaction = f.reaction

/-- A hook that is left to run will have a field follow its signal. -/
def Due (todo : NodeId → List Task) (w : World) (f : Field) : Prop :=
  ∃ g, Task.hook (.follow g) ∈ todo f.1 ∧ (w.follows.get g).reaction = f.reaction

/-- Fields and their signal, where the hooks of `todo` are left to run: all that subscribes to the
signal are effects, those on fields being theirs, and fields listen, or will, and are listened to, or
will be. -/
structure Tied (s : SignalId) (fields : List Field) (todo : NodeId → List Task) (w : World) :
    Prop where
  known : s.index < w.signals.size
  plain : (w.signals.get s).producer = none
  entries : ∀ e ∈ (w.signals.get s).subscribers, e.index < w.entries.size
  seen : ∀ e ∈ (w.signals.get s).subscribers,
    (w.entries.get e).seen ≤ (w.signals.get s).version
  reactions : ∀ e ∈ (w.signals.get s).subscribers, ∃ m effect,
    (w.entries.get e).reaction = .effect m effect ∧ ∀ key, effect = .form key → (m, key) ∈ fields
  one : ∀ n key key', (n, key) ∈ fields → (n, key') ∈ fields → key = key'
  written : ∀ f ∈ fields, f.Written w
  once : ∀ m, (todo m).Nodup
  timid : ∀ m, ∀ t ∈ todo m, Timid s fields w m t
  listeners : ∀ f ∈ fields, ∀ l, (f.1, "input", l) ∈ w.registrations →
    l.index < w.listeners.size ∧ w.listeners.get l = .write s f.2
  heard : ∀ f ∈ fields, Heard s w f ∨ Due todo w f
  heeded : ∀ f ∈ fields, (∃ l, (f.1, "input", l) ∈ w.registrations) ∨
    ∃ l, Task.hook (.listen f.1 "input" l) ∈ todo f.1

/-- Every field shows a value, unless it is still to follow its signal. -/
def Level (fields : List Field) (todo : NodeId → List Task) (v : Value) (w : World) : Prop :=
  ∀ f ∈ fields, Due todo w f ∨ f.Shows v w

namespace Tied

theorem suits (h : Tied s fields todo w) {f : Field} (mem : f ∈ fields) {effect : Effect}
    (form : ∀ key, effect = .form key → (m, key) ∈ fields) : f.Suits m effect := by
  rintro key rfl rfl
  exact h.one f.1 key f.2 (form key rfl) mem

/-- Nodes may change where form state stays written, and subscriptions may be made. -/
theorem of_nodes (h : Tied s fields todo w) {nodes : Dom.Forest}
    {subscriptions : Heap .subscription (Option Cancel)}
    (written : ∀ f ∈ fields, f.Written { w with nodes }) :
    Tied s fields todo { w with nodes, subscriptions } where
  known := h.known
  plain := h.plain
  entries := h.entries
  seen := h.seen
  reactions := h.reactions
  one := h.one
  written := written
  once := h.once
  timid m t ht := (h.timid m t ht).mono (List.Subset.refl _) (fun _ known => ⟨known, rfl⟩)
    (fun _ _ known => ⟨known, rfl⟩) fun _ known => ⟨known, rfl⟩
  listeners := h.listeners
  heard := h.heard
  heeded := h.heeded

/-- So may signals and entries where nobody comes or goes. -/
theorem of_signals (h : Tied s fields todo w) {signals : Heap .signal Signal}
    {entries : Heap .entry Entry} (size : signals.size = w.signals.size)
    (producer : ∀ t, (signals.get t).producer = (w.signals.get t).producer)
    (subscribers : (signals.get s).subscribers = (w.signals.get s).subscribers)
    (count : entries.size = w.entries.size)
    (active : ∀ e, (entries.get e).active = (w.entries.get e).active)
    (reaction : ∀ e, (entries.get e).reaction = (w.entries.get e).reaction)
    (seen : ∀ e ∈ (w.signals.get s).subscribers, (entries.get e).seen ≤ (signals.get s).version) :
    Tied s fields todo { w with signals, entries } where
  known := Nat.lt_of_lt_of_eq h.known size.symm
  plain := (producer s).trans h.plain
  entries e he := Nat.lt_of_lt_of_eq (h.entries e (subscribers ▸ he)) count.symm
  seen e he := seen e (subscribers ▸ he)
  reactions e he := by
    obtain ⟨m, effect, eq, form⟩ := h.reactions e (subscribers ▸ he)
    exact ⟨m, effect, (reaction e).trans eq, form⟩
  one := h.one
  written := h.written
  once := h.once
  timid m t ht := (h.timid m t ht).mono (List.Subset.refl _)
    (fun t known => ⟨Nat.lt_of_lt_of_eq known size.symm, producer t⟩)
    (fun _ _ known => ⟨known, rfl⟩) fun _ known => ⟨known, rfl⟩
  listeners := h.listeners
  heard f hf := by
    rcases h.heard f hf with ⟨e, he, on, eq⟩ | due
    · exact .inl ⟨e, subscribers.symm ▸ he, (active e).trans on, (reaction e).trans eq⟩
    · exact .inr due
  heeded := h.heeded

/-- The signal has another content, which nobody was told yet. -/
theorem changed (h : Tied s fields todo w) (value : Option Value) :
    Tied s fields todo (Signal.changed s value w) := by
  refine h.of_signals (Heap.size_modify ..) (fun t => ?_) ?_ rfl (fun _ => rfl) (fun _ => rfl) ?_
  · exact Heap.get_modify_same _ s t _ Signal.producer fun _ => rfl
  · exact Heap.get_modify_same _ s s _ Signal.subscribers fun _ => rfl
  · intro e he
    rw [Heap.get_modify_self _ _ _ h.known]
    exact Nat.le_succ_of_le (h.seen e he)

/-- A subscriber is about to be told. -/
theorem marked (h : Tied s fields todo w) (round : Nat) (e : EntryId) :
    Tied s fields todo (Signal.marked s round e w) := by
  have version : ((w.signals.modify s (Signal.showing e (some round))).get s).version =
      (w.signals.get s).version := Heap.get_modify_same _ s s _ Signal.version fun _ => rfl
  refine h.of_signals (Heap.size_modify ..) (fun t => ?_) ?_ (Heap.size_modify ..)
    (fun e' => ?_) (fun e' => ?_) fun e' he' => ?_
  · exact Heap.get_modify_same _ s t _ Signal.producer fun _ => rfl
  · exact Heap.get_modify_same _ s s _ Signal.subscribers fun _ => rfl
  · exact Heap.get_modify_same _ e e' _ Entry.active fun _ => rfl
  · exact Heap.get_modify_same _ e e' _ Entry.reaction fun _ => rfl
  · rw [version]
    by_cases same : e = e'
    · subst same
      rw [Heap.get_modify_self _ _ _ (h.entries e he')]
    · rw [Heap.get_modify_of_ne _ _ _ _ same]
      exact h.seen e' he'

/-- An effect on a node. -/
theorem stamp (h : Tied s fields todo w) {effect : Effect}
    (form : ∀ key, effect = .form key → (m, key) ∈ fields) (v : Value) :
    Tied s fields todo { w with nodes := w.nodes.modify m (effect.stamp w v) } :=
  h.of_nodes fun f hf => (h.written f hf).stamped (h.suits hf form) v

end Tied

/-! Rounds of calls. -/

/-- Nothing has changed but what signals and entries hold and what nodes are. -/
structure Spread (w w' : World) : Prop where
  connected : ∀ m, (w'.nodes.get m).connected = (w.nodes.get m).connected
  size : w'.nodes.size = w.nodes.size
  rest : w' = { w with signals := w'.signals, entries := w'.entries, nodes := w'.nodes }

namespace Spread

theorem refl (w : World) : Spread w w :=
  ⟨fun _ => rfl, rfl, rfl⟩

theorem trans (h : Spread w w₁) (h' : Spread w₁ w₂) : Spread w w₂ :=
  ⟨fun m => (h'.connected m).trans (h.connected m), h'.size.trans h.size,
    h'.rest.trans (by rw [h.rest])⟩

theorem due (h : Spread w w') {f : Field} : Due todo w' f ↔ Due todo w f := by
  rw [h.rest]
  exact Iff.rfl

end Spread

/-- Besides, the content of a signal and who subscribes to it are the same. -/
structure Retold (s : SignalId) (w w' : World) : Prop extends Spread w w' where
  value : Signal.content w' s = Signal.content w s
  version : (w'.signals.get s).version = (w.signals.get s).version
  subscribers : (w'.signals.get s).subscribers = (w.signals.get s).subscribers

namespace Retold

theorem refl (s : SignalId) (w : World) : Retold s w w :=
  ⟨.refl w, rfl, rfl, rfl⟩

theorem trans (h : Retold s w w₁) (h' : Retold s w₁ w₂) : Retold s w w₂ :=
  ⟨h.toSpread.trans h'.toSpread, h'.value.trans h.value, h'.version.trans h.version,
    h'.subscribers.trans h.subscribers⟩

end Retold

/-- A subscriber of whom a field is to hear in a round. -/
def Unheard (s : SignalId) (l : List EntryId) (w : World) (f : Field) : Prop :=
  ∃ e ∈ l, (w.entries.get e).active = true ∧
    (w.entries.get e).seen < (w.signals.get s).version ∧ (w.entries.get e).reaction = f.reaction

/-- A call of a subscriber keeps what fields show, and leaves no field behind that was to hear of
it. -/
theorem tell_keeps (h : Tied s fields todo w) (value : Signal.content w s = some v)
    (plain : v.node? = none) (he : e ∈ (w.signals.get s).subscribers) (round : Nat)
    (l : List EntryId) :
    Sure (0 < fuel) (exec fuel) (Signal.tell s round e) w fun _ w' =>
      Tied s fields todo w' ∧ Retold s w w' ∧ ∀ f ∈ fields,
        (f.Shows v w → f.Shows v w') ∧
          (Unheard s (e :: l) w f → f.Shows v w' ∨ Unheard s l w' f) := by
  obtain ⟨m, effect, reaction, form⟩ := h.reactions e he
  by_cases due : (w.entries.get e).active && (w.entries.get e).seen < (w.signals.get s).version
  case neg =>
    refine .of_eq ((tell_eq round e).trans (if_neg due)) ⟨h, .refl s w, fun f _ => ⟨id, ?_⟩⟩
    rintro ⟨e', he', active, unseen, eq⟩
    rcases List.mem_cons.1 he' with rfl | he'
    · simp [active, unseen] at due
    · exact .inr ⟨e', he', active, unseen, eq⟩
  have told : Signal.tell s round e (exec fuel) w =
      exec fuel (.react (.effect m effect) (some v)) (Signal.marked s round e w) := by
    rw [tell_eq, if_pos due, reaction, ← value]
    rfl
  cases fuel with
  | zero =>
    refine ⟨fun _ _ ran => ?_, fun enough => absurd enough (Nat.lt_irrefl 0)⟩
    rw [told] at ran
    cases ran
  | succ fuel =>
    have marked := h.marked round e
    refine .of_eq (told.trans (effect.apply_stamp m v _)) ⟨marked.stamp form v, ?_, ?_⟩
    · exact ⟨⟨fun m' => Heap.get_modify_same _ m m' _ Node.connected (effect.stamp_connected _ v),
          Heap.size_modify .., rfl⟩,
        Heap.get_modify_same _ s s _ Signal.value fun _ => rfl,
        Heap.get_modify_same _ s s _ Signal.version fun _ => rfl,
        Heap.get_modify_same _ s s _ Signal.subscribers fun _ => rfl⟩
    · intro f hf
      have suits := h.suits hf form
      refine ⟨fun shows => shows.stamped (w := Signal.marked s round e w) suits plain fun _ => rfl, ?_⟩
      rintro ⟨e', he', active, unseen, eq⟩
      by_cases same : e' = e
      · subst same
        obtain ⟨rfl, rfl⟩ := Reaction.effect.inj (reaction.symm.trans eq)
        exact .inl ((marked.written f hf).shown plain rfl)
      · refine .inr ⟨e', (List.mem_cons.1 he').resolve_left same, ?_⟩
        have entry : (Signal.marked s round e w).entries.get e' = w.entries.get e' :=
          Heap.get_modify_of_ne _ _ _ _ (Ne.symm same)
        have version : ((Signal.marked s round e w).signals.get s).version =
            (w.signals.get s).version := Heap.get_modify_same _ s s _ Signal.version fun _ => rfl
        dsimp only
        rw [entry, version]
        exact ⟨active, unseen, eq⟩

/-- A round of calls leaves no field behind. By induction on those that are to be called. -/
theorem tellEach_levels {l : List EntryId} (h : Tied s fields todo w)
    (value : Signal.content w s = some v) (plain : v.node? = none)
    (all : l ⊆ (w.signals.get s).subscribers) (round : Nat)
    (level : ∀ f ∈ fields, Due todo w f ∨ f.Shows v w ∨ Unheard s l w f) :
    Sure (0 < fuel) (exec fuel) (l.forM (Signal.tell s round)) w fun _ w' =>
      Tied s fields todo w' ∧ Retold s w w' ∧ Level fields todo v w' := by
  induction l generalizing w with
  | nil =>
    refine .pure ⟨h, .refl s w, fun f hf => (level f hf).imp_right fun shows => ?_⟩
    refine shows.resolve_right ?_
    rintro ⟨e, he, -⟩
    exact List.not_mem_nil he
  | cons e l ih =>
    obtain ⟨here, rest⟩ := List.cons_subset.1 all
    refine Sure.bind (tell_keeps h value plain here round l) ?_
    rintro _ w₁ ⟨h₁, retold, keeps⟩
    refine (ih h₁ (retold.value.trans value) (retold.subscribers ▸ rest) fun f hf => ?_).mono ?_
    · obtain ⟨shown, heard⟩ := keeps f hf
      rcases level f hf with due | shows | unheard
      · exact .inl (retold.due.2 due)
      · exact .inr (.inl (shown shows))
      · exact .inr (heard unheard)
    · rintro _ w₂ ⟨h₂, retold', level'⟩
      exact ⟨h₂, retold.trans retold', level'⟩

/-- Fields show the content of their signal, if that is no node. -/
structure Attuned (s : SignalId) (fields : List Field) (todo : NodeId → List Task) (w : World) :
    Prop extends Tied s fields todo w where
  even : ∀ v, Signal.content w s = some v → v.node? = none → Level fields todo v w

/-- The signal of the fields has a content, which is no node, and the fields show it. -/
structure Agreed (s : SignalId) (fields : List Field) (todo : NodeId → List Task) (w : World) :
    Prop extends Tied s fields todo w where
  agree : ∃ v, Signal.content w s = some v ∧ v.node? = none ∧ Level fields todo v w

theorem Agreed.attuned (h : Agreed s fields todo w) : Attuned s fields todo w where
  toTied := h.toTied
  even u value _ := by
    obtain ⟨v, content, -, level⟩ := h.agree
    obtain rfl := Option.some.inj (content.symm.trans value)
    exact level

/-- A new content is shown by all fields. -/
theorem replace_agrees (h : Tied s fields todo w) (plain : v.node? = none) :
    Sure (0 < fuel) (exec fuel) (Signal.replace s (some v)) w fun _ w' =>
      Agreed s fields todo w' ∧ Spread w w' := by
  let w₁ := Signal.changed s (some v) w
  have cell : w₁.signals.get s = Signal.bumped { w.signals.get s with value := some v } :=
    Heap.get_modify_self _ _ _ h.known
  have value : Signal.content w₁ s = some v := congrArg Signal.value cell
  have round : Sure (0 < fuel) (exec fuel) (Signal.tellAll s w₁) w₁ fun _ w' =>
      Tied s fields todo w' ∧ Retold s w₁ w' ∧ Level fields todo v w' := by
    refine tellEach_levels (h.changed (some v)) value plain (List.Subset.refl _) _ fun f hf => ?_
    rcases h.heard f hf with ⟨e, he, active, reaction⟩ | due
    · refine .inr (.inr ⟨e, ?_, active, ?_, reaction⟩)
      · rw [cell]
        exact he
      · rw [cell]
        exact Nat.lt_succ_of_le (h.seen e he)
    · exact .inl due
  refine (round.congr (replace_eq s (some v))).mono ?_
  rintro _ w' ⟨h', retold, level⟩
  refine ⟨⟨h', v, retold.value.trans value, plain, level⟩, ?_⟩
  have changed : Spread w w₁ := ⟨fun _ => rfl, rfl, rfl⟩
  exact changed.trans retold.toSpread

/-- So is a content that is written, provided that the fields show the content of before if that makes
the write go unnoticed. -/
theorem put_agrees (h : Tied s fields todo w) (plain : v.node? = none)
    (same : ∀ u, Signal.content w s = some u → u.isSame v = true → Level fields todo u w) :
    Sure (0 < fuel) (exec fuel) (Signal.put s v) w fun _ w' =>
      Agreed s fields todo w' ∧ Spread w w' := by
  have read : Signal.put s v (exec fuel) w = (if sameContent (Signal.content w s) (some v) then pure ()
      else Signal.replace s (some v) : Op Unit) (exec fuel) w := rfl
  cases unnoticed : sameContent (Signal.content w s) (some v) with
  | false =>
    refine (replace_agrees h plain).congr (read.trans ?_)
    rw [unnoticed]
    rfl
  | true =>
    rw [unnoticed] at read
    refine .of_eq read ⟨⟨h, ?_⟩, .refl w⟩
    cases content : Signal.content w s with
    | none =>
      rw [content] at unnoticed
      cases unnoticed
    | some u =>
      rw [content] at unnoticed
      exact ⟨u, rfl, Value.node?_of_isSame unnoticed, same u content unnoticed⟩

/-! Acts. -/

/-- An edit of a form field. -/
inductive Edit where
  | value (text : String)
  | number (n : Number)
  | date (d : Option Date)
  | checked (on : Bool)

/-- What an edit makes of an element. -/
def Edit.apply : Edit → Element → Element
  | .value text, a => a.setFormValue text
  | .number n, a => a.setFormNumber n
  | .date d, a => a.setFormDate d
  | .checked on, a => a.setChecked on

theorem Edit.written_apply {key : BindingKey} {a : Element} (h : key.Written a) (edit : Edit) :
    key.Written (edit.apply a) := by
  cases key <;> cases edit <;> first | exact h | exact rfl

/-- A write to the signal of the fields, or an edit of a field followed by the event that tells of
it. -/
inductive Act where
  | write (v : Value)
  | edit (n : NodeId) (change : Edit)

/-- What an act does. -/
def Act.run (s : SignalId) : Act → Op Unit
  | .write v => Signal.put s v
  | .edit n change => do
    Mount.changeElement n change.apply
    Events.dispatch n "input"

/-- What is written is no node, and what is edited is a field. -/
def Act.Fits (fields : List Field) : Act → Prop
  | .write v => v.node? = none
  | .edit n _ => ∃ key, (n, key) ∈ fields

theorem mem_listenersOf {event : String} {l : ListenerId} :
    l ∈ Events.listenersOf w n event ↔ (n, event, l) ∈ w.registrations := by
  unfold Events.listenersOf
  rw [List.mem_filterMap]
  constructor
  · rintro ⟨⟨m, event', l'⟩, mem, eq⟩
    dsimp only at eq
    split at eq
    case isTrue here =>
      cases eq
      obtain ⟨rfl, rfl⟩ := here
      exact mem
    case isFalse => cases eq
  · exact fun mem => ⟨(n, event, l), mem, if_pos ⟨rfl, rfl⟩⟩

/-- Where the content of the signal is the same as what a field reads, the fields show it. -/
def Primed (s : SignalId) (f : Field) (fields : List Field) (todo : NodeId → List Task) (w : World) :
    Prop :=
  ∀ a u, (w.nodes.get f.1).content = .element a → Signal.content w s = some u →
    u.isSame (f.2.read a) = true → Level fields todo u w

/-- A task does what the operation behind it does with less fuel. -/
theorem Sure.task {enough : Prop} {task : Task} {x : Op Unit} {Q : Unit → World → Prop}
    (h : Sure enough (exec fuel) x w Q) (eq : exec (fuel + 1) task w = x (exec fuel) w) :
    Sure enough (exec (fuel + 1)) (invoke task) w Q := by
  refine ⟨fun a w' ran => h.ensures a w' (eq.symm.trans ran), fun fueled => ?_⟩
  obtain ⟨a, w', ran⟩ := h.returns fueled
  exact ⟨a, w', eq.trans ran⟩

/-- The listener of a field writes what the field reads to the signal. -/
theorem handle_agrees (h : Tied s fields todo w) {f : Field} (hf : f ∈ fields)
    (primed : Primed s f fields todo w) :
    Sure (1 < fuel) (exec fuel) (invoke (.handle (.write s f.2) "input" f.1)) w fun _ w' =>
      Agreed s fields todo w' ∧ Spread w w' := by
  obtain ⟨a, content, -⟩ := h.written f hf
  cases fuel with
  | zero =>
    refine ⟨fun _ _ ran => ?_, fun enough => absurd enough (Nat.not_lt_zero 1)⟩
    cases ran
  | succ fuel =>
    have put : Sure (0 < fuel) (exec fuel) (Signal.put s (f.2.read a)) w fun _ w' =>
        Agreed s fields todo w' ∧ Spread w w' :=
      put_agrees h (f.2.node?_read a) fun u value same => primed a u content value same
    refine (put.weaken Nat.lt_of_succ_lt_succ).task ?_
    have element : (w.nodes.get f.1).element? = some a := by
      unfold Node.element?
      rw [content]
    have read : exec (fuel + 1) (.handle (.write s f.2) "input" f.1) w =
        Handler.run "input" f.1 (.write s f.2) (exec fuel) w := rfl
    have here : (get : Op World) (exec fuel) w = .ok (w, w) := rfl
    rw [read, Handler.run, bind_of_ok here, element]

/-- The listeners of a field. By induction on their list: when the first is done, what the field reads
is in the signal. -/
theorem handleEach_agrees {f : Field} (hf : f ∈ fields) {tasks : List Task} (some : tasks ≠ [])
    (all : ∀ t ∈ tasks, t = .handle (.write s f.2) "input" f.1) (h : Tied s fields todo w)
    (primed : Primed s f fields todo w) :
    Sure (1 < fuel) (exec fuel) (invokeAll tasks) w fun _ w' =>
      Agreed s fields todo w' ∧ Spread w w' := by
  induction tasks generalizing w with
  | nil => exact absurd rfl some
  | cons t tasks ih =>
    obtain ⟨rfl, rest⟩ := List.forall_mem_cons.1 all
    refine Sure.bind (handle_agrees h hf primed) ?_
    rintro _ w₁ ⟨agreed, spread⟩
    by_cases last : tasks = []
    · subst last
      exact .pure ⟨agreed, spread⟩
    · have primed₁ : Primed s f fields todo w₁ := fun a u _ value same =>
        agreed.attuned.even u value (Value.node?_of_isSame same)
      refine (ih last rest agreed.toTied primed₁).mono ?_
      rintro _ w₂ ⟨agreed', spread'⟩
      exact ⟨agreed', spread.trans spread'⟩

/-- An edit of a field, with the event that tells of it. -/
theorem edit_agrees (h : Attuned s fields todo w) {f : Field} (hf : f ∈ fields) (edit : Edit)
    (idle : todo f.1 = []) :
    Sure (1 < fuel) (exec fuel) (Act.run s (.edit f.1 edit)) w fun _ w' =>
      Agreed s fields todo w' ∧ Spread w w' := by
  obtain ⟨a, content, written, -⟩ := h.written f hf
  let w₁ : World := { w with nodes := w.nodes.mapElement f.1 edit.apply }
  have here : (w₁.nodes.get f.1).content = .element (edit.apply a) := by
    have cell : w₁.nodes.get f.1 = Node.mapElement edit.apply (w.nodes.get f.1) :=
      Heap.get_modify_self _ _ _ (Field.known_of_element content)
    rw [cell]
    unfold Node.mapElement
    rw [content]
  have other : ∀ m, m ≠ f.1 → w₁.nodes.get m = w.nodes.get m :=
    fun m ne => Heap.get_modify_of_ne _ _ _ _ ne.symm
  have same : ∀ f' ∈ fields, f'.1 = f.1 → f' = f := by
    rintro ⟨n, key⟩ hf' rfl
    exact Prod.ext rfl (h.one _ _ _ hf' hf)
  have bound : Tied s fields todo w₁ := by
    refine h.of_nodes fun f' hf' => ?_
    by_cases at' : f'.1 = f.1
    · obtain rfl := same f' hf' at'
      exact ⟨_, here, edit.written_apply written, trivial⟩
    · exact (Field.holds_congr (congrArg Node.content (other _ at'))).2 (h.written f' hf')
  have primed : Primed s f fields todo w₁ := by
    intro a' u content' value unnoticed
    obtain rfl := Dom.Content.element.inj (here.symm.trans content')
    intro f' hf'
    by_cases at' : f'.1 = f.1
    · obtain rfl := same f' hf' at'
      exact .inr ⟨_, here, edit.written_apply written,
        fun _ => BindingKey.coerce_of_same unnoticed⟩
    · refine (h.even u value (Value.node?_of_isSame unnoticed) f' hf').imp_right fun shows => ?_
      exact (Field.holds_congr (congrArg Node.content (other _ at'))).2 shows
  have spread : Spread w w₁ := by
    refine ⟨fun m => Heap.get_modify_same _ f.1 m _ Node.connected fun node => ?_,
      Heap.size_modify .., rfl⟩
    unfold Node.mapElement
    split <;> rfl
  let tasks := (Events.listenersOf w₁ f.1 "input").map fun l =>
    Task.handle (w₁.listeners.get l) "input" f.1
  have nonempty : tasks ≠ [] := by
    rcases bound.heeded f hf with ⟨l, hl⟩ | ⟨l, hl⟩
    · exact List.ne_nil_of_mem (List.mem_map_of_mem (mem_listenersOf.2 hl))
    · rw [idle] at hl
      exact absurd hl List.not_mem_nil
  have all : ∀ t ∈ tasks, t = .handle (.write s f.2) "input" f.1 := by
    intro t ht
    obtain ⟨l, hl, rfl⟩ := List.mem_map.1 ht
    rw [(bound.listeners f hf l (mem_listenersOf.1 hl)).2]
  have handled : Sure (1 < fuel) (exec fuel) (invokeAll tasks) w₁ fun _ w' =>
      Agreed s fields todo w' ∧ Spread w₁ w' := handleEach_agrees hf nonempty all bound primed
  refine (handled.congr ?_).mono fun _ w' h' => ⟨h'.1, spread.trans h'.2⟩
  rfl

/-- An act. -/
theorem act_agrees (h : Attuned s fields todo w) (act : Act) (fits : act.Fits fields)
    (idle : ∀ n edit, act = .edit n edit → todo n = []) :
    Sure (1 < fuel) (exec fuel) (act.run s) w fun _ w' =>
      Agreed s fields todo w' ∧ Spread w w' := by
  cases act with
  | write v =>
    have put : Sure (0 < fuel) (exec fuel) (Signal.put s v) w fun _ w' =>
        Agreed s fields todo w' ∧ Spread w w' :=
      put_agrees h.toTied fits fun u value same => h.even u value (Value.node?_of_isSame same)
    exact put.weaken Nat.lt_of_succ_lt
  | edit n edit =>
    obtain ⟨key, mem⟩ := fits
    exact edit_agrees h mem edit (idle n edit rfl)

end LiveMarkup.Live
