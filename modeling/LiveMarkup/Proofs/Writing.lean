import LiveMarkup.Proofs.Runs
import LiveMarkup.Proofs.Planting
import LiveMarkup.Proofs.Roundtrip

/-!
Writing: what is done at the element of a slot, other than where nodes are moved. A condition on
operations that is closed under doing them one after another is shown to hold of all that, given the
few things that it is made of.
-/
namespace LiveMarkup.Markup.Attributes

theorem value?_set_self (a : Attributes) (name value : String) :
    (a.set name value).value? name = some value :=
  Ordered.get?_insert_self _ _ _

theorem value?_set_of_ne (a : Attributes) {name other : String}
    (h : Text.lowercase other ≠ Text.lowercase name) (value : String) :
    (a.set name value).value? other = a.value? other :=
  Ordered.get?_insert_of_ne a h value

theorem value?_remove_of_ne (a : Attributes) {name other : String}
    (h : Text.lowercase other ≠ Text.lowercase name) :
    (a.remove name).value? other = a.value? other :=
  Ordered.get?_erase_of_ne a h

theorem value?_toggleClass_of_ne (a : Attributes) {other : String}
    (h : Text.lowercase other ≠ Text.lowercase "class") (name : String) (on : Bool) :
    (a.toggleClass name on).value? other = a.value? other := by
  unfold toggleClass
  split
  · rfl
  · exact value?_set_of_ne a h _

/-- The names are in small letters, as those are that are written. -/
def Small (a : Attributes) : Prop :=
  ∀ name ∈ a.keys, Text.lowercase name = name

theorem lowercase_lowercase (s : String) : Text.lowercase (Text.lowercase s) = Text.lowercase s := by
  refine lowercase_of_small fun c hc => ?_
  rw [← String.ofList_toList (s := s), toList_lowercase] at hc
  obtain ⟨d, -, rfl⟩ := List.mem_map.1 hc
  exact isUpper_toLower d

namespace Small
variable {a : Attributes}

theorem set (h : a.Small) (name value : String) : (a.set name value).Small := by
  intro key hk
  obtain ⟨e, he, rfl⟩ := List.mem_map.1 hk
  rcases Ordered.fst_mem_of_mem_put he with same | ⟨e', he', same⟩
  · rw [same]
    exact lowercase_lowercase name
  · rw [← same]
    exact h e'.1 (List.mem_map_of_mem he')

theorem remove (h : a.Small) (name : String) : (a.remove name).Small := by
  intro key hk
  obtain ⟨e, he, rfl⟩ := List.mem_map.1 hk
  exact h e.1 (List.mem_map_of_mem (List.mem_filter.1 he).1)

theorem toggleClass (h : a.Small) (name : String) (on : Bool) : (a.toggleClass name on).Small := by
  unfold Attributes.toggleClass
  split
  · exact h
  · exact h.set _ _

end Small
end LiveMarkup.Markup.Attributes

namespace LiveMarkup

/-- The directive writes no attribute of the name. -/
def Template.DirectiveKind.Spares (mark : String) : Template.DirectiveKind → Prop
  | .classes => Text.lowercase mark ≠ Text.lowercase "class"
  | .style => Text.lowercase mark ≠ Text.lowercase "style"
  | .on | .bind | .ref => True

instance (mark : String) (kind : Template.DirectiveKind) : Decidable (kind.Spares mark) :=
  match kind with
  | .classes | .style => inferInstanceAs (Decidable (_ ≠ _))
  | .on | .bind | .ref => .isTrue trivial

/-- The slot has no attribute of the name written. -/
def Template.Slot.Spares (mark : String) : Template.Slot → Prop
  | .attr name _ _ => Text.lowercase mark ≠ Text.lowercase name
  | .directive kind _ _ => kind.Spares mark
  | .component _ | .node _ => True

instance (mark : String) (slot : Template.Slot) : Decidable (slot.Spares mark) :=
  match slot with
  | .attr _ _ _ => inferInstanceAs (Decidable (_ ≠ _))
  | .directive kind _ _ => inferInstanceAs (Decidable (kind.Spares mark))
  | .component _ | .node _ => .isTrue trivial

namespace Live

/-- The effect writes no attribute of the name. -/
def Effect.Spares (mark : String) : Effect → Prop
  | .attr name | .wholeAttr name => Text.lowercase mark ≠ Text.lowercase name
  | .classes _ => Text.lowercase mark ≠ Text.lowercase "class"
  | .style _ => Text.lowercase mark ≠ Text.lowercase "style"
  | .form _ => True
  | .text => False

/-- An effect changes the data of an element. It leaves the attribute alone that it spares, and what it
writes has names in small letters. -/
theorem Effect.apply_eq {mark : String} {e : Effect} (h : e.Spares mark) (node : NodeId)
    (v : Value) : ∃ g : World → Dom.Element → Dom.Element,
      (∀ w e, (g w e).attributes.value? mark = e.attributes.value? mark) ∧
        (∀ w e, e.attributes.Small → (g w e).attributes.Small) ∧
          e.apply node v = get >>= fun w => Mount.changeElement node (g w) := by
  cases e with
  | attr name =>
    refine ⟨fun w e => { e with attributes :=
      if v.isNull then e.attributes.remove name else e.attributes.set name (w.text v) },
      fun w e => ?_, fun w e small => ?_, rfl⟩
    · dsimp only
      split
      · exact e.attributes.value?_remove_of_ne h
      · exact e.attributes.value?_set_of_ne h _
    · dsimp only
      split
      · exact small.remove name
      · exact small.set name _
  | wholeAttr name =>
    exact ⟨fun w e => { e with attributes := e.attributes.set name (w.text v) },
      fun w e => e.attributes.value?_set_of_ne h _, fun w e small => small.set name _, rfl⟩
  | classes name =>
    exact ⟨fun _ e => { e with attributes := e.attributes.toggleClass name v.isTruthy },
      fun w e => e.attributes.value?_toggleClass_of_ne h name _,
      fun w e small => small.toggleClass name _, rfl⟩
  | style property =>
    exact ⟨fun w e => { e with attributes := e.attributes.setStyle property (w.text v) },
      fun w e => e.attributes.value?_set_of_ne h _, fun w e small => small.set "style" _, rfl⟩
  | form key =>
    exact ⟨fun w => (key.write w.nodes.textContent · v), fun w e => by cases key <;> rfl,
      fun w e small => by cases key <;> exact small, rfl⟩
  | text => exact h.elim

/-- A change of a world that leaves its nodes and their hooks alone, and its signals, but that there
may be one more. -/
structure Elsewhere (w w' : World) : Prop where
  nodes : w'.nodes = w.nodes
  mountHooks : w'.mountHooks = w.mountHooks
  unmountHooks : w'.unmountHooks = w.unmountHooks
  signals : w'.signals = w.signals ∨ ∃ signal, w'.signals = w.signals.push signal

/-- A condition on operations that is kept by doing them one after another. It holds of looking, of
stopping short, of making a node that no search by attribute finds, and of changes that leave nodes,
hooks and signals alone. -/
structure Closed (P : {α : Type} → Op α → Prop) : Prop where
  pure : ∀ {α : Type} (a : α), P (pure a)
  bind : ∀ {α β : Type} {x : Op α} {f : α → Op β}, P x → (∀ a, P (f a)) → P (x >>= f)
  get : P (get : Op World)
  throw : ∀ {α : Type} (e : Halt), P (throw e : Op α)
  create : ∀ {content : Dom.Content}, (∀ name value, content.carries name value = false) →
    P (onNodes (·.create content))
  elsewhere : ∀ {α : Type} {f : World → World} {g : World → PUnit → Op α}, (∀ w, Elsewhere w (f w)) →
    (∀ w u, P (g w u)) → P (MonadState.get >>= fun w => set (f w) >>= g w)

namespace Closed
variable {P : {α : Type} → Op α → Prop} {α β ε : Type}

theorem modify (hP : Closed P) {f : World → World} (hf : ∀ w, Elsewhere w (f w)) :
    P (modify f : Op PUnit) :=
  hP.elsewhere (g := fun _ u => Pure.pure u) hf fun _ u => hP.pure u

theorem require (hP : Closed P) (name : Name) (a : Option α) : P (require name a) := by
  cases a with
  | none => exact hP.throw _
  | some a => exact hP.pure a

theorem forM_mem (hP : Closed P) {l : List β} {f : β → Op PUnit} (hf : ∀ b ∈ l, P (f b)) :
    P (l.forM f) := by
  induction l with
  | nil => exact hP.pure PUnit.unit
  | cons b l ih =>
    obtain ⟨here, rest⟩ := List.forall_mem_cons.1 hf
    exact hP.bind here fun _ => ih rest

/-! Operations that may fail. -/

theorem run_pure (hP : Closed P) (a : α) : P (Pure.pure a : ExceptT ε Op α).run :=
  hP.pure (Except.ok a)

theorem run_throw (hP : Closed P) (e : ε) : P (MonadExcept.throw e : ExceptT ε Op α).run :=
  hP.pure (Except.error e)

theorem run_bind (hP : Closed P) {x : ExceptT ε Op α} {f : α → ExceptT ε Op β} (hx : P x.run)
    (hf : ∀ a, P (f a).run) : P (x >>= f).run := by
  rw [ExceptT.run_bind]
  refine hP.bind hx fun r => ?_
  cases r with
  | ok a => exact hf a
  | error e => exact hP.pure _

theorem run_lift (hP : Closed P) {x : Op α} (hx : P x) : P (liftM x : ExceptT ε Op α).run := by
  rw [run_liftM]
  exact hP.bind hx fun a => hP.pure _

theorem run_forM_mem (hP : Closed P) {l : List β} {f : β → ExceptT ε Op PUnit}
    (hf : ∀ b ∈ l, P (f b).run) : P (l.forM f).run := by
  induction l with
  | nil => exact hP.run_pure PUnit.unit
  | cons b l ih =>
    obtain ⟨here, rest⟩ := List.forall_mem_cons.1 hf
    exact hP.run_bind here fun _ => ih rest

theorem run_mapM (hP : Closed P) {l : List β} {f : β → ExceptT ε Op α} (hf : ∀ b, P (f b).run) :
    P (l.mapM f).run := by
  induction l with
  | nil => exact hP.run_pure []
  | cons b l ih =>
    rw [List.mapM_cons]
    exact hP.run_bind (hf b) fun _ => hP.run_bind ih fun _ => hP.run_pure _

theorem atSlot (hP : Closed P) {x : Fitting α} (index : Option Nat) (hx : P x.run) :
    P (x.atSlot index).run := by
  refine hP.bind hx fun r => ?_
  cases r with
  | ok a => exact hP.pure _
  | error e => exact hP.pure _

/-! Computations that nobody records. -/

theorem note (hP : Closed P) (n : Note) : P (note n) :=
  hP.modify fun _ => ⟨rfl, rfl, rfl, .inl rfl⟩

theorem nodeOrCreate (hP : Closed P) (name : Name) {content : Dom.Content}
    (unmarked : ∀ name value, content.carries name value = false) :
    P (nodeOrCreate name content) := by
  refine hP.bind hP.get fun w => ?_
  split
  · exact hP.pure _
  · refine hP.bind (hP.create unmarked) fun n => ?_
    exact hP.bind (hP.modify fun _ => ⟨rfl, rfl, rfl, .inl rfl⟩) fun _ => hP.pure n

theorem literal (hP : Closed P) (l : Literal) : P l.eval := by
  cases l with
  | plain v => exact hP.pure v
  | node name =>
    exact hP.bind (hP.bind hP.get fun w => hP.require name _) fun n => hP.pure _
  | element tag name =>
    have unmarked : ∀ name value,
        (Dom.Content.element (.ofTag tag)).carries name value = false := fun _ _ => rfl
    exact hP.bind (hP.nodeOrCreate name unmarked) fun n => hP.pure _
  | text data name =>
    have unmarked : ∀ name value, (Dom.Content.text data).carries name value = false :=
      fun _ _ => rfl
    exact hP.bind (hP.nodeOrCreate name unmarked) fun n => hP.pure _

/-- By induction on the reading: without a record, showing a signal to the tracker does nothing. -/
theorem reading (hP : Closed P) (r : Reading) : P (r.run .passing) := by
  have track : ∀ s, P (Derivation.track s .passing) := fun _ => hP.pure ()
  induction r with
  | done v => exact hP.pure v
  | get s next ih => exact hP.bind (track s) fun _ => hP.bind hP.get fun w => ih _
  | peek s next ih => exact hP.bind hP.get fun w => ih _
  | track s next ih => exact hP.bind (track s) fun _ => ih
  | mode next ih => exact ih _
  | signal name next ih =>
    exact hP.bind hP.get fun w => hP.bind (hP.require name _) fun p => ih _
  | literal l next ih => exact hP.bind (hP.literal l) fun v => ih v
  | text v next ih => exact hP.bind hP.get fun w => ih _
  | note n next ih => exact hP.bind (hP.note n) fun _ => ih

theorem createDerivation (hP : Closed P) (r : Reading) : P (Derivation.create r) :=
  hP.bind (hP.reading r) fun _ =>
    hP.elsewhere (fun _ => ⟨rfl, rfl, rfl, .inr ⟨_, rfl⟩⟩) fun _ _ => hP.pure _

theorem derived (hP : Closed P) (fn : FormulaId) : P (SharedFormula.derived fn) := by
  refine hP.bind hP.get fun w => ?_
  dsimp only
  split
  · exact hP.pure _
  · refine hP.bind (hP.createDerivation _) fun s => ?_
    exact hP.bind (hP.modify fun _ => ⟨rfl, rfl, rfl, .inl rfl⟩) fun _ => hP.pure s

theorem signal? (hP : Closed P) (value : TemplateValue) : P value.signal? := by
  cases value with
  | formula fn => exact hP.bind (hP.derived fn) fun s => hP.pure _
  | value v => exact hP.pure none
  | signal s => exact hP.pure (some s)
  | writable s => exact hP.pure (some s)
  | listener l => exact hP.pure none
  | component c => exact hP.pure none

theorem sourceOf (hP : Closed P) (value : TemplateValue) : P (Render.sourceOf value).run := by
  refine hP.run_bind (hP.run_lift (hP.signal? value)) fun s => ?_
  cases s with
  | some s => exact hP.run_pure _
  | none =>
    cases value with
    | value v => exact hP.run_pure _
    | component c => exact hP.run_pure _
    | _ => exact hP.run_throw _

theorem sourceOfPart (hP : Closed P) (values : List TemplateValue) (part : Template.Part) :
    P (Render.sourceOfPart values part).run := by
  cases part with
  | literal text => exact hP.run_pure _
  | slot index =>
    unfold Render.sourceOfPart
    dsimp only
    split
    · exact hP.atSlot _ (hP.sourceOf _)
    · exact hP.run_throw _

theorem createListener (hP : Closed P) (h : Handler) : P (Events.create h) :=
  hP.elsewhere (fun _ => ⟨rfl, rfl, rfl, .inl rfl⟩) fun _ _ => hP.pure _

end Closed

/-- A condition that also holds of giving hooks to a node. -/
structure ClosedAt (P : {α : Type} → Op α → Prop) (n : NodeId) : Prop extends Closed P where
  onMount : ∀ h, P (Lifecycle.onMount n h)
  onUnmount : ∀ h, P (Lifecycle.onUnmount n h)

namespace ClosedAt
variable {P : {α : Type} → Op α → Prop} {n : NodeId}

theorem follow (hP : ClosedAt P n) (s : SignalId) (reaction : Reaction) (mode : Mode) :
    P (Lifecycle.follow n s reaction mode) :=
  hP.elsewhere (fun _ => ⟨rfl, rfl, rfl, .inl rfl⟩) fun _ _ =>
    hP.bind (hP.onMount _) fun _ => hP.onUnmount _

theorem listenWhileMounted (hP : ClosedAt P n) (event : String) (l : ListenerId) :
    P (Events.listenWhileMounted n event l) :=
  hP.bind (hP.onMount _) fun _ => hP.onUnmount _

end ClosedAt

/-- A condition that also holds of changing the data of an element, other than in one attribute. -/
structure Writes (P : {α : Type} → Op α → Prop) (mark : String) (element : NodeId) : Prop
    extends ClosedAt P element where
  change : ∀ {g : Dom.Element → Dom.Element},
    (∀ e, (g e).attributes.value? mark = e.attributes.value? mark) →
      P (Mount.changeElement element g)

namespace Writes
variable {P : {α : Type} → Op α → Prop} {mark : String} {element : NodeId} {e : Effect}

theorem apply (hP : Writes P mark element) (h : e.Spares mark) (v : Value) :
    P (e.apply element v) := by
  obtain ⟨g, same, -, eq⟩ := Effect.apply_eq h element v
  rw [eq]
  exact hP.bind hP.get fun w => hP.change (same w)

theorem bindEffect (hP : Writes P mark element) (h : e.Spares mark) (s : SignalId) :
    P (e.bind element s) :=
  hP.bind hP.get fun _ => hP.bind (hP.apply h _) fun _ => hP.follow s _ _

theorem connectEffect (hP : Writes P mark element) (h : e.Spares mark) (value : TemplateValue) :
    P (e.connect element value).run := by
  refine hP.run_bind (hP.run_lift (hP.signal? value)) fun s => ?_
  cases s with
  | some s => exact hP.run_lift (hP.bindEffect h s)
  | none =>
    cases value with
    | value v => exact hP.run_lift (hP.apply h v)
    | component c => exact hP.run_lift (hP.apply h _)
    | signal s => exact hP.run_throw _
    | writable s => exact hP.run_throw _
    | formula fn => exact hP.run_throw _
    | listener l => exact hP.run_throw _

theorem twoWay (hP : Writes P mark element) (s : SignalId) (key : Dom.BindingKey) :
    P (Render.twoWay element s key) :=
  hP.bind (hP.createListener _) fun l =>
    hP.bind (hP.listenWhileMounted "input" l) fun _ => hP.bindEffect (e := .form key) trivial s

theorem directive (hP : Writes P mark element) {kind : Template.DirectiveKind}
    (h : kind.Spares mark) (name : String) (value : TemplateValue) :
    P (Render.directive element kind name value).run := by
  cases kind with
  | classes =>
    exact hP.run_bind (hP.connectEffect (e := .classes name) h value) fun _ => hP.run_pure []
  | style =>
    exact hP.run_bind (hP.connectEffect (e := .style name) h value) fun _ => hP.run_pure []
  | on =>
    cases value with
    | listener l =>
      exact hP.run_bind (hP.run_lift (hP.listenWhileMounted name l)) fun _ => hP.run_pure []
    | _ => exact hP.run_throw _
  | ref =>
    cases value with
    | writable s => exact hP.run_pure _
    | _ => exact hP.run_throw _
  | bind =>
    cases value with
    | writable s =>
      unfold Render.directive
      dsimp only
      split
      case h_1 key _ =>
        exact hP.run_bind (hP.run_lift (hP.twoWay s key)) fun _ => hP.run_pure []
      case h_2 => exact hP.run_throw _
    | _ => exact hP.run_throw _

theorem attributeSlot (hP : Writes P mark element) {name : String}
    (spares : Text.lowercase mark ≠ Text.lowercase name) (quote : Template.Quote)
    (ref : Template.Ref) (value : TemplateValue) :
    P (Render.fillElement element (.attr name quote ref) value).run := by
  unfold Render.fillElement
  dsimp only
  split
  · exact hP.run_bind (hP.connectEffect (e := .attr name) spares value) fun _ => hP.run_pure []
  · exact hP.run_pure []

theorem fillProgram (hP : Writes P mark element) {name : String}
    (spares : Text.lowercase mark ≠ Text.lowercase name) (values : List TemplateValue)
    (parts : List Template.Part) : P (Render.fillProgram values element name parts).run := by
  unfold Render.fillProgram
  split
  · split
    · exact hP.atSlot _ (hP.connectEffect (e := .attr name) spares _)
    · exact hP.run_throw _
  · refine hP.run_bind (hP.run_mapM (hP.sourceOfPart values)) fun sources => ?_
    split
    · refine hP.run_bind (hP.run_lift (hP.createDerivation _)) fun s => ?_
      exact hP.run_lift (hP.bindEffect (e := .wholeAttr name) spares s)
    · refine hP.run_bind (hP.run_lift (hP.reading _)) fun v => ?_
      exact hP.run_lift (hP.apply (e := .wholeAttr name) spares v)

theorem fillAttributes (hP : Writes P mark element) {programs : Template.Programs}
    (spares : ∀ p ∈ programs.entries, Text.lowercase mark ≠ Text.lowercase p.1)
    (values : List TemplateValue) : P (Render.fillAttributes values element programs).run :=
  hP.run_forM_mem fun p hp => hP.fillProgram (spares p hp) values p.2

end Writes
end Live
end LiveMarkup
