import LiveMarkup.Proofs.Sketching

/-!
Lettering: what the slots of a copy come to show. A text takes the place of an outlet for good, and an
attribute has what was written to it last: the text of a slot that is its whole value, or what parts
make together.
-/
namespace LiveMarkup.Markup.Attributes

theorem value?_remove_self (a : Attributes) (name : String) : (a.remove name).value? name = none :=
  Ordered.get?_erase_self ..

end LiveMarkup.Markup.Attributes

namespace LiveMarkup.Live

open Render
open Template (Part Programs Slot)

variable {w₀ w w₁ w' : World} {n m p element : NodeId} {s : SignalId} {v : Value} {e : Effect}
  {value : TemplateValue} {values : List TemplateValue} {parts : List Part} {run : Runner}
  {name : String}

/-- A value that depends on nothing but signals. What is behind it is no node that is yet to be made. -/
structure TemplateValue.Proper (w : World) (value : TemplateValue) : Prop where
  plain : value.Plain w
  old : ∀ n, (value.held w).node? = some n → n.index < w.nodes.size

/-! Signals behind values. -/

/-- A derived signal with its first value. -/
def Derivation.made (r : Reading) (v : Value) (w : World) : World :=
  Signal.added (some v) (some (.derivation w.derivations.next)) (Derivation.added r w)

theorem Derivation.create_run {r : Reading} (ran : r.run .passing run w = .ok (v, w)) :
    Derivation.create r run w = .ok (w.signals.next, Derivation.made r v w) := by
  have read : Derivation.create r run w = (r.run .passing run w).bind fun p =>
      .ok (p.2.signals.next, Signal.added (some p.1) (some (.derivation p.2.derivations.next))
        (Derivation.added r p.2)) := rfl
  rw [read, ran]
  rfl

theorem Derivation.content_made (r : Reading) (v : Value) (w : World) :
    w.signals.next.index < (Derivation.made r v w).signals.size ∧
      Signal.content (Derivation.made r v w) w.signals.next = some v := by
  refine ⟨(Heap.size_push ..).symm ▸ Nat.lt_succ_self _, ?_⟩
  unfold Signal.content
  have new : (Derivation.made r v w).signals.get w.signals.next =
      .fresh (some v) (some (.derivation w.derivations.next)) := Heap.get_push_next ..
  rw [new]
  rfl

theorem Derivation.unwritten_made (r : Reading) (v : Value) (w : World) :
    Unwritten w (Derivation.made r v w) where
  names := rfl
  count := Nat.le_trans (Nat.le_succ _) (Nat.le_of_eq (Heap.size_push ..).symm)
  content _ hs := congrArg Signal.value (Heap.get_push_of_lt _ _ _ hs)
  formulas := rfl
  readings _ := rfl
  memo _ _ h := h
  derived _ _ _ h := .inl h

/-- A computation keeps the signal that has come to be for it. -/
theorem Unwritten.remember {fn : FormulaId} (h : Unwritten w w₁)
    (memo : (w.formulas.get fn).signal = none) (known : fn.index < w.formulas.size)
    (made : s.index < w₁.signals.size)
    (content : Signal.content w₁ s = some ((w.formulas.get fn).reading.value w)) :
    Unwritten w { w₁ with
      formulas := w₁.formulas.modify fn fun cell => { cell with signal := some s } } := by
  let cells := w₁.formulas.modify fn fun cell => { cell with signal := some s }
  have cell : ∀ fn', cells.get fn' = w₁.formulas.get fn' ∨
      fn' = fn ∧ (cells.get fn').signal = some s := by
    intro fn'
    by_cases here : fn' = fn
    · subst here
      have cell : cells.get fn' = { w₁.formulas.get fn' with signal := some s } :=
        Heap.get_modify_self _ _ _ (h.formulas.symm ▸ known)
      exact .inr ⟨rfl, by rw [cell]⟩
    · exact .inl (Heap.get_modify_of_ne _ _ _ _ (Ne.symm here))
  refine { h with
    formulas := (Heap.size_modify ..).trans h.formulas
    readings := fun fn' => ?_
    memo := fun fn' t ht => ?_
    derived := fun fn' t pure ht => ?_ }
  · have same : (cells.get fn').reading = (w₁.formulas.get fn').reading :=
      Heap.get_modify_same w₁.formulas fn fn' _ SharedFormula.reading fun _ => rfl
    exact same.trans (h.readings fn')
  · rcases cell fn' with same | ⟨rfl, -⟩
    · exact (congrArg SharedFormula.signal same).trans (h.memo fn' t ht)
    · cases memo.symm.trans ht
  · rcases cell fn' with same | ⟨rfl, new⟩
    · exact h.derived fn' t pure ((congrArg SharedFormula.signal same).symm.trans ht)
    · cases new.symm.trans ht
      exact .inr ⟨made, content⟩

namespace Sketch

theorem held_eq (h : Sketch w₀ w) (plain : value.Plain w₀) : value.held w = value.held w₀ :=
  h.toUnwritten.held h.base.made plain

/-- The derived signal of a pure computation holds what is behind the computation. -/
theorem derivedSignal (h : Sketch w₀ w) {fn : FormulaId}
    (plain : TemplateValue.Plain w₀ (.formula fn)) (run : Runner) :
    Ensures run (SharedFormula.derived fn) w fun s w' => Unwritten w w' ∧ w'.nodes = w.nodes ∧
      s.index < w'.signals.size ∧
        (Signal.content w' s).getD .null = TemplateValue.held w₀ (.formula fn) := by
  have pure : (w.formulas.get fn).reading.Pure w.names.signals w.signals.size := by
    rw [h.readings, h.names]
    exact plain.2.mono (fun _ _ named => named) h.count
  rw [← h.held_eq plain]
  simp only [SharedFormula.derived, ensures_bind, ensures_get]
  cases memo : (w.formulas.get fn).signal with
  | some s =>
    have made : s.index < w.signals.size := by
      rcases h.derived fn s plain.2 memo with before | ⟨made, -⟩
      · exact Nat.lt_of_lt_of_le (h.base.made fn s before) h.count
      · exact made
    refine (ensures_pure ..).2 ⟨.refl w, rfl, made, ?_⟩
    simp only [TemplateValue.held, memo]
  | none =>
    obtain ⟨v, l, ran, gives⟩ :=
      pure.grounded.run_unseen (t := .passing) (fun _ => Tracker.noConfusion) run
    obtain rfl := gives.eq_value pure
    refine (ensures_bind ..).2 fun s w₁ created => ?_
    cases (Derivation.create_run ran).symm.trans created
    let r := (w.formulas.get fn).reading
    let w₁ := Derivation.made r (r.value w) w
    let w₂ : World := { w₁ with
      formulas := w₁.formulas.modify fn fun cell => { cell with signal := some w.signals.next } }
    refine (ensures_bind ..).2 ((ensures_modify ..).2 ((ensures_pure ..).2 ?_))
    obtain ⟨made, content⟩ := Derivation.content_made r (r.value w) w
    have first := Derivation.unwritten_made r (r.value w) w
    have known : fn.index < w.formulas.size := h.formulas.symm ▸ plain.1
    have unwritten : Unwritten w w₂ := first.remember memo known made content
    refine ⟨unwritten, rfl, made, ?_⟩
    have here : Signal.content w₂ w.signals.next = some (r.value w) := content
    simp only [TemplateValue.held, memo]
    exact congrArg (·.getD .null) here

/-- The signal behind a value holds what is behind the value. -/
theorem signal? (h : Sketch w₀ w) (plain : value.Plain w₀) (run : Runner) :
    Ensures run value.signal? w fun o w' => Unwritten w w' ∧ w'.nodes = w.nodes ∧
      ((∃ v, value = .value v ∧ o = none) ∨ ∃ s, o = some s ∧ s.index < w'.signals.size ∧
        (Signal.content w' s).getD .null = value.held w₀) := by
  cases value with
  | value v => exact (ensures_pure ..).2 ⟨.refl w, rfl, .inl ⟨v, rfl, rfl⟩⟩
  | signal s =>
    refine (ensures_pure ..).2 ⟨.refl w, rfl, .inr ⟨s, rfl, Nat.lt_of_lt_of_le plain h.count, ?_⟩⟩
    exact h.held_eq plain
  | writable s =>
    refine (ensures_pure ..).2 ⟨.refl w, rfl, .inr ⟨s, rfl, Nat.lt_of_lt_of_le plain h.count, ?_⟩⟩
    exact h.held_eq plain
  | formula fn =>
    refine (ensures_map ..).2 ((h.derivedSignal plain run).mono ?_)
    rintro s w' ⟨unwritten, nodes, made, held⟩
    exact ⟨unwritten, nodes, .inr ⟨s, rfl, made, held⟩⟩
  | listener l => exact plain.elim
  | component c => exact plain.elim

end Sketch

/-! Attributes. -/

/-- The value of an attribute that is a slot alone. Null takes the attribute away. -/
def World.slotText (w : World) (v : Value) : Option String :=
  if v.isNull then none else some (w.text v)

namespace Effect

/-- The attribute that an effect is the only one to write, and what it writes for a value. -/
def entry (w : World) (v : Value) : Effect → Option (String × Option String)
  | .attr name => some (name, w.slotText v)
  | .wholeAttr name => some (name, some (w.text v))
  | _ => none

/-- An effect of an element changes one attribute of it at most. -/
theorem stamp_eq (elemental : e ≠ .text) (w : World) (v : Value) :
    ∃ g, e.stamp w v = Dom.Node.mapElement g ∧
      (∀ a name, e.written? ≠ some (Text.lowercase name) →
        (g a).attributes.value? name = a.attributes.value? name) ∧
      ∀ a name t, e.entry w v = some (name, t) → (g a).attributes.value? name = t := by
  have apart : ∀ {name other : String},
      some (Text.lowercase name) ≠ some (Text.lowercase other) →
        Text.lowercase other ≠ Text.lowercase name := fun ne same => ne (congrArg some same.symm)
  have small : Text.lowercase "class" = "class" ∧ Text.lowercase "style" = "style" := by decide
  cases e with
  | attr name =>
    refine ⟨_, rfl, fun a other ne => ?_, fun a _ _ entry => ?_⟩
    · dsimp only
      split
      · exact a.attributes.value?_remove_of_ne (apart ne)
      · exact a.attributes.value?_set_of_ne (apart ne) _
    · cases entry
      unfold World.slotText
      cases null : v.isNull with
      | true => exact a.attributes.value?_remove_self name
      | false => exact a.attributes.value?_set_self name _
  | wholeAttr name =>
    refine ⟨_, rfl, fun a other ne => a.attributes.value?_set_of_ne (apart ne) _,
      fun a _ _ entry => ?_⟩
    cases entry
    exact a.attributes.value?_set_self name _
  | classes name =>
    refine ⟨_, rfl, fun a other ne => a.attributes.value?_toggleClass_of_ne (apart ?_) _ _, nofun⟩
    rw [small.1]
    exact ne
  | style property =>
    refine ⟨_, rfl, fun a other ne => a.attributes.value?_set_of_ne (apart ?_) _, nofun⟩
    rw [small.2]
    exact ne
  | form key =>
    refine ⟨_, rfl, fun a other _ => ?_, nofun⟩
    cases key <;> rfl
  | text => exact absurd rfl elemental

end Effect

/-- What an effect of an element may touch. -/
def Effect.Touches (e : Effect) (n m : NodeId) (name : String) : Prop :=
  m = n ∧ e.written? = some name

namespace Sketch

theorem entry_eq (h : Sketch w₀ w) (old : ∀ n, v.node? = some n → n.index < w₀.nodes.size) :
    e.entry w v = e.entry w₀ v := by
  cases e <;> simp only [Effect.entry, World.slotText, h.text_eq old]

/-- An effect shows a value at an element. -/
theorem apply (h : Sketch w₀ w) (new : w₀.nodes.size ≤ n.index) (elemental : e ≠ .text)
    (isElement : (w.nodes.get n).element?.isSome = true) (run : Runner) :
    Ensures run (e.apply n v) w fun _ w' => Sketch w₀ w' ∧ Unwritten w w' ∧
      Leaves (e.Touches n) w w' ∧
        ∀ name t, e.entry w v = some (name, t) → (w'.nodes.attributes n).value? name = t := by
  obtain ⟨g, stamp, same, written⟩ := e.stamp_eq elemental w v
  intro _ w' applied
  rw [e.apply_stamp n v run, stamp] at applied
  cases applied
  refine ⟨h.mapElement new g, .of_eq rfl rfl rfl,
    .mapElement n g fun a name off => same a name fun hit => off ⟨rfl, hit⟩, fun name t entry => ?_⟩
  obtain ⟨a, content⟩ := Option.isSome_iff_exists.1 isElement
  have known : n.index < w.nodes.size := known_of_suits (e := .wholeAttr "") isElement
  have cell : (w.nodes.modify n (Dom.Node.mapElement g)).get n = (w.nodes.get n).mapElement g :=
    Heap.get_modify_self _ _ _ known
  have changed : ((w.nodes.get n).mapElement g).element? = some (g a) := by
    unfold Dom.Node.element? at content
    split at content
    case h_1 b here =>
      cases content
      unfold Dom.Node.mapElement Dom.Node.element?
      simp only [here]
    case h_2 => cases content
  unfold Dom.Forest.attributes
  dsimp only
  rw [cell, changed]
  exact written a name t entry

theorem hung (h : Sketch w₀ w) (n : NodeId) (s : SignalId) (e : Effect) :
    Sketch w₀ (Lifecycle.hung n s e w) ∧ Unwritten w (Lifecycle.hung n s e w) :=
  have unwritten : Unwritten w (Lifecycle.hung n s e w) := .of_eq rfl rfl rfl
  ⟨h.aside unwritten rfl, unwritten⟩

/-- A signal is shown at an element as it is now. -/
theorem bind (h : Sketch w₀ w) (new : w₀.nodes.size ≤ n.index) (elemental : e ≠ .text)
    (isElement : (w.nodes.get n).element?.isSome = true) (s : SignalId) (run : Runner) :
    Ensures run (e.bind n s) w fun _ w' => Sketch w₀ w' ∧ Unwritten w w' ∧
      Leaves (e.Touches n) w w' ∧
        ∀ name t, e.entry w ((Signal.content w s).getD .null) = some (name, t) →
          (w'.nodes.attributes n).value? name = t := by
  simp only [Effect.bind, ensures_bind, ensures_get]
  refine (h.apply new elemental isElement run).mono ?_
  rintro _ w₁ ⟨h₁, unwritten, leaves, written⟩ _ w₂ followed
  rw [Lifecycle.follow_run (h₁.unmounted n new)] at followed
  cases followed
  obtain ⟨h₂, more⟩ := h₁.hung n s e
  exact ⟨h₂, unwritten.trans more, leaves.trans (.of_nodes rfl), written⟩

/-- A value is shown at an element. -/
theorem connect (h : Sketch w₀ w) (new : w₀.nodes.size ≤ n.index) (elemental : e ≠ .text)
    (isElement : (w.nodes.get n).element?.isSome = true) (proper : value.Proper w₀) :
    Succeeds run (e.connect n value) w fun _ w' => Sketch w₀ w' ∧ Unwritten w w' ∧
      Leaves (e.Touches n) w w' ∧ ∀ name t, e.entry w₀ (value.held w₀) = some (name, t) →
        (w'.nodes.attributes n).value? name = t := by
  refine .bind (.lift ((h.signal? proper.plain run).mono ?_))
  rintro o w₁ ⟨unwritten, nodes, behind⟩
  have h₁ := h.aside unwritten nodes
  have isElement₁ : (w₁.nodes.get n).element?.isSome = true := nodes ▸ isElement
  have leaves₁ : Leaves (e.Touches n) w w₁ := .of_nodes nodes
  rw [← h₁.entry_eq proper.old]
  rcases behind with ⟨v, rfl, rfl⟩ | ⟨s, rfl, -, held⟩
  · refine .lift ((h₁.apply (v := v) new elemental isElement₁ run).mono ?_)
    rintro _ w₂ ⟨h₂, more, leaves, written⟩
    exact ⟨h₂, unwritten.trans more, leaves₁.trans leaves, written⟩
  · refine .lift ((h₁.bind new elemental isElement₁ s run).mono ?_)
    rintro _ w₂ ⟨h₂, more, leaves, written⟩
    rw [held] at written
    exact ⟨h₂, unwritten.trans more, leaves₁.trans leaves, written⟩

end Sketch

/-! Texts. -/

/-- A text came to be, and stands alone so far. -/
structure Lettered (w₀ w : World) (t : String) (n : NodeId) (w' : World) : Prop where
  sketch : Sketch w₀ w'
  unwritten : Unwritten w w'
  leaves : Leaves Unedited w w'
  new : w.nodes.size ≤ n.index
  known : n.index < w'.nodes.size
  cell : w'.nodes.get n = ⟨.text t, none, [], false⟩
  old : ∀ m, m.index < w.nodes.size → w'.nodes.get m = w.nodes.get m

namespace Sketch

/-- A text that is written once. -/
theorem newText (h : Sketch w₀ w) (v : Value) (run : Runner) :
    Ensures run (onNodes (·.create (.text (w.textOrEmpty v)))) w
      (Lettered w₀ w (w.textOrEmpty v)) := by
  rintro n w' ⟨⟩
  obtain ⟨h', leaves, cell, known, old⟩ := h.text (w.textOrEmpty v)
  exact ⟨h', .of_eq rfl rfl rfl, leaves, Nat.le_refl _, known, cell, old⟩

/-- A text that follows a signal. -/
theorem signalNode (h : Sketch w₀ w) (s : SignalId) (run : Runner) :
    Ensures run (signalNode s) w
      (Lettered w₀ w (w.textOrEmpty ((Signal.content w s).getD .null))) := by
  simp only [Render.signalNode, ensures_bind, ensures_get]
  refine (h.newText ((Signal.content w s).getD .null) run).mono ?_
  intro n w₁ came u w₂ followed
  rw [Lifecycle.follow_run (came.sketch.unmounted n (Nat.le_trans h.size came.new))] at followed
  cases followed
  obtain ⟨h₂, more⟩ := came.sketch.hung n s .text
  refine (ensures_pure ..).2 ?_
  exact ⟨h₂, came.unwritten.trans more, came.leaves.trans (.of_nodes rfl), came.new, came.known,
    came.cell, came.old⟩

/-- The text of a signal behind a value. -/
theorem liveNode (h : Sketch w₀ w) (proper : value.Proper w₀) (other : ∀ v, value ≠ .value v) :
    Succeeds run (do
      match ← value.signal? with
      | some s => Render.signalNode s
      | none => throw .unrenderableValue : Fitting NodeId) w
        (Lettered w₀ w (w₀.textOrEmpty (value.held w₀))) := by
  refine .bind (.lift ((h.signal? proper.plain run).mono ?_))
  rintro o w₁ ⟨unwritten, nodes, ⟨v, rfl, -⟩ | ⟨s, rfl, -, held⟩⟩
  · exact absurd rfl (other v)
  have h₁ := h.aside unwritten nodes
  refine .lift ((h₁.signalNode s run).mono ?_)
  intro n w₂ came
  rw [held, h₁.textOrEmpty_eq proper.old] at came
  have leaves : Leaves Unedited w w₁ := .of_nodes nodes
  exact ⟨came.sketch, unwritten.trans came.unwritten, leaves.trans came.leaves,
    nodes ▸ came.new, came.known, came.cell, fun m hm => by rw [came.old m (nodes ▸ hm), nodes]⟩

/-- The text that takes the place of an outlet. -/
theorem nodeOf (h : Sketch w₀ w) (proper : value.Proper w₀) :
    Succeeds run (nodeOf value) w (Lettered w₀ w (w₀.textOrEmpty (value.held w₀))) := by
  have plain := proper.plain
  cases value with
  | value v =>
    rw [← h.textOrEmpty_eq proper.old]
    cases v with
    | node n => cases plain
    | _ => exact .lift (h.newText _ run)
  | signal s => exact h.liveNode proper fun _ => TemplateValue.noConfusion
  | writable s => exact h.liveNode proper fun _ => TemplateValue.noConfusion
  | formula fn => exact h.liveNode proper fun _ => TemplateValue.noConfusion
  | listener l => exact plain.elim
  | component c => exact plain.elim

/-- The text that shows a value takes the place of its outlet. -/
theorem outlet (h : Sketch w₀ w) (proper : value.Proper w₀) (new : w₀.nodes.size ≤ element.index)
    (parent : (w.nodes.get element).parent = some p) (r : Template.Ref) :
    Succeeds run (fillElement element (.node r) value) w fun _ w' => Sketch w₀ w' ∧
      Unwritten w w' ∧ Leaves Unedited w w' ∧
        ∃ n, (w'.nodes.get n).content = .text (w₀.textOrEmpty (value.held w₀)) ∧
          (w'.nodes.get p).children =
            (w.nodes.get p).children.map fun c => if c = element then n else c := by
  refine .bind ((h.nodeOf proper).mono ?_)
  intro n w₁ came
  have above := Dom.Forest.known_of_mem_children ((h.linked.child p element).2 parent)
  have parent₁ : (w₁.nodes.get element).parent = some p := by
    rw [came.old element (Dom.Forest.Linked.known parent)]
    exact parent
  refine .bind (.lift ((came.sketch.replace new parent₁ (Nat.le_trans h.size came.new) came.known
    ?_ ?_ ?_ run).mono ?_))
  · exact congrArg Dom.Node.isFragment came.cell
  · exact congrArg Dom.Node.parent came.cell
  · exact congrArg Dom.Node.children came.cell
  rintro _ w₂ ⟨h₂, more, leaves, place⟩
  refine .pure ⟨h₂, came.unwritten.trans leaves, came.leaves.trans more, n, ?_, ?_⟩
  · exact more.data n _ (congrArg Dom.Node.content came.cell)
  · rw [place, came.old p above]

end Sketch

/-! What attributes are put together from. -/

namespace Render

/-- What a part of an attribute amounts to. -/
def partAmount (amount : TemplateValue → Value) (values : List TemplateValue) : Part → Value
  | .literal text => .string text
  | .slot index => ((values[index]?).map amount).getD .null

theorem partAmount_slot {amount : TemplateValue → Value} {i : Nat} (given : values[i]? = some value) :
    partAmount amount values (.slot i) = amount value := by
  simp only [partAmount, given, Option.map_some, Option.getD_some]

/-- No part is a node that is yet to be made. -/
theorem partAmount_old (proper : ∀ value ∈ values, value.Proper w) (part : Part) (n : NodeId)
    (hn : (partAmount (·.held w) values part).node? = some n) : n.index < w.nodes.size := by
  cases part with
  | literal text => cases hn
  | slot index =>
    cases given : values[index]? with
    | none =>
      simp only [partAmount, given] at hn
      cases hn
    | some value =>
      rw [partAmount_slot given] at hn
      exact (proper value (List.mem_of_getElem? given)).old n hn

/-- An attribute that is put together from parts. In one that is not a slot alone, null contributes
nothing. -/
def inscribedText (w : World) (amount : Part → Value) : List Part → Option String
  | [.slot index] => w.slotText (amount (.slot index))
  | parts => some (String.join (parts.map fun part => w.textOrEmpty (amount part)))

theorem inscribedText_slot {amount : TemplateValue → Value} {i : Nat}
    (given : values[i]? = some value) :
    inscribedText w (partAmount amount values) [.slot i] = w.slotText (amount value) :=
  congrArg w.slotText (partAmount_slot given)

theorem inscribedText_several {amount : Part → Value} (several : ∀ i, parts ≠ [.slot i]) :
    inscribedText w amount parts =
      some (String.join (parts.map fun part => w.textOrEmpty (amount part))) := by
  unfold inscribedText
  split
  case h_1 i => exact absurd rfl (several i)
  case h_2 => rfl

/-- A source comes to a value, and so it does later. -/
structure Source.Holds (w : World) (src : Source) (v : Value) : Prop where
  current : src.current w = v
  made : ∀ s, src = .signal s → s.index < w.signals.size

theorem Source.Holds.next {src : Source} (h : src.Holds w v) (unwritten : Unwritten w w') :
    src.Holds w' v := by
  refine ⟨?_, fun s hs => Nat.lt_of_lt_of_le (h.made s hs) unwritten.count⟩
  rw [← h.current]
  cases src with
  | signal s => exact congrArg (·.getD .null) (unwritten.content s (h.made s rfl))
  | _ => rfl

/-- The text of all sources is what comes of them now. By induction on the sources. -/
theorem joined_now (sources : List Source) (soFar : String) (w : World) (run : Runner) :
    ((joined soFar sources).run .passing : Op Value) run w =
      .ok (.string (soFar ++
        String.join (sources.map fun src => w.textOrEmpty (src.current w))), w) := by
  have value : ∀ (v : Value) (next : String → Reading),
      ((joined.joinedValue v next).run .passing : Op Value) run w =
        ((next (w.textOrEmpty v)).run .passing : Op Value) run w := by
    intro v next
    unfold joined.joinedValue World.textOrEmpty Value.textOrEmpty
    split
    · rfl
    · rfl
  induction sources generalizing soFar with
  | nil =>
    rw [List.map_nil, String.join_nil, String.append_empty]
    rfl
  | cons src rest ih =>
    rw [List.map_cons, String.join_cons, ← String.append_assoc]
    cases src with
    | literal text => exact ih _
    | value v => exact (value v _).trans (ih _)
    | signal s => exact (value _ _).trans (ih _)

end Render

namespace Sketch

/-- What a part of an attribute comes from. -/
theorem sourceOf (h : Sketch w₀ w) (plain : value.Plain w₀) :
    Succeeds run (sourceOf value) w fun src w' => Unwritten w w' ∧ w'.nodes = w.nodes ∧
      src.Holds w' (value.held w₀) := by
  refine .bind (.lift ((h.signal? plain run).mono ?_))
  rintro o w' ⟨unwritten, nodes, ⟨v, rfl, rfl⟩ | ⟨s, rfl, made, held⟩⟩
  · exact .pure ⟨unwritten, nodes, rfl, nofun⟩
  · refine .pure ⟨unwritten, nodes, held, ?_⟩
    rintro _ ⟨⟩
    exact made

/-- What the parts of an attribute come from. By induction on the parts. -/
theorem sourcesOf (h : Sketch w₀ w) (plain : ∀ value ∈ values, value.Plain w₀) :
    Succeeds run (parts.mapM (sourceOfPart values)) w fun sources w' => Unwritten w w' ∧
      w'.nodes = w.nodes ∧
        List.Forall₂ (fun src part => src.Holds w' (partAmount (·.held w₀) values part))
          sources parts := by
  induction parts generalizing w with
  | nil => exact .pure ⟨.refl w, rfl, .nil⟩
  | cons part parts ih =>
    rw [List.mapM_cons]
    have source : Succeeds run (sourceOfPart values part) w fun src w' => Unwritten w w' ∧
        w'.nodes = w.nodes ∧ src.Holds w' (partAmount (·.held w₀) values part) := by
      cases part with
      | literal text => exact .pure ⟨.refl w, rfl, rfl, nofun⟩
      | slot index =>
        unfold sourceOfPart
        dsimp only
        cases given : values[index]? with
        | none => exact .throw
        | some value =>
          rw [partAmount_slot given]
          exact .atSlot (h.sourceOf (plain value (List.mem_of_getElem? given)))
    refine .bind (source.mono ?_)
    rintro src w₁ ⟨first, nodes₁, holds⟩
    refine .bind ((ih (h.aside first nodes₁)).mono ?_)
    rintro sources w₂ ⟨more, nodes₂, rest⟩
    exact .pure ⟨first.trans more, nodes₂.trans nodes₁, .cons (holds.next more) rest⟩

/-- Texts of before are what they were. -/
theorem inscribedText_eq (h : Sketch w₀ w) {amount : Part → Value}
    (old : ∀ part ∈ parts, ∀ n, (amount part).node? = some n → n.index < w₀.nodes.size) :
    inscribedText w amount parts = inscribedText w₀ amount parts := by
  unfold inscribedText
  split
  case h_1 i =>
    unfold World.slotText
    rw [h.text_eq (old _ List.mem_cons_self)]
  case h_2 => rw [List.map_congr_left fun part mem => h.textOrEmpty_eq (old part mem)]

/-- The texts of sources are those of what the parts amount to. By induction on both. -/
theorem texts_of_holds (h : Sketch w₀ w) {sources : List Source} {amount : Part → Value}
    (old : ∀ part ∈ parts, ∀ n, (amount part).node? = some n → n.index < w₀.nodes.size)
    (holds : List.Forall₂ (fun src part => src.Holds w (amount part)) sources parts) :
    sources.map (fun src => w.textOrEmpty (src.current w)) =
      parts.map fun part => w₀.textOrEmpty (amount part) := by
  induction holds with
  | nil => rfl
  | @cons src part _ _ here _ ih =>
    obtain ⟨first, rest⟩ := List.forall_mem_cons.1 old
    rw [List.map_cons, List.map_cons, ih rest, here.current, h.textOrEmpty_eq first]

/-- An attribute is put together. -/
theorem program (h : Sketch w₀ w) (new : w₀.nodes.size ≤ n.index)
    (isElement : (w.nodes.get n).element?.isSome = true)
    (proper : ∀ value ∈ values, value.Proper w₀) :
    Succeeds run (fillProgram values n name parts) w fun _ w' => Sketch w₀ w' ∧ Unwritten w w' ∧
      Leaves (Effect.Touches (.wholeAttr name) n) w w' ∧
        (w'.nodes.attributes n).value? name =
          inscribedText w₀ (partAmount (·.held w₀) values) parts := by
  by_cases one : ∃ i, parts = [.slot i]
  · obtain ⟨i, rfl⟩ := one
    unfold fillProgram inscribedText
    dsimp only
    cases given : values[i]? with
    | none => exact .throw
    | some value =>
      rw [partAmount_slot given]
      have here := proper value (List.mem_of_getElem? given)
      refine .atSlot ((h.connect (e := .attr name) new nofun isElement here).mono ?_)
      rintro _ w' ⟨h', unwritten, leaves, written⟩
      exact ⟨h', unwritten, leaves, written name _ rfl⟩
  have several : ∀ i, parts ≠ [.slot i] := fun i same => one ⟨i, same⟩
  rw [fillProgram_several several, inscribedText_several several]
  generalize together : String.join (parts.map fun part =>
    w₀.textOrEmpty (partAmount (·.held w₀) values part)) = whole
  refine .bind ((h.sourcesOf fun value mem => (proper value mem).plain).mono ?_)
  rintro sources w₁ ⟨first, nodes₁, holds⟩
  have h₁ := h.aside first nodes₁
  have isElement₁ : (w₁.nodes.get n).element?.isSome = true := nodes₁ ▸ isElement
  have leaves₁ : Leaves (Effect.Touches (.wholeAttr name) n) w w₁ := .of_nodes nodes₁
  have texts := h₁.texts_of_holds (fun part _ => partAmount_old proper part) holds
  have ran := joined_now sources "" w₁ run
  rw [texts, String.empty_append, together] at ran
  cases live : sources.any Source.isSignal with
  | true =>
    rw [if_pos rfl]
    refine .bind (.lift fun s w₂ created => ?_)
    cases (Derivation.create_run ran).symm.trans created
    have more := Derivation.unwritten_made (joined "" sources) (.string whole) w₁
    have h₂ := h₁.aside more rfl
    refine .lift ((h₂.bind (e := .wholeAttr name) new nofun isElement₁ _ run).mono ?_)
    rintro _ w₃ ⟨h₃, last, leaves, written⟩
    have leaves₂ : Leaves (Effect.Touches (.wholeAttr name) n) w₁
        (Derivation.made (joined "" sources) (.string whole) w₁) := .of_nodes rfl
    refine ⟨h₃, (first.trans more).trans last, (leaves₁.trans leaves₂).trans leaves, ?_⟩
    rw [(Derivation.content_made (joined "" sources) (.string whole) w₁).2] at written
    exact written name _ rfl
  | false =>
    rw [if_neg Bool.false_ne_true]
    refine .bind (.lift fun v w₂ ran' => ?_)
    cases ran.symm.trans ran'
    refine .lift ((h₁.apply (e := .wholeAttr name) new nofun isElement₁ run).mono ?_)
    rintro _ w₃ ⟨h₃, more, leaves, written⟩
    exact ⟨h₃, first.trans more, leaves₁.trans leaves, written name _ rfl⟩

end Sketch
end LiveMarkup.Live
