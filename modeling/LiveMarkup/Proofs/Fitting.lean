import LiveMarkup.Proofs.Hosting

/-!
Fitting: which value a slot takes, and what is done with it at an element that is not mounted. A value
that does not fit is found out when its slot is filled, or with the program that its slot is part of.
-/
namespace LiveMarkup.Live
open Template (Slot DirectiveKind Part Programs)

/-- What keeps a value from being shown. -/
def TemplateValue.unshown? : TemplateValue → Option RenderFault
  | .listener _ => some .unrenderableValue
  | _ => none

/-- The signal of a value can be had: what a formula computes comes to an end. -/
def TemplateValue.Ends (w : World) : TemplateValue → Prop
  | .formula fn => (w.formulas.get fn).reading.Ends w.names
  | _ => True

/-- What keeps a value from a slot. -/
def Render.misfit? : Slot → TemplateValue → Option RenderFault
  | .component _, .component _ => none
  | .component _, _ => some .expectedComponent
  | .directive .on _ _, .listener _ => none
  | .directive .on _ _, _ => some .expectedListener
  | .directive .ref _ _, .writable _ => none
  | .directive .bind name _, .writable _ =>
    match Dom.BindingKey.ofName? name with
    | some _ => none
    | none => some (.unknownBindingKey name)
  | .directive .ref _ _, _ | .directive .bind _ _, _ => some .expectedWritable
  | .node _, value | .attr _ _ _, value | .directive .classes _ _, value
  | .directive .style _ _, value => value.unshown?

/-- What keeps a part of a program from being put in. -/
def Render.partFailure? (values : List TemplateValue) : Part → Option RenderFailure
  | .literal _ => none
  | .slot index =>
    match values[index]? with
    | some value => value.unshown?.map (⟨·, some index⟩)
    | none => some ⟨.unrenderableValue, some index⟩

variable {mark : String} {w w₁ w' : World} {value : TemplateValue} {element : NodeId} {e : Effect}

theorem Retains.value_ends (h : Retains w w') (ends : value.Ends w) : value.Ends w' := by
  cases value with
  | formula fn =>
    show (w'.formulas.get fn).reading.Ends w'.names
    rw [h.formulas]
    exact h.ends ends
  | _ => trivial

/-- Whether a value is a signal or comes to be one. -/
def TemplateValue.isLive : TemplateValue → Bool
  | .signal _ | .writable _ | .formula _ => true
  | _ => false

variable (mark)

theorem signal?_settles (ends : value.Ends w) :
    Settles value.signal? w fun s w' => s.isSome = value.isLive ∧ Nearby mark w w' := by
  cases value with
  | formula fn =>
    exact (derived_settles mark ends).bind fun s _ near => .pure ⟨rfl, near⟩
  | _ => exact .pure ⟨rfl, .refl mark w⟩

/-! Hooks wait where nothing is mounted. -/

theorem onMount_settles (unmounted : (w.nodes.get element).connected = false) (h : Hook) :
    Settles (Lifecycle.onMount element h) w fun _ w' => Nearby mark w w' := by
  let w₁ : World := { w with mountHooks := w.mountHooks ++ [(element, h)] }
  refine Settles.bind (Q := fun _ w' => w' = w₁) (Settles.modify rfl) ?_
  rintro _ _ rfl
  refine Settles.get_bind ?_
  have waits : Mount.isConnected w₁ element ≠ true := by
    rw [Mount.isConnected, unmounted]
    exact Bool.false_ne_true
  rw [if_neg waits]
  exact .pure (.of_eq rfl rfl rfl)

theorem listenWhileMounted_settles (unmounted : (w.nodes.get element).connected = false)
    (event : String) (l : ListenerId) :
    Settles (Events.listenWhileMounted element event l) w fun _ w' => Nearby mark w w' :=
  (onMount_settles mark unmounted _).bind fun _ _ near =>
    Settles.modify (near.trans (.of_eq rfl rfl rfl))

theorem follow_settles (unmounted : (w.nodes.get element).connected = false) (s : SignalId)
    (e : Effect) : Settles (Lifecycle.follow element s (.effect element e) .immediate) w
      fun _ w' => Nearby mark w w' :=
  .of_eq (Lifecycle.follow_run unmounted) (.of_eq rfl rfl rfl)

variable {mark}

/-! Effects. -/

theorem apply_settles (spares : e.Spares mark) (element : NodeId) (v : Value) :
    Settles (e.apply element v) w fun _ w' => Nearby mark w w' := by
  obtain ⟨g, same, small, eq⟩ := Effect.apply_eq spares element v
  rw [eq]
  exact Settles.get_bind (Settles.modify
    (.of_nodes (.mapElement element (same w) (small w)) rfl rfl))

theorem bind_settles (spares : e.Spares mark)
    (unmounted : (w.nodes.get element).connected = false) (s : SignalId) :
    Settles (e.bind element s) w fun _ w' => Nearby mark w w' := by
  refine Settles.get_bind ((apply_settles spares element _).bind fun _ w₁ near => ?_)
  have still : (w₁.nodes.get element).connected = false :=
    (near.kept.connected element).trans unmounted
  exact (follow_settles mark still s e).mono fun _ _ more => near.trans more

theorem connect_answers (spares : e.Spares mark)
    (unmounted : (w.nodes.get element).connected = false) (ends : value.Ends w) :
    Answers mark value.unshown? (e.connect element value) w := by
  refine Answers.lift_bind (signal?_settles mark ends) fun s w₁ live near => ?_
  have still : (w₁.nodes.get element).connected = false :=
    (near.kept.connected element).trans unmounted
  cases s with
  | some s =>
    have shown : value.unshown? = none := by
      cases value with
      | listener l => cases live
      | _ => rfl
    rw [shown]
    exact Answers.lift (bind_settles spares still s)
  | none =>
    cases value with
    | value v => exact Answers.lift (apply_settles spares element v)
    | component c => exact Answers.lift (apply_settles spares element _)
    | listener l => exact Answers.throw _
    | _ => cases live

theorem sourceOf_answers (ends : value.Ends w) :
    Answers mark value.unshown? (Render.sourceOf value) w := by
  refine Answers.lift_bind (signal?_settles mark ends) fun s _ live _ => ?_
  cases s with
  | some s =>
    cases value with
    | listener l => cases live
    | _ => exact Answers.pure _
  | none =>
    cases value with
    | value v => exact Answers.pure _
    | component c => exact Answers.pure _
    | listener l => exact Answers.throw _
    | _ => cases live

namespace Render

theorem twoWay_settles (unmounted : (w.nodes.get element).connected = false) (s : SignalId)
    (key : Dom.BindingKey) : Settles (twoWay element s key) w fun _ w' => Nearby mark w w' := by
  have made : ∀ h, Settles (Events.create h) w fun _ w' => Nearby mark w w' :=
    fun h => .of_eq (fun _ => rfl) (.of_eq rfl rfl rfl)
  refine (made _).bind fun l w₁ near => ?_
  have still : (w₁.nodes.get element).connected = false :=
    (near.kept.connected element).trans unmounted
  refine (listenWhileMounted_settles mark still "input" l).bind fun _ w₂ more => ?_
  have still₂ : (w₂.nodes.get element).connected = false :=
    (more.kept.connected element).trans still
  have spares : Effect.Spares mark (.form key) := trivial
  exact (bind_settles spares still₂ s).mono fun _ _ last => near.trans (more.trans last)

variable {values : List TemplateValue}

theorem directive_answers {kind : DirectiveKind} (spares : kind.Spares mark)
    (unmounted : (w.nodes.get element).connected = false) (ends : value.Ends w) (name : String)
    (r : Template.Ref) :
    Answers mark (misfit? (.directive kind name r) value) (directive element kind name value) w := by
  have shown : ∀ e : Effect, e.Spares mark → Answers mark value.unshown? (do
      e.connect element value
      return [] : Fitting Asked) w := by
    intro e he
    exact (connect_answers he unmounted ends).bind_safe fun _ _ _ => Answers.pure []
  cases kind with
  | classes => exact shown (.classes name) spares
  | style => exact shown (.style name) spares
  | on =>
    cases value with
    | listener l =>
      refine Answers.lift_bind (P := fun _ => True) ?_ fun _ _ _ _ => Answers.pure _
      exact (listenWhileMounted_settles mark unmounted name l).mono fun _ _ near => ⟨trivial, near⟩
    | _ => exact Answers.throw _
  | ref =>
    cases value with
    | writable s => exact Answers.pure _
    | _ => exact Answers.throw _
  | bind =>
    cases value with
    | writable s =>
      unfold directive misfit?
      dsimp only
      cases Dom.BindingKey.ofName? name with
      | some key =>
        refine Answers.lift_bind (P := fun _ => True) ?_ fun _ _ _ _ => Answers.pure _
        exact (twoWay_settles unmounted s key).mono fun _ _ near => ⟨trivial, near⟩
      | none => exact Answers.throw _
    | _ => exact Answers.throw _

/-- A slot in a quoted attribute takes any value for now. -/
theorem attributeSlot_answers {name : String} (spares : Text.lowercase mark ≠ Text.lowercase name)
    (unmounted : (w.nodes.get element).connected = false) (ends : value.Ends w)
    (quote : Template.Quote) (r : Template.Ref) :
    Answers mark (if quote = .none then value.unshown? else none)
      (fillElement element (.attr name quote r) value) w := by
  unfold fillElement
  dsimp only
  split
  · have spares : Effect.Spares mark (.attr name) := spares
    exact (connect_answers spares unmounted ends).bind_safe fun _ _ _ => Answers.pure []
  · exact Answers.pure _

/-! Programs. -/

theorem sourceOfPart_answers (ends : ∀ value ∈ values, value.Ends w) (part : Part) :
    Answers mark (partFailure? values part) (sourceOfPart values part) w := by
  cases part with
  | literal text => exact Answers.pure _
  | slot index =>
    unfold sourceOfPart partFailure?
    dsimp only
    cases found : values[index]? with
    | some value => exact (sourceOf_answers (ends value (List.mem_of_getElem? found))).atSlot _
    | none => exact Answers.throw _

/-- What sources make together can be computed. By induction on the sources. -/
theorem joined_ends (names : Names) (soFar : String) (sources : List Source) :
    (joined soFar sources).Ends names := by
  have value : ∀ v next, (∀ s, Reading.Ends names (next s)) →
      (joined.joinedValue v next).Ends names := by
    intro v next h
    unfold joined.joinedValue
    split
    · exact h ""
    · exact h
  induction sources generalizing soFar with
  | nil => trivial
  | cons source rest ih =>
    cases source with
    | literal text => exact ih _
    | value v => exact value v _ fun s => ih _
    | signal s => exact fun v => value _ _ fun s => ih _

theorem fillProgram_answers {name : String} (spares : Text.lowercase mark ≠ Text.lowercase name)
    (unmounted : (w.nodes.get element).connected = false) (ends : ∀ value ∈ values, value.Ends w)
    (parts : List Part) :
    Answers mark (parts.findSome? (partFailure? values)) (fillProgram values element name parts) w := by
  unfold fillProgram
  split
  case h_1 index =>
    rw [findSome?_cons_or, List.findSome?_nil, Option.or_none]
    unfold partFailure?
    dsimp only
    cases found : values[index]? with
    | some value =>
      have spares : Effect.Spares mark (.attr name) := spares
      exact (connect_answers spares unmounted (ends value (List.mem_of_getElem? found))).atSlot _
    | none => exact Answers.throw _
  case h_2 =>
    have spares : Effect.Spares mark (.wholeAttr name) := spares
    have sources : Answers mark (parts.findSome? (partFailure? values))
        (parts.mapM (sourceOfPart values)) w :=
      Answers.mapM fun part _ _ near => sourceOfPart_answers
        (fun value hv => near.value_ends (ends value hv)) part
    refine sources.bind_safe fun sources w₁ near => ?_
    have still : (w₁.nodes.get element).connected = false :=
      (near.kept.connected element).trans unmounted
    have ends := joined_ends w₁.names "" sources
    dsimp only
    split
    · refine Answers.lift_bind (P := fun _ => True)
        ((createDerivation_settles mark ends).mono fun _ _ near => ⟨trivial, near⟩)
        fun s w₂ _ more => Answers.lift (bind_settles spares ?_ s)
      exact (more.kept.connected element).trans still
    · exact Answers.lift_bind (P := fun _ => True)
        ((reading_settles mark ends).mono fun _ _ near => ⟨trivial, near⟩)
        fun v w₂ _ _ => Answers.lift (apply_settles spares element v)

theorem fillAttributes_answers {programs : Programs}
    (spares : ∀ p ∈ programs.entries, Text.lowercase mark ≠ Text.lowercase p.1)
    (unmounted : (w.nodes.get element).connected = false) (ends : ∀ value ∈ values, value.Ends w) :
    Answers mark (programs.entries.findSome? fun p => p.2.findSome? (partFailure? values))
      (fillAttributes values element programs) w :=
  Answers.forM fun p hp _ near => fillProgram_answers (spares p hp)
    ((near.kept.connected element).trans unmounted)
    (fun value hv => near.value_ends (ends value hv)) p.2

end Render
end LiveMarkup.Live
