import LiveMarkup.Proofs.Unaided
import LiveMarkup.Proofs.Grafting
import LiveMarkup.Proofs.Binding

/-!
Failure: what a rendering that fails leaves behind. Slots are filled one after another, and a node
that comes in for one of them is moved at once. Nodes that stood alone before are taken off the copy
again, and signals and hooks of before are left alone all along, so that such a failure leaves no
trace. A node that was somewhere has lost its place.
-/
namespace LiveMarkup.Live
namespace Render

open Template (Slot Descriptor Ref Programs)

/-- What is fixed while a copy is filled that may be given up. -/
structure Trial where
  start : World
  grounds : Dom.Grounds
  /-- The attribute that marks elements. -/
  mark : String
  /-- The nodes when the copy was just made. -/
  copy : Dom.Forest

/-- The nodes of before are as they were, but that those that were given may hang below the copy, and
so are their hooks and the signals of before. -/
structure Trial.Contained (t : Trial) (w : World) : Prop where
  grafted : t.grounds.Grafted w.nodes
  size : t.copy.size ≤ w.nodes.size
  marks : ∀ n value, w.nodes.Carries t.mark value n → t.copy.Carries t.mark value n
  mounts : ∀ n, ¬ t.grounds.New n → hooksOf n w.mountHooks = hooksOf n t.start.mountHooks
  unmounts : ∀ n, ¬ t.grounds.New n → hooksOf n w.unmountHooks = hooksOf n t.start.unmountHooks
  signalCount : t.start.signals.size ≤ w.signals.size
  signals : ∀ s, s.index < t.start.signals.size → w.signals.get s = t.start.signals.get s

theorem hooksOf_append (n : NodeId) (l l' : List (NodeId × Hook)) :
    hooksOf n (l ++ l') = hooksOf n l ++ hooksOf n l' :=
  List.filterMap_append

theorem hooksOf_of_ne {n m : NodeId} (ne : m ≠ n) (h : Hook) : hooksOf n [(m, h)] = [] := by
  simp [hooksOf, ne]

namespace Trial
variable {t : Trial} {w w' : World} {n m e : NodeId}

namespace Contained

theorem of_elsewhere (h : t.Contained w) (apart : Elsewhere w w') : t.Contained w' := by
  obtain ⟨nodes, mountHooks, unmountHooks, signals⟩ := apart
  refine ⟨nodes ▸ h.grafted, nodes ▸ h.size, nodes ▸ h.marks, mountHooks ▸ h.mounts, unmountHooks ▸ h.unmounts,
    ?_, fun s hs => ?_⟩
  · rcases signals with same | ⟨signal, more⟩
    · rw [same]
      exact h.signalCount
    · rw [more, Heap.size_push]
      exact Nat.le_succ_of_le h.signalCount
  · rcases signals with same | ⟨signal, more⟩
    · rw [same]
      exact h.signals s hs
    · rw [more, Heap.get_push_of_lt _ _ _ (Nat.lt_of_lt_of_le hs h.signalCount)]
      exact h.signals s hs

/-- A change of the nodes alone. -/
theorem of_nodes {f : Dom.Forest} (h : t.Contained w) (grafted : t.grounds.Grafted f)
    (size : w.nodes.size ≤ f.size)
    (marks : ∀ n value, f.Carries t.mark value n → w.nodes.Carries t.mark value n) :
    t.Contained { w with nodes := f } :=
  ⟨grafted, Nat.le_trans h.size size, fun n value hn => h.marks n value (marks n value hn),
    h.mounts, h.unmounts, h.signalCount, h.signals⟩

theorem create (h : t.Contained w) {content : Dom.Content}
    (unmarked : ∀ name value, content.carries name value = false) :
    t.Contained { w with nodes := (w.nodes.create content).2 } :=
  h.of_nodes (h.grafted.create content)
    (Nat.le_of_lt (Nat.lt_of_lt_of_eq (Nat.lt_succ_self _) (Dom.Forest.size_create content).symm))
    fun _ value hn => Dom.Forest.carries_of_create (unmarked t.mark value) hn

/-- A hook for a new node. -/
theorem mount (h : t.Contained w) (hn : t.grounds.New n) (hook : Hook) :
    t.Contained { w with mountHooks := w.mountHooks ++ [(n, hook)] } := by
  refine ⟨h.grafted, h.size, h.marks, fun m hm => ?_, h.unmounts, h.signalCount, h.signals⟩
  have ne : n ≠ m := by
    rintro rfl
    exact hm hn
  rw [hooksOf_append, hooksOf_of_ne ne, List.append_nil]
  exact h.mounts m hm

theorem unmount (h : t.Contained w) (hn : t.grounds.New n) (hook : Hook) :
    t.Contained { w with unmountHooks := w.unmountHooks ++ [(n, hook)] } := by
  refine ⟨h.grafted, h.size, h.marks, h.mounts, fun m hm => ?_, h.signalCount, h.signals⟩
  have ne : n ≠ m := by
    rintro rfl
    exact hm hn
  rw [hooksOf_append, hooksOf_of_ne ne, List.append_nil]
  exact h.unmounts m hm

end Contained

/-! The invariant, and beside it that a node may take the place of an element. -/

variable (t)

theorem closed : Closed (Safe t.Contained) :=
  safe_closed (fun _ _ unmarked h => h.create unmarked) fun _ _ apart h => h.of_elsewhere apart

/-- A node is fit to take the place of an element. -/
def Fit (e m : NodeId) (w : World) : Prop :=
  t.Contained w ∧ t.grounds.Fresh w.nodes e m

theorem closed_fit (e m : NodeId) : Closed (Safe (t.Fit e m)) :=
  safe_closed (fun _ content unmarked h => ⟨h.1.create unmarked, h.2.create content⟩)
    fun _ _ apart h => ⟨h.1.of_elsewhere apart, apart.nodes ▸ h.2⟩

variable {t}

/-- A new node is not mounted, so that its hooks have to wait. -/
theorem onMount_unaided (h : t.Contained w) (hn : t.grounds.New n) (hook : Hook) :
    Unaided (Lifecycle.onMount n hook) w fun _ w' =>
      w' = { w with mountHooks := w.mountHooks ++ [(n, hook)] } := by
  refine Unaided.bind (Q := fun _ w' => w' = { w with mountHooks := w.mountHooks ++ [(n, hook)] })
    (Unaided.modify rfl) ?_
  rintro _ _ rfl
  refine Unaided.get_bind ?_
  rw [if_neg]
  · exact .pure rfl
  · rw [Mount.isConnected, h.grafted.unconnected hn]
    exact Bool.false_ne_true

theorem closedAt (hn : t.grounds.New n) : ClosedAt (Safe t.Contained) n where
  toClosed := t.closed
  onMount hook _ h := (onMount_unaided h hn hook).mono fun _ _ eq => eq ▸ h.mount hn hook
  onUnmount hook _ h := Unaided.modify (h.unmount hn hook)

theorem closedAt_fit (hn : t.grounds.New n) (e m : NodeId) : ClosedAt (Safe (t.Fit e m)) n where
  toClosed := t.closed_fit e m
  onMount hook _ h := (onMount_unaided h.1 hn hook).mono fun _ _ eq =>
    eq ▸ ⟨h.1.mount hn hook, h.2⟩
  onUnmount hook _ h := Unaided.modify ⟨h.1.unmount hn hook, h.2⟩

theorem writes (hn : t.grounds.New n) : Writes (Safe t.Contained) t.mark n where
  toClosedAt := closedAt hn
  change same _ h := Unaided.modify <| h.of_nodes (h.grafted.mapElement hn _)
    (Nat.le_of_eq (Heap.size_modify ..).symm) fun _ _ hm =>
      Dom.Forest.carries_of_mapElement same hm

/-! Moving nodes. -/

/-- A node that may take the place of an element is not mounted. -/
theorem unconnected_of_fit (h : t.Fit e m w) : (w.nodes.get m).connected = false := by
  obtain ⟨contained, fresh⟩ := h
  rcases fresh.origin with given | ⟨new, -⟩
  · rw [contained.grafted.connected]
    exact t.grounds.unmounted m given
  · exact contained.grafted.unconnected new

theorem replace_unaided (he : t.grounds.New e) (hollow : t.grounds.hollow e) (h : t.Fit e m w) :
    Unaided (Mount.replace e [m]) w fun _ w' => t.Contained w' := by
  obtain ⟨contained, fresh⟩ := h
  have unmounted := unconnected_of_fit ⟨contained, fresh⟩
  have relinked : w.nodes.Relinked (w.nodes.splice e [m]).1 := .splice e [m]
  obtain ⟨grafted, inside⟩ :=
    contained.grafted.splice he (contained.grafted.hollow e he hollow) fresh
  refine .of_eq (Mount.replace_same (contained.grafted.unconnected he) fun p incoming eq => ?_)
    (contained.of_nodes grafted (Nat.le_of_eq relinked.size.symm) fun n value hn =>
      (relinked.carries t.mark value n).1 hn)
  obtain ⟨hp, rfl⟩ := inside p incoming eq
  exact ⟨contained.grafted.unconnected hp, List.forall_mem_singleton.2 unmounted⟩

/-! The node that takes the place of an outlet. -/

theorem create_unaided (h : t.Contained w) (he : e.index < t.copy.size) (text : String) :
    Unaided (onNodes (·.create (.text text))) w fun m w' => m = w.nodes.next ∧ t.Fit e m w' :=
  .of_eq (fun _ => rfl)
    ⟨rfl, h.create fun _ _ => rfl, .of_create h.grafted (Nat.lt_of_lt_of_le he h.size) text⟩

theorem signalNode_unaided (h : t.Contained w) (he : e.index < t.copy.size) (s : SignalId) :
    Unaided (signalNode s) w fun m w' => t.Fit e m w' := by
  refine Unaided.get_bind ((create_unaided h he _).bind ?_)
  rintro _ w₁ ⟨rfl, made⟩
  have new : t.grounds.New w.nodes.next := h.grafted.longer
  have followed := (closedAt_fit new e w.nodes.next).follow s (.effect w.nodes.next .text) .immediate
  exact (followed w₁ made).bind fun _ w₂ h₂ => .pure h₂

/-- What yields a fit node does so as an operation that may fail. -/
theorem ok_unaided {x : Op NodeId} (hx : Unaided x w fun m w' => t.Fit e m w') :
    Unaided (liftM x : Fitting NodeId).run w fun r w' =>
      t.Contained w' ∧ ∀ m, r = .ok m → t.Fit e m w' := by
  rw [run_liftM]
  refine hx.bind fun m w' hw' => .pure ⟨hw'.1, fun m' eq => ?_⟩
  cases eq
  exact hw'

theorem nodeOf_unaided {value : TemplateValue}
    (given : ∀ n, value.node? = some n → t.grounds.given n) (h : t.Contained w)
    (he : e.index < t.copy.size) :
    Unaided (nodeOf value).run w fun r w' => t.Contained w' ∧ ∀ m, r = .ok m → t.Fit e m w' := by
  have brought : ∀ n, value.node? = some n → Unaided (pure n : Fitting NodeId).run w
      fun r w' => t.Contained w' ∧ ∀ m, r = .ok m → t.Fit e m w' := by
    refine fun n hn => .pure ⟨h, fun m eq => ?_⟩
    cases eq
    exact ⟨h, .of_given h.grafted (given n hn) e⟩
  have shown : ∀ text, Unaided (liftM (onNodes (·.create (.text text))) : Fitting NodeId).run w
      fun r w' => t.Contained w' ∧ ∀ m, r = .ok m → t.Fit e m w' :=
    fun text => ok_unaided ((create_unaided h he text).mono fun _ _ made => made.2)
  have fails : ∀ fault w₁, t.Contained w₁ → Unaided (throw fault : Fitting NodeId).run w₁
      fun r w' => t.Contained w' ∧ ∀ m, r = .ok m → t.Fit e m w' :=
    fun fault w₁ h₁ => .pure ⟨h₁, fun _ eq => by cases eq⟩
  cases value with
  | value v =>
    cases v with
    | node n => exact brought n rfl
    | _ => exact (shown (w.textOrEmpty _)).congr fun _ => rfl
  | component c => exact brought c.node rfl
  | signal s => exact ok_unaided (signalNode_unaided h he s)
  | writable s => exact ok_unaided (signalNode_unaided h he s)
  | listener l => exact fails _ w h
  | formula fn =>
    refine Unaided.run_lift_bind (t.closed.signal? (.formula fn) w h) fun s w₁ h₁ => ?_
    cases s with
    | none => exact fails _ w₁ h₁
    | some s => exact ok_unaided (signalNode_unaided h₁ he s)

end Trial

/-- A value stands for the node. -/
def Given (values : List TemplateValue) (n : NodeId) : Prop :=
  ∃ value ∈ values, value.node? = some n

theorem Given.brought {values : List TemplateValue} {n : NodeId} (h : Given values n)
    (f : Dom.Forest) : Brought f values n := by
  obtain ⟨value, mem, node⟩ := h
  exact .given mem node

/-- The nodes that come in through values stand alone: they have no parent, they are not mounted, and
they are no fragments, which would give their children away. Nothing in them is marked. -/
structure Loose (f : Dom.Forest) (d : Descriptor) (values : List TemplateValue) : Prop where
  known : ∀ n, Brought f values n → n.index < f.size
  alone : ∀ n, Given values n →
    (f.get n).parent = none ∧ (f.get n).connected = false ∧ (f.get n).isFragment = false
  unmarked : ∀ n, Brought f values n → ∀ r ∈ refs d, ¬ f.Carries d.config.refAttribute r.text n

/-- Whether attributes mark an outlet for text. -/
def isOutlet (d : Descriptor) (a : Markup.Attributes) : Bool :=
  d.slots.any fun
    | .node r => a.value? d.config.refAttribute == some r.text
    | _ => false

/-- There are no outlets for components, and nothing is in those for text. -/
structure Plain (d : Descriptor) : Prop where
  components : ∀ r, Slot.component r ∉ d.slots
  hollow : Markup.hollowAll (isOutlet d) d.fragment = true

/-- What a failure leaves as it was: every node of before, with its links, its data and its hooks, and
every signal of before, with its value and its subscribers. -/
structure Untouched (w w' : World) : Prop where
  nodes : ∀ n, n.index < w.nodes.size → w'.nodes.get n = w.nodes.get n
  mounts : ∀ n, n.index < w.nodes.size → hooksOf n w'.mountHooks = hooksOf n w.mountHooks
  unmounts : ∀ n, n.index < w.nodes.size → hooksOf n w'.unmountHooks = hooksOf n w.unmountHooks
  signals : ∀ s, s.index < w.signals.size → w'.signals.get s = w.signals.get s

section
variable {w w₁ w' : World} {d : Descriptor} {values : List TemplateValue}
  (loose : Loose w.nodes d values)

/-- The nodes that values stand for, and the outlets for text in the copy. -/
def trial : Trial where
  start := w
  grounds :=
    { before := w.nodes
      root := w.nodes.next
      given := Given values
      hollow := fun n => ∃ r, Slot.node r ∈ d.slots ∧
        (copied w d).nodes.Carries d.config.refAttribute r.text n
      new := Nat.le_refl _
      known := fun n hn => loose.known n (hn.brought w.nodes)
      whole := fun n hn => (loose.alone n hn).2.2
      unmounted := fun n hn => (loose.alone n hn).2.1
      loose := fun n hn => (loose.alone n hn).1 }
  mark := d.config.refAttribute
  copy := (copied w d).nodes

theorem contained_copied (plain : Plain d) : (trial loose).Contained (copied w d) := by
  have planted := (Dom.Forest.planted w.nodes d.fragment).2
  have hollow := Dom.Forest.hollow_planted (f := w.nodes) plain.hollow
  refine ⟨Dom.Grounds.grafted_of_planted planted rfl fun n hn outlet => ?_, Nat.le_refl _,
    fun _ _ h => h, fun _ _ => rfl, fun _ _ => rfl, Nat.le_refl _, fun _ _ => rfl⟩
  obtain ⟨r, hr, carries⟩ := outlet
  unfold Dom.Forest.Carries Dom.Content.carries at carries
  split at carries
  case h_1 e content =>
    refine hollow n hn e content ?_
    exact List.any_eq_true.2 ⟨.node r, hr, carries⟩
  case h_2 => cases carries

variable {loose}

/-- A search comes to a new element, which carries the marker since the copy was made. -/
theorem new_of_found (h : (trial loose).Contained w₁) {r : Ref} (hr : r ∈ refs d) {e : NodeId}
    (hit : found d w.nodes.next r w₁ = some e) : (trial loose).grounds.New e ∧
      (trial loose).copy.Carries (trial loose).mark r.text e := by
  have old : ∀ n, Brought w.nodes values n → ¬ (trial loose).grounds.New n :=
    fun n hn => Nat.not_le.2 (loose.known n hn)
  obtain ⟨new, carries⟩ := h.grafted.new_of_find (fun n hn => hn.brought w.nodes)
    (fun p hp c hc => .child hp hc) old (fun n hn => loose.unmarked n hn r hr) hit
  exact ⟨new, h.marks e _ carries⟩

theorem find_unaided (h : (trial loose).Contained w₁) {r : Ref} (hr : r ∈ refs d)
    (index : Option Nat) :
    Unaided ((find d w.nodes.next r).atSlot index).run w₁ fun answer w' => w' = w₁ ∧
      ∀ e, answer = .ok e → (trial loose).grounds.New e ∧
        (trial loose).copy.Carries (trial loose).mark r.text e := by
  cases hit : found d w.nodes.next r w₁ with
  | some n =>
    have read : ∀ run, ((find d w.nodes.next r).atSlot index).run run w₁ = .ok (.ok n, w₁) := by
      intro run
      rw [atSlot_run, find_run, hit]
      rfl
    refine .of_eq read ⟨rfl, fun e eq => ?_⟩
    cases eq
    exact new_of_found h hr hit
  | none =>
    have read : ∀ run, ((find d w.nodes.next r).atSlot index).run run w₁ =
        .ok (.error ⟨.missingReference r, index⟩, w₁) := by
      intro run
      rw [atSlot_run, find_run, hit]
      rfl
    exact .of_eq read ⟨rfl, fun e eq => by cases eq⟩

theorem fillElement_unaided (plain : Plain d) (sound : Sound d) (h : (trial loose).Contained w₁)
    {slot : Slot} (hs : slot ∈ d.slots) {value : TemplateValue} (hv : value ∈ values) {e : NodeId}
    (he : (trial loose).grounds.New e)
    (carries : (trial loose).copy.Carries (trial loose).mark slot.ref.text e) :
    Unaided (fillElement e slot value).run w₁ fun _ w' => (trial loose).Contained w' := by
  have spares := sound.slots slot hs
  cases slot with
  | attr name quote ref => exact (Trial.writes he).attributeSlot spares quote ref value w₁ h
  | directive kind name ref => exact (Trial.writes he).directive spares name value w₁ h
  | component ref => exact absurd hs (plain.components ref)
  | node ref =>
    have given : ∀ n, value.node? = some n → (trial loose).grounds.given n :=
      fun n hn => ⟨value, hv, hn⟩
    have node := Trial.nodeOf_unaided given h (Dom.Forest.known_of_carries carries)
    refine node.run_bind (fun m w₂ h₂ => ?_) fun _ _ h₂ => h₂.1
    have replaced := Trial.replace_unaided he ⟨ref, hs, carries⟩ (h₂.2 m rfl)
    exact Unaided.run_lift_bind replaced fun _ w₃ h₃ => .pure h₃

theorem safe_fill (plain : Plain d) (sound : Sound d) {slot : Slot} (hs : slot ∈ d.slots)
    {value : TemplateValue} (hv : value ∈ values) (index : Option Nat) :
    Safe (trial loose).Contained ((fill d w.nodes.next slot value).atSlot index).run := by
  intro w₁ h
  have hr : slot.ref ∈ refs d := List.mem_append_left _ (List.mem_map_of_mem hs)
  unfold fill
  rw [atSlot_bind]
  refine (find_unaided h hr index).run_bind ?_ ?_
  · rintro e _ ⟨rfl, he⟩
    obtain ⟨new, carries⟩ := he e rfl
    exact (fillElement_unaided plain sound h hs hv new carries).atSlot index
  · rintro e _ ⟨rfl, -⟩
    exact h

theorem safe_fillSlots (plain : Plain d) (sound : Sound d) {l : List (Slot × TemplateValue)}
    (hl : ∀ p ∈ l, p.1 ∈ d.slots ∧ p.2 ∈ values) (index : Nat) :
    Safe (trial loose).Contained (fillSlots d w.nodes.next index l).run := by
  have closed := (trial loose).closed
  induction l generalizing index with
  | nil => exact closed.run_pure []
  | cons p l ih =>
    obtain ⟨⟨hs, hv⟩, rest⟩ := List.forall_mem_cons.1 hl
    exact closed.run_bind (safe_fill plain sound hs hv (some index)) fun _ =>
      closed.run_bind (ih rest (index + 1)) fun _ => closed.run_pure _

theorem safe_fillPrograms (sound : Sound d) {p : Ref × Programs} (hp : p ∈ d.programs.entries) :
    Safe (trial loose).Contained (fillPrograms d w.nodes.next values p.1 p.2).run := by
  intro w₁ h
  have hr : p.1 ∈ refs d := List.mem_append_right _ (List.mem_map_of_mem hp)
  refine (find_unaided h hr none).run_bind ?_ ?_
  · rintro e _ ⟨rfl, he⟩
    exact (Trial.writes (he e rfl).1).fillAttributes (sound.programs p hp) values _ h
  · rintro e _ ⟨rfl, -⟩
    exact h

theorem safe_fillAll (plain : Plain d) (sound : Sound d) :
    Safe (trial loose).Contained (fillAll d w.nodes.next values).run := by
  have closed := (trial loose).closed
  by_cases count : values.length = d.slots.length
  · have steps : fillAll d w.nodes.next values = do
        let asked ← fillSlots d w.nodes.next 0 (d.slots.zip values)
        d.programs.entries.forM fun p => fillPrograms d w.nodes.next values p.1 p.2
        return asked := by
      unfold fillAll
      simp only [count, ne_eq, not_true_eq_false, if_false]
    rw [steps]
    refine closed.run_bind (safe_fillSlots plain sound (fun _ hp => List.of_mem_zip hp) 0) fun _ => ?_
    exact closed.run_bind (closed.run_forM_mem fun _ hp => safe_fillPrograms sound hp) fun _ =>
      closed.run_pure _
  · have stops : fillAll d w.nodes.next values =
        throw ⟨.slotCountMismatch d.slots.length values.length, none⟩ := by
      unfold fillAll
      simp [count]
    rw [stops]
    exact closed.run_throw _

/-- What yields something as a whole yields something step by step. -/
theorem bind_eq_ok {α β : Type} {x : Op α} {f : α → Op β} {run : Runner} {b : β}
    (h : (x >>= f) run w = .ok (b, w')) :
    ∃ a w₁, x run w = .ok (a, w₁) ∧ f a run w₁ = .ok (b, w') := by
  have bound : (x >>= f) run w = (x run w).bind fun p => f p.1 run p.2 := rfl
  rw [bound] at h
  cases hx : x run w with
  | error halt =>
    rw [hx] at h
    cases h
  | ok p =>
    rw [hx] at h
    exact ⟨p.1, p.2, rfl, h⟩

/-- A rendering that fails leaves no trace, and it has called nothing back, provided that what comes
in through values stands alone, that no outlet is for a component, and that nothing is in the outlets
for text. -/
theorem failure_leaves_all (sound : Sound d) (plain : Plain d) (loose : Loose w.nodes d values)
    {run : Runner} {e : RenderError} (failed : render d values run w = .ok (.error e, w')) :
    Untouched w w' ∧ ∀ run', render d values run' w = .ok (.error e, w') := by
  have filled := safe_fillAll plain sound (copied w d) (contained_copied loose plain)
  have same : ∀ run', (fillAll d w.nodes.next values).run run' (copied w d) =
      (fillAll d w.nodes.next values).run run (copied w d) := fun run' => filled.same run' run
  unfold render at failed ⊢
  simp only [renderBy_run, same] at failed ⊢
  cases hf : (fillAll d w.nodes.next values).run run (copied w d) with
  | error halt =>
    rw [hf] at failed
    cases failed
  | ok p =>
    obtain ⟨answer, w₁⟩ := p
    have contained := filled.ensures run answer w₁ hf
    rw [hf] at failed
    cases answer with
    | ok asked =>
      -- A rendering whose filling has gone well does not fail any more.
      have bound : (_ >>= _ : Op (Except RenderError (List NodeId))) run w₁ = .ok (.error e, w') :=
        failed
      obtain ⟨_, w₂, -, rest⟩ := bind_eq_ok bound
      cases rest
    | error failure =>
      cases failed
      refine ⟨⟨fun n hn => contained.grafted.restored hn, fun n hn => ?_, fun n hn => ?_,
        contained.signals⟩, fun _ => rfl⟩
      · exact contained.mounts n (Nat.not_le.2 hn)
      · exact contained.unmounts n (Nat.not_le.2 hn)

end

/-! A paragraph for the first of two outlets, and something that is no node for the second. -/

theorem components_of_all {d : Descriptor}
    (h : d.slots.all (fun | .component _ => false | _ => true) = true) :
    ∀ r, Slot.component r ∉ d.slots :=
  fun _ hr => absurd (List.all_eq_true.1 h _ hr) Bool.false_ne_true

/-- A forest in which nothing is marked. -/
theorem unmarked_of_cells {f : Dom.Forest} {d : Descriptor}
    (cells : ∀ cell ∈ f.cells.toList, ∀ r ∈ refs d,
      cell.content.carries d.config.refAttribute r.text = false) (n : NodeId) :
    ∀ r ∈ refs d, ¬ f.Carries d.config.refAttribute r.text n := by
  intro r hr
  have unmarked := f.get_of_cells n (P := fun cell =>
    cell.content.carries d.config.refAttribute r.text = false) (fun cell hc => cells cell hc r hr) rfl
  unfold Dom.Forest.Carries
  rw [unmarked]
  exact Bool.false_ne_true

/-- A template of two outlets for text. -/
def outlets : Descriptor :=
  match (Descriptor.compile .standard Ref.first ["", "", ""]).1 with
  | .ok d => d
  | .error _ => ⟨[], "", [], .empty, .standard⟩

/-- The world after a script. -/
def worldAfter (script : Script) : World :=
  match runFrom 10 .empty (script.run .null) with
  | .ok (_, w) => w
  | .error _ => .empty

/-- A paragraph that stands alone. -/
def alone : World :=
  worldAfter [.element "p" "p" [], .onUnmount "p" "u" [], .listener "l" []]

/-- A paragraph in a document. -/
def placed : World :=
  worldAfter [.element "p" "p" [], .onUnmount "p" "u" [], .listener "l" [], .document "d",
    .mount "d" ["p"]]

/-- The paragraph, and a listener. -/
def unfit : List TemplateValue :=
  [.value (.node ⟨0⟩), .listener ⟨0⟩]

/-- Whether a rendering fails. -/
def fails (d : Descriptor) (values : List TemplateValue) (run : Runner) (w : World) : Bool :=
  match render d values run w with
  | .ok (.error _, _) => true
  | _ => false

/-- The world that a rendering leaves. -/
def leaves (d : Descriptor) (values : List TemplateValue) (run : Runner) (w : World) : World :=
  match render d values run w with
  | .ok (_, w') => w'
  | .error _ => w

theorem failed_of_fails {d : Descriptor} {values : List TemplateValue} {run : Runner} {w : World}
    (h : fails d values run w = true) :
    ∃ e, render d values run w = .ok (.error e, leaves d values run w) := by
  unfold fails at h
  unfold leaves
  split at h
  case h_1 e w' failed => exact ⟨e, by rw [failed]⟩
  case h_2 => cases h

theorem failure_leaves_all_alone :
    Sound outlets ∧ Plain outlets ∧ Loose alone.nodes outlets unfit ∧
      ∃ e w', render outlets unfit (exec 10) alone = .ok (.error e, w') ∧ Untouched alone w' := by
  have sound : Sound outlets := ⟨by decide +kernel, by decide +kernel, by decide +kernel⟩
  have plain : Plain outlets := ⟨components_of_all (by decide +kernel), by decide +kernel⟩
  have stands : ∀ value ∈ unfit, ∀ n ∈ value.node?, (alone.nodes.get n).parent = none ∧
      (alone.nodes.get n).connected = false ∧ (alone.nodes.get n).isFragment = false := by
    decide +kernel
  have loose : Loose alone.nodes outlets unfit := by
    refine ⟨fun _ h => known_of_cells (by decide +kernel) (by decide +kernel) h, fun n hn => ?_,
      fun n _ => unmarked_of_cells (by decide +kernel) n⟩
    obtain ⟨value, mem, node⟩ := hn
    exact stands value mem n node
  have failing : fails outlets unfit (exec 10) alone = true := by decide +kernel
  obtain ⟨e, failed⟩ := failed_of_fails failing
  exact ⟨sound, plain, loose, e, _, failed, (failure_leaves_all sound plain loose failed).1⟩

/-- A paragraph in a document loses its place, and its callback runs, although the rendering fails. -/
theorem unmounted_by_failure :
    ∃ e w', render outlets unfit (exec 10) placed = .ok (.error e, w') ∧
      (placed.nodes.get ⟨0⟩).parent = some ⟨1⟩ ∧ (w'.nodes.get ⟨0⟩).parent = none ∧
      (placed.nodes.get ⟨1⟩).children = [⟨0⟩] ∧ (w'.nodes.get ⟨1⟩).children = [] ∧
      (placed.nodes.get ⟨0⟩).connected = true ∧ (w'.nodes.get ⟨0⟩).connected = false ∧
      placed.log = [] ∧ w'.log = [.unmounted "u"] := by
  have failing : fails outlets unfit (exec 10) placed = true := by decide +kernel
  obtain ⟨e, failed⟩ := failed_of_fails failing
  exact ⟨e, _, failed, by decide +kernel⟩

end Render
end LiveMarkup.Live
