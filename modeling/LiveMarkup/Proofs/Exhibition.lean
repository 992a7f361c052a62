import LiveMarkup.Proofs.Visiting

/-!
Exhibition: renderings among everything else that happens to a graph and a tree. While its node is
mounted, whatever a rendering has bound shows what the signals hold now. A node that is not mounted
stays as it is, whatever happens to signals.
-/
namespace LiveMarkup.Live

open Render (Performance Visit Written partCurrent programText)

variable {w w' : World} {n p : NodeId} {name : Name} {fuel : Nat} {current : Value} {a : Answer}

/-! What else there is in a session. -/

/-- A node that nobody has made has no hooks. -/
theorem Stage.unhooked (h : Stage w) (b : Bool) (unknown : w.nodes.size ≤ n.index) :
    hooksOf n (w.hooks b) = [] := by
  refine List.eq_nil_iff_forall_not_mem.2 fun t mem => ?_
  obtain ⟨hook, -, mem⟩ := mem_hooksOf.1 mem
  obtain ⟨f, rfl, hf⟩ := h.turns b n hook mem
  obtain ⟨-, m, e, -, owns⟩ := h.effects f hf
  obtain rfl := (owns b n).1 mem
  exact Nat.not_lt.2 unknown (h.owned owns).1

/-- A new document has a body that is mounted, and nothing in it. -/
theorem Stage.document (h : Stage w) (run : Runner) :
    Ensures run ((Step.document name).run current) w fun _ w' => Apart w w' := by
  simp only [Step.run, onNodes, ensures_bind, ensures_get, ensures_set, ensures_pure]
  let w₁ : World := { w with nodes := (w.nodes.create (.element (.ofTag "body"))).2 }
  have body : w₁.nodes.get w.nodes.next = .alone (.element (.ofTag "body")) := Heap.get_push_next ..
  intro _ w₂ connected
  have away : (w₁.nodes.get w.nodes.next).connected ≠ true := by
    rw [body]
    exact Bool.false_ne_true
  have mounted : (Mount.flagged w.nodes.next true w₁).nodes.get w.nodes.next =
      { w₁.nodes.get w.nodes.next with connected := true } :=
    Heap.get_modify_self _ _ _ ((Heap.size_push ..).symm ▸ Nat.lt_succ_self _)
  have ran : Mount.connect w.nodes.next true run w₁ =
      .ok ((), Mount.flagged w.nodes.next true w₁) := by
    rw [Mount.connect_true away]
    have read : (do
        invokeAll (hooksOf w.nodes.next (← get).mountHooks)
        invokeAll (((← get).nodes.get w.nodes.next).children.map fun c => .connect c true) :
          Op Unit) run (Mount.flagged w.nodes.next true w₁) =
        (invokeAll (hooksOf w.nodes.next w.mountHooks) run (Mount.flagged w.nodes.next true w₁)).bind
          fun r => invokeAll ((r.2.nodes.get w.nodes.next).children.map fun c => .connect c true)
            run r.2 := rfl
    have hooks : hooksOf w.nodes.next w.mountHooks = [] := h.unhooked true (Nat.le_refl _)
    have children : ((Mount.flagged w.nodes.next true w₁).nodes.get w.nodes.next).children = [] := by
      rw [mounted, body]
      rfl
    rw [read, hooks]
    have nothing : (invokeAll [] run (Mount.flagged w.nodes.next true w₁)) =
        .ok ((), Mount.flagged w.nodes.next true w₁) := rfl
    rw [nothing]
    simp only [Except.bind, children]
    rfl
  cases ran.symm.trans connected
  simp only [nameNode, rename, ensures_modify]
  have size : (Mount.flagged w.nodes.next true w₁).nodes.size = w.nodes.size + 1 :=
    (Heap.size_modify ..).trans (Heap.size_push ..)
  have other : ∀ m, m ≠ w.nodes.next →
      (Mount.flagged w.nodes.next true w₁).nodes.get m = w.nodes.get m := fun m hm =>
    (Heap.get_modify_of_ne _ _ _ _ (Ne.symm hm)).trans (Heap.get_push_of_ne _ _ _ hm)
  refine { signals := rfl, entries := rfl, subscriptions := rfl, derivations := rfl
           signalNames := rfl, subscriptionNames := rfl, follows := rfl, mountHooks := rfl
           unmountHooks := rfl, formulas := Nat.le_refl _, readings := fun _ _ => rfl
           memo := fun _ _ memo => memo, derived := fun _ _ memo => .inl memo
           nodes := Nat.le_trans (Nat.le_succ _) (Nat.le_of_eq size.symm)
           cells := fun m hm => other m ?_
           alone := fun m hm => ?_ }
  · rintro rfl
    exact Nat.lt_irrefl _ hm
  · by_cases here : m = w.nodes.next
    · subst here
      dsimp only
      rw [mounted, body]
      exact ⟨rfl, rfl⟩
    · dsimp only
      rw [other m here, Dom.Forest.get_unknown hm]
      exact ⟨rfl, rfl⟩

/-- A computation with an identity has no derived signal at first. -/
theorem formula_apart (r : Reading) (run : Runner) :
    Ensures run ((Step.formula name r).run current) w fun _ w' => Apart w w' := by
  simp only [Step.run, SharedFormula.create, nameFormula, rename, ensures_bind, ensures_get,
    ensures_set, ensures_pure, ensures_modify]
  have old : ∀ fn, fn ≠ w.formulas.next →
      (w.formulas.push ⟨r, none⟩).get fn = w.formulas.get fn :=
    fun fn hfn => Heap.get_push_of_ne _ _ _ hfn
  refine { signals := rfl, entries := rfl, subscriptions := rfl, derivations := rfl
           signalNames := rfl, subscriptionNames := rfl, follows := rfl, mountHooks := rfl
           unmountHooks := rfl, nodes := Nat.le_refl _, cells := fun _ _ => rfl
           alone := fun m hm => ?_
           formulas := Nat.le_trans (Nat.le_succ _) (Nat.le_of_eq (Heap.size_push ..).symm)
           readings := fun fn hfn => ?_
           memo := fun fn s memo => ?_
           derived := fun fn s memo => ?_ }
  · dsimp only
    rw [Dom.Forest.get_unknown hm]
    exact ⟨rfl, rfl⟩
  · exact congrArg SharedFormula.reading (Heap.get_push_of_lt _ _ _ hfn)
  · have ne : fn ≠ w.formulas.next := by
      rintro rfl
      rw [Heap.get_next] at memo
      cases memo
    dsimp only
    rw [old fn ne]
    exact memo
  · by_cases ne : fn = w.formulas.next
    · subst ne
      have new : (w.formulas.push ⟨r, none⟩).get w.formulas.next = ⟨r, none⟩ := Heap.get_push_next ..
      dsimp only at memo
      rw [new] at memo
      cases memo
    · dsimp only at memo
      rw [old fn ne] at memo
      exact .inl memo

theorem keeping_newSignal {B : Board} {run : Runner} (v : Literal) (role : Role) :
    Keeps (Keeping B) run (do
      nameSignal name (← Signal.create (some (← v.eval)) none) role
      return Answer.none) :=
  keeps_bind (Idle.literal v) fun v => keeps_bind (keeping_createSignal (some v) nofun) fun s =>
    keeps_bind (keeping_nameSignal name s role) fun _ => keeps_pure _

theorem keeping_newDerivation {B : Board} {run : Runner} (r : Reading) :
    Keeps (Keeping B) run (do
      nameSignal name (← Derivation.create r) .readable
      return Answer.none) :=
  keeps_bind (keeping_createDerivation r) fun s =>
    keeps_bind (keeping_nameSignal name s .readable) fun _ => keeps_pure _

/-- The worlds in which a graph and a tree can be when nothing is under way, with the renderings that
were made in them. -/
inductive Exhibits : List Performance → World → Prop
  | empty : Exhibits [] .empty
  | document {l : List Performance} {w w' : World} {fuel : Nat} {name : Name} {current : Value}
    {a : Answer} :
    Exhibits l w → runFrom fuel w ((Step.document name).run current) = .ok (a, w') → Exhibits l w'
  | signal {l : List Performance} {w w' : World} {fuel : Nat} {name : Name} {v : Literal}
    {current : Value} {a : Answer} :
    Exhibits l w → w.names.signals.get? name = none →
      runFrom fuel w ((Step.signal name v).run current) = .ok (a, w') → Exhibits l w'
  | constant {l : List Performance} {w w' : World} {fuel : Nat} {name : Name} {v : Literal}
    {current : Value} {a : Answer} :
    Exhibits l w → w.names.signals.get? name = none →
      runFrom fuel w ((Step.constant name v).run current) = .ok (a, w') → Exhibits l w'
  | derive {l : List Performance} {w w' : World} {fuel : Nat} {name : Name} {r : Reading}
    {current : Value} {a : Answer} :
    Exhibits l w → w.names.signals.get? name = none →
      r.Pure w.names.signals w.signals.size →
        runFrom fuel w ((Step.derive name r).run current) = .ok (a, w') → Exhibits l w'
  | formula {l : List Performance} {w w' : World} {fuel : Nat} {name : Name} {r : Reading}
    {current : Value} {a : Answer} :
    Exhibits l w → runFrom fuel w ((Step.formula name r).run current) = .ok (a, w') → Exhibits l w'
  /-- Signals are written, and subscribed to; subscribers may do so in their turn. -/
  | operate {l : List Performance} {w w' : World} {fuel : Nat} {step : Step} {current : Value}
    {a : Answer} :
    Exhibits l w → step.Operates → runFrom fuel w (step.run current) = .ok (a, w') → Exhibits l w'
  | render {l : List Performance} {w' : World} {p : Performance} {nodes : List NodeId} :
    Exhibits l p.start → p.Fits →
      runFrom p.fuel p.start (Render.render p.descriptor p.values) = .ok (.ok nodes, w') →
        Exhibits (p :: l) w'
  /-- A node becomes the last child of another, which is not below it. -/
  | mount {l : List Performance} {w w' : World} {fuel : Nat} {n p : NodeId} :
    Exhibits l w → n.index < w.nodes.size → p.index < w.nodes.size →
      (w.nodes.get n).isFragment = false → ¬ w.nodes.Under n p →
        runFrom fuel w (Mount.append p n) = .ok ((), w') → Exhibits l w'
  | unmount {l : List Performance} {w w' : World} {fuel : Nat} {n : NodeId} :
    Exhibits l w → runFrom fuel w (Mount.remove n) = .ok ((), w') → Exhibits l w'
  /-- Anything may happen to the rest of the world. -/
  | elsewhere {l : List Performance} {w w' : World} :
    Exhibits l w → Apart w w' → Exhibits l w'

/-- Everything is in order, and what renderings have done stands. -/
structure Exhibited (l : List Performance) (w : World) : Prop extends Stage w where
  jobs : ∀ p ∈ l, p.visits.map Visit.job = Render.jobs p.descriptor p.values
  stands : ∀ p ∈ l, ∀ v ∈ p.visits, v.Stands w p.values
  copied : ∀ p ∈ l, ∀ v ∈ p.visits, p.start.nodes.size ≤ v.element.index

theorem Exhibited.next {l : List Performance} (h : Exhibited l w)
    (both : Stage w' ∧ Persists Untaken w w') : Exhibited l w' where
  toStage := both.1
  jobs := h.jobs
  copied := h.copied
  stands p hp v hv := Visit.Stands.rest (h.stands p hp v hv) both.2

/-- What a new rendering does leaves alone what others have done. -/
theorem Exhibited.render {l : List Performance} {p : Performance} {nodes : List NodeId}
    (h : Exhibited l p.start) (fits : p.Fits)
    (rendered : runFrom p.fuel p.start (Render.render p.descriptor p.values) =
      .ok (.ok nodes, w')) : Exhibited (p :: l) w' := by
  obtain ⟨stage, persists, jobs, stands, copied⟩ := p.stands h.toStage fits rendered
  refine ⟨stage, List.forall_mem_cons.2 ⟨jobs, h.jobs⟩, List.forall_mem_cons.2 ⟨stands, ?_⟩,
    List.forall_mem_cons.2 ⟨copied, h.copied⟩⟩
  intro q hq v hv
  refine Visit.Stands.next (h.stands q hq v hv) persists fun x mem new => ?_
  obtain ⟨v', hv', mem'⟩ := List.mem_flatMap.1 new
  have old := Visit.Stands.known_of_writes (h.stands q hq v hv) mem
  rw [Visit.element_of_writes mem'] at old
  exact Nat.not_lt.2 (copied v' hv') old

/-- By induction on what has happened. -/
theorem Exhibits.exhibited {l : List Performance} (h : Exhibits l w) : Exhibited l w := by
  induction h with
  | empty => exact ⟨.empty, List.forall_mem_nil _, List.forall_mem_nil _, List.forall_mem_nil _⟩
  | document _ run ih => exact ih.next (ih.elsewhere (ih.document _ _ _ run))
  | @signal l w w' fuel name v current a _ unused run ih =>
    have built := create_works ih.toReady unused v .writable _ _ run
    exact ih.next (ih.plain rfl built (keeping_newSignal v .writable) run)
  | @constant l w w' fuel name v current a _ unused run ih =>
    have built := create_works ih.toReady unused v .readable _ _ run
    exact ih.next (ih.plain rfl built (keeping_newSignal v .readable) run)
  | @derive l w w' fuel name r current a _ unused pure run ih =>
    obtain ⟨wired, -, builds⟩ := derive_works ih.toReady unused pure.grounded _ _ run
    exact ih.next (ih.plain rfl ⟨wired, builds⟩ (keeping_newDerivation r) run)
  | formula _ run ih => exact ih.next (ih.elsewhere (formula_apart _ _ _ _ run))
  | operate _ operates run ih =>
    obtain ⟨stage, persists, -⟩ := ih.operate operates run
    exact ih.next ⟨stage, persists⟩
  | render _ fits run ih => exact ih.render fits run
  | mount _ known above whole apart run ih => exact ih.next (ih.toStage.mount known above whole apart run)
  | unmount _ run ih => exact ih.next (ih.toStage.unmount run)
  | elsewhere _ apart ih => exact ih.next (ih.toStage.elsewhere apart)

/-- What was bound at a visit shows the current values, while its node is mounted: the text that came to
the place of an outlet is that of the slot's value, and an attribute is what its literals and the
texts of its slots' values make together. Null has no text. -/
def Render.Visit.Shows (w : World) (values : List TemplateValue) (v : Visit) : Prop :=
  match v.job with
  | .slot _ (.node _) value => ∃ n, v.Places n ∧ ((w.nodes.get n).connected = true →
    (value.current w).node? = none →
      (w.nodes.get n).content = .text (w.textOrEmpty (value.current w)))
  | .slot .. => True
  | .programs _ ps => ∀ p ∈ ps.entries, (w.nodes.get v.element).connected = true →
    (∀ part ∈ p.2, (partCurrent w values part).node? = none) →
      (w.nodes.attributes v.element).value? p.1 = some (programText w values p.2)

theorem Stage.shows {v : Visit} {values : List TemplateValue} (h : Stage w)
    (stands : v.Stands w values) : v.Shows w values := by
  obtain ⟨job, element, before, after⟩ := v
  cases job with
  | programs r ps =>
    obtain ⟨known, inscribed⟩ := stands
    exact fun p mem connected plain => h.inscribed (inscribed p mem) connected plain
  | slot i s value =>
    cases s with
    | node r =>
      obtain ⟨n, places, known, tells⟩ := stands
      exact ⟨n, places, fun connected plain => h.tells tells connected plain⟩
    | attr name quote r => trivial
    | directive kind name r => trivial
    | component r => trivial

/-- When nothing is under way, whatever renderings have bound at nodes that are mounted shows the
current values. No write changes a node that is not mounted. -/
theorem mounted_bindings_current {l : List Performance} (h : Exhibits l w) :
    (∀ p ∈ l, p.visits.map Visit.job = Render.jobs p.descriptor p.values ∧
      ∀ v ∈ p.visits, p.start.nodes.size ≤ v.element.index ∧ v.Shows w p.values) ∧
    ∀ (step : Step) fuel current a w', step.Operates → runFrom fuel w (step.run current) = .ok (a, w') →
      ∀ n, n.index < w.nodes.size → (w.nodes.get n).connected = false →
        w'.nodes.get n = w.nodes.get n := by
  have exhibited := h.exhibited
  refine ⟨fun p hp => ⟨exhibited.jobs p hp, fun v hv => ⟨exhibited.copied p hp v hv, ?_⟩⟩, ?_⟩
  · exact exhibited.shows (exhibited.stands p hp v hv)
  · intro step fuel current a w' operates run n known unmounted
    exact (exhibited.operate operates run).2.2 n known unmounted

/-- The world after a rendering, if it succeeds. -/
def Render.Performance.finish (p : Performance) : World :=
  match runFrom p.fuel p.start (Render.render p.descriptor p.values) with
  | .ok (_, w) => w
  | .error _ => p.start

theorem Render.Performance.finish_eq {p : Performance}
    (ok : Render.succeeds p.descriptor p.values (exec p.fuel) p.start = true) :
    ∃ nodes, runFrom p.fuel p.start (Render.render p.descriptor p.values) =
      .ok (.ok nodes, p.finish) := by
  obtain ⟨nodes, w', rendered⟩ := Render.rendered_of_succeeds ok
  have run : runFrom p.fuel p.start (Render.render p.descriptor p.values) = .ok (.ok nodes, w') :=
    rendered
  refine ⟨nodes, ?_⟩
  unfold finish
  rw [run]

/-- A template with an attribute that is put together from two slots, and with an outlet. -/
def headed : Template.Descriptor :=
  match (Template.Descriptor.compile .standard Template.Ref.first
      ["<p title=\"", ": ", "!\">", "</p>"]).1 with
  | .ok d => d
  | .error _ => ⟨[], "", [], .empty, .standard⟩

/-- A signal's value between brackets. -/
def bracketed (s : SignalId) : Reading :=
  .get s fun v => .done (.string ("[" ++ (v.getD .null).ownText ++ "]"))

/-- A value and a computation in a title, and a text. After the last write the title is that of the values
now; when the element is not mounted any more, nothing of it changes. -/
theorem mounted_bindings_current_headed : ∃ (p : Performance) (w w' : World) (a : Answer),
    (w.nodes.get ⟨2⟩).connected = true ∧ (∀ v ∈ p.visits, v.Shows w p.values) ∧
      (w.nodes.attributes ⟨2⟩).value? "title" = some "first: [false]!" ∧
        runFrom 10 (afterwards w (Mount.remove ⟨2⟩))
          ((Step.set "b" fun _ => .done (.number .one)).run .null) = .ok (a, w') ∧
            w'.nodes.get ⟨2⟩ = (afterwards w (Mount.remove ⟨2⟩)).nodes.get ⟨2⟩ := by
  let w₁ := after .empty (.document "page")
  let w₂ := after w₁ (.signal "a" (.plain (.string "first")))
  let w₃ := after w₂ (.signal "b" (.plain (.bool true)))
  let w₄ : World := { w₃ with
    formulas := w₃.formulas.push ⟨bracketed ⟨1⟩, none⟩
    names := { w₃.names with formulas := w₃.names.formulas.insert "f" w₃.formulas.next } }
  let p : Performance :=
    ⟨headed, [.signal ⟨0⟩, .formula w₃.formulas.next, .writable ⟨1⟩], 10, w₄⟩
  let w₆ := afterwards p.finish (Mount.append ⟨0⟩ ⟨2⟩)
  let w₇ := after w₆ (.set "b" fun _ => .done (.bool false))
  let w₈ := afterwards w₇ (Mount.remove ⟨2⟩)
  obtain ⟨_, h₁⟩ := runFrom_after .empty (.document "page") (by decide +kernel)
  obtain ⟨_, h₂⟩ := runFrom_after w₁ (.signal "a" (.plain (.string "first"))) (by decide +kernel)
  obtain ⟨_, h₃⟩ := runFrom_after w₂ (.signal "b" (.plain (.bool true))) (by decide +kernel)
  have h₄ : runFrom 10 w₃ ((Step.formula "f" (bracketed ⟨1⟩)).run .null) = .ok (.none, w₄) := rfl
  have reading : (w₄.formulas.get w₃.formulas.next).reading = bracketed ⟨1⟩ :=
    congrArg SharedFormula.reading (Heap.get_push_next ..)
  have pure : (bracketed ⟨1⟩).Pure w₄.names.signals w₄.signals.size :=
    .get (by decide +kernel) fun v => .done _
  have slots : headed.slots = [.attr "title" .double ⟨1000000⟩, .attr "title" .double ⟨1000000⟩,
    .node ⟨1000001⟩] := by decide +kernel
  have lengths : ∀ e ∈ headed.programs.entries, ∀ a ∈ e.2.entries, a.2.length ≠ 1 := by
    decide +kernel
  have fits : p.Fits := by
    refine ⟨fun slot mem => ?_, fun e he a ha i eq => ?_, fun value mem => ?_, by decide +kernel⟩
    · have mem : slot ∈ headed.slots := mem
      simp only [slots, List.mem_cons, List.not_mem_nil, or_false] at mem
      rcases mem with rfl | rfl | rfl
      · exact .inr ⟨_, _, _, rfl, nofun⟩
      · exact .inr ⟨_, _, _, rfl, nofun⟩
      · exact .inl ⟨_, rfl⟩
    · exact lengths e he a ha (congrArg List.length eq)
    · simp only [p, List.mem_cons, List.not_mem_nil, or_false] at mem
      rcases mem with rfl | rfl | rfl
      · exact (by decide +kernel : 0 < w₄.signals.size)
      · exact ⟨(by decide +kernel : w₃.formulas.next.index < w₄.formulas.size), reading.symm ▸ pure⟩
      · exact (by decide +kernel : 1 < w₄.signals.size)
  obtain ⟨_, h₅⟩ := Performance.finish_eq (p := p) (by decide +kernel)
  have h₆ := runFrom_afterwards p.finish (Mount.append ⟨0⟩ ⟨2⟩) (by decide +kernel)
  obtain ⟨_, h₇⟩ := runFrom_after w₆ (.set "b" fun _ => .done (.bool false)) (by decide +kernel)
  have h₈ := runFrom_afterwards w₇ (Mount.remove ⟨2⟩) (by decide +kernel)
  obtain ⟨a, h₉⟩ := runFrom_after w₈ (.set "b" fun _ => .done (.number .one)) (by decide +kernel)
  have apart : ¬ p.finish.nodes.Under ⟨2⟩ ⟨0⟩ := by
    intro under
    cases under with
    | up parent =>
      have root : (p.finish.nodes.get ⟨0⟩).parent = none := by decide +kernel
      rw [root] at parent
      cases parent
  have e₃ := ((Exhibits.empty.document h₁).signal (by decide +kernel) h₂).signal
    (by decide +kernel) h₃
  have e₅ : Exhibits [p] p.finish := (e₃.formula h₄).render fits h₅
  have e₆ := e₅.mount (by decide +kernel) (by decide +kernel) (by decide +kernel) apart h₆
  have e₇ := e₆.operate (.set _ _) h₇
  have e₈ := e₇.unmount h₈
  obtain ⟨shown, -⟩ := mounted_bindings_current e₇
  obtain ⟨-, still⟩ := mounted_bindings_current e₈
  refine ⟨p, w₇, _, a, by decide +kernel, fun v hv => ((shown p List.mem_cons_self).2 v hv).2,
    by decide +kernel, h₉, ?_⟩
  exact still _ _ _ _ _ (.set _ _) h₉ ⟨2⟩ (by decide +kernel) (by decide +kernel)

end LiveMarkup.Live
