import LiveMarkup.Proofs.Stillness

/-!
Filling: what putting values into a copy does to it. Nodes are brought in, outlets give their places
away for good, and only what was brought in is ever marked anew.
-/
namespace LiveMarkup.Live

/-- Where nothing is mounted, nodes take the place of another one and nothing else happens. -/
theorem Mount.replace_same {w : World} {n : NodeId} {l : List NodeId}
    (out : (w.nodes.get n).connected = false)
    (apart : ∀ p incoming, (w.nodes.splice n l).2 = some (p, incoming) →
      (w.nodes.get p).connected = false ∧ ∀ c ∈ incoming, (w.nodes.get c).connected = false)
    (run : Runner) : replace n l run w = .ok ((), { w with nodes := (w.nodes.splice n l).1 }) := by
  let w₁ : World := { w with nodes := (w.nodes.splice n l).1 }
  have relinked : w.nodes.Relinked w₁.nodes := .splice n l
  have still : ∀ c, (w.nodes.get c).connected = false → connect c false run w₁ = .ok ((), w₁) :=
    fun c hc => connect_same ((relinked.connected c).trans hc) run
  have spliced : onNodes (fun f => ((f.splice n l).2, (f.splice n l).1)) run w =
      .ok ((w.nodes.splice n l).2, w₁) := rfl
  unfold replace
  refine (bind_of_ok spliced).trans ?_
  cases seated : (w.nodes.splice n l).2 with
  | none => rfl
  | some place =>
    obtain ⟨p, incoming⟩ := place
    obtain ⟨hp, all⟩ := apart p incoming seated
    have above : isConnected w₁ p = false := (relinked.connected p).trans hp
    refine (bind_of_ok (still n out)).trans ?_
    have looked : (get : Op World) run w₁ = .ok (w₁, w₁) := rfl
    rw [bind_of_ok looked, above]
    exact forM_of_ok fun c hc => still c (all c hc)

namespace Filling
variable (fl : Filling)

/-- What a part of a filling comes to in which the nodes of a list are moved. -/
structure Filled (moved : List NodeId) (w w' : World) : Prop where
  good : fl.Good w'
  astray : ∀ c, fl.scene.Copied c → c ∉ moved → fl.scene.Astray w.nodes c →
    fl.scene.Astray w'.nodes c
  marks : ∀ n value, w'.nodes.Carries fl.mark value n →
    w.nodes.Carries fl.mark value n ∨ fl.components ∧ fl.scene.brought n

def Fills (moved : List NodeId) (w w' : World) : Prop :=
  fl.Good w → fl.Filled moved w w'

variable {fl} {w w' w₁ w₂ : World} {l l' : List NodeId}

theorem Filled.trans (h : fl.Filled l w w₁) (h' : fl.Filled l' w₁ w₂) :
    fl.Filled (l ++ l') w w₂ := by
  refine ⟨h'.good, fun c hc hm astray => ?_, fun n value hn => ?_⟩
  · obtain ⟨hl, hl'⟩ := not_or.1 (mt List.mem_append.2 hm)
    exact h'.astray c hc hl' (h.astray c hc hl astray)
  · rcases h'.marks n value hn with before | brought
    · exact h.marks n value before
    · exact .inr brought

theorem Still.filled (h : fl.Still w w') (hg : fl.Good w) : fl.Filled l w w' :=
  ⟨h.good hg, fun _ _ _ astray => h.astray.2 astray, fun n value hn => .inl (h.marks n value hn)⟩

instance : Lasting (fl.Fills []) where
  refl _ := fun hg => (Still.of_nodes rfl).filled hg
  trans h h' := fun hg => (h hg).trans (h' (h hg).good)

section
variable {α : Type} {run : Runner} {n p : NodeId}

theorem fills_of_quiet {x : Op α} (h : Keeps fl.Quiet run x) : Keeps (fl.Fills l) run x :=
  fun w => (h w).mono fun _ _ still hg => (still hg).filled hg

theorem fills_bind {β : Type} {x : Op α} {f : α → Op β} (hx : Keeps (fl.Fills l) run x)
    (hf : ∀ a, Keeps (fl.Fills l') run (f a)) : Keeps (fl.Fills (l ++ l')) run (x >>= f) := by
  intro w
  rw [ensures_bind]
  refine (hx w).mono fun a w₁ h₁ => ?_
  exact (hf a w₁).mono fun _ _ h₂ hg => (h₁ hg).trans (h₂ (h₁ hg).good)

/-- A change of links that leaves the nodes as they are. -/
theorem filled_of_relinked {f' : Dom.Forest} (relinked : w.nodes.Relinked f')
    (tidy : fl.scene.Tidy f') (unmounted : fl.scene.Unmounted w.nodes → fl.scene.Unmounted f')
    (astray : ∀ c, fl.scene.Copied c → c ∉ l → fl.scene.Astray w.nodes c → fl.scene.Astray f' c)
    (hg : fl.Good w) : fl.Filled l w { w with nodes := f' } :=
  ⟨⟨tidy, fun ha => unmounted (hg.unmounted ha)⟩, astray,
    fun m value hm => .inl ((relinked.carries fl.mark value m).1 hm)⟩

variable [fl.Calm run]

theorem fills_appendOne (hp : fl.scene.brought p) (hn : fl.scene.Inside n) :
    Keeps (fl.Fills [n]) run (Mount.appendOne p n) := by
  refine fun w => ensures_of_imp fun hg => ?_
  simp only [Mount.appendOne, modifyNodes, ensures_bind, ensures_modify, ensures_get]
  let w₁ := { w with nodes := (w.nodes.detach n).attach p n }
  have known : p.index < w.nodes.size :=
    Nat.lt_of_lt_of_le (fl.scene.old p hp) (Nat.le_trans fl.scene.ordered hg.tidy.size)
  obtain ⟨tidy, unmounted, astray⟩ := hg.tidy.append (.inl hp) known hn
  have moved : fl.Filled [n] w w₁ :=
    filled_of_relinked ((Dom.Forest.Relinked.detach n).trans (.attach p n)) tidy unmounted
      (fun c _ ne => astray c (by simpa using ne)) hg
  have connected : fl.apart → Mount.isConnected w₁ p = false :=
    fun ha => (moved.good.unmounted ha p (.inl hp)).1
  have joined : Keeps fl.Quiet run (Mount.connect n (Mount.isConnected w₁ p)) :=
    quiet_connect hn connected
  refine (joined w₁).mono fun _ w₂ still => ?_
  exact moved.trans ((still moved.good).filled (l := []) moved.good)

omit [fl.Calm run] in
theorem fills_forM {g : NodeId → Op Unit} (h : ∀ m ∈ l, Keeps (fl.Fills [m]) run (g m)) :
    Keeps (fl.Fills l) run (l.forM g) := by
  induction l with
  | nil => exact keeps_pure ()
  | cons m l ih =>
    obtain ⟨here, rest⟩ := List.forall_mem_cons.1 h
    exact fills_bind here fun _ => ih rest

theorem fills_append (hp : fl.scene.brought p) (hn : fl.scene.Inside n) :
    Keeps (fl.Fills [n]) run (Mount.append p n) := by
  refine fun w => ensures_of_imp fun hg => ?_
  simp only [Mount.append, onNodes, ensures_bind, ensures_get, ensures_set, ensures_pure]
  cases fragment : (w.nodes.get n).isFragment with
  | false =>
    rw [Dom.Forest.takeForInsertion_other fragment]
    have one : Keeps (fl.Fills [n]) run ([n].forM (Mount.appendOne p)) :=
      fills_forM (by simpa using fills_appendOne hp hn)
    exact (one w).mono fun _ _ h => h hg
  | true =>
    have taken := hg.tidy.takeChildren hn fragment
    let incoming := (w.nodes.takeForInsertion n).1
    let w₁ := { w with nodes := (w.nodes.takeForInsertion n).2 }
    have out : fl.Filled [] w w₁ :=
      filled_of_relinked taken.thinned.relinked (taken.thinned.tidy hg.tidy)
        taken.thinned.unmounted (fun c _ _ => taken.thinned.astray) hg
    have moved : Keeps (fl.Fills incoming) run (incoming.forM (Mount.appendOne p)) :=
      fills_forM fun c hc => fills_appendOne hp (taken.inside c hc)
    refine (moved w₁).mono fun _ w₂ h => ?_
    have all := out.trans (h out.good)
    refine ⟨all.good, fun c copied _ astray => ?_, all.marks⟩
    exact all.astray c copied (fun hc => taken.placed c hc copied astray) astray

theorem fills_giveChildren {c : Component} (hc : fl.scene.brought c.node)
    (hl : ∀ m ∈ l, fl.scene.Inside m) :
    Keeps (fl.Fills l) run (Render.giveChildren c l) := by
  have all : Keeps (fl.Fills l) run (Mount.appendEach c.node l) :=
    fills_forM fun m hm => fills_append hc (hl m hm)
  cases c with
  | element n => exact all
  | card name n =>
    refine fills_bind (l := []) (fills_of_quiet keeps_get) fun w => ?_
    exact fills_bind (l := []) (fills_of_quiet (quiet_closed.note _)) fun _ => all

omit [fl.Calm run] in
/-- The marks of what is brought in are of no concern here. -/
theorem fills_changeAttributes (allowed : fl.components) (hn : fl.scene.brought n)
    (g : Markup.Attributes → Markup.Attributes) :
    Keeps (fl.Fills []) run (Mount.changeAttributes n g) := by
  intro w
  simp only [Mount.changeAttributes, modifyNodes, ensures_modify]
  have linked : fl.Linked w { w with nodes := w.nodes.mapAttributes n g } := .mapElement n _ w
  refine fun hg => ⟨linked.good hg, fun c _ _ astray => linked.astray.2 astray,
    fun m value hm => ?_⟩
  by_cases hnm : n = m
  · exact .inr ⟨allowed, hnm ▸ hn⟩
  · unfold Dom.Forest.Carries at hm ⊢
    rw [Dom.Forest.mapAttributes, Dom.Forest.mapElement, Heap.get_modify_of_ne _ _ _ _ hnm] at hm
    exact .inl hm

omit [fl.Calm run] in
theorem fills_giveAttribute {c : Component} (allowed : fl.components) (hc : fl.scene.brought c.node) (name value : String) :
    Keeps (fl.Fills []) run (Render.giveAttribute c name value) := by
  cases c with
  | element n => exact fills_changeAttributes allowed hc _
  | card own n =>
    exact keeps_bind (fills_of_quiet (quiet_closed.note _)) fun _ => fills_changeAttributes allowed hc _

/-- A node gives its place to another one, which is not of the copy, and is astray from then on. -/
theorem fills_replace {m : NodeId} (hn : fl.scene.Inside n) (hm : fl.scene.Foreign m) (w : World) :
    Ensures run (Mount.replace n [m]) w fun _ w' => fl.Good w →
      fl.Filled [] w w' ∧ (fl.scene.Copied n → fl.scene.Astray w'.nodes n) := by
  refine ensures_of_imp fun hg => ?_
  simp only [Mount.replace, onNodes, ensures_bind, ensures_get, ensures_set, ensures_pure]
  obtain ⟨moved, gone, inside⟩ := hg.tidy.splice hn (l := [m]) (by simpa using hm)
  let w₁ := { w with nodes := (w.nodes.splice n [m]).1 }
  have out : fl.Filled [] w w₁ :=
    filled_of_relinked moved.relinked moved.tidy moved.unmounted
      (fun c copied _ => moved.astray c copied) hg
  split
  case h_1 _ =>
    rw [ensures_pure]
    exact ⟨out, gone⟩
  case h_2 p incoming eq =>
    obtain ⟨parent, all⟩ := inside p incoming eq
    simp only [ensures_bind, ensures_get]
    have left : Keeps fl.Quiet run (Mount.connect n false) := quiet_connect hn fun _ => rfl
    refine (left w₁).mono fun _ w₂ still => ?_
    have still := still out.good
    have connected : fl.apart → Mount.isConnected w₂ p = false := by
      intro ha
      have same := still.connected ha p
      rw [Mount.isConnected, same, moved.relinked.connected]
      exact (hg.unmounted ha n hn).2 p parent
    have each : Keeps (fl.Fills []) run
        (incoming.forM fun c => Mount.connect c (Mount.isConnected w₂ p)) :=
      keeps_forM_mem fun c hc => fills_of_quiet (quiet_connect (all c hc) connected)
    refine (each w₂).mono fun _ w₃ h => ?_
    have rest := h (still.good out.good)
    have whole := out.trans ((still.filled (l := []) out.good).trans rest)
    refine ⟨whole, fun copied => ?_⟩
    exact rest.astray n copied List.not_mem_nil (still.astray.2 (gone copied))

omit [fl.Calm run] in
/-- Where nothing is mounted, a node gives its place to another one and nothing else happens. -/
theorem replace_run {m : NodeId} (hg : fl.Good w) (apart : fl.apart) (hn : fl.scene.Inside n)
    (hm : fl.scene.Foreign m) (run : Runner) :
    Mount.replace n [m] run w = .ok ((), { w with nodes := (w.nodes.splice n [m]).1 }) := by
  obtain ⟨-, -, inside⟩ := hg.tidy.splice hn (l := [m]) (by simpa using hm)
  have unmounted := hg.unmounted apart
  refine Mount.replace_same (unmounted n hn).1 (fun p incoming seated => ?_) run
  obtain ⟨parent, all⟩ := inside p incoming seated
  exact ⟨(unmounted n hn).2 p parent, fun c hc => (unmounted c (all c hc)).1⟩

/-- A component takes the place of its outlet. The children of the outlet, which move, were not
astray. -/
theorem fills_placeComponent {outlet : NodeId} {c : Component} (allowed : fl.components)
    (inside : fl.scene.Inside outlet)
    (hc : fl.scene.brought c.node) (w : World) :
    Ensures run (Render.placeComponent outlet c) w fun _ w' => fl.Good w →
      fl.Filled [] w w' ∧ (fl.scene.Copied outlet → fl.scene.Astray w'.nodes outlet) := by
  refine ensures_of_imp fun hg => ?_
  simp only [Render.placeComponent, ensures_bind, ensures_get]
  let children := (w.nodes.get outlet).children
  have given : Keeps (fl.Fills children) run (Render.giveChildren c children) :=
    fills_giveChildren hc fun m hm => hg.tidy.closed outlet inside m hm
  refine (given w).mono fun _ w₁ h₁ => ?_
  have first : fl.Filled [] w w₁ := by
    have h₁ := h₁ hg
    refine ⟨h₁.good, fun m copied _ astray => ?_, h₁.marks⟩
    exact h₁.astray m copied (fun hm => astray outlet inside hm) astray
  have attributes : Keeps (fl.Fills []) run
      ((w₁.nodes.attributes outlet).entries.forM fun a => Render.giveAttribute c a.1 a.2) :=
    keeps_forM fun a => fills_giveAttribute allowed hc a.1 a.2
  refine (attributes w₁).mono fun _ w₂ h₂ => ?_
  have second := first.trans (h₂ first.good)
  refine (fills_replace inside (.of_brought hc) w₂).mono fun _ w₃ h₃ => ?_
  obtain ⟨third, gone⟩ := h₃ second.good
  exact ⟨second.trans third, gone⟩

end

end Filling

/-- The node that a value stands for. -/
def TemplateValue.node? : TemplateValue → Option NodeId
  | .value (.node n) => some n
  | .component c => some c.node
  | _ => none

namespace Filling
variable {fl : Filling} {run : Runner} [fl.Calm run]

variable (fl)

omit [fl.Calm run] in
theorem create_foreign (text : String) (w : World) :
    Ensures run (onNodes (·.create (.text text))) w fun n w' => fl.Good w →
      fl.Still w w' ∧ fl.scene.Foreign n := by
  refine ensures_of_imp fun hg => ?_
  simp only [onNodes, ensures_bind, ensures_get, ensures_set, ensures_pure]
  exact ⟨still_create (fun _ => rfl) w, .of_last_le hg.tidy.size⟩

theorem signalNode_foreign (s : SignalId) (w : World) :
    Ensures run (Render.signalNode s) w fun n w' => fl.Good w →
      fl.Still w w' ∧ fl.scene.Foreign n := by
  refine ensures_of_imp fun hg => ?_
  simp only [Render.signalNode, ensures_bind, ensures_get]
  refine (create_foreign fl _ w).mono fun n w₁ made => ?_
  obtain ⟨still, foreign⟩ := made hg
  have follow : Keeps fl.Quiet run (Lifecycle.follow n s (.effect n .text) .immediate) :=
    (quiet_at foreign.1).follow s _ _
  refine (follow w₁).mono fun _ w₂ followed => ?_
  rw [ensures_pure]
  exact ⟨still.trans (followed (still.good hg)), foreign⟩

variable {fl}

omit [fl.Calm run] in
theorem ok_foreign {x : Op NodeId} {w : World}
    (h : Ensures run x w fun n w' => fl.Good w → fl.Still w w' ∧ fl.scene.Foreign n) :
    Ensures run (Except.ok <$> x) w fun r w' => fl.Good w →
      fl.Still w w' ∧ ∀ n, (r : Except RenderFault NodeId) = .ok n → fl.scene.Foreign n := by
  rw [ensures_map]
  refine h.mono fun n w' h hg => ?_
  obtain ⟨still, foreign⟩ := h hg
  refine ⟨still, fun m hm => ?_⟩
  cases hm
  exact foreign

theorem nodeOf_foreign {value : TemplateValue}
    (given : ∀ n, value.node? = some n → fl.scene.brought n) (w : World) :
    Ensures run (Render.nodeOf value).run w fun r w' => fl.Good w →
      fl.Still w w' ∧ ∀ n, r = .ok n → fl.scene.Foreign n := by
  have known : ∀ m, value.node? = some m → Ensures run (pure (.ok m)) w fun r w' => fl.Good w →
      fl.Still w w' ∧ ∀ n, (r : Except RenderFault NodeId) = .ok n → fl.scene.Foreign n := by
    intro m hm
    rw [ensures_pure]
    refine fun _ => ⟨.of_nodes rfl, fun n hn => ?_⟩
    cases hn
    exact .of_brought (given m hm)
  have fails : ∀ e w₁, fl.Quiet w w₁ → Ensures run (pure (.error e)) w₁ fun r w' => fl.Good w →
      fl.Still w w' ∧ ∀ n, (r : Except RenderFault NodeId) = .ok n → fl.scene.Foreign n := by
    intro e w₁ still
    rw [ensures_pure]
    exact fun hg => ⟨still hg, nofun⟩
  cases value with
  | value v =>
    cases v with
    | node m => exact known m rfl
    | _ => exact ok_foreign (create_foreign fl _ w)
  | component c => exact known c.node rfl
  | signal s => exact ok_foreign (signalNode_foreign fl s w)
  | writable s => exact ok_foreign (signalNode_foreign fl s w)
  | listener l => exact fails _ w fun _ => .of_nodes rfl
  | formula fn =>
    have asked : Keeps fl.Quiet run (TemplateValue.signal? (.formula fn)) := quiet_closed.signal? _
    unfold Render.nodeOf
    rw [ensures_run_lift_bind]
    refine (asked w).mono fun s w₁ still => ?_
    cases s with
    | none => exact fails _ w₁ still
    | some s =>
      refine (ok_foreign (signalNode_foreign fl s w₁)).mono fun r w₂ h hg => ?_
      obtain ⟨more, foreign⟩ := h ((still hg).good hg)
      exact ⟨(still hg).trans more, foreign⟩

variable {element : NodeId} {w : World}

/-- Putting a value into a slot. -/
theorem fills_fillElement {slot : Template.Slot} {value : TemplateValue}
    (spares : slot.Spares fl.mark) (allowed : ∀ ref, slot = .component ref → fl.components)
    (inside : fl.scene.Inside element)
    (given : ∀ n, value.node? = some n → fl.scene.brought n) (w : World) :
    Ensures run (Render.fillElement element slot value).run w fun _ w' => fl.Good w →
      fl.Filled [] w w' ∧ (∀ ref c, slot = .component ref → value = .component c →
        fl.scene.Copied element → fl.scene.Astray w'.nodes element) := by
  have quiet : ∀ {x : Fitting Render.Asked}, (∀ ref, slot ≠ .component ref) →
      Keeps fl.Quiet run x.run → Ensures run x.run w fun r w' => fl.Good w →
        fl.Filled [] w w' ∧ (∀ ref c, slot = .component ref → value = .component c →
          fl.scene.Copied element → fl.scene.Astray w'.nodes element) := by
    intro x other hx
    refine (hx w).mono fun r w' still hg => ⟨(still hg).filled hg, ?_⟩
    exact fun ref _ h => absurd h (other ref)
  cases slot with
  | attr name quote ref =>
    exact quiet (by simp) ((quiet_writes inside).attributeSlot spares quote ref value)
  | directive kind name ref => exact quiet (by simp) ((quiet_writes inside).directive spares name value)
  | component ref =>
    cases value with
    | component c =>
      unfold Render.fillElement
      rw [ensures_run_lift_bind]
      refine (fills_placeComponent (allowed ref rfl) inside (given c.node rfl) w).mono fun _ w' h => ?_
      rw [ensures_run_pure]
      intro hg
      obtain ⟨filled, gone⟩ := h hg
      exact ⟨filled, fun _ _ _ _ => gone⟩
    | _ =>
      refine (ensures_run_throw _ _).2 fun hg => ?_
      exact ⟨(Still.of_nodes rfl).filled hg, fun _ _ _ h => nomatch h⟩
  | node ref =>
    unfold Render.fillElement
    rw [ensures_run_bind]
    refine (nodeOf_foreign given w).mono fun r w₁ h => ⟨fun n hn => ?_, fun e _ hg => ?_⟩
    · simp only [ensures_run_lift_bind, ensures_run_pure]
      refine ensures_of_imp fun hg => ?_
      obtain ⟨still, foreign⟩ := h hg
      refine (fills_replace inside (foreign n hn) w₁).mono fun _ w₂ h => ?_
      obtain ⟨filled, -⟩ := h (still.good hg)
      exact ⟨(still.filled (l := []) hg).trans filled, nofun⟩
    · exact ⟨(h hg).1.filled hg, nofun⟩

end Filling
end LiveMarkup.Live
