import LiveMarkup.Proofs.Cancelling

/-!
Recounting: every run has an account of its cancellations. Handles are kept under names, by derived
signals and as members of aggregates, and none of those is made up, so that a member that is not
active was cancelled.
-/
namespace LiveMarkup.Live

/-- The handles that are kept belong to subscriptions that were made. -/
structure World.Issued (w : World) : Prop where
  members : ∀ s members, w.subscriptions.get s = some (.all members) →
    ∀ m ∈ members, m.index < w.subscriptions.size
  held : ∀ d, ∀ s ∈ (w.derivations.get d).subscriptions, s.index < w.subscriptions.size
  named : ∀ name s, w.names.subscriptions.get? name = some s → s.index < w.subscriptions.size

/-- Nothing happens to subscriptions, and none is kept that was not. -/
structure World.Leaves (w w' : World) : Prop where
  subscriptions : w'.subscriptions = w.subscriptions
  held : ∀ d, ∀ s ∈ (w'.derivations.get d).subscriptions, s ∈ (w.derivations.get d).subscriptions
  named : ∀ name s, w'.names.subscriptions.get? name = some s →
    w.names.subscriptions.get? name = some s

theorem World.Leaves.of_eq {w w' : World} (subscriptions : w'.subscriptions = w.subscriptions)
    (derivations : w'.derivations = w.derivations)
    (named : w'.names.subscriptions = w.names.subscriptions) : w.Leaves w' :=
  ⟨subscriptions, fun _ _ hs => derivations ▸ hs, fun _ _ hs => named ▸ hs⟩

theorem World.Leaves.spares {w w' : World} (h : w.Leaves w') : w.Spares w' := by
  refine ⟨Nat.le_of_eq (by rw [h.subscriptions]), fun s _ => by rw [h.subscriptions],
    fun s new known => ?_⟩
  rw [h.subscriptions] at known
  exact absurd known (Nat.not_lt.2 new)

theorem World.Leaves.issued {w w' : World} (h : w.Leaves w') (issued : w.Issued) : w'.Issued := by
  refine ⟨fun s members all => ?_, fun d s hs => ?_, fun name s hs => ?_⟩
  · rw [h.subscriptions] at all ⊢
    exact issued.members s members all
  · rw [h.subscriptions]
    exact issued.held d s (h.held d s hs)
  · rw [h.subscriptions]
    exact issued.named name s (h.named name s hs)

/-- Whatever an operation yields from a world, there is an account of it, handles are kept as they
should be, and a condition is satisfied. -/
def Recounts (Calls : Conduct) {α : Type} (run : Runner) (x : Op α) (w : World)
    (Q : α → World → Prop) : Prop :=
  ∀ a w', x run w = .ok (a, w') → (∃ l, Account Calls x w l a w') ∧ w'.Issued ∧
    w.subscriptions.size ≤ w'.subscriptions.size ∧ Q a w'

/-- The same from any world in which they are. -/
def Chronicled (Calls : Conduct) {α : Type} (run : Runner) (x : Op α) : Prop :=
  ∀ w, w.Issued → Recounts Calls run x w fun _ _ => True

/-- A runner whose callbacks are accounted for. -/
class Conducts (Calls : Conduct) (run : Runner) : Prop where
  task : ∀ t w w', w.Issued →
    (∀ members, t = .cancel (.all members) → ∀ m ∈ members, m.index < w.subscriptions.size) →
      run t w = .ok ((), w') → (∃ l, Calls t w l w') ∧ w'.Issued ∧
        w.subscriptions.size ≤ w'.subscriptions.size

section
variable {α β : Type} {Calls : Conduct} {run : Runner} {w w₁ : World}

theorem Recounts.mono {x : Op α} {Q Q' : α → World → Prop} (h : Recounts Calls run x w Q)
    (imp : ∀ a w', w.subscriptions.size ≤ w'.subscriptions.size → Q a w' → Q' a w') :
    Recounts Calls run x w Q' := by
  intro a w' hx
  obtain ⟨account, issued, size, q⟩ := h a w' hx
  exact ⟨account, issued, size, imp a w' size q⟩

/-- What asks for no callback and cancels nothing. -/
theorem recounts_still {x : Op α} {a : α} {Q : α → World → Prop}
    (aside : ∀ run, x run w = .ok (a, w₁)) (spares : w.Spares w₁) (issued : w₁.Issued)
    (q : Q a w₁) : Recounts Calls run x w Q := by
  intro b w' hx
  cases (aside run).symm.trans hx
  exact ⟨⟨[], .still aside spares⟩, issued, spares.size, q⟩

theorem recounts_leaves {x : Op α} {a : α} {Q : α → World → Prop} (issued : w.Issued)
    (aside : ∀ run, x run w = .ok (a, w₁)) (leaves : w.Leaves w₁) (q : Q a w₁) :
    Recounts Calls run x w Q :=
  recounts_still aside leaves.spares (leaves.issued issued) q

theorem recounts_bind {x : Op α} {f : α → Op β} {P : α → World → Prop} {Q : β → World → Prop}
    (hx : Recounts Calls run x w P)
    (hf : ∀ a w₁, w₁.Issued → w.subscriptions.size ≤ w₁.subscriptions.size → P a w₁ →
      Recounts Calls run (f a) w₁ Q) : Recounts Calls run (x >>= f) w Q := by
  intro b w₂ ran
  obtain ⟨a, w₁, first, next⟩ := ok_of_bind ran
  obtain ⟨⟨l, account⟩, issued, size, here⟩ := hx a w₁ first
  obtain ⟨⟨l', account'⟩, issued', size', q⟩ := hf a w₁ issued size here b w₂ next
  exact ⟨⟨_, account.bind account'⟩, issued', Nat.le_trans size size', q⟩

@[grind ←] theorem chronicled_bind {x : Op α} {f : α → Op β} (hx : Chronicled Calls run x)
    (hf : ∀ a, Chronicled Calls run (f a)) : Chronicled Calls run (x >>= f) :=
  fun w issued => recounts_bind (hx w issued) fun a w₁ issued₁ _ _ => hf a w₁ issued₁

@[grind ←] theorem chronicled_pure (a : α) : Chronicled Calls run (pure a) :=
  fun _ issued => recounts_leaves issued (fun _ => rfl) (.of_eq rfl rfl rfl) trivial

@[grind ←] theorem chronicled_throw (e : Halt) : Chronicled Calls run (throw e : Op α) :=
  fun _ _ _ _ thrown => nomatch thrown

@[grind ←] theorem chronicled_get : Chronicled Calls run (get : Op World) :=
  fun _ issued => recounts_leaves issued (fun _ => rfl) (.of_eq rfl rfl rfl) trivial

/-- Reading the world shows that handles are kept as they should be. -/
theorem recounts_read {f : World → Op β} {Q : β → World → Prop} (issued : w.Issued)
    (hf : Recounts Calls run (f w) w Q) : Recounts Calls run (get >>= f) w Q := by
  refine recounts_bind (P := fun a w₁ => a = w ∧ w₁ = w)
    (recounts_leaves issued (fun _ => rfl) (.of_eq rfl rfl rfl) ⟨rfl, rfl⟩) ?_
  rintro _ _ - - ⟨rfl, rfl⟩
  exact hf

@[grind ←] theorem chronicled_map {x : Op α} {f : α → β} (hx : Chronicled Calls run x) :
    Chronicled Calls run (f <$> x) := by
  rw [map_eq_pure_bind]
  exact chronicled_bind hx fun a => chronicled_pure (f a)

theorem chronicled_ite {c : Prop} [Decidable c] {x y : Op α} (hx : Chronicled Calls run x)
    (hy : Chronicled Calls run y) : Chronicled Calls run (if c then x else y) := by
  split
  · exact hx
  · exact hy

theorem chronicled_forM_mem {l : List β} {f : β → Op PUnit}
    (hf : ∀ b ∈ l, Chronicled Calls run (f b)) :
    Chronicled Calls run (l.forM f) := by
  induction l with
  | nil => exact chronicled_pure PUnit.unit
  | cons b l ih =>
    obtain ⟨here, rest⟩ := List.forall_mem_cons.1 hf
    exact chronicled_bind here fun _ => ih rest

@[grind ←] theorem chronicled_forM {l : List β} {f : β → Op PUnit}
    (hf : ∀ b, Chronicled Calls run (f b)) :
    Chronicled Calls run (l.forM f) :=
  chronicled_forM_mem fun b _ => hf b

@[grind ←] theorem chronicled_optionForM {o : Option β} {f : β → Op PUnit}
    (hf : ∀ b, Chronicled Calls run (f b)) : Chronicled Calls run (o.forM f) := by
  cases o with
  | none => exact chronicled_pure PUnit.unit
  | some b => exact hf b

@[grind ←] theorem chronicled_mapM {l : List β} {f : β → Op α}
    (hf : ∀ b, Chronicled Calls run (f b)) :
    Chronicled Calls run (l.mapM f) := by
  induction l with
  | nil => exact chronicled_pure []
  | cons b l ih =>
    rw [List.mapM_cons]
    exact chronicled_bind (hf b) fun _ => chronicled_bind ih fun _ => chronicled_pure _

@[grind ←] theorem chronicled_require (name : Name) (a : Option α) :
    Chronicled Calls run (require name a) := by
  unfold require
  grind

@[grind ←] theorem chronicled_lookUp (table : Names → Ordered Name α) (name : Name) :
    Chronicled Calls run (lookUp table name) := by
  unfold lookUp
  grind

@[grind ←] theorem chronicled_nodeNamed (name : Name) : Chronicled Calls run (nodeNamed name) := by
  unfold nodeNamed
  grind

@[grind ←] theorem chronicled_signalNamed (name : Name) :
    Chronicled Calls run (signalNamed name) := by
  unfold signalNamed
  grind

@[grind ←] theorem chronicled_writableNamed (name : Name) :
    Chronicled Calls run (writableNamed name) := by
  unfold writableNamed
  grind

variable {ε : Type}

@[grind ←] theorem chronicled_run_pure (a : α) : Chronicled Calls run (pure a : ExceptT ε Op α).run :=
  chronicled_pure _

@[grind ←] theorem chronicled_run_throw (e : ε) :
    Chronicled Calls run (throw e : ExceptT ε Op α).run :=
  chronicled_pure _

@[grind ←] theorem chronicled_run_bind {x : ExceptT ε Op α} {f : α → ExceptT ε Op β}
    (hx : Chronicled Calls run x.run) (hf : ∀ a, Chronicled Calls run (f a).run) :
    Chronicled Calls run (x >>= f).run := by
  rw [ExceptT.run_bind]
  refine chronicled_bind hx fun r => ?_
  cases r with
  | ok a => exact hf a
  | error e => exact chronicled_pure _

@[grind ←] theorem chronicled_run_lift {x : Op α} (hx : Chronicled Calls run x) :
    Chronicled Calls run (liftM x : ExceptT ε Op α).run :=
  chronicled_map hx

@[grind ←] theorem chronicled_run_get :
    Chronicled Calls run (getThe World : ExceptT ε Op World).run :=
  chronicled_map chronicled_get

@[grind ←] theorem chronicled_run_forM {l : List β} {f : β → ExceptT ε Op PUnit}
    (hf : ∀ b, Chronicled Calls run (f b).run) : Chronicled Calls run (l.forM f).run := by
  induction l with
  | nil => exact chronicled_run_pure PUnit.unit
  | cons b l ih => exact chronicled_run_bind (hf b) fun _ => ih

@[grind ←] theorem chronicled_run_mapM {l : List β} {f : β → ExceptT ε Op α}
    (hf : ∀ b, Chronicled Calls run (f b).run) : Chronicled Calls run (l.mapM f).run := by
  induction l with
  | nil => exact chronicled_run_pure []
  | cons b l ih =>
    rw [List.mapM_cons]
    exact chronicled_run_bind (hf b) fun _ => chronicled_run_bind ih fun _ => chronicled_run_pure _

@[grind ←] theorem chronicled_find (d : Template.Descriptor) (fragment : NodeId) (r : Template.Ref) :
    Chronicled Calls run (Render.find d fragment r).run := by
  unfold Render.find
  grind

@[grind ←] theorem chronicled_atSlot {x : Fitting α} (index : Option Nat)
    (hx : Chronicled Calls run x.run) : Chronicled Calls run (x.atSlot index).run := by
  refine chronicled_bind hx fun r => ?_
  cases r with
  | ok a => exact chronicled_pure _
  | error e => exact chronicled_pure _

/-! Changes of other things. -/

theorem chronicled_aside {f : World → World} (leaves : ∀ w : World, w.Leaves (f w)) :
    Chronicled Calls run (modify f : Op PUnit) :=
  fun w issued => recounts_leaves issued (fun _ => rfl) (leaves w) trivial

@[grind ←] theorem chronicled_modify {f : World → World}
    (subscriptions : (fun w => (f w).subscriptions) = World.subscriptions)
    (derivations : (fun w => (f w).derivations) = World.derivations)
    (named : (fun w => (f w).names.subscriptions) = fun w => w.names.subscriptions) :
    Chronicled Calls run (modify f : Op PUnit) :=
  chronicled_aside fun w =>
    .of_eq (congrFun subscriptions w) (congrFun derivations w) (congrFun named w)

/-- Changing the world that was just read. -/
theorem chronicled_get_set {f : World → World} {g : World → PUnit → Op α}
    (leaves : ∀ w : World, w.Leaves (f w)) (hg : ∀ w u, Chronicled Calls run (g w u)) :
    Chronicled Calls run (get >>= fun w => set (f w) >>= g w) := by
  intro w issued
  refine recounts_read issued (recounts_bind (P := fun _ _ => True)
    (recounts_leaves issued (fun _ => rfl) (leaves w) trivial) fun u w₁ issued₁ _ _ => ?_)
  exact hg w u w₁ issued₁

@[grind ←] theorem chronicled_onNodes (f : Dom.Forest → α × Dom.Forest) :
    Chronicled Calls run (onNodes f) :=
  chronicled_get_set (f := fun w => { w with nodes := (f w.nodes).2 }) (fun _ => .of_eq rfl rfl rfl)
    fun _ _ => chronicled_pure _

@[grind ←] theorem chronicled_modifyNodes (f : Dom.Forest → Dom.Forest) :
    Chronicled Calls run (modifyNodes f) :=
  chronicled_modify rfl rfl rfl

@[grind ←] theorem chronicled_note (n : Note) : Chronicled Calls run (note n) :=
  chronicled_modify rfl rfl rfl

@[grind ←] theorem chronicled_rename {f : Names → Names}
    (named : (fun names => (f names).subscriptions) = Names.subscriptions) :
    Chronicled Calls run (rename f) :=
  chronicled_modify rfl rfl (funext fun w => congrFun named w.names)

@[grind ←] theorem chronicled_nameNode (name : Name) (n : NodeId) :
    Chronicled Calls run (nameNode name n) :=
  chronicled_modify rfl rfl rfl

@[grind ←] theorem chronicled_nodeOrCreate (name : Name) (content : Dom.Content) :
    Chronicled Calls run (nodeOrCreate name content) := by
  unfold nodeOrCreate
  grind

@[grind ←] theorem chronicled_literal (l : Literal) : Chronicled Calls run l.eval := by
  unfold Literal.eval
  grind

@[grind ←] theorem chronicled_modifySignal (s : SignalId) (f : Signal → Signal) :
    Chronicled Calls run (modifySignal s f) :=
  chronicled_modify rfl rfl rfl

@[grind ←] theorem chronicled_createSignal (value : Option Value) (producer : Option Producer) :
    Chronicled Calls run (Signal.create value producer) :=
  chronicled_get_set (fun _ => .of_eq rfl rfl rfl) fun _ _ => chronicled_pure _

@[grind ←] theorem chronicled_enter (s : SignalId) (reaction : Reaction) (mode : Mode) :
    Chronicled Calls run (Signal.enter s reaction mode) :=
  chronicled_get_set (fun _ => .of_eq rfl rfl rfl) fun _ _ => chronicled_pure _

@[grind ←] theorem chronicled_drop (s : SignalId) (e : EntryId) :
    Chronicled Calls run (Signal.drop s e) := by
  unfold Signal.drop
  grind

@[grind ←] theorem chronicled_createFormula (r : Reading) :
    Chronicled Calls run (SharedFormula.create r) :=
  chronicled_get_set (fun _ => .of_eq rfl rfl rfl) fun _ _ => chronicled_pure _

@[grind ←] theorem chronicled_caseOf (spec : CaseSpec) :
    Chronicled Calls run (Branch.caseOf spec) := by
  unfold Branch.caseOf
  grind

@[grind ←] theorem chronicled_tableOf (specs : List CaseSpec) :
    Chronicled Calls run (Branch.tableOf specs) := by
  unfold Branch.tableOf
  grind

@[grind ←] theorem chronicled_createBranch (source : SignalId)
    (cases : CaseTable Value ValueType Formula) (fallback : Option Formula) :
    Chronicled Calls run (Branch.create source cases fallback) :=
  chronicled_get_set (fun _ => .of_eq rfl rfl rfl) fun _ _ => chronicled_pure _

@[grind ←] theorem chronicled_setInFallback (a : ActivationId) (inFallback : Bool) :
    Chronicled Calls run (Branch.setInFallback a inFallback) :=
  chronicled_modify rfl rfl rfl

@[grind ←] theorem chronicled_record (d : Deed) : Chronicled Calls run (Branch.record d) :=
  chronicled_modify rfl rfl rfl

@[grind ←] theorem chronicled_setData (n : NodeId) (text : String) :
    Chronicled Calls run (Mount.setData n text) :=
  chronicled_modifyNodes _

@[grind ←] theorem chronicled_changeElement (n : NodeId) (g : Dom.Element → Dom.Element) :
    Chronicled Calls run (Mount.changeElement n g) := by
  unfold Mount.changeElement
  grind

@[grind ←] theorem chronicled_changeAttributes (n : NodeId)
    (g : Markup.Attributes → Markup.Attributes) :
    Chronicled Calls run (Mount.changeAttributes n g) := by
  unfold Mount.changeAttributes
  grind

@[grind ←] theorem chronicled_onUnmount (n : NodeId) (h : Hook) :
    Chronicled Calls run (Lifecycle.onUnmount n h) := by
  unfold Lifecycle.onUnmount
  grind

@[grind ←] theorem chronicled_setSlot (f : FollowId) (slot : Option SubscriptionId) :
    Chronicled Calls run (Lifecycle.setSlot f slot) := by
  unfold Lifecycle.setSlot
  grind

@[grind ←] theorem chronicled_listen (n : NodeId) (event : String) (l : ListenerId) :
    Chronicled Calls run (Events.listen n event l) := by
  refine chronicled_aside fun w => ?_
  split
  · exact .of_eq rfl rfl rfl
  · exact .of_eq rfl rfl rfl

@[grind ←] theorem chronicled_unlisten (n : NodeId) (event : String) (l : ListenerId) :
    Chronicled Calls run (Events.unlisten n event l) := by
  unfold Events.unlisten
  grind

@[grind ←] theorem chronicled_createListener (h : Handler) : Chronicled Calls run (Events.create h) :=
  chronicled_get_set (fun _ => .of_eq rfl rfl rfl) fun _ _ => chronicled_pure _

@[grind ←] theorem chronicled_nameNew (name : Name) (content : Dom.Content) :
    Chronicled Calls run (nameNew name content) := by
  unfold nameNew
  grind

@[grind ←] theorem chronicled_nameSignal (name : Name) (s : SignalId) (role : Role) :
    Chronicled Calls run (nameSignal name s role) := by
  unfold nameSignal
  grind

@[grind ←] theorem chronicled_nameFormula (name : Name) (fn : FormulaId) :
    Chronicled Calls run (nameFormula name fn) := by
  unfold nameFormula
  grind

@[grind ←] theorem chronicled_nameTemplate (name : Name) (t : CachedTemplate) :
    Chronicled Calls run (nameTemplate name t) :=
  chronicled_modify rfl rfl rfl

@[grind ←] theorem chronicled_withRefs (f : Nat → α × Nat) :
    Chronicled Calls run (Compile.withRefs f) :=
  chronicled_get_set (f := fun w => { w with nextRef := (f w.nextRef).2 }) (fun _ => .of_eq rfl rfl rfl)
    fun _ _ => chronicled_pure _

@[grind ←] theorem chronicled_nameRendering (name : Name) (nodes : List NodeId) :
    Chronicled Calls run (nameRendering name nodes) := by
  unfold nameRendering
  grind

@[grind ←] theorem chronicled_giveAttribute (c : Component) (name value : String) :
    Chronicled Calls run (Render.giveAttribute c name value) := by
  unfold Render.giveAttribute
  grind

@[grind ←] theorem chronicled_resolve (source : SlotSource) :
    Chronicled Calls run (source.resolve) := by
  cases source <;> (simp only [SlotSource.resolve, signalNamed, writableNamed]; grind)

@[grind ←] theorem chronicled_descriptorOf (t : TemplateId) :
    Chronicled Calls run (Compile.descriptorOf t) := by
  unfold Compile.descriptorOf
  grind

@[grind ←] theorem chronicled_compile (name : Name) (config : Template.Config)
    (edits : List Template.Shape.Edit) (chunks : List String) :
    Chronicled Calls run (Compile.compile name config edits chunks) := by
  unfold Compile.compile
  grind

/-! Handles. -/

/-- An operation that yields the handle of a subscription that was made. -/
def Lends (Calls : Conduct) (run : Runner) (x : Op SubscriptionId) : Prop :=
  ∀ w, w.Issued → Recounts Calls run x w fun s w' => s.index < w'.subscriptions.size

@[grind ←] theorem Lends.chronicled {x : Op SubscriptionId} (h : Lends Calls run x) :
    Chronicled Calls run x :=
  fun w issued => (h w issued).mono fun _ _ _ _ => trivial

theorem lends_bind {x : Op α} {f : α → Op SubscriptionId} (hx : Chronicled Calls run x)
    (hf : ∀ a, Lends Calls run (f a)) : Lends Calls run (x >>= f) :=
  fun w issued => recounts_bind (hx w issued) fun a w₁ issued₁ _ _ => hf a w₁ issued₁

theorem recounts_create {w : World} {c : Cancel} (issued : w.Issued)
    (known : ∀ members, c = .all members → ∀ m ∈ members, m.index < w.subscriptions.size) :
    Recounts Calls run (Subscription.create c) w fun s w' => s.index < w'.subscriptions.size := by
  have size : (Subscription.made c w).subscriptions.size = w.subscriptions.size + 1 :=
    Heap.size_push ..
  have old : ∀ s, s ≠ w.subscriptions.next →
      (Subscription.made c w).subscriptions.get s = w.subscriptions.get s :=
    fun s ne => Heap.get_push_of_ne _ _ _ ne
  have new : (Subscription.made c w).subscriptions.get w.subscriptions.next = some c :=
    Heap.get_push_next ..
  have made : ∀ run, Subscription.create c run w = .ok (w.subscriptions.next, Subscription.made c w) :=
    fun _ => rfl
  refine recounts_still made ⟨?_, fun s hs => ?_, fun s hs hs' => ?_⟩
    ⟨fun s members all m hm => ?_, fun d s hs => ?_, fun name s hs => ?_⟩ ?_
  · omega
  · refine old s ?_
    rintro rfl
    exact Nat.lt_irrefl _ hs
  · have here : s = w.subscriptions.next := by
      cases s
      simp only [Heap.next, Id.mk.injEq] at hs hs' ⊢
      omega
    rw [here, new]
    exact Option.some_ne_none c
  · rw [size]
    refine Nat.lt_succ_of_lt ?_
    by_cases here : s = w.subscriptions.next
    · rw [here, new] at all
      exact known members (Option.some.inj all) m hm
    · rw [old s here] at all
      exact issued.members s members all m hm
  · exact size ▸ Nat.lt_succ_of_lt (issued.held d s hs)
  · exact size ▸ Nat.lt_succ_of_lt (issued.named name s hs)
  · exact size ▸ Nat.lt_succ_self _

theorem lends_create {c : Cancel} (other : ∀ members, c ≠ .all members) :
    Lends Calls run (Subscription.create c) :=
  fun _ issued => recounts_create issued fun members all => absurd all (other members)

theorem recounts_nameSubscription {w : World} {s : SubscriptionId} (name : Name) (issued : w.Issued)
    (known : s.index < w.subscriptions.size) :
    Recounts Calls run (nameSubscription name s) w fun _ _ => True := by
  refine recounts_still (fun _ => rfl) ⟨Nat.le_refl _, fun _ _ => rfl, fun _ new known => ?_⟩
    ⟨issued.members, issued.held, fun other t ht => ?_⟩ trivial
  · exact absurd known (Nat.not_lt.2 new)
  · change (w.names.subscriptions.insert name s).get? other = some t at ht
    by_cases here : other = name
    · rw [here, Ordered.get?_insert_self] at ht
      cases ht
      exact known
    · rw [Ordered.get?_insert_of_ne _ here] at ht
      exact issued.named other t ht

/-- A handle that is kept under a name. -/
theorem chronicled_named {x : Op SubscriptionId} {g : Op α} (name : Name) (hx : Lends Calls run x)
    (hg : Chronicled Calls run g) :
    Chronicled Calls run (x >>= fun s => nameSubscription name s >>= fun _ => g) := by
  intro w issued
  refine recounts_bind (hx w issued) fun s w₁ issued₁ _ known => ?_
  exact recounts_bind (recounts_nameSubscription name issued₁ known) fun _ w₂ issued₂ _ _ =>
    hg w₂ issued₂

theorem lends_lookUp (name : Name) : Lends Calls run (lookUp Names.subscriptions name) := by
  intro w issued
  refine recounts_read issued ?_
  cases found : w.names.subscriptions.get? name with
  | none => exact fun _ _ thrown => nomatch thrown
  | some s =>
    exact recounts_leaves issued (fun _ => rfl) (.of_eq rfl rfl rfl) (issued.named name s found)

/-- By induction on the names. -/
theorem recounts_lookUpAll {w : World} (names : List Name) (issued : w.Issued) :
    Recounts Calls run (names.mapM (lookUp Names.subscriptions)) w fun members w' =>
      ∀ m ∈ members, m.index < w'.subscriptions.size := by
  induction names generalizing w with
  | nil => exact recounts_leaves issued (fun _ => rfl) (.of_eq rfl rfl rfl) nofun
  | cons name names ih =>
    rw [List.mapM_cons]
    refine recounts_bind (lends_lookUp name w issued) fun s w₁ issued₁ _ known => ?_
    refine recounts_bind (ih issued₁) fun members w₂ issued₂ size all => ?_
    refine recounts_leaves issued₂ (fun _ => rfl) (.of_eq rfl rfl rfl) ?_
    exact List.forall_mem_cons.2 ⟨Nat.lt_of_lt_of_le known size, all⟩

variable [Conducts Calls run]

@[grind ←] theorem chronicled_invoke {t : Task} (other : ∀ c, t ≠ .cancel c) :
    Chronicled Calls run (invoke t) := by
  intro w issued _ w' ran
  obtain ⟨⟨l, done⟩, issued', size⟩ :=
    ‹Conducts Calls run›.task t w w' issued (fun members all => absurd all (other _)) ran
  exact ⟨⟨l, .call other done⟩, issued', size, trivial⟩

theorem chronicled_invokeAll {ts : List Task} (other : ∀ t ∈ ts, ∀ c, t ≠ .cancel c) :
    Chronicled Calls run (invokeAll ts) :=
  chronicled_forM_mem fun t ht => chronicled_invoke (other t ht)

@[grind ←] theorem chronicled_hooks (n : NodeId) (hooks : List (NodeId × Hook)) :
    Chronicled Calls run (invokeAll (hooksOf n hooks)) := by
  refine chronicled_invokeAll fun t ht c => ?_
  obtain ⟨⟨m, h⟩, -, is⟩ := List.mem_filterMap.1 ht
  rintro rfl
  dsimp only at is
  split at is
  · cases is
  · cases is

theorem chronicled_connectAll (nodes : List NodeId) (connected : Bool) :
    Chronicled Calls run (invokeAll (nodes.map fun n => .connect n connected)) := by
  refine chronicled_invokeAll fun t ht c => ?_
  obtain ⟨n, -, rfl⟩ := List.mem_map.1 ht
  exact nofun

theorem issued_spent {w : World} (issued : w.Issued) (s : SubscriptionId) :
    (Subscription.spent s w).Issued := by
  have size : (Subscription.spent s w).subscriptions.size = w.subscriptions.size :=
    Heap.size_modify ..
  refine ⟨fun t members all m hm => ?_, fun d t ht => ?_, fun name t ht => ?_⟩
  · rw [size]
    by_cases here : s = t
    · subst here
      rcases Nat.lt_or_ge s.index w.subscriptions.size with known | unknown
      · rw [Subscription.spent, Heap.get_modify_self _ _ _ known] at all
        cases all
      · rw [Heap.get_of_size_le _ _ (size ▸ unknown)] at all
        cases all
    · rw [Subscription.spent, Heap.get_modify_of_ne _ _ _ _ here] at all
      exact issued.members t members all m hm
  · exact size ▸ issued.held d t ht
  · exact size ▸ issued.named name t ht

variable (Calls) in
/-- What comes of the work of a subscription that is active. -/
theorem done_of_active {w w' : World} {s : SubscriptionId} {c : Cancel} (issued : w.Issued)
    (active : w.subscriptions.get s = some c) (ran : Subscription.cancel s run w = .ok ((), w')) :
    (∃ l, Calls (.cancel c) (Subscription.spent s w) l w') ∧ w'.Issued ∧
      w.subscriptions.size ≤ w'.subscriptions.size := by
  rw [cancel_of_active active] at ran
  have size : (Subscription.spent s w).subscriptions.size = w.subscriptions.size :=
    Heap.size_modify ..
  have done := ‹Conducts Calls run›.task (.cancel c) _ w' (issued_spent issued s)
    (fun members all => by
      cases all
      exact size ▸ issued.members s members active) ran
  rwa [size] at done

@[grind ←] theorem chronicled_cancel (s : SubscriptionId) :
    Chronicled Calls run (Subscription.cancel s) := by
  intro w issued
  cases active : w.subscriptions.get s with
  | none =>
    exact recounts_leaves issued (cancel_of_ended active) (.of_eq rfl rfl rfl) trivial
  | some c =>
    intro _ w' ran
    obtain ⟨⟨l, done⟩, issued', size⟩ := done_of_active Calls issued active ran
    exact ⟨⟨_, .cancel active done⟩, issued', size, trivial⟩

@[grind ←] theorem chronicled_cancelEach (l : List SubscriptionId) :
    Chronicled Calls run (Subscription.cancelEach l) :=
  chronicled_forM chronicled_cancel

@[grind ←] theorem chronicled_tell (s : SignalId) (round : Nat) (e : EntryId) :
    Chronicled Calls run (Signal.tell s round e) := by
  intro w issued
  refine recounts_read issued ?_
  dsimp only
  split
  · refine recounts_bind (P := fun _ _ => True) (recounts_leaves issued (fun _ => rfl)
      (.of_eq rfl rfl rfl) trivial) fun _ w₁ issued₁ _ _ => ?_
    exact chronicled_invoke (fun _ same => by cases same) w₁ issued₁
  · exact chronicled_pure _ w issued

@[grind ←] theorem chronicled_notify (s : SignalId) : Chronicled Calls run (Signal.notify s) := by
  unfold Signal.notify
  grind

@[grind ←] theorem chronicled_replace (s : SignalId) (value : Option Value) :
    Chronicled Calls run (Signal.replace s value) := by
  unfold Signal.replace
  grind

@[grind ←] theorem chronicled_greet (s : SignalId) (e : EntryId) (reaction : Reaction) :
    Chronicled Calls run (Signal.greet s e reaction) := by
  unfold Signal.greet
  grind

@[grind ←] theorem chronicled_join (s : SignalId) (reaction : Reaction) (mode : Mode) :
    Chronicled Calls run (Signal.join s reaction mode) := by
  unfold Signal.join
  grind

@[grind ←] theorem chronicled_write (s : SignalId) (value : Option Value) :
    Chronicled Calls run (Signal.write s value) := by
  unfold Signal.write
  grind

@[grind ←] theorem chronicled_put (s : SignalId) (v : Value) :
    Chronicled Calls run (Signal.put s v) :=
  chronicled_write s v

@[grind ←] theorem chronicled_change (s : SignalId) (v : Value) :
    Chronicled Calls run (Signal.change s v) :=
  chronicled_replace s v

@[grind ←] theorem chronicled_wake (s : SignalId) : Chronicled Calls run (Signal.wake s) := by
  unfold Signal.wake
  grind

theorem lends_subscribe (s : SignalId) (reaction : Reaction) (mode : Mode) :
    Lends Calls run (Signal.subscribe s reaction mode) := by
  refine lends_bind (chronicled_wake s) fun _ =>
    lends_bind (chronicled_join s reaction mode) fun e => ?_
  exact lends_create nofun

@[grind ←] theorem chronicled_subscribe (s : SignalId) (reaction : Reaction) (mode : Mode) :
    Chronicled Calls run (Signal.subscribe s reaction mode) :=
  (lends_subscribe s reaction mode).chronicled

@[grind ←] theorem chronicled_stop (s : SignalId) : Chronicled Calls run (Signal.stop s) := by
  unfold Signal.stop
  grind

@[grind ←] theorem chronicled_leave (s : SignalId) (e : EntryId) :
    Chronicled Calls run (Signal.leave s e) := by
  unfold Signal.leave
  grind

/-! Derived signals and matches. -/

theorem leaves_cell (w : World) (d : DerivationId) {f : Derivation → Derivation}
    (same : ∀ cell, (f cell).subscriptions = cell.subscriptions ∨ (f cell).subscriptions = []) :
    w.Leaves { w with derivations := w.derivations.modify d f } := by
  refine ⟨rfl, fun d' s hs => ?_, fun _ _ named => named⟩
  change s ∈ ((w.derivations.modify d f).get d').subscriptions at hs
  by_cases here : d = d'
  · subst here
    rcases Nat.lt_or_ge d.index w.derivations.size with known | unknown
    · rw [Heap.get_modify_self _ _ _ known] at hs
      rcases same (w.derivations.get d) with kept | dropped
      · exact kept ▸ hs
      · rw [dropped] at hs
        cases hs
    · rwa [Heap.modify_of_size_le _ _ _ unknown] at hs
  · rwa [Heap.get_modify_of_ne _ _ _ _ here] at hs

@[grind ←] theorem chronicled_followSignal (d : DerivationId) (s : SignalId) :
    Chronicled Calls run (Derivation.follow d s) := by
  intro w issued
  refine recounts_bind (lends_subscribe s (.refresh d) .normal w issued)
    fun sub w₁ issued₁ _ known => ?_
  refine recounts_still (fun _ => rfl) ⟨Nat.le_refl _, fun _ _ => rfl, fun _ new old => ?_⟩
    ⟨issued₁.members, fun d' t ht => ?_, issued₁.named⟩ trivial
  · exact absurd old (Nat.not_lt.2 new)
  · change t ∈ ((w₁.derivations.modify d _).get d').subscriptions at ht
    by_cases here : d = d'
    · subst here
      rcases Nat.lt_or_ge d.index w₁.derivations.size with made | unknown
      · rw [Heap.get_modify_self _ _ _ made] at ht
        rcases List.mem_append.1 ht with ht | ht
        · exact issued₁.held d t ht
        · exact List.mem_singleton.1 ht ▸ known
      · rw [Heap.modify_of_size_le _ _ _ unknown] at ht
        exact issued₁.held d t ht
    · rw [Heap.get_modify_of_ne _ _ _ _ here] at ht
      exact issued₁.held d' t ht

@[grind ←] theorem chronicled_see (d : DerivationId) (s : SignalId) :
    Chronicled Calls run (Derivation.see d s) := by
  refine chronicled_bind chronicled_get fun w => chronicled_ite (chronicled_pure _) ?_
  exact chronicled_bind (chronicled_aside fun w => leaves_cell w d fun _ => .inl rfl) fun _ =>
    chronicled_followSignal d s

@[grind ←] theorem chronicled_track (s : SignalId) (t : Tracker) :
    Chronicled Calls run (Derivation.track s t) := by
  cases t with
  | nobody => exact chronicled_pure _
  | passing => exact chronicled_pure _
  | recording d =>
    exact chronicled_bind (chronicled_aside fun w => leaves_cell w d fun _ => .inl rfl) fun _ =>
      chronicled_see d s

@[grind ←] theorem chronicled_reading (t : Tracker) (r : Reading) :
    Chronicled Calls run (r.run t) := by
  induction r with
  | done v => exact chronicled_pure v
  | get s next ih =>
    exact chronicled_bind (chronicled_track s t) fun _ => chronicled_bind chronicled_get fun w => ih _
  | peek s next ih => exact chronicled_bind chronicled_get fun w => ih _
  | track s next ih => exact chronicled_bind (chronicled_track s t) fun _ => ih
  | mode next ih => exact ih _
  | signal name next ih =>
    exact chronicled_bind chronicled_get fun w =>
      chronicled_bind (chronicled_require name _) fun p => ih _
  | literal l next ih => exact chronicled_bind (chronicled_literal l) fun v => ih v
  | text v next ih => exact chronicled_bind chronicled_get fun w => ih _
  | note n next ih => exact chronicled_bind (chronicled_note n) fun _ => ih

@[grind ←] theorem chronicled_refresh (d : DerivationId) :
    Chronicled Calls run (Derivation.refresh d) := by
  unfold Derivation.refresh
  grind

@[grind ←] theorem chronicled_createDerivation (r : Reading) :
    Chronicled Calls run (Derivation.create r) := by
  refine chronicled_bind (chronicled_reading _ r) fun initial => ?_
  refine chronicled_get_set (fun w => ⟨rfl, fun d s hs => ?_, fun _ _ named => named⟩)
    fun _ _ => chronicled_pure _
  by_cases here : d = w.derivations.next
  · rw [here, Heap.get_push_next] at hs
    cases hs
  · rwa [Heap.get_push_of_ne _ _ _ here] at hs

theorem lends_startDerivation (d : DerivationId) : Lends Calls run (Derivation.start d) := by
  refine lends_bind chronicled_get fun w => ?_
  refine lends_bind (chronicled_forM fun s => chronicled_followSignal d s) fun _ => ?_
  exact lends_bind (chronicled_refresh d) fun _ => lends_create nofun

@[grind ←] theorem chronicled_startDerivation (d : DerivationId) :
    Chronicled Calls run (Derivation.start d) :=
  (lends_startDerivation d).chronicled

@[grind ←] theorem chronicled_release (d : DerivationId) :
    Chronicled Calls run (Derivation.release d) := by
  intro w issued
  refine recounts_read issued ?_
  refine recounts_bind
    (P := fun _ w₁ => ∀ s ∈ (w.derivations.get d).subscriptions, s.index < w₁.subscriptions.size)
    (recounts_leaves issued (fun _ => rfl) (leaves_cell w d fun _ => .inr rfl) (issued.held d))
    fun _ w₁ issued₁ _ known => ?_
  refine recounts_bind (recounts_create issued₁ fun members all => ?_) fun s w₂ issued₂ _ _ =>
    chronicled_cancel s w₂ issued₂
  cases all
  exact known

@[grind ←] theorem chronicled_derived (fn : FormulaId) :
    Chronicled Calls run (SharedFormula.derived fn) := by
  unfold SharedFormula.derived
  grind

@[grind ←] theorem chronicled_handleCase (f : Formula) (v : Value) :
    Chronicled Calls run (Branch.handle f v) := by
  unfold Branch.handle
  grind

@[grind ←] theorem chronicled_fallBack (f : Formula) (v : Value) :
    Chronicled Calls run (Branch.fallBack f v) := by
  unfold Branch.fallBack
  grind

@[grind ←] theorem chronicled_startBranch (b : BranchId) : Chronicled Calls run (Branch.start b) :=
  chronicled_get_set (fun _ => .of_eq rfl rfl rfl) fun _ _ => chronicled_subscribe _ _ _

@[grind ←] theorem chronicled_offer (a : ActivationId) (v : Value) :
    Chronicled Calls run (Branch.offer a v) := by
  unfold Branch.offer
  grind

/-! The node tree. -/

@[grind ←] theorem chronicled_connect (n : NodeId) (connected : Bool) :
    Chronicled Calls run (Mount.connect n connected) := by
  have below : ∀ nodes : List NodeId,
      Chronicled Calls run (invokeAll (nodes.map fun n => .connect n connected)) :=
    fun nodes => chronicled_connectAll nodes connected
  unfold Mount.connect
  grind

@[grind ←] theorem chronicled_appendOne (p n : NodeId) :
    Chronicled Calls run (Mount.appendOne p n) := by
  unfold Mount.appendOne
  grind

@[grind ←] theorem chronicled_append (p n : NodeId) : Chronicled Calls run (Mount.append p n) := by
  unfold Mount.append
  grind

@[grind ←] theorem chronicled_appendEach (p : NodeId) (nodes : List NodeId) :
    Chronicled Calls run (Mount.appendEach p nodes) := by
  unfold Mount.appendEach
  grind

@[grind ←] theorem chronicled_remove (n : NodeId) : Chronicled Calls run (Mount.remove n) := by
  unfold Mount.remove
  grind

@[grind ←] theorem chronicled_replaceNode (n : NodeId) (replacements : List NodeId) :
    Chronicled Calls run (Mount.replace n replacements) := by
  unfold Mount.replace
  grind

@[grind ←] theorem chronicled_setText (n : NodeId) (text : String) :
    Chronicled Calls run (Mount.setText n text) := by
  unfold Mount.setText
  grind

@[grind ←] theorem chronicled_onMount (n : NodeId) (h : Hook) :
    Chronicled Calls run (Lifecycle.onMount n h) := by
  unfold Lifecycle.onMount
  grind

@[grind ←] theorem chronicled_follow (n : NodeId) (s : SignalId) (reaction : Reaction) (mode : Mode) :
    Chronicled Calls run (Lifecycle.follow n s reaction mode) := by
  refine chronicled_get_set (fun _ => .of_eq rfl rfl rfl) fun w _ => ?_
  grind

@[grind ←] theorem chronicled_startFollow (f : FollowId) :
    Chronicled Calls run (Lifecycle.startFollow f) := by
  unfold Lifecycle.startFollow
  grind

@[grind ←] theorem chronicled_endFollow (f : FollowId) :
    Chronicled Calls run (Lifecycle.endFollow f) := by
  unfold Lifecycle.endFollow
  grind

@[grind ←] theorem chronicled_dispatch (n : NodeId) (event : String) :
    Chronicled Calls run (Events.dispatch n event) := by
  refine chronicled_bind chronicled_get fun w => chronicled_invokeAll fun t ht c => ?_
  obtain ⟨l, -, rfl⟩ := List.mem_map.1 ht
  exact nofun

@[grind ←] theorem chronicled_listenWhileMounted (n : NodeId) (event : String) (l : ListenerId) :
    Chronicled Calls run (Events.listenWhileMounted n event l) := by
  unfold Events.listenWhileMounted
  grind

@[grind ←] theorem chronicled_signal? (value : TemplateValue) :
    Chronicled Calls run value.signal? := by
  unfold TemplateValue.signal?
  grind

omit [Conducts Calls run] in
@[grind ←] theorem chronicled_apply (node : NodeId) (v : Value) (e : Effect) :
    Chronicled Calls run (e.apply node v) := by
  unfold Effect.apply
  grind

@[grind ←] theorem chronicled_bindEffect (node : NodeId) (s : SignalId) (e : Effect) :
    Chronicled Calls run (e.bind node s) := by
  unfold Effect.bind
  grind

@[grind ←] theorem chronicled_connectEffect (node : NodeId) (value : TemplateValue) (e : Effect) :
    Chronicled Calls run (e.connect node value).run := by
  unfold Effect.connect
  grind

@[grind ←] theorem chronicled_signalNode (s : SignalId) :
    Chronicled Calls run (Render.signalNode s) := by
  unfold Render.signalNode
  grind

@[grind ←] theorem chronicled_nodeOf (value : TemplateValue) :
    Chronicled Calls run (Render.nodeOf value).run := by
  unfold Render.nodeOf
  grind

@[grind ←] theorem chronicled_giveChildren (c : Component) (nodes : List NodeId) :
    Chronicled Calls run (Render.giveChildren c nodes) := by
  unfold Render.giveChildren
  grind

@[grind ←] theorem chronicled_placeComponent (outlet : NodeId) (c : Component) :
    Chronicled Calls run (Render.placeComponent outlet c) := by
  unfold Render.placeComponent
  grind

@[grind ←] theorem chronicled_twoWay (element : NodeId) (s : SignalId) (key : Dom.BindingKey) :
    Chronicled Calls run (Render.twoWay element s key) := by
  unfold Render.twoWay
  grind

@[grind ←] theorem chronicled_directive (element : NodeId) (kind : Template.DirectiveKind)
    (name : String) (value : TemplateValue) :
    Chronicled Calls run (Render.directive element kind name value).run := by
  unfold Render.directive
  grind

@[grind ←] theorem chronicled_fill (d : Template.Descriptor) (fragment : NodeId) (slot : Template.Slot)
    (value : TemplateValue) :
    Chronicled Calls run (Render.fill d fragment slot value).run := by
  refine chronicled_run_bind (chronicled_find d fragment slot.ref) fun element => ?_
  unfold Render.fillElement
  cases slot with
  | node ref => grind
  | component ref => cases value <;> grind
  | attr name quote ref => grind
  | directive kind name ref => grind

@[grind ←] theorem chronicled_sourceOf (value : TemplateValue) :
    Chronicled Calls run (Render.sourceOf value).run := by
  unfold Render.sourceOf
  grind

@[grind ←] theorem chronicled_sourceOfPart (values : List TemplateValue) (part : Template.Part) :
    Chronicled Calls run (Render.sourceOfPart values part).run := by
  unfold Render.sourceOfPart
  grind

@[grind ←] theorem chronicled_fillProgram (values : List TemplateValue) (element : NodeId)
    (name : String) (parts : List Template.Part) :
    Chronicled Calls run (Render.fillProgram values element name parts).run := by
  unfold Render.fillProgram
  grind

@[grind ←] theorem chronicled_fillPrograms (d : Template.Descriptor) (fragment : NodeId)
    (values : List TemplateValue) (r : Template.Ref) (programs : Template.Programs) :
    Chronicled Calls run (Render.fillPrograms d fragment values r programs).run := by
  unfold Render.fillPrograms Render.fillAttributes
  grind

@[grind ←] theorem chronicled_fillSlots (d : Template.Descriptor) (fragment : NodeId) (index : Nat)
    (l : List (Template.Slot × TemplateValue)) :
    Chronicled Calls run (Render.fillSlots d fragment index l).run := by
  induction l generalizing index with
  | nil => exact chronicled_run_pure []
  | cons p l ih =>
    unfold Render.fillSlots
    grind

@[grind ←] theorem chronicled_fillAll (d : Template.Descriptor) (fragment : NodeId)
    (values : List TemplateValue) :
    Chronicled Calls run (Render.fillAll d fragment values).run := by
  unfold Render.fillAll
  grind

@[grind ←] theorem chronicled_render (d : Template.Descriptor) (values : List TemplateValue) :
    Chronicled Calls run (Render.render d values) := by
  refine chronicled_bind chronicled_get fun w =>
    chronicled_bind (chronicled_onNodes _) fun fragment => ?_
  refine chronicled_bind (chronicled_fillAll d fragment values) fun filled => ?_
  cases filled with
  | ok asked => grind
  | error failure => grind

/-! Steps, callbacks and runs. -/

@[grind ←] theorem chronicled_renderStep (name template : Name) (sources : List SlotSource) :
    Chronicled Calls run (renderStep name template sources) := by
  refine chronicled_bind (chronicled_lookUp _ template) fun t => ?_
  refine chronicled_bind (chronicled_mapM chronicled_resolve) fun values => ?_
  refine chronicled_bind (chronicled_descriptorOf t) fun compiled => ?_
  cases compiled with
  | error e => exact chronicled_pure _
  | ok d =>
    refine chronicled_bind (chronicled_render d values) fun rendered => ?_
    cases rendered with
    | error e => exact chronicled_pure _
    | ok nodes => grind

@[grind ←] theorem chronicled_step (current : Value) (step : Step) :
    Chronicled Calls run (step.run current) := by
  cases step with
  | subscribe name sig mode script =>
    exact chronicled_bind (chronicled_signalNamed sig) fun s =>
      chronicled_named name (lends_subscribe s _ mode) (chronicled_pure _)
  | subscribeAll name subs =>
    intro w issued
    refine recounts_bind (recounts_lookUpAll subs issued) fun members w₁ issued₁ _ known => ?_
    refine recounts_bind (recounts_create issued₁ fun _ all => ?_) fun s w₂ issued₂ _ made => ?_
    · cases all
      exact known
    · exact recounts_bind (recounts_nameSubscription name issued₂ made) fun _ w₃ issued₃ _ _ =>
        chronicled_pure _ w₃ issued₃
  | subscribeNone name =>
    exact chronicled_named name (lends_create (c := .nothing) nofun) (chronicled_pure _)
  | subscriptionClone name sub =>
    exact chronicled_named name (lends_lookUp sub) (chronicled_pure _)
  | choose v yes no =>
    refine chronicled_bind (chronicled_reading _ _) fun v => ?_
    exact chronicled_bind (chronicled_invoke fun _ same => by cases same) fun _ => chronicled_pure _
  | _ =>
    unfold Step.run
    grind

@[grind ←] theorem chronicled_script (current : Value) (script : Script) :
    Chronicled Calls run (script.run current) := by
  unfold Script.run
  grind

@[grind ←] theorem chronicled_reaction (v : Option Value) (r : Reaction) :
    Chronicled Calls run (r.run v) := by
  unfold Reaction.run
  grind

@[grind ←] theorem chronicled_hook (h : Hook) : Chronicled Calls run (h.run) := by
  unfold Hook.run
  grind

@[grind ←] theorem chronicled_handler (event : String) (target : NodeId) (h : Handler) :
    Chronicled Calls run (h.run event target) := by
  unfold Handler.run
  grind

@[grind ←] theorem chronicled_cancelRun (c : Cancel) : Chronicled Calls run (c.run) := by
  unfold Cancel.run
  grind

@[grind ←] theorem chronicled_start (s : SignalId) (p : Producer) :
    Chronicled Calls run (p.start s) := by
  cases p with
  | derivation d => exact chronicled_startDerivation d
  | branch b => exact chronicled_startBranch b
  | script name start stop =>
    refine chronicled_bind (chronicled_rename rfl) fun _ =>
      chronicled_bind (chronicled_note _) fun _ => ?_
    exact chronicled_bind (chronicled_script _ start) fun _ =>
      (lends_create (c := .stopped name stop) nofun).chronicled

@[grind ←] theorem chronicled_activate (s : SignalId) : Chronicled Calls run (Signal.activate s) := by
  refine chronicled_bind chronicled_get fun w => ?_
  split
  · exact chronicled_pure _
  · refine chronicled_bind (chronicled_modifySignal s _) fun _ =>
      chronicled_bind (chronicled_start s _) fun t => ?_
    exact chronicled_modifySignal s _

@[grind ←] theorem chronicled_task (t : Task) : Chronicled Calls run (t.run) := by
  unfold Task.run
  grind

/-- By induction on the members. -/
theorem eachAccount_of_run {members : List SubscriptionId} {w w' : World} (issued : w.Issued)
    (known : ∀ m ∈ members, m.index < w.subscriptions.size)
    (ran : Subscription.cancelEach members run w = .ok ((), w')) :
    (∃ l, EachAccount Calls members w l w') ∧ w'.Issued ∧
      w.subscriptions.size ≤ w'.subscriptions.size := by
  induction members generalizing w with
  | nil =>
    cases ran
    exact ⟨⟨[], .nil⟩, issued, Nat.le_refl _⟩
  | cons s members ih =>
    obtain ⟨here, rest⟩ := List.forall_mem_cons.1 known
    have ran' : (Subscription.cancel s >>= fun _ => Subscription.cancelEach members) run w =
        .ok ((), w') := ran
    cases active : w.subscriptions.get s with
    | none =>
      rw [bind_of_ok (cancel_of_ended active run)] at ran'
      obtain ⟨⟨l, account⟩, issued', size⟩ := ih issued rest ran'
      exact ⟨⟨l, .passed ⟨here, active⟩ account⟩, issued', size⟩
    | some c =>
      obtain ⟨⟨⟩, w₁, first, next⟩ := ok_of_bind ran'
      obtain ⟨⟨l, done⟩, issued₁, size⟩ := done_of_active Calls issued active first
      obtain ⟨⟨l', account⟩, issued', size'⟩ :=
        ih issued₁ (fun m hm => Nat.lt_of_lt_of_le (rest m hm) size) next
      exact ⟨⟨_, .cancel active done account⟩, issued', Nat.le_trans size size'⟩

end

/-- Every run has an account, however deeply its callbacks are nested. -/
instance conducts_exec (fuel : Nat) : Conducts (Performs fuel) (exec fuel) := by
  induction fuel with
  | zero => exact ⟨fun _ _ _ _ _ ran => nomatch ran⟩
  | succ fuel ih =>
    refine ⟨fun t w w' issued known ran => ?_⟩
    change t.run (exec fuel) w = .ok ((), w') at ran
    by_cases all : ∃ members, t = .cancel (.all members)
    · obtain ⟨members, rfl⟩ := all
      exact eachAccount_of_run issued (known members rfl) ran
    · have chronicled : Chronicled (Performs fuel) (exec fuel) t.run := chronicled_task t
      obtain ⟨⟨l, account⟩, issued', size, -⟩ := chronicled w issued () w' ran
      exact ⟨⟨l, Conduct.next_of_account (fun members is => all ⟨members, is⟩) account⟩, issued', size⟩

end LiveMarkup.Live
