import LiveMarkup.Proofs.Writing
import LiveMarkup.Proofs.Splicing

/-!
Stillness: while values are put into a copy, most of what is done leaves the links below the copy as
they are, and marks no element. Callbacks run only if something that is brought in is mounted; they
are then held to the same.
-/
namespace LiveMarkup.Live

/-- What is fixed while a copy is filled. -/
structure Filling where
  scene : Dom.Scene
  /-- The attribute that marks elements. -/
  mark : String
  /-- Whether nothing that is brought in is mounted. -/
  apart : Prop
  /-- Whether components may take the places of outlets. -/
  components : Prop

namespace Filling
variable (fl : Filling)

/-- What holds between the steps of a filling. -/
structure Good (w : World) : Prop where
  tidy : fl.scene.Tidy w.nodes
  unmounted : fl.apart → fl.scene.Unmounted w.nodes

/-- The links of the nodes that may come below the copy are what they were. -/
structure Linked (w w' : World) : Prop where
  size : w.nodes.size ≤ w'.nodes.size
  children : ∀ n, fl.scene.Inside n → (w'.nodes.get n).children = (w.nodes.get n).children
  parent : ∀ n, fl.scene.Inside n → (w'.nodes.get n).parent = (w.nodes.get n).parent
  connected : fl.apart → ∀ n, (w'.nodes.get n).connected = (w.nodes.get n).connected

/-- Those links are what they were, and no element is newly marked. -/
structure Still (w w' : World) : Prop extends fl.Linked w w' where
  marks : ∀ n value, w'.nodes.Carries fl.mark value n → w.nodes.Carries fl.mark value n

/-- The callbacks of a runner keep still, unless none is run. -/
class Calm (run : Runner) : Prop where
  task : ¬ fl.apart → ∀ t w w', run t w = .ok ((), w') → fl.Still w w'

/-- From a world in which all is well, everything stays as it is. -/
def Quiet (w w' : World) : Prop :=
  fl.Good w → fl.Still w w'

variable {fl} {w w' w₁ w₂ : World}

namespace Linked

theorem of_nodes (h : w'.nodes = w.nodes) : fl.Linked w w' := by
  constructor
  · simp only [h, Nat.le_refl]
  · exact fun n _ => by rw [h]
  · exact fun n _ => by rw [h]
  · exact fun _ n => by rw [h]

theorem trans (h : fl.Linked w w₁) (h' : fl.Linked w₁ w₂) : fl.Linked w w₂ :=
  ⟨Nat.le_trans h.size h'.size, fun n hn => (h'.children n hn).trans (h.children n hn),
    fun n hn => (h'.parent n hn).trans (h.parent n hn),
    fun ha n => (h'.connected ha n).trans (h.connected ha n)⟩

theorem good (h : fl.Linked w w') (hg : fl.Good w) : fl.Good w' := by
  obtain ⟨tidy, unmounted⟩ := hg
  refine ⟨⟨Nat.le_trans tidy.size h.size, fun p hp c hc => ?_, fun p hp c hc hm => ?_,
    fun p hp c hc => ?_⟩, fun ha n hn => ?_⟩
  · exact tidy.closed p hp c (h.children p hp ▸ hc)
  · rw [h.parent c (.inr hc.1)]
    exact tidy.parent p hp c hc (h.children p hp ▸ hm)
  · rw [h.children p hp]
    exact tidy.once p hp c hc
  · rw [h.connected ha, h.parent n hn]
    refine ⟨(unmounted ha n hn).1, fun p hp => ?_⟩
    rw [h.connected ha]
    exact (unmounted ha n hn).2 p hp

theorem astray (h : fl.Linked w w') {n : NodeId} :
    fl.scene.Astray w'.nodes n ↔ fl.scene.Astray w.nodes n := by
  unfold Dom.Scene.Astray
  constructor
  · intro hn p hp
    rw [← h.children p hp]
    exact hn p hp
  · intro hn p hp
    rw [h.children p hp]
    exact hn p hp

/-- Changing a node other than in its links. -/
theorem modifyNode (n : NodeId) {g : Dom.Node → Dom.Node}
    (links : ∀ m, (g m).children = m.children ∧ (g m).parent = m.parent)
    (connected : fl.apart → ∀ m, (g m).connected = m.connected) (w : World) :
    fl.Linked w { w with nodes := w.nodes.modify n g } := by
  refine ⟨Nat.le_of_eq (Heap.size_modify _ n g).symm, fun m _ => ?_, fun m _ => ?_,
    fun ha m => ?_⟩
  · exact Heap.get_modify_same _ n m g Dom.Node.children fun a => (links a).1
  · exact Heap.get_modify_same _ n m g Dom.Node.parent fun a => (links a).2
  · exact Heap.get_modify_same _ n m g Dom.Node.connected (connected ha)

theorem mapElement (n : NodeId) (g : Dom.Element → Dom.Element) (w : World) :
    fl.Linked w { w with nodes := w.nodes.mapElement n g } := by
  refine modifyNode n (fun m => ?_) (fun _ m => ?_) w
  · unfold Dom.Node.mapElement
    split
    · exact ⟨rfl, rfl⟩
    · exact ⟨rfl, rfl⟩
  · unfold Dom.Node.mapElement
    split
    · rfl
    · rfl

end Linked

namespace Still

theorem of_nodes (h : w'.nodes = w.nodes) : fl.Still w w' :=
  ⟨.of_nodes h, fun _ _ hn => h ▸ hn⟩

theorem trans (h : fl.Still w w₁) (h' : fl.Still w₁ w₂) : fl.Still w w₂ :=
  ⟨h.toLinked.trans h'.toLinked, fun n value hn => h.marks n value (h'.marks n value hn)⟩

end Still

instance : Lasting fl.Quiet where
  refl _ := fun _ => .of_nodes rfl
  trans h h' := fun hg => (h hg).trans (h' ((h hg).good hg))

section
variable {α : Type} {run : Runner}

theorem quiet_modify {f : World → World} (nodes : ∀ w, (f w).nodes = w.nodes) :
    Keeps fl.Quiet run (modify f : Op PUnit) := by
  intro w
  rw [ensures_modify]
  exact fun _ => .of_nodes (nodes w)

theorem quiet_get_set {f : World → World} {g : World → PUnit → Op α}
    (nodes : ∀ w, (f w).nodes = w.nodes) (hg : ∀ w u, Keeps fl.Quiet run (g w u)) :
    Keeps fl.Quiet run (get >>= fun w => set (f w) >>= g w) := by
  intro w
  simp only [ensures_bind, ensures_get, ensures_set]
  have here : fl.Quiet w (f w) := fun _ => .of_nodes (nodes w)
  exact (hg w ⟨⟩ (f w)).mono fun _ _ h => Lasting.trans here h

/-- A new node stands alone; it is no marked element. -/
theorem still_create {content : Dom.Content}
    (unmarked : ∀ value, content.carries fl.mark value = false) (w : World) :
    fl.Still w { w with nodes := (w.nodes.create content).2 } := by
  have get : ∀ n, n ≠ w.nodes.next → (w.nodes.create content).2.get n = w.nodes.get n :=
    fun n hn => Dom.Forest.get_create_of_ne content hn
  have new : (w.nodes.create content).2.get w.nodes.next = .alone content :=
    Dom.Forest.get_create_next content
  have old : w.nodes.get w.nodes.next = .alone .fragment := Heap.get_next w.nodes
  refine ⟨⟨?_, fun n _ => ?_, fun n _ => ?_, fun _ n => ?_⟩,
    fun n value hn => Dom.Forest.carries_of_create (unmarked value) hn⟩
  · rw [Dom.Forest.size_create]
    exact Nat.le_succ _
  · by_cases hn : n = w.nodes.next
    · rw [hn, new, old]
      rfl
    · rw [get n hn]
  · by_cases hn : n = w.nodes.next
    · rw [hn, new, old]
      rfl
    · rw [get n hn]
  · exact Dom.Forest.connected_create content n

theorem quiet_closed : Closed (Keeps fl.Quiet run) where
  pure := keeps_pure
  bind := keeps_bind
  get := keeps_get
  throw := keeps_throw
  create unmarked w := by
    simp only [onNodes, ensures_bind, ensures_get, ensures_set, ensures_pure]
    exact fun _ => still_create (unmarked fl.mark) w
  elsewhere apart hg := quiet_get_set (fun w => (apart w).nodes) hg

theorem quiet_changeElement (n : NodeId) {g : Dom.Element → Dom.Element}
    (same : ∀ e, (g e).attributes.value? fl.mark = e.attributes.value? fl.mark) :
    Keeps fl.Quiet run (Mount.changeElement n g) := by
  intro w
  simp only [Mount.changeElement, modifyNodes, ensures_modify]
  exact fun _ => ⟨.mapElement n g w, fun m value hm => Dom.Forest.carries_of_mapElement same hm⟩

theorem quiet_onUnmount (n : NodeId) (h : Hook) :
    Keeps fl.Quiet run (Lifecycle.onUnmount n h) :=
  quiet_modify fun _ => rfl

/-! Callbacks, and what calls them. -/

variable [fl.Calm run]

theorem quiet_invoke (mounted : ¬ fl.apart) (t : Task) : Keeps fl.Quiet run (invoke t) := by
  intro w
  rw [ensures_invoke]
  exact fun w' h _ => Calm.task mounted t w w' h

theorem quiet_invokeAll (mounted : ¬ fl.apart) (ts : List Task) :
    Keeps fl.Quiet run (invokeAll ts) :=
  keeps_forM (quiet_invoke mounted)

/-- Where nothing is mounted there is nothing to do. -/
theorem quiet_connect {n : NodeId} {connected : Bool} (inside : fl.scene.Inside n)
    (unmounted : fl.apart → connected = false) :
    Keeps fl.Quiet run (Mount.connect n connected) := by
  by_cases ha : fl.apart
  · intro w a w' h hg
    have same : (w.nodes.get n).connected = connected := by
      rw [unmounted ha]
      exact (hg.unmounted ha n inside).1
    have nothing : Ensures run (Mount.connect n connected) w fun _ w' => w' = w := by
      simp only [Mount.connect, ensures_bind, ensures_get, same, if_true, ensures_pure]
    rw [nothing a w' h]
    exact .of_nodes rfl
  · unfold Mount.connect
    have changed : Keeps fl.Quiet run
        (modifyNodes fun f => f.modify n fun node => { node with connected }) := by
      intro w
      simp only [modifyNodes, ensures_modify]
      let g : Dom.Node → Dom.Node := fun node => { node with connected }
      have linked : fl.Linked w { w with nodes := w.nodes.modify n g } :=
        .modifyNode (g := g) n (fun _ => ⟨rfl, rfl⟩) (fun h => absurd h ha) w
      exact fun _ => ⟨linked, fun m value hm => Dom.Forest.carries_of_modify (g := g) (fun _ h => h) hm⟩
    have hooks : ∀ ts, Keeps fl.Quiet run (invokeAll ts) := quiet_invokeAll ha
    grind

theorem quiet_onMount {n : NodeId} (inside : fl.scene.Inside n) (h : Hook) :
    Keeps fl.Quiet run (Lifecycle.onMount n h) := by
  refine keeps_bind (quiet_modify fun _ => rfl) fun _ => ?_
  intro w
  simp only [ensures_bind, ensures_get]
  split
  case isFalse =>
    rw [ensures_pure]
    exact Lasting.refl w
  case isTrue mounted =>
    by_cases ha : fl.apart
    · intro a w' _ hg
      have unmounted := (hg.unmounted ha n inside).1
      rw [Mount.isConnected, unmounted] at mounted
      cases mounted
    · exact quiet_invoke ha _ w

theorem quiet_at {n : NodeId} (inside : fl.scene.Inside n) :
    ClosedAt (Keeps fl.Quiet run) n where
  toClosed := quiet_closed
  onMount := quiet_onMount inside
  onUnmount := quiet_onUnmount n

theorem quiet_writes {n : NodeId} (inside : fl.scene.Inside n) :
    Writes (Keeps fl.Quiet run) fl.mark n where
  toClosedAt := quiet_at inside
  change := quiet_changeElement n

end

end Filling
end LiveMarkup.Live
