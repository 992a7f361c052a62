import LiveMarkup.Proofs.Declarations
import LiveMarkup.Proofs.Fields
import LiveMarkup.Proofs.Visiting
import LiveMarkup.Proofs.Wording

/-!
Sketching: what is shown in a copy while it is filled. No signal is written then, and nodes of before
stay as they are; texts come to stand for good, and an attribute is what was written to it last. What
a signal shows there is the value that it holds, whether that is up to date or not.
-/
namespace LiveMarkup

/-- Only nodes have texts that depend on other things. -/
theorem Value.text_congr {v : Value} {content content' : NodeId → String}
    (same : ∀ n, v.node? = some n → content n = content' n) : v.text content = v.text content' := by
  cases v with
  | node n => exact same n rfl
  | _ => rfl

/-- Values that are alike have the same text, wherever it is taken. -/
theorem Value.Alike.text_eq {v u : Value} (h : v.Alike u) :
    v.isNull = u.isNull ∧ ∀ content, v.text content = u.text content := by
  rcases h with rfl | same
  · exact ⟨rfl, fun _ => rfl⟩
  · have plain : u.node? = none ∧ v.isNull = u.isNull := by
      cases v <;> cases u <;> first | exact ⟨rfl, rfl⟩ | cases same
    obtain ⟨plain', own, -⟩ := Alike.texts (.inr same) plain.1
    refine ⟨plain.2, fun content => ?_⟩
    rw [v.text_eq_ownText plain', u.text_eq_ownText plain.1, own]

namespace Dom.Forest
variable {f f' : Forest} {n : NodeId}

/-- More fuel than there are nodes changes nothing. By induction on the fuel: the nodes that the way
down has come through are all different, so that they come to an end before it does. -/
theorem treesWith_more (linked : f.Linked) {way : List NodeId} (once : way.Nodup)
    (above : ∀ m ∈ way, m.index < f.size ∧ f.Under m n ∧ m ≠ n) {fuel : Nat}
    (enough : f.size < way.length + fuel) (more : Nat) :
    f.treesWith (fuel + more) n = f.treesWith fuel n := by
  induction fuel generalizing way n with
  | zero =>
    have distinct : (way.map (·.index)).Nodup := by
      refine List.Pairwise.map _ (fun m m' ne same => ne ?_) once
      cases m
      cases m'
      exact congrArg Id.mk same
    have short : (way.map (·.index)).length ≤ (List.range f.size).length := by
      refine distinct.length_le_of_subset fun i hi => ?_
      obtain ⟨m, hm, rfl⟩ := List.mem_map.1 hi
      exact List.mem_range.2 (above m hm).1
    rw [List.length_map, List.length_range] at short
    omega
  | succ fuel ih =>
    have below : (f.get n).children.flatMap (f.treesWith (fuel + more)) =
        (f.get n).children.flatMap (f.treesWith fuel) := by
      refine List.flatMap_congr fun c hc => ?_
      have parent := (linked.child n c).1 hc
      have longer : (n :: way).Nodup :=
        List.nodup_cons.2 ⟨fun mem => (above n mem).2.2 rfl, once⟩
      refine ih longer (fun m hm => ?_) (by rw [List.length_cons]; omega)
      have ne : ∀ {m : NodeId}, f.Under m n → m ≠ c := by
        rintro m under rfl
        exact linked.acyclic parent under
      rcases List.mem_cons.1 hm with rfl | hm
      · exact ⟨known_of_mem_children hc, .up parent .here, ne .here⟩
      · obtain ⟨known, under, -⟩ := above m hm
        exact ⟨known, .up parent under, ne under⟩
    rw [Nat.add_right_comm]
    unfold treesWith
    dsimp only
    rw [below]

/-- Nodes of before hold the texts that they held, when only others have changed. -/
theorem textContent_old (linked : f.Linked) (size : f.size ≤ f'.size)
    (old : ∀ n, n.index < f.size → f'.get n = f.get n) (known : n.index < f.size) :
    f'.textContent n = f.textContent n := by
  have links : ∀ {p c : NodeId}, p.index < f.size → c ∈ (f.get p).children → c.index < f.size :=
    fun _ mem => Linked.known ((linked.child _ _).1 mem)
  have trees : ∀ fuel {n : NodeId}, n.index < f.size → f'.treesWith fuel n = f.treesWith fuel n := by
    intro fuel
    induction fuel with
    | zero => exact fun _ => rfl
    | succ fuel ih =>
      intro n known
      have below : (f.get n).children.flatMap (f'.treesWith fuel) =
          (f.get n).children.flatMap (f.treesWith fuel) :=
        List.flatMap_congr fun c hc => ih (links known hc)
      unfold treesWith
      dsimp only
      rw [old n known, below]
  have whole : f'.childTrees n = f.childTrees n := by
    unfold childTrees
    rw [old n known]
    refine List.flatMap_congr fun c hc => ?_
    unfold Forest.trees
    rw [trees _ (links known hc)]
    obtain ⟨more, same⟩ : ∃ more, f'.size + 1 = f.size + 1 + more := ⟨f'.size - f.size, by omega⟩
    rw [same]
    exact treesWith_more linked .nil (fun _ hm => nomatch hm)
      (by rw [List.length_nil]; omega) more
  unfold textContent
  rw [old n known, whole]

end Dom.Forest

namespace Live

open Render
open Template (Part)

variable {w₀ w w₁ w' : World} {n m p element : NodeId} {s : SignalId} {v : Value} {e : Effect}
  {value : TemplateValue} {values : List TemplateValue} {parts : List Part}

/-- A pure computation makes the same of the same values. -/
theorem Reading.Pure.value_congr {r : Reading} {limit : Nat} (h : r.Pure w.names.signals limit)
    (names : w'.names.signals = w.names.signals)
    (same : ∀ s, s.index < limit → Signal.content w' s = Signal.content w s) :
    r.value w' = r.value w := by
  induction h with
  | done v => rfl
  | @get s next before _ ih =>
    unfold value
    rw [same s before]
    exact ih _
  | @signal name s role next named _ ih =>
    simp only [value, names, named]
    exact ih
  | literal _ ih => exact ih

/-! Signals. -/

/-- What is behind a value in a text. That of a computation is what its derived signal holds; where it
has none yet, one is made that holds what comes of the signals then. -/
def TemplateValue.held (w : World) : TemplateValue → Value
  | .value v => v
  | .signal s | .writable s => (Signal.content w s).getD .null
  | .formula fn =>
    match (w.formulas.get fn).signal with
    | some s => (Signal.content w s).getD .null
    | none => (w.formulas.get fn).reading.value w
  | .listener _ | .component _ => .null

/-- No signal has been written, and a derived signal that has come to be holds what its computation
makes of the signals. -/
structure Unwritten (w w' : World) : Prop where
  names : w'.names.signals = w.names.signals
  count : w.signals.size ≤ w'.signals.size
  content : ∀ s, s.index < w.signals.size → Signal.content w' s = Signal.content w s
  formulas : w'.formulas.size = w.formulas.size
  readings : ∀ fn, (w'.formulas.get fn).reading = (w.formulas.get fn).reading
  memo : ∀ fn s, (w.formulas.get fn).signal = some s → (w'.formulas.get fn).signal = some s
  derived : ∀ fn s, (w.formulas.get fn).reading.Pure w.names.signals w.signals.size →
    (w'.formulas.get fn).signal = some s → (w.formulas.get fn).signal = some s ∨
      s.index < w'.signals.size ∧ Signal.content w' s = some ((w.formulas.get fn).reading.value w)

namespace Unwritten

theorem of_eq (names : w'.names.signals = w.names.signals) (signals : w'.signals = w.signals)
    (formulas : w'.formulas = w.formulas) : Unwritten w w' where
  names := names
  count := by rw [signals]
  content s _ := by unfold Signal.content; rw [signals]
  formulas := by rw [formulas]
  readings _ := by rw [formulas]
  memo _ _ h := by rw [formulas]; exact h
  derived _ _ _ h := .inl (formulas ▸ h)

theorem refl (w : World) : Unwritten w w :=
  of_eq rfl rfl rfl

theorem trans (h : Unwritten w w₁) (h' : Unwritten w₁ w') : Unwritten w w' where
  names := h'.names.trans h.names
  count := Nat.le_trans h.count h'.count
  content s hs := (h'.content s (Nat.lt_of_lt_of_le hs h.count)).trans (h.content s hs)
  formulas := h'.formulas.trans h.formulas
  readings fn := (h'.readings fn).trans (h.readings fn)
  memo fn s hs := h'.memo fn s (h.memo fn s hs)
  derived fn s pure hs := by
    have pure₁ : (w₁.formulas.get fn).reading.Pure w₁.names.signals w₁.signals.size := by
      rw [h.readings, h.names]
      exact pure.mono (fun _ _ named => named) h.count
    rcases h'.derived fn s pure₁ hs with before | ⟨known, content⟩
    · rcases h.derived fn s pure before with before | ⟨known, content⟩
      · exact .inl before
      · exact .inr ⟨Nat.lt_of_lt_of_le known h'.count, (h'.content s known).trans content⟩
    · refine .inr ⟨known, content.trans ?_⟩
      rw [h.readings, pure.value_congr h.names h.content]

/-- Values amount to what they did. -/
theorem current (h : Unwritten w w') (plain : value.Plain w) : value.current w' = value.current w := by
  cases value with
  | signal s => exact congrArg (·.getD .null) (h.content s plain)
  | writable s => exact congrArg (·.getD .null) (h.content s plain)
  | formula fn =>
    unfold TemplateValue.current
    dsimp only
    rw [h.readings, plain.2.value_congr h.names h.content]
  | _ => rfl

/-- What is behind values is what it was. -/
theorem held (h : Unwritten w w')
    (made : ∀ fn s, (w.formulas.get fn).signal = some s → s.index < w.signals.size)
    (plain : value.Plain w) : value.held w' = value.held w := by
  cases value with
  | signal s => exact congrArg (·.getD .null) (h.content s plain)
  | writable s => exact congrArg (·.getD .null) (h.content s plain)
  | formula fn =>
    unfold TemplateValue.held
    dsimp only
    cases before : (w.formulas.get fn).signal with
    | some s =>
      rw [h.memo fn s before]
      exact congrArg (·.getD .null) (h.content s (made fn s before))
    | none =>
      cases after : (w'.formulas.get fn).signal with
      | none =>
        rw [h.readings]
        exact plain.2.value_congr h.names h.content
      | some s =>
        rcases h.derived fn s plain.2 after with memo | ⟨-, content⟩
        · rw [before] at memo
          cases memo
        · dsimp only
          rw [content]
          rfl
  | _ => rfl

end Unwritten

/-! Nodes. -/

/-- Texts stay, elements stay elements, and attributes are what they were unless they are touched. -/
structure Leaves (touched : NodeId → String → Prop) (w w' : World) : Prop where
  size : w.nodes.size ≤ w'.nodes.size
  data : ∀ n t, (w.nodes.get n).content = .text t → (w'.nodes.get n).content = .text t
  element : ∀ n, (w.nodes.get n).element?.isSome = true → (w'.nodes.get n).element?.isSome = true
  value : ∀ n name, n.index < w.nodes.size → ¬ touched n (Text.lowercase name) →
    (w'.nodes.attributes n).value? name = (w.nodes.attributes n).value? name

/-- No attribute is touched. -/
abbrev Unedited : NodeId → String → Prop := fun _ _ => False

namespace Leaves
variable {touched touched' : NodeId → String → Prop}

theorem of_contents (size : w.nodes.size ≤ w'.nodes.size)
    (same : ∀ n, n.index < w.nodes.size → (w'.nodes.get n).content = (w.nodes.get n).content) :
    Leaves touched w w' := by
  have known : ∀ {n : NodeId}, (w.nodes.get n).isFragment = false → n.index < w.nodes.size := by
    intro n whole
    refine Nat.not_le.1 fun unknown => ?_
    rw [Dom.Forest.get_unknown unknown] at whole
    cases whole
  refine ⟨size, fun n t content => ?_, fun n element => ?_, fun n name hn _ => ?_⟩
  · rw [same n (known (by unfold Dom.Node.isFragment; rw [content]))]
    exact content
  · unfold Dom.Node.element? at element ⊢
    rw [same n (known ?_)]
    · exact element
    · unfold Dom.Node.isFragment
      cases content : (w.nodes.get n).content with
      | fragment =>
        rw [content] at element
        cases element
      | _ => rfl
  · unfold Dom.Forest.attributes Dom.Node.element?
    rw [same n hn]

theorem of_nodes (same : w'.nodes = w.nodes) : Leaves touched w w' :=
  of_contents (Nat.le_of_eq (congrArg _ same.symm)) fun n _ => by rw [same]

theorem refl (w : World) : Leaves touched w w :=
  of_nodes rfl

theorem trans (h : Leaves touched w w₁) (h' : Leaves touched w₁ w') : Leaves touched w w' where
  size := Nat.le_trans h.size h'.size
  data n t content := h'.data n t (h.data n t content)
  element n element := h'.element n (h.element n element)
  value n name hn off :=
    (h'.value n name (Nat.lt_of_lt_of_le hn h.size) off).trans (h.value n name hn off)

theorem mono (h : Leaves touched w w') (more : ∀ n name, touched n name → touched' n name) :
    Leaves touched' w w' :=
  { h with value := fun n name hn off => h.value n name hn fun hit => off (more _ _ hit) }

/-- One element is changed. -/
theorem mapElement (n : NodeId) (g : Dom.Element → Dom.Element)
    (same : ∀ a name, ¬ touched n (Text.lowercase name) →
      (g a).attributes.value? name = a.attributes.value? name) :
    Leaves touched w { w with nodes := w.nodes.modify n (Dom.Node.mapElement g) } := by
  have content : ∀ node : Dom.Node, (∀ a, node.content ≠ .element a) →
      node.mapElement g = node := by
    intro node other
    unfold Dom.Node.mapElement
    split
    case h_1 a content => exact absurd content (other a)
    case h_2 => rfl
  have element : ∀ node : Dom.Node, (node.mapElement g).element? = node.element?.map g := by
    intro node
    unfold Dom.Node.mapElement Dom.Node.element?
    cases content : node.content <;> simp [content]
  refine ⟨Nat.le_of_eq (Heap.size_modify ..).symm, fun m t => ?_, fun m => ?_, fun m name hm off => ?_⟩
  · refine Heap.get_modify_of w.nodes n m _ (fun node => node.content = .text t) fun node text => ?_
    rw [content node fun a eq => Dom.Content.noConfusion (text.symm.trans eq)]
    exact text
  · refine Heap.get_modify_of w.nodes n m _ (fun node => node.element?.isSome = true)
      fun node some => ?_
    rw [element, Option.isSome_map]
    exact some
  · by_cases here : m = n
    · subst here
      have cell : (w.nodes.modify m (Dom.Node.mapElement g)).get m = (w.nodes.get m).mapElement g :=
        Heap.get_modify_self _ _ _ hm
      unfold Dom.Forest.attributes
      dsimp only
      rw [cell, element]
      cases (w.nodes.get m).element? with
      | none => rfl
      | some a => exact same a name off
    · unfold Dom.Forest.attributes
      dsimp only
      rw [Heap.get_modify_of_ne _ _ _ _ (Ne.symm here)]

end Leaves

/-- Links are mutual, and the derived signal of a computation was made if there is one. -/
structure Sane (w : World) : Prop where
  linked : w.nodes.Linked
  made : ∀ fn s, (w.formulas.get fn).signal = some s → s.index < w.signals.size

/-- A world in which a copy is filled. The nodes of before are as they were, no other is mounted, and
no signal was written. -/
structure Sketch (w₀ w : World) : Prop extends Unwritten w₀ w where
  base : Sane w₀
  linked : w.nodes.Linked
  size : w₀.nodes.size ≤ w.nodes.size
  old : ∀ n, n.index < w₀.nodes.size → w.nodes.get n = w₀.nodes.get n
  unmounted : ∀ n, w₀.nodes.size ≤ n.index → (w.nodes.get n).connected = false

namespace Sketch

theorem newborn (h : Sketch w₀ w) {c p : NodeId} (parent : (w.nodes.get c).parent = some p) :
    w₀.nodes.size ≤ c.index ↔ w₀.nodes.size ≤ p.index := by
  constructor
  · refine fun hc => Nat.not_lt.1 fun hp => ?_
    have mem := (h.linked.child p c).2 parent
    rw [h.old p hp, h.base.linked.child] at mem
    exact Nat.not_lt.2 hc (Dom.Forest.Linked.known mem)
  · refine fun hp => Nat.not_lt.1 fun hc => ?_
    rw [h.old c hc, ← h.base.linked.child] at parent
    exact Nat.not_lt.2 hp (Dom.Forest.known_of_mem_children parent)

/-- Nothing happens to nodes. -/
theorem aside (h : Sketch w₀ w) (unwritten : Unwritten w w') (nodes : w'.nodes = w.nodes) :
    Sketch w₀ w' :=
  { h with
    toUnwritten := h.toUnwritten.trans unwritten
    linked := nodes ▸ h.linked
    size := nodes ▸ h.size
    old := nodes ▸ h.old
    unmounted := nodes ▸ h.unmounted }

/-- Only nodes are changed, and none of before. -/
theorem of_nodes (h : Sketch w₀ w) {nodes : Dom.Forest} (linked : nodes.Linked)
    (size : w.nodes.size ≤ nodes.size)
    (old : ∀ n, n.index < w₀.nodes.size → nodes.get n = w.nodes.get n)
    (unmounted : ∀ n, w₀.nodes.size ≤ n.index →
      (nodes.get n).connected = (w.nodes.get n).connected) : Sketch w₀ { w with nodes } where
  toUnwritten := h.toUnwritten.trans (.of_eq rfl rfl rfl)
  base := h.base
  linked := linked
  size := Nat.le_trans h.size size
  old n hn := (old n hn).trans (h.old n hn)
  unmounted n hn := (unmounted n hn).trans (h.unmounted n hn)

/-- A copy is made. -/
theorem plant (sane : Sane w) (trees : List Markup.Tree) :
    Sketch w { w with nodes := (w.nodes.plantFragment trees).2 } := by
  have planted := (Dom.Forest.planted w.nodes trees).2
  refine ⟨.of_eq rfl rfl rfl, sane, planted.linked sane.linked, Nat.le_of_lt planted.size, planted.old,
    fun n hn => ?_⟩
  dsimp only
  rw [planted.unconnected, Dom.Forest.get_unknown hn]
  rfl

/-- A new text stands alone. -/
theorem text (h : Sketch w₀ w) (t : String) :
    let w' : World := { w with nodes := (w.nodes.create (.text t)).2 }
    Sketch w₀ w' ∧ Leaves Unedited w w' ∧ w'.nodes.get w.nodes.next = ⟨.text t, none, [], false⟩ ∧
      w.nodes.next.index < w'.nodes.size ∧
        ∀ m, m.index < w.nodes.size → w'.nodes.get m = w.nodes.get m := by
  intro w'
  have enlarged := Dom.Forest.Enlarged.create w.nodes (.text t)
  have cells : ∀ m, m.index < w.nodes.size → w'.nodes.get m = w.nodes.get m :=
    fun m hm => Heap.get_push_of_lt _ _ _ hm
  refine ⟨h.of_nodes (h.linked.extended enlarged.toExtended) enlarged.size
    (fun m hm => cells m (Nat.lt_of_lt_of_le hm h.size)) fun m _ => enlarged.connected m,
    .of_contents enlarged.size fun m hm => by rw [cells m hm], Heap.get_push_next ..,
    (Heap.size_push ..).symm ▸ Nat.lt_succ_self _, cells⟩

/-- An element of the copy is changed. -/
theorem mapElement (h : Sketch w₀ w) (new : w₀.nodes.size ≤ n.index) (g : Dom.Element → Dom.Element) :
    Sketch w₀ { w with nodes := w.nodes.modify n (Dom.Node.mapElement g) } := by
  have enlarged : w.nodes.Enlarged (w.nodes.modify n (Dom.Node.mapElement g)) := .mapElement n g
  refine h.of_nodes (h.linked.extended enlarged.toExtended) enlarged.size (fun m hm => ?_)
    fun m _ => enlarged.connected m
  refine Heap.get_modify_of_ne _ _ _ _ ?_
  rintro rfl
  exact Nat.not_lt.2 new hm

/-- A new node takes the place of another. -/
theorem replace (h : Sketch w₀ w) (new : w₀.nodes.size ≤ element.index)
    (parent : (w.nodes.get element).parent = some p) (newer : w₀.nodes.size ≤ n.index)
    (known : n.index < w.nodes.size) (whole : (w.nodes.get n).isFragment = false)
    (orphan : (w.nodes.get n).parent = none) (childless : (w.nodes.get n).children = [])
    (run : Runner) : Ensures run (Mount.replace element [n]) w fun _ w' => Sketch w₀ w' ∧
      Leaves Unedited w w' ∧ Unwritten w w' ∧
        (w'.nodes.get p).children =
          (w.nodes.get p).children.map fun c => if c = element then n else c := by
  obtain ⟨incoming, swapped⟩ :=
    Dom.Forest.Swapped.splice h.linked parent known whole orphan childless
  have content := swapped.relinked.content
  have size := Nat.le_of_eq swapped.relinked.size.symm
  have into : w₀.nodes.size ≤ p.index := (h.newborn parent).1 new
  have replaced := Mount.replace_same (h.unmounted element new) (fun q l seated => by
    rw [incoming] at seated
    cases seated
    exact ⟨h.unmounted p into, List.forall_mem_singleton.2 (h.unmounted n newer)⟩) run
  intro _ w' ran
  rw [replaced] at ran
  cases ran
  refine ⟨h.of_nodes swapped.linked size (fun m hm => ?_) fun m _ => swapped.relinked.connected m,
    .of_contents size fun m _ => content m, .of_eq rfl rfl rfl, swapped.place⟩
  have other : ∀ q : NodeId, w₀.nodes.size ≤ q.index → m ≠ q := by
    rintro q hq rfl
    exact Nat.not_lt.2 hq hm
  exact Dom.Node.eq_of_parts (content m) (swapped.parent m (other element new) (other n newer))
    (swapped.children m (other p into)) (swapped.relinked.connected m)

/-- Nodes of before have the texts that they had. -/
theorem text_eq (h : Sketch w₀ w) (old : ∀ n, v.node? = some n → n.index < w₀.nodes.size) :
    w.text v = w₀.text v :=
  Value.text_congr fun n hn => Dom.Forest.textContent_old h.base.linked h.size h.old (old n hn)

theorem textOrEmpty_eq (h : Sketch w₀ w) (old : ∀ n, v.node? = some n → n.index < w₀.nodes.size) :
    w.textOrEmpty v = w₀.textOrEmpty v := by
  unfold World.textOrEmpty Value.textOrEmpty
  rw [show v.text w.nodes.textContent = v.text w₀.nodes.textContent from h.text_eq old]

end Sketch
end Live
end LiveMarkup
