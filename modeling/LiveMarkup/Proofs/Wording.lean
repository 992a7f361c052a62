import LiveMarkup.Proofs.Likeness
import LiveMarkup.Proofs.SlotNames

/-!
Wording: what renderings of one template with texts have in common. Two renderings are followed side
by side. Texts only come to stand in text nodes and attribute values, where no search looks, so both
take the same course, and nodes and attributes come to be the same.
-/
namespace LiveMarkup

/-- The name under which a slot writes an attribute of its element. -/
def Template.Slot.written? : Template.Slot → Option String
  | .attr name _ _ => some (Text.lowercase name)
  | .directive .classes _ _ => some "class"
  | .directive .style _ _ => some "style"
  | _ => none

namespace Live

/-- What is fixed while two renderings are compared: all but the nodes, the copy, and what may
differ. -/
structure Comparison where
  world : World
  scene : Dom.Scene
  leeway : Dom.Leeway

namespace Comparison
variable (c : Comparison)

/-- The world with other nodes. -/
def having (f : Dom.Forest) : World :=
  { c.world with nodes := f }

/-- The copy is filled without anything being brought in. -/
def filling : Filling :=
  ⟨c.scene, c.leeway.mark, True, False⟩

/-- Two forests are alike, and nothing of the copy is mounted. -/
structure Level (f g : Dom.Forest) : Prop where
  alike : c.leeway.Forests f g
  good : c.filling.Good (c.having f)

/-- The elements that are marked in one forest are so in the other. -/
def Marks (f f' : Dom.Forest) : Prop :=
  ∀ n value, f.Carries c.leeway.mark value n → f'.Carries c.leeway.mark value n

/-- Two operations, one from each of two forests, come to an end whatever callbacks would do. They
change nothing but nodes, keep the forests level and elements marked, and yield what is related. -/
def Paired {α : Type} (x y : Op α) (f g : Dom.Forest) (Q : α → α → Prop) : Prop :=
  ∃ a b f' g', (∀ run, x run (c.having f) = .ok (a, c.having f')) ∧
    (∀ run, y run (c.having g) = .ok (b, c.having g')) ∧ c.Level f' g' ∧ c.Marks f f' ∧ Q a b

/-- What is related where both go well, or the same fault. -/
def Likewise {ε α : Type} (Q : α → α → Prop) : Except ε α → Except ε α → Prop
  | .ok a, .ok b => Q a b
  | .error e, .error e' => e = e'
  | _, _ => False

variable {c} {α β ε : Type} {f g : Dom.Forest}

theorem Level.symm_good (h : c.Level f g) : c.filling.Good (c.having g) := by
  have linked : c.filling.Linked (c.having f) (c.having g) :=
    ⟨Nat.le_of_eq h.alike.size, fun n _ => (h.alike.node n).children.symm,
      fun n _ => (h.alike.node n).parent.symm, fun _ n => (h.alike.node n).connected.symm⟩
  exact linked.good h.good

section
variable {Q : α → α → Prop} {R : β → β → Prop}

theorem paired_pure (h : c.Level f g) {a b : α} (hQ : Q a b) : c.Paired (pure a) (pure b) f g Q :=
  ⟨a, b, f, g, fun _ => rfl, fun _ => rfl, h, fun _ _ hn => hn, hQ⟩

/-- Operations that only look. -/
theorem paired_of_ok (h : c.Level f g) {x y : Op α} {a b : α}
    (hx : ∀ run, x run (c.having f) = .ok (a, c.having f))
    (hy : ∀ run, y run (c.having g) = .ok (b, c.having g)) (hQ : Q a b) : c.Paired x y f g Q :=
  ⟨a, b, f, g, hx, hy, h, fun _ _ hn => hn, hQ⟩

theorem paired_bind {x y : Op α} {u v : α → Op β} (h : c.Paired x y f g Q)
    (rest : ∀ a b f' g', c.Level f' g' → c.Marks f f' → Q a b →
      c.Paired (u a) (v b) f' g' R) :
    c.Paired (x >>= u) (y >>= v) f g R := by
  obtain ⟨a, b, f', g', hx, hy, level, marks, hQ⟩ := h
  obtain ⟨a', b', f₂, g₂, hu, hv, level', marks', hR⟩ := rest a b f' g' level marks hQ
  exact ⟨a', b', f₂, g₂, fun run => (bind_of_ok (hx run)).trans (hu run),
    fun run => (bind_of_ok (hy run)).trans (hv run), level',
    fun n value hn => marks' n value (marks n value hn), hR⟩

/-! Operations that may fail. -/

theorem paired_run_pure (h : c.Level f g) {a b : α} (hQ : Q a b) :
    c.Paired (pure a : ExceptT ε Op α).run (pure b : ExceptT ε Op α).run f g (Likewise Q) :=
  paired_pure h hQ

theorem paired_run_throw (h : c.Level f g) (e : ε) :
    c.Paired (throw e : ExceptT ε Op α).run (throw e : ExceptT ε Op α).run f g (Likewise Q) :=
  paired_pure h rfl

theorem paired_run_bind {x y : ExceptT ε Op α} {u v : α → ExceptT ε Op β}
    (h : c.Paired x.run y.run f g (Likewise Q))
    (rest : ∀ a b f' g', c.Level f' g' → c.Marks f f' → Q a b →
      c.Paired (u a).run (v b).run f' g' (Likewise R)) :
    c.Paired (x >>= u).run (y >>= v).run f g (Likewise R) := by
  rw [ExceptT.run_bind, ExceptT.run_bind]
  refine paired_bind h fun r r' f' g' level marks both => ?_
  cases r with
  | ok a =>
    cases r' with
    | ok b => exact rest a b f' g' level marks both
    | error e => exact both.elim
  | error e =>
    cases r' with
    | ok b => exact both.elim
    | error e' => exact paired_pure level both

theorem paired_run_lift {x y : Op α} (h : c.Paired x y f g Q) :
    c.Paired (liftM x : ExceptT ε Op α).run (liftM y : ExceptT ε Op α).run f g (Likewise Q) := by
  rw [run_liftM, run_liftM]
  exact paired_bind h fun a b f' g' level _ hQ => paired_pure level hQ

theorem paired_atSlot {x y : Fitting α} (index : Option Nat)
    (h : c.Paired x.run y.run f g (Likewise Q)) :
    c.Paired (x.atSlot index).run (y.atSlot index).run f g (Likewise Q) := by
  refine paired_bind h fun r r' f' g' level _ both => ?_
  cases r with
  | ok a =>
    cases r' with
    | ok b => exact paired_pure level both
    | error e => exact both.elim
  | error e =>
    cases r' with
    | ok b => exact both.elim
    | error e' =>
      cases both
      exact paired_pure level rfl

theorem paired_run_mapM {P : β → Prop} {l : List α} {u v : α → ExceptT ε Op β} (h : c.Level f g)
    (step : ∀ a f g, c.Level f g →
      c.Paired (u a).run (v a).run f g (Likewise fun b b' => P b ∧ P b')) :
    c.Paired (l.mapM u).run (l.mapM v).run f g
      (Likewise fun bs bs' => (∀ b ∈ bs, P b) ∧ ∀ b ∈ bs', P b) := by
  induction l generalizing f g with
  | nil => exact paired_run_pure h ⟨nofun, nofun⟩
  | cons a l ih =>
    rw [List.mapM_cons, List.mapM_cons]
    refine paired_run_bind (step a f g h) fun b b' f₁ g₁ h₁ _ both => ?_
    refine paired_run_bind (ih h₁) fun bs bs' f₂ g₂ h₂ _ all => ?_
    exact paired_run_pure h₂
      ⟨List.forall_mem_cons.2 ⟨both.1, all.1⟩, List.forall_mem_cons.2 ⟨both.2, all.2⟩⟩

/-- A loop whose steps may count on what was marked in the beginning. -/
theorem paired_run_forM {l : List α} {u v : α → ExceptT ε Op PUnit} (h : c.Level f g)
    (step : ∀ a ∈ l, ∀ f' g', c.Level f' g' → c.Marks f f' →
      c.Paired (u a).run (v a).run f' g' (Likewise fun _ _ => True)) :
    c.Paired (l.forM u).run (l.forM v).run f g (Likewise fun _ _ => True) := by
  induction l generalizing f g with
  | nil => exact paired_run_pure h trivial
  | cons a l ih =>
    obtain ⟨here, rest⟩ := List.forall_mem_cons.1 step
    refine paired_run_bind (here f g h fun _ _ hn => hn) fun _ _ f' g' level marks _ => ih level ?_
    exact fun b hb f₂ g₂ level' marks' =>
      rest b hb f₂ g₂ level' fun n value hn => marks' n value (marks n value hn)

end

/-! Texts. -/

/-- A text as a value. -/
def worded (s : String) : TemplateValue :=
  .value (.string s)

/-- A change of the attributes of an element that the mark gives `r`. -/
theorem paired_changeAttributes (h : c.Level f g) {n : NodeId} {r : String}
    (carries : f.Carries c.leeway.mark r n) {u v : Markup.Attributes → Markup.Attributes}
    (alike : ∀ a b, Markup.Attributes.Alike (c.leeway.value r) a b →
      Markup.Attributes.Alike (c.leeway.value r) (u a) (v b))
    (kept : ∀ a, (u a).value? c.leeway.mark = a.value? c.leeway.mark)
    (kept' : ∀ a, (v a).value? c.leeway.mark = a.value? c.leeway.mark) :
    c.Paired (Mount.changeAttributes n u) (Mount.changeAttributes n v) f g fun _ _ => True := by
  refine ⟨(), (), f.mapAttributes n u, g.mapAttributes n v, fun _ => rfl, fun _ => rfl,
    ⟨h.alike.mapAttributes carries alike kept kept', ?_⟩, fun m value hm => ?_, trivial⟩
  · exact (Filling.Linked.mapElement n _ (c.having f)).good h.good
  · let change (e : Dom.Element) : Dom.Element := { e with attributes := u e.attributes }
    have same : ∀ a : Dom.Node, (a.mapElement change).content.carries c.leeway.mark value =
        a.content.carries c.leeway.mark value := by
      intro a
      unfold Dom.Node.mapElement
      split
      case h_1 e content =>
        rw [content]
        simp only [Dom.Content.carries, change, kept]
      case h_2 => rfl
    exact (Heap.get_modify_same f n m (Dom.Node.mapElement change)
      (fun a => a.content.carries c.leeway.mark value) same).trans hm

/-- A text node takes the place of an element. -/
theorem paired_showText (h : c.Level f g) {element : NodeId} (inside : c.scene.Inside element)
    {s t : String} (allowed : ∀ n : NodeId, c.scene.last ≤ n.index → c.leeway.text n s t) :
    c.Paired (do Mount.replace element [← onNodes (·.create (.text s))])
      (do Mount.replace element [← onNodes (·.create (.text t))]) f g fun _ _ => True := by
  have new : c.scene.last ≤ f.next.index := h.good.tidy.size
  obtain ⟨next, made⟩ := h.alike.create (.text (.inr (allowed f.next new)))
  have good : c.filling.Good (c.having (f.create (.text s)).2) :=
    (Filling.still_create (fun _ => rfl) (c.having f)).good h.good
  have level : c.Level (f.create (.text s)).2 (g.create (.text t)).2 := ⟨made, good⟩
  have foreign : c.filling.scene.Foreign f.next := .of_last_le new
  obtain ⟨-, spliced⟩ := level.alike.splice element [f.next]
  obtain ⟨moved, -, -⟩ :=
    good.tidy.splice (n := element) inside (l := [f.next]) (by simpa using foreign)
  refine ⟨(), (), _, _, fun run => ?_, fun run => ?_, ⟨spliced, moved.tidy, fun a => ?_⟩,
    fun n value hn => ?_, trivial⟩
  · exact Filling.replace_run good trivial inside foreign run
  · have there : g.next = f.next := next.symm
    refine (Filling.replace_run level.symm_good trivial (m := g.next) inside ?_ run).trans ?_
    · rw [there]
      exact foreign
    · rw [there]
      rfl
  · exact moved.unmounted (good.unmounted a)
  · refine (moved.relinked.carries _ _ _).2 ?_
    have ne : n ≠ f.next := by
      rintro rfl
      exact Nat.lt_irrefl _ (Dom.Forest.known_of_carries hn)
    rw [Dom.Forest.Carries, having, Dom.Forest.get_create_of_ne _ ne]
    exact hn

end Comparison

/-- What a text that comes through an effect does to the attributes of its element. -/
def Effect.write (s : String) : Effect → Markup.Attributes → Markup.Attributes
  | .attr name, a | .wholeAttr name, a => a.set name s
  | .classes name, a => a.toggleClass name (!s.isEmpty)
  | .style property, a => a.setStyle property s
  | .form _, a | .text, a => a

/-- The name under which an effect writes an attribute. -/
def Effect.written? : Effect → Option String
  | .attr name | .wholeAttr name => some (Text.lowercase name)
  | .classes _ => some "class"
  | .style _ => some "style"
  | .form _ | .text => none

/-- What two texts have to have in common to come through an effect. -/
def Effect.Matches (s t : String) : Effect → Prop
  | .classes _ => s = "" ↔ t = ""
  | _ => True

theorem Effect.apply_worded {e : Effect} {name : String} (written : e.written? = some name)
    (n : NodeId) (s : String) : e.apply n (.string s) = Mount.changeAttributes n (e.write s) := by
  cases e with
  | attr _ | wholeAttr _ | classes _ | style _ => rfl
  | form _ | text => cases written

theorem Effect.value?_write {e : Effect} {name mark : String} (written : e.written? = some name)
    (ne : Text.lowercase mark ≠ name) (s : String) (a : Markup.Attributes) :
    (e.write s a).value? mark = a.value? mark := by
  cases e with
  | attr _ | wholeAttr _ =>
    cases written
    exact a.value?_set_of_ne ne s
  | classes _ =>
    cases written
    exact a.value?_toggleClass_of_ne ne _ _
  | style _ =>
    cases written
    exact a.value?_set_of_ne ne _
  | form _ | text => rfl

theorem Effect.alike_write {e : Effect} {name : String} (written : e.written? = some name)
    {s t : String} (both : e.Matches s t) {varies : String → Prop} (allowed : varies name)
    {a b : Markup.Attributes} (alike : Markup.Attributes.Alike varies a b) :
    Markup.Attributes.Alike varies (e.write s a) (e.write t b) := by
  cases e with
  | attr _ | wholeAttr _ =>
    cases written
    exact alike.set allowed s t
  | classes _ =>
    cases written
    have same : s.isEmpty = t.isEmpty := by
      rw [Bool.eq_iff_iff, String.isEmpty_iff, String.isEmpty_iff]
      exact both
    rw [write, write, same]
    exact alike.toggleClass allowed _ _
  | style _ =>
    cases written
    exact alike.setStyle allowed _ s t
  | form _ | text => exact alike

namespace Comparison
variable {c : Comparison} {f g : Dom.Forest} {n : NodeId} {r : Template.Ref} {s t : String}

/-- A text comes through an effect to an element with the mark `r`. -/
theorem paired_apply (h : c.Level f g) (carries : f.Carries c.leeway.mark r.text n) {e : Effect}
    {name : String} (written : e.written? = some name) (both : e.Matches s t)
    (ne : Text.lowercase c.leeway.mark ≠ name) (allowed : c.leeway.value r.text name) :
    c.Paired (e.apply n (.string s)) (e.apply n (.string t)) f g fun _ _ => True := by
  rw [e.apply_worded written, e.apply_worded written]
  exact paired_changeAttributes h carries
    (fun a b alike => e.alike_write written both allowed alike)
    (e.value?_write written ne s) (e.value?_write written ne t)

theorem paired_connect (h : c.Level f g) (carries : f.Carries c.leeway.mark r.text n) {e : Effect}
    {name : String} (written : e.written? = some name) (both : e.Matches s t)
    (ne : Text.lowercase c.leeway.mark ≠ name) (allowed : c.leeway.value r.text name) :
    c.Paired (e.connect n (worded s)).run (e.connect n (worded t)).run f g
      (Likewise fun _ _ => True) :=
  paired_run_lift (paired_apply h carries written both ne allowed)

end Comparison

namespace Render

open Comparison
open Template (Slot Descriptor Ref Part Programs)

/-- The two texts of a slot. -/
def Worded (d : Descriptor) (xs ys : List String) (slot : Slot) (s t : String) : Prop :=
  ∃ i : Nat, d.slots[i]? = some slot ∧ xs[i]? = some s ∧ ys[i]? = some t

/-- What renderings of a template with texts may differ in: the texts of nodes that were made after
the copy, where the two texts are those of one outlet, and the values of attributes that a slot of
their element writes. -/
def leeway (d : Descriptor) (xs ys : List String) (made : Nat) : Dom.Leeway where
  mark := d.config.refAttribute
  text n s t := made ≤ n.index ∧ ∃ r, Worded d xs ys (.node r) s t
  value r name := ∃ slot ∈ d.slots, slot.ref.text = r ∧ slot.written? = some name

theorem planted_copied (w : World) (d : Descriptor) :
    Dom.Forest.Planted w.nodes d.fragment (w.nodes.plantFragment d.fragment).2 :=
  (Dom.Forest.planted w.nodes d.fragment).2

theorem nothing_brought (w : World) : ∀ n : NodeId, False → n.index < w.nodes.size :=
  fun _ => False.elim

/-- Two renderings of a template with texts. -/
def comparison (w : World) (d : Descriptor) (xs ys : List String) : Comparison where
  world := w
  scene := .planted (planted_copied w d) (fun _ => False) (nothing_brought w)
  leeway := leeway d xs ys (copied w d).nodes.size

/-- At a directive for a class both texts are empty or neither is. -/
def AgreeOnClasses (d : Descriptor) (xs ys : List String) : Prop :=
  ∀ name r s t, Worded d xs ys (.directive .classes name r) s t → (s = "" ↔ t = "")

theorem agreeOnClasses_iff (d : Descriptor) (xs ys : List String) : AgreeOnClasses d xs ys ↔
    ∀ p ∈ d.slots.zip (xs.zip ys), match p.1 with
      | .directive .classes _ _ => p.2.1 = "" ↔ p.2.2 = ""
      | _ => True := by
  constructor
  · rintro h ⟨slot, s, t⟩ mem
    obtain ⟨i, hi⟩ := List.mem_iff_getElem?.1 mem
    obtain ⟨hs, both⟩ := List.getElem?_zip_eq_some.1 hi
    dsimp only
    split
    case h_1 name r => exact h name r s t ⟨i, hs, List.getElem?_zip_eq_some.1 both⟩
    case h_2 => trivial
  · rintro h name r s t ⟨i, hs, hx, hy⟩
    have both : (xs.zip ys)[i]? = some (s, t) := List.getElem?_zip_eq_some.2 ⟨hx, hy⟩
    have here : (d.slots.zip (xs.zip ys))[i]? = some (.directive .classes name r, s, t) :=
      List.getElem?_zip_eq_some.2 ⟨hs, both⟩
    exact h _ (List.mem_of_getElem? here)

instance (d : Descriptor) (xs ys : List String) : Decidable (AgreeOnClasses d xs ys) :=
  have (p : Slot × String × String) : Decidable (match p.1 with
      | .directive .classes _ _ => p.2.1 = "" ↔ p.2.2 = ""
      | _ => True) :=
    match p with
    | (.directive .classes _ _, s, t) => inferInstanceAs (Decidable (s = "" ↔ t = ""))
    | (.directive .style _ _, _) | (.directive .on _ _, _) | (.directive .bind _ _, _)
    | (.directive .ref _ _, _) | (.attr _ _ _, _) | (.component _, _) | (.node _, _) =>
      .isTrue trivial
  decidable_of_iff _ (agreeOnClasses_iff d xs ys).symm

section
variable {w : World} {d : Descriptor} {xs ys : List String} {f g : Dom.Forest} {element : NodeId}
  {slot : Slot} {s t : String}

theorem level_copied : (comparison w d xs ys).Level (copied w d).nodes (copied w d).nodes := by
  have planted := (Dom.Forest.planted w.nodes d.fragment).2
  refine ⟨.refl _, ⟨?_, fun _ => ?_⟩⟩
  · exact Dom.Scene.tidy_planted planted fun _ hp => hp.elim
  · exact Dom.Scene.unmounted_planted planted fun _ hp => hp.elim

/-- A text is put into a slot whose element was found. -/
theorem paired_fillElement (supplied : d.Supplied) (classes : AgreeOnClasses d xs ys)
    (h : (comparison w d xs ys).Level f g) (given : Worded d xs ys slot s t)
    (inside : (comparison w d xs ys).scene.Inside element)
    (carries : f.Carries d.config.refAttribute slot.ref.text element) :
    (comparison w d xs ys).Paired (fillElement element slot (worded s)).run
      (fillElement element slot (worded t)).run f g (Likewise fun a b => a = [] ∧ b = []) := by
  obtain ⟨i, hs, hx, hy⟩ := given
  have mem : slot ∈ d.slots := List.mem_of_getElem? hs
  have spares := supplied.slots slot mem
  have written : ∀ {e : Effect} {name}, e.written? = some name → slot.written? = some name →
      e.Matches s t → Text.lowercase d.config.refAttribute ≠ name →
      (comparison w d xs ys).Paired (do e.connect element (worded s); return [] : Fitting Asked).run
        (do e.connect element (worded t); return [] : Fitting Asked).run f g
        (Likewise fun a b => a = [] ∧ b = []) := by
    intro e name writes slotted both ne
    refine paired_run_bind (paired_connect h carries writes both ne ⟨slot, mem, rfl, slotted⟩) ?_
    exact fun _ _ f' g' level _ _ => paired_run_pure level ⟨rfl, rfl⟩
  cases slot with
  | attr name quote r =>
    unfold fillElement
    dsimp only
    split
    · exact written (e := .attr name) rfl rfl trivial spares
    · exact paired_run_pure h ⟨rfl, rfl⟩
  | directive kind name r =>
    cases kind with
    | classes =>
      exact written (e := .classes name) rfl rfl (classes name r s t ⟨i, hs, hx, hy⟩) spares
    | style => exact written (e := .style name) rfl rfl trivial spares
    | on => exact paired_run_throw h _
    | ref => exact paired_run_throw h _
    | bind => exact paired_run_throw h _
  | component r => exact paired_run_throw h _
  | node r =>
    have shown := paired_showText h inside fun n hn => ⟨hn, r, i, hs, hx, hy⟩
    have through : ∀ s, fillElement element (.node r) (worded s) = (do
        liftM (do Mount.replace element [← onNodes (·.create (.text s))] : Op Unit)
        return [] : Fitting Asked) := fun s => rfl
    rw [through, through]
    exact paired_run_bind (paired_run_lift shown) fun _ _ f' g' level _ _ =>
      paired_run_pure level ⟨rfl, rfl⟩

/-- A search comes to the same element in both. -/
theorem paired_find (h : (comparison w d xs ys).Level f g) (r : Ref) (index : Option Nat) :
    (comparison w d xs ys).Paired ((find d w.nodes.next r).atSlot index).run
      ((find d w.nodes.next r).atSlot index).run f g (Likewise fun a b => a = b ∧
        (comparison w d xs ys).scene.Inside a ∧ f.Carries d.config.refAttribute r.text a) := by
  have same : found d w.nodes.next r ((comparison w d xs ys).having g) =
      found d w.nodes.next r ((comparison w d xs ys).having f) :=
    (h.alike.find w.nodes.next r.text).symm
  cases hit : found d w.nodes.next r ((comparison w d xs ys).having f) with
  | none =>
    refine paired_of_ok (a := .error ⟨.missingReference r, index⟩)
      (b := .error ⟨.missingReference r, index⟩) h (fun run => ?_) (fun run => ?_) rfl
    · rw [atSlot_run, find_run, hit]
      rfl
    · rw [atSlot_run, find_run, same, hit]
      rfl
  | some n =>
    obtain ⟨below, carries⟩ := Dom.Forest.carries_of_findByAttribute hit
    have inside : (comparison w d xs ys).scene.Inside n :=
      (Dom.Forest.mem_of_mem_descendantsWith h.good.tidy.closed (.inr (Nat.le_refl _)) below).1
    refine paired_of_ok (a := .ok n) (b := .ok n) h (fun run => ?_) (fun run => ?_)
      ⟨rfl, inside, carries⟩
    · rw [atSlot_run, find_run, hit]
      rfl
    · rw [atSlot_run, find_run, same, hit]
      rfl

theorem paired_fillSlots (supplied : d.Supplied) (classes : AgreeOnClasses d xs ys)
    (h : (comparison w d xs ys).Level f g) (index : Nat) (l : List (Slot × String × String))
    (given : ∀ p ∈ l, Worded d xs ys p.1 p.2.1 p.2.2) :
    (comparison w d xs ys).Paired
      (fillSlots d w.nodes.next index (l.map fun p => (p.1, worded p.2.1))).run
      (fillSlots d w.nodes.next index (l.map fun p => (p.1, worded p.2.2))).run f g
      (Likewise fun a b => a = [] ∧ b = []) := by
  induction l generalizing f g index with
  | nil => exact paired_run_pure h ⟨rfl, rfl⟩
  | cons p l ih =>
    obtain ⟨here, rest⟩ := List.forall_mem_cons.1 given
    simp only [List.map_cons, fillSlots, fill, atSlot_bind, bind_assoc]
    refine paired_run_bind (paired_find h p.1.ref (some index)) ?_
    rintro e _ f₁ g₁ h₁ marks ⟨rfl, inside, carries⟩
    have filled := paired_fillElement supplied classes h₁ here inside (marks e _ carries)
    refine paired_run_bind (paired_atSlot (some index) filled) ?_
    rintro _ _ f₂ g₂ h₂ - ⟨rfl, rfl⟩
    refine paired_run_bind (ih h₂ (index + 1) rest) ?_
    rintro _ _ f₃ g₃ h₃ - ⟨rfl, rfl⟩
    exact paired_run_pure h₃ ⟨rfl, rfl⟩

/-! Programs. -/

/-- A source that is a text. -/
def Source.IsText : Source → Prop
  | .literal _ | .value (.string _) => True
  | _ => False

/-- What can be taken from one list of texts can be from the other. -/
theorem paired_sourceOfPart (h : (comparison w d xs ys).Level f g) (length : xs.length = ys.length)
    (part : Part) : (comparison w d xs ys).Paired (sourceOfPart (xs.map worded) part).run
      (sourceOfPart (ys.map worded) part).run f g
      (Likewise fun src src' => src.IsText ∧ src'.IsText) := by
  cases part with
  | literal text => exact paired_run_pure h ⟨trivial, trivial⟩
  | slot i =>
    unfold sourceOfPart
    dsimp only
    rw [List.getElem?_map, List.getElem?_map]
    rcases Nat.lt_or_ge i xs.length with known | unknown
    · rw [List.getElem?_eq_getElem known, List.getElem?_eq_getElem (length ▸ known)]
      have taken : ∀ s, sourceOf (worded s) = pure (.value (.string s)) := fun _ => rfl
      refine paired_atSlot (some i) ?_
      rw [taken, taken]
      exact paired_run_pure h ⟨trivial, trivial⟩
    · rw [List.getElem?_eq_none unknown, List.getElem?_eq_none (length ▸ unknown)]
      exact paired_run_throw h _

/-- By induction on the sources. -/
theorem joined_run {l : List Source} (texts : ∀ src ∈ l, src.IsText) (soFar : String) :
    ∃ s, ∀ run w, ((joined soFar l).run .passing : Op Value) run w = .ok (.string s, w) := by
  induction l generalizing soFar with
  | nil => exact ⟨soFar, fun _ _ => rfl⟩
  | cons src l ih =>
    obtain ⟨here, rest⟩ := List.forall_mem_cons.1 texts
    cases src with
    | literal text => exact ih rest _
    | signal s => exact here.elim
    | value v =>
      cases v with
      | string text =>
        obtain ⟨s, hs⟩ := ih rest (soFar ++ text)
        exact ⟨s, fun run w => hs run w⟩
      | _ => exact here.elim

/-- An attribute is put together at the element that it belongs to. -/
theorem paired_fillProgram (supplied : d.Supplied) (length : xs.length = ys.length)
    (h : (comparison w d xs ys).Level f g) {r : Ref} {name : String} {quote : Template.Quote}
    (mem : Slot.attr name quote r ∈ d.slots)
    (carries : f.Carries d.config.refAttribute r.text element) (parts : List Part) :
    (comparison w d xs ys).Paired (fillProgram (xs.map worded) element name parts).run
      (fillProgram (ys.map worded) element name parts).run f g (Likewise fun _ _ => True) := by
  have spares := supplied.slots _ mem
  have allowed : (comparison w d xs ys).leeway.value r.text (Text.lowercase name) :=
    ⟨_, mem, rfl, rfl⟩
  unfold fillProgram
  split
  case h_1 i =>
    rw [List.getElem?_map, List.getElem?_map]
    rcases Nat.lt_or_ge i xs.length with known | unknown
    · rw [List.getElem?_eq_getElem known, List.getElem?_eq_getElem (length ▸ known)]
      exact paired_atSlot (some i)
        (paired_connect h carries (e := .attr name) rfl trivial spares allowed)
    · rw [List.getElem?_eq_none unknown, List.getElem?_eq_none (length ▸ unknown)]
      exact paired_run_throw h _
  case h_2 =>
    refine paired_run_bind
      (paired_run_mapM h fun part f g level => paired_sourceOfPart level length part) ?_
    rintro l l' f₁ g₁ h₁ marks ⟨texts, texts'⟩
    have plain : ∀ {l : List Source}, (∀ src ∈ l, src.IsText) → l.any Source.isSignal = false := by
      intro l texts
      refine List.any_eq_false.2 fun src hsrc => ?_
      cases src with
      | signal s => exact (texts _ hsrc).elim
      | literal _ | value _ => exact Bool.false_ne_true
    dsimp only
    rw [plain texts, plain texts']
    obtain ⟨s, reads⟩ := joined_run texts ""
    obtain ⟨t, reads'⟩ := joined_run texts' ""
    have read : (comparison w d xs ys).Paired ((joined "" l).run .passing : Op Value)
        ((joined "" l').run .passing) f₁ g₁ fun v v' => v = .string s ∧ v' = .string t :=
      paired_of_ok h₁ (fun run => reads run _) (fun run => reads' run _) ⟨rfl, rfl⟩
    refine paired_run_bind (paired_run_lift read) ?_
    rintro _ _ f₂ g₂ h₂ marks' ⟨rfl, rfl⟩
    exact paired_run_lift (paired_apply h₂ (marks' element _ (marks element _ carries))
      (e := .wholeAttr name) rfl trivial spares allowed)

theorem paired_fillPrograms (supplied : d.Supplied) (length : xs.length = ys.length)
    (h : (comparison w d xs ys).Level f g) {p : Ref × Programs} (hp : p ∈ d.programs.entries) :
    (comparison w d xs ys).Paired (fillPrograms d w.nodes.next (xs.map worded) p.1 p.2).run
      (fillPrograms d w.nodes.next (ys.map worded) p.1 p.2).run f g (Likewise fun _ _ => True) := by
  refine paired_run_bind (paired_find h p.1 none) ?_
  rintro e _ f₁ g₁ h₁ marks ⟨rfl, -, carries⟩
  refine paired_run_forM h₁ fun q hq f₂ g₂ h₂ marks' => ?_
  obtain ⟨quote, mem⟩ := supplied.programs p hp q hq
  exact paired_fillProgram supplied length h₂ mem (marks' e _ (marks e _ carries)) q.2

/-- All texts are put into a copy. -/
theorem paired_fillAll (supplied : d.Supplied) (length : xs.length = ys.length)
    (classes : AgreeOnClasses d xs ys) :
    (comparison w d xs ys).Paired (fillAll d w.nodes.next (xs.map worded)).run
      (fillAll d w.nodes.next (ys.map worded)).run (copied w d).nodes (copied w d).nodes
      (Likewise fun a b => a = [] ∧ b = []) := by
  have h : (comparison w d xs ys).Level (copied w d).nodes (copied w d).nodes := level_copied
  unfold fillAll
  simp only [List.length_map, length]
  by_cases count : ys.length = d.slots.length
  · simp only [count, ne_eq, not_true_eq_false, if_false]
    let l := d.slots.zip (xs.zip ys)
    have given : ∀ p ∈ l, Worded d xs ys p.1 p.2.1 p.2.2 := by
      intro p hp
      obtain ⟨i, hi⟩ := List.mem_iff_getElem?.1 hp
      obtain ⟨hs, both⟩ := List.getElem?_zip_eq_some.1 hi
      exact ⟨i, hs, List.getElem?_zip_eq_some.1 both⟩
    have left : d.slots.zip (xs.map worded) = l.map fun p => (p.1, worded p.2.1) := by
      have zipped : (xs.zip ys).map Prod.fst = xs := List.map_fst_zip (Nat.le_of_eq length)
      rw [← zipped, List.map_map, List.zip_map_right]
      rfl
    have right : d.slots.zip (ys.map worded) = l.map fun p => (p.1, worded p.2.2) := by
      have zipped : (xs.zip ys).map Prod.snd = ys := List.map_snd_zip (Nat.le_of_eq length.symm)
      rw [← zipped, List.map_map, List.zip_map_right]
      rfl
    rw [left, right]
    refine paired_run_bind (paired_fillSlots supplied classes h 0 l given) ?_
    rintro _ _ f₁ g₁ h₁ - ⟨rfl, rfl⟩
    have rest := paired_run_forM (l := d.programs.entries) h₁ fun p hp f g level _ =>
      paired_fillPrograms supplied length level hp
    exact paired_run_bind rest fun _ _ f₂ g₂ h₂ _ _ => paired_run_pure h₂ ⟨rfl, rfl⟩
  · simp only [count, ne_eq, not_false_eq_true, if_true]
    exact paired_run_throw h _

/-- What a rendering comes to once its copy is filled. -/
theorem render_filled {zs : List String} {e : Dom.Forest} {r : Except RenderFailure Asked}
    (run : Runner) : (fillAll d w.nodes.next (zs.map worded)).run run (copied w d) =
      .ok (r, (comparison w d xs ys).having e) → render d (zs.map worded) run w =
      (match r with
        | .ok asked => do
          asked.forM fun (s, n) => Signal.put s (.node n)
          return .ok (← onNodes (·.takeForInsertion w.nodes.next))
        | .error failure => do
          let error :=
            ⟨failure, TemplateValue.diagnosticAll (← get) (zs.map worded), Text.trimmed d.html⟩
          modifyNodes fun f =>
            (f.olderBelow w.nodes.size w.nodes.next).foldl Dom.Forest.detach f
          return .error error : Op (Except RenderError (List NodeId))) run
            ((comparison w d xs ys).having e) := by
  intro filled
  rw [render, renderBy_run, filled]
  rfl

/-- Two lists of texts make the same of a template: both renderings fail for the same reason at the
same slot, or both yield the same nodes, in forests that are alike but for the texts at outlets and
the values of attributes that slots write. -/
theorem texts_keep_structure {nextRef : Nat} {chunks : List String}
    (compiled : (Descriptor.compile .standard nextRef chunks).1 = .ok d)
    (length : xs.length = ys.length) (classes : AgreeOnClasses d xs ys) (w : World) :
    (∃ e e' w₁ w₂, (∀ run, render d (xs.map worded) run w = .ok (.error e, w₁)) ∧
      (∀ run, render d (ys.map worded) run w = .ok (.error e', w₂)) ∧ e.failure = e'.failure) ∨
    ∃ nodes f g, (∀ run, render d (xs.map worded) run w = .ok (.ok nodes, { w with nodes := f })) ∧
      (∀ run, render d (ys.map worded) run w = .ok (.ok nodes, { w with nodes := g })) ∧
        (leeway d xs ys (copied w d).nodes.size).Forests f g := by
  obtain ⟨-, supplied⟩ := Template.supplied_of_compile (by decide) compiled
  obtain ⟨r, r', f, g, hx, hy, level, -, both⟩ :=
    paired_fillAll (w := w) supplied length classes
  cases r with
  | error failure =>
    cases r' with
    | ok asked => exact both.elim
    | error failure' => exact .inl ⟨_, _, _, _, fun run => render_filled run (hx run),
        fun run => render_filled run (hy run), both⟩
  | ok asked =>
    cases r' with
    | error failure' => exact both.elim
    | ok asked' =>
      obtain ⟨rfl, rfl⟩ := both
      obtain ⟨same, taken⟩ := level.alike.takeForInsertion w.nodes.next
      exact .inr ⟨_, _, _, fun run => render_filled run (hx run),
        fun run => same ▸ render_filled run (hy run), taken⟩

end

/-! A paragraph with a title that a slot is part of, a class, a style and a text. -/

/-- The chunks around the slots of the paragraph. -/
def paragraph : List String :=
  ["<p title=\"a ", "\" class:on=", " style:color=", ">no ", "</p>"]

/-- The compiled paragraph. -/
def labelled : Descriptor :=
  match (Descriptor.compile .standard Ref.first paragraph).1 with
  | .ok d => d
  | .error _ => ⟨[], "", [], .empty, .standard⟩

theorem compile_paragraph :
    (Descriptor.compile .standard Ref.first paragraph).1 = .ok labelled := by
  have ok : (Descriptor.compile .standard Ref.first paragraph).1.isOk = true := by decide +kernel
  unfold labelled
  cases compiled : (Descriptor.compile .standard Ref.first paragraph).1 with
  | ok d => rfl
  | error e =>
    rw [compiled] at ok
    cases ok

/-- The texts of one rendering of the paragraph, and of another. -/
def plainWords : List String := ["one", "yes", "red", "hi"]
def oddWords : List String := ["", "\"off\"", ";blue", "<b>"]

theorem texts_keep_structure_labelled :
    plainWords.length = oddWords.length ∧ AgreeOnClasses labelled plainWords oddWords ∧
      ∃ nodes f g,
        (∀ run, render labelled (plainWords.map worded) run .empty =
          .ok (.ok nodes, { World.empty with nodes := f })) ∧
        (∀ run, render labelled (oddWords.map worded) run .empty =
          .ok (.ok nodes, { World.empty with nodes := g })) ∧
        (leeway labelled plainWords oddWords (copied .empty labelled).nodes.size).Forests f g := by
  have length : plainWords.length = oddWords.length := rfl
  have classes : AgreeOnClasses labelled plainWords oddWords := by decide +kernel
  refine ⟨length, classes, ?_⟩
  rcases texts_keep_structure compile_paragraph length classes .empty with
    ⟨e, e', w₁, w₂, failed, -⟩ | success
  · have good : succeeds labelled (plainWords.map worded) (exec 10) .empty = true := by
      decide +kernel
    obtain ⟨nodes, w', rendered⟩ := rendered_of_succeeds good
    rw [failed (exec 10)] at rendered
    cases rendered
  · exact success

end Render
end Live
end LiveMarkup
