import LiveMarkup.Proofs.Ancestry
import LiveMarkup.Proofs.Writing

/-!
Settling: operations that come to an end without calling anything back, and what a value that does not
fit makes of them. Writing at the element of a slot settles where the element is not mounted: hooks
wait, and a computation is run once, which ends if all names that it uses are known.
-/
namespace LiveMarkup.Dom.Forest
variable {f f₁ f' : Forest} {a n : NodeId} {mark : String}

/-- The node is an element whose attribute names are in small letters. -/
def Lettered (f : Forest) (n : NodeId) : Prop :=
  ∃ e, (f.get n).content = .element e ∧ e.attributes.Small

/-- A forest has gained nodes without a marker, and the data of others has changed but for markers. -/
structure Kept (mark : String) (f f' : Forest) : Prop extends Enlarged f f' where
  marks : ∀ value n, f'.Carries mark value n ↔ f.Carries mark value n
  lettered : ∀ n, f.Lettered n → f'.Lettered n

theorem Extended.under (h : f.Extended f') : f'.Under a n ↔ f.Under a n :=
  ⟨fun under => under.mono fun m _ hp => (h.parent m).symm.trans hp,
    fun under => under.mono fun m _ hp => (h.parent m).trans hp⟩

theorem Lettered.known (h : f.Lettered n) : n.index < f.size := by
  obtain ⟨e, content, -⟩ := h
  refine Nat.not_le.1 fun unknown => ?_
  rw [get_unknown unknown] at content
  cases content

theorem Lettered.whole (h : f.Lettered n) : (f.get n).isFragment = false := by
  obtain ⟨e, content, -⟩ := h
  unfold Node.isFragment
  rw [content]

theorem Lettered.mapElement (h : f.Lettered n) (m : NodeId) {g : Element → Element}
    (small : ∀ e, e.attributes.Small → (g e).attributes.Small) : (f.mapElement m g).Lettered n := by
  refine Heap.get_modify_of f m n _ (fun a => ∃ e, a.content = .element e ∧ e.attributes.Small)
    (fun a ha => ?_) h
  obtain ⟨e, content, names⟩ := ha
  refine ⟨g e, ?_, small e names⟩
  unfold Node.mapElement
  rw [content]

namespace Kept

theorem refl (mark : String) (f : Forest) : Kept mark f f :=
  ⟨.refl f, fun _ _ => Iff.rfl, fun _ h => h⟩

theorem trans (h : Kept mark f f₁) (h' : Kept mark f₁ f') : Kept mark f f' :=
  ⟨h.toEnlarged.trans h'.toEnlarged, fun value n => (h'.marks value n).trans (h.marks value n),
    fun n hn => h'.lettered n (h.lettered n hn)⟩

theorem create (f : Forest) {content : Content}
    (unmarked : ∀ name value, content.carries name value = false) :
    Kept mark f (f.create content).2 := by
  have same : ∀ {n : NodeId}, n.index < f.size → (f.create content).2.get n = f.get n := by
    rintro n hn
    refine get_create_of_ne content ?_
    rintro rfl
    exact Nat.lt_irrefl _ hn
  refine ⟨.create f content, fun value n => ⟨carries_of_create (unmarked mark value), fun h => ?_⟩,
    fun n h => ?_⟩
  · unfold Carries at h ⊢
    rwa [same (known_of_carries h)]
  · unfold Lettered at h ⊢
    rwa [same (Lettered.known h)]

/-- A change of an element that leaves its marker. -/
theorem mapElement (n : NodeId) {g : Element → Element}
    (same : ∀ e, (g e).attributes.value? mark = e.attributes.value? mark)
    (small : ∀ e, e.attributes.Small → (g e).attributes.Small) :
    Kept mark f (f.mapElement n g) := by
  refine ⟨.mapElement n g, fun value m => ?_, fun m h => ?_⟩
  · have carries : ∀ a : Node, (a.mapElement g).content.carries mark value =
        a.content.carries mark value := by
      intro a
      unfold Node.mapElement
      split
      case h_1 e content => simp [content, Content.carries, same]
      case h_2 => rfl
    unfold Carries
    exact iff_of_eq (congrArg (· = true) (Heap.get_modify_same f n m _
      (fun a => a.content.carries mark value) carries))
  · exact h.mapElement n small

end Kept
end LiveMarkup.Dom.Forest

namespace LiveMarkup.Live
open Dom (Forest)

/-- An operation comes to an end from a world without calling anything back, and a condition holds of
its answer and of the world then. -/
def Settles {α : Type} (x : Op α) (w : World) (Q : α → World → Prop) : Prop :=
  ∃ a w', (∀ run, x run w = .ok (a, w')) ∧ Q a w'

namespace Settles
variable {α β ε : Type} {w w' : World} {Q : α → World → Prop}

theorem of_eq {x : Op α} {a : α} (h : ∀ run, x run w = .ok (a, w')) (hQ : Q a w') : Settles x w Q :=
  ⟨a, w', h, hQ⟩

protected theorem pure {a : α} (h : Q a w) : Settles (pure a) w Q :=
  of_eq (fun _ => rfl) h

theorem modify {f : World → World} {Q : PUnit → World → Prop} (h : Q ⟨⟩ (f w)) :
    Settles (modify f : Op PUnit) w Q :=
  of_eq (fun _ => rfl) h

protected theorem bind {x : Op α} {f : α → Op β} {R : β → World → Prop} (hx : Settles x w Q)
    (hf : ∀ a w', Q a w' → Settles (f a) w' R) : Settles (x >>= f) w R := by
  obtain ⟨a, w₁, first, hQ⟩ := hx
  obtain ⟨b, w₂, second, hR⟩ := hf a w₁ hQ
  exact ⟨b, w₂, fun run => (bind_of_ok (first run)).trans (second run), hR⟩

theorem get_bind {f : World → Op α} (h : Settles (f w) w Q) : Settles (get >>= f) w Q :=
  h

theorem mono {x : Op α} {Q' : α → World → Prop} (h : Settles x w Q)
    (imp : ∀ a w', Q a w' → Q' a w') : Settles x w Q' := by
  obtain ⟨a, w', ran, hQ⟩ := h
  exact ⟨a, w', ran, imp a w' hQ⟩

theorem run_bind {x : ExceptT ε Op α} {f : α → ExceptT ε Op β}
    {Q : Except ε α → World → Prop} {R : Except ε β → World → Prop} (hx : Settles x.run w Q)
    (ok : ∀ a w', Q (.ok a) w' → Settles (f a).run w' R)
    (error : ∀ e w', Q (.error e) w' → R (.error e) w') : Settles (x >>= f).run w R := by
  rw [ExceptT.run_bind]
  refine hx.bind fun r w' hr => ?_
  cases r with
  | ok a => exact ok a w' hr
  | error e => exact .pure (error e w' hr)

theorem run_lift_bind {x : Op α} {f : α → ExceptT ε Op β} {R : Except ε β → World → Prop}
    (hx : Settles x w Q) (hf : ∀ a w', Q a w' → Settles (f a).run w' R) :
    Settles ((liftM x : ExceptT ε Op α) >>= f).run w R := by
  rw [run_liftM_bind]
  exact hx.bind hf

end Settles

/-! What lasts. -/

/-- The literal needs no node that there is not. -/
def Literal.Known (names : Names) : Literal → Prop
  | .node name => (names.nodes.get? name).isSome
  | .plain _ | .element _ _ | .text _ _ => True

/-- A computation comes to an end whatever its questions are answered: it uses names that are known. -/
def Reading.Ends (names : Names) : Reading → Prop
  | .done _ => True
  | .get _ next | .peek _ next => ∀ v, (next v).Ends names
  | .track _ next | .note _ next => next.Ends names
  | .mode next => ∀ m, (next m).Ends names
  | .signal name next => ∃ p, names.signals.get? name = some p ∧ (next p.1).Ends names
  | .literal l next => l.Known names ∧ ∀ v, (next v).Ends names
  | .text _ next => ∀ s, (next s).Ends names

/-- Names and computations last. -/
structure Retains (w w' : World) : Prop where
  signals : w'.names.signals = w.names.signals
  nodes : ∀ name, (w.names.nodes.get? name).isSome → (w'.names.nodes.get? name).isSome
  formulas : ∀ fn, (w'.formulas.get fn).reading = (w.formulas.get fn).reading

variable {mark : String} {w w₁ w' : World}

namespace Retains

theorem of_eq (names : w'.names = w.names) (formulas : w'.formulas = w.formulas) : Retains w w' :=
  ⟨names ▸ rfl, fun _ h => names ▸ h, fun _ => formulas ▸ rfl⟩

theorem trans (h : Retains w w₁) (h' : Retains w₁ w') : Retains w w' :=
  ⟨h'.signals.trans h.signals, fun name hn => h'.nodes name (h.nodes name hn),
    fun fn => (h'.formulas fn).trans (h.formulas fn)⟩

/-- By induction on the computation. -/
theorem ends (h : Retains w w') {r : Reading} (ends : r.Ends w.names) : r.Ends w'.names := by
  induction r with
  | done v => trivial
  | get s next ih | peek s next ih => exact fun v => ih v (ends v)
  | track s next ih | note n next ih => exact ih ends
  | mode next ih => exact fun m => ih m (ends m)
  | signal name next ih =>
    obtain ⟨p, found, rest⟩ := ends
    exact ⟨p, h.signals ▸ found, ih p.1 rest⟩
  | literal l next ih =>
    refine ⟨?_, fun v => ih v (ends.2 v)⟩
    cases l with
    | node name => exact h.nodes name ends.1
    | _ => trivial
  | text v next ih => exact fun s => ih s (ends s)

end Retains

/-- And the forest is kept. -/
structure Nearby (mark : String) (w w' : World) : Prop extends Retains w w' where
  kept : w.nodes.Kept mark w'.nodes

namespace Nearby

theorem of_nodes (kept : w.nodes.Kept mark w'.nodes) (names : w'.names = w.names)
    (formulas : w'.formulas = w.formulas) : Nearby mark w w' :=
  ⟨.of_eq names formulas, kept⟩

theorem of_eq (nodes : w'.nodes = w.nodes) (names : w'.names = w.names)
    (formulas : w'.formulas = w.formulas) : Nearby mark w w' :=
  of_nodes (nodes ▸ .refl mark w.nodes) names formulas

theorem refl (mark : String) (w : World) : Nearby mark w w :=
  of_eq rfl rfl rfl

theorem trans (h : Nearby mark w w₁) (h' : Nearby mark w₁ w') : Nearby mark w w' :=
  ⟨h.toRetains.trans h'.toRetains, h.kept.trans h'.kept⟩

end Nearby

/-! Computations. -/

theorem require_settles {α : Type} {name : Name} {a : Option α} (known : a.isSome) :
    Settles (require name a) w fun b w' => a = some b ∧ w' = w := by
  obtain ⟨b, rfl⟩ := Option.isSome_iff_exists.1 known
  exact .pure ⟨rfl, rfl⟩

variable (mark)

theorem create_settles {content : Dom.Content}
    (unmarked : ∀ name value, content.carries name value = false) :
    Settles (onNodes (·.create content)) w fun n w' =>
      n = w.nodes.next ∧ w' = { w with nodes := (w.nodes.create content).2 } ∧ Nearby mark w w' :=
  .of_eq (fun _ => rfl) ⟨rfl, rfl, .of_nodes (.create w.nodes unmarked) rfl rfl⟩

theorem nodeOrCreate_settles (name : Name) {content : Dom.Content}
    (unmarked : ∀ name value, content.carries name value = false) :
    Settles (nodeOrCreate name content) w fun _ w' => Nearby mark w w' := by
  refine Settles.get_bind ?_
  split
  · exact .pure (.refl mark w)
  · refine (create_settles mark unmarked).bind ?_
    rintro n w₁ ⟨-, -, near⟩
    refine Settles.bind (Q := fun _ w' => Nearby mark w w') (Settles.modify ?_) fun _ _ h => .pure h
    refine near.trans ⟨⟨rfl, fun other known => ?_, fun _ => rfl⟩, .refl mark w₁.nodes⟩
    dsimp only
    by_cases same : other = name
    · rw [same, Ordered.get?_insert_self]
      rfl
    · rwa [Ordered.get?_insert_of_ne _ same]

theorem literal_settles {l : Literal} (known : l.Known w.names) :
    Settles l.eval w fun _ w' => Nearby mark w w' := by
  cases l with
  | plain v => exact .pure (.refl mark w)
  | node name =>
    have named : Settles (nodeNamed name) w fun _ w' => Nearby mark w w' :=
      (require_settles known).mono fun _ _ h => h.2 ▸ .refl mark w
    exact named.bind fun _ _ h => .pure h
  | element tag name =>
    exact (nodeOrCreate_settles mark name (fun _ _ => rfl)).bind fun _ _ h => .pure h
  | text data name =>
    exact (nodeOrCreate_settles mark name (fun _ _ => rfl)).bind fun _ _ h => .pure h

/-- By induction on the computation. -/
theorem reading_settles {r : Reading} (ends : r.Ends w.names) :
    Settles (r.run .passing) w fun _ w' => Nearby mark w w' := by
  induction r generalizing w with
  | done v => exact .pure (.refl mark w)
  | get s next ih | peek s next ih => exact ih _ (ends _)
  | track s next ih => exact ih ends
  | mode next ih => exact ih _ (ends _)
  | signal name next ih =>
    obtain ⟨p, found, rest⟩ := ends
    refine Settles.get_bind ?_
    refine (require_settles (by rw [found]; rfl)).bind ?_
    rintro q _ ⟨same, rfl⟩
    obtain rfl := Option.some.inj (found.symm.trans same)
    exact ih p.1 rest
  | literal l next ih =>
    refine (literal_settles mark ends.1).bind fun v w₁ near => ?_
    exact (ih v (near.ends (ends.2 v))).mono fun _ _ more => near.trans more
  | text v next ih => exact ih _ (ends _)
  | note n next ih =>
    let w₁ : World := { w with log := n :: w.log }
    have logged : Nearby mark w w₁ := .of_eq rfl rfl rfl
    have rest : Settles (next.run .passing) w₁ fun _ w' => Nearby mark w₁ w' := ih ends
    exact rest.mono fun _ _ near => logged.trans near

theorem createDerivation_settles {r : Reading} (ends : r.Ends w.names) :
    Settles (Derivation.create r) w fun _ w' => Nearby mark w w' := by
  refine (reading_settles mark ends).bind fun v w₁ near => ?_
  exact .of_eq (fun _ => rfl) (near.trans (.of_eq rfl rfl rfl))

theorem derived_settles {fn : FormulaId} (ends : (w.formulas.get fn).reading.Ends w.names) :
    Settles (SharedFormula.derived fn) w fun _ w' => Nearby mark w w' := by
  refine Settles.get_bind ?_
  dsimp only
  split
  · exact .pure (.refl mark w)
  · refine (createDerivation_settles mark ends).bind fun s w₁ near => ?_
    refine Settles.bind (Q := fun _ w' => Nearby mark w w') (Settles.modify ?_) fun _ _ h => .pure h
    refine near.trans ⟨⟨rfl, fun _ h => h, fun other => ?_⟩, .refl mark w₁.nodes⟩
    exact Heap.get_modify_same w₁.formulas fn other _ SharedFormula.reading fun _ => rfl

/-! What becomes of a value. -/

/-- What an operation that may fail has failed with. -/
def fault? {ε α : Type} : Except ε α → Option ε
  | .ok _ => none
  | .error e => some e

/-- An operation settles, with the given fault if there is one, and with a condition on the world if
not. -/
def Tries {ε α : Type} (fault : Option ε) (x : ExceptT ε Op α) (w : World) (C : World → Prop) : Prop :=
  Settles x.run w fun answer w' => fault? answer = fault ∧ (fault = none → C w')

namespace Tries
variable {ε α β : Type} {p q : Option ε} {C D : World → Prop}

protected theorem pure {a : α} (h : C w) : Tries none (pure a : ExceptT ε Op α) w C :=
  Settles.pure (a := Except.ok a) ⟨rfl, fun _ => h⟩

protected theorem throw (e : ε) : Tries (some e) (throw e : ExceptT ε Op α) w C :=
  Settles.pure (a := Except.error e) ⟨rfl, nofun⟩

theorem mono {x : ExceptT ε Op α} (h : Tries p x w C) (imp : ∀ w', C w' → D w') : Tries p x w D :=
  Settles.mono h fun _ w' ⟨fault, hC⟩ => ⟨fault, fun none => imp w' (hC none)⟩

protected theorem bind {x : ExceptT ε Op α} {f : α → ExceptT ε Op β} (hx : Tries p x w C)
    (hf : ∀ a w₁, C w₁ → Tries q (f a) w₁ D) : Tries (p.or q) (x >>= f) w D := by
  refine Settles.run_bind hx ?_ ?_
  · rintro a w₁ ⟨rfl, hC⟩
    exact hf a w₁ (hC rfl)
  · rintro e w₁ ⟨rfl, -⟩
    exact ⟨rfl, nofun⟩

/-- What follows cannot fail. -/
theorem bind_safe {x : ExceptT ε Op α} {f : α → ExceptT ε Op β} (hx : Tries p x w C)
    (hf : ∀ a w₁, C w₁ → Tries none (f a) w₁ D) : Tries p (x >>= f) w D := by
  have all := hx.bind hf
  rwa [Option.or_none] at all

theorem atSlot {p : Option RenderFault} {x : Fitting α} (hx : Tries p x w C) (index : Option Nat) :
    Tries (p.map (⟨·, index⟩)) (x.atSlot index) w C := by
  refine Settles.bind hx ?_
  rintro (e | a) w₁ ⟨rfl, hC⟩
  · exact .pure ⟨rfl, nofun⟩
  · exact .pure ⟨rfl, fun _ => hC rfl⟩

end Tries

theorem findSome?_cons_or {β ε : Type} {g : β → Option ε} {b : β} {l : List β} :
    (b :: l).findSome? g = (g b).or (l.findSome? g) := by
  rw [List.findSome?_cons]
  cases g b <;> rfl

/-- An operation settles, with the given fault if there is one, and changes nothing of note. -/
def Answers {ε α : Type} (mark : String) (fault : Option ε) (x : ExceptT ε Op α) (w : World) : Prop :=
  Tries fault x w (Nearby mark w)

namespace Answers
variable {ε α β : Type} {p q : Option ε}

variable {mark}

theorem pure (a : α) : Answers mark none (pure a : ExceptT ε Op α) w :=
  Tries.pure (.refl mark w)

theorem throw (e : ε) : Answers mark (some e) (throw e : ExceptT ε Op α) w :=
  Tries.throw e

theorem bind {x : ExceptT ε Op α} {f : α → ExceptT ε Op β} (hx : Answers mark p x w)
    (hf : ∀ a w₁, Nearby mark w w₁ → Answers mark q (f a) w₁) :
    Answers mark (p.or q) (x >>= f) w :=
  Tries.bind hx fun a w₁ near => (hf a w₁ near).mono fun _ more => near.trans more

theorem bind_safe {x : ExceptT ε Op α} {f : α → ExceptT ε Op β} (hx : Answers mark p x w)
    (hf : ∀ a w₁, Nearby mark w w₁ → Answers mark none (f a) w₁) : Answers mark p (x >>= f) w :=
  Tries.bind_safe hx fun a w₁ near => (hf a w₁ near).mono fun _ more => near.trans more

theorem lift_bind {x : Op α} {f : α → ExceptT ε Op β}
    {P : α → Prop} (hx : Settles x w fun a w' => P a ∧ Nearby mark w w')
    (hf : ∀ a w₁, P a → Nearby mark w w₁ → Answers mark q (f a) w₁) :
    Answers mark q (liftM x >>= f) w := by
  refine Settles.run_lift_bind hx ?_
  rintro a w₁ ⟨ha, near⟩
  exact (hf a w₁ ha near).mono fun _ more => near.trans more

theorem lift {x : Op α} (hx : Settles x w fun _ w' => Nearby mark w w') :
    Answers mark none (liftM x : ExceptT ε Op α) w := by
  unfold Answers Tries
  rw [run_liftM]
  exact hx.bind fun _ _ near => .pure ⟨rfl, fun _ => near⟩

theorem atSlot {p : Option RenderFault} {x : Fitting α} (hx : Answers mark p x w)
    (index : Option Nat) : Answers mark (p.map (⟨·, index⟩)) (x.atSlot index) w :=
  Tries.atSlot hx index

/-- By induction on the list: the first fault is the fault of all. -/
theorem mapM {l : List β} {f : β → ExceptT ε Op α} {g : β → Option ε}
    (hf : ∀ b ∈ l, ∀ w₁, Nearby mark w w₁ → Answers mark (g b) (f b) w₁) :
    Answers mark (l.findSome? g) (l.mapM f) w := by
  induction l generalizing w with
  | nil => exact pure []
  | cons b l ih =>
    obtain ⟨here, rest⟩ := List.forall_mem_cons.1 hf
    rw [List.mapM_cons, findSome?_cons_or]
    exact (here w (.refl mark w)).bind fun a w₁ near =>
      (ih fun b hb w₂ more => rest b hb w₂ (near.trans more)).bind_safe fun _ _ _ => pure _

theorem forM {l : List β} {f : β → ExceptT ε Op PUnit} {g : β → Option ε}
    (hf : ∀ b ∈ l, ∀ w₁, Nearby mark w w₁ → Answers mark (g b) (f b) w₁) :
    Answers mark (l.findSome? g) (l.forM f) w := by
  induction l generalizing w with
  | nil => exact pure PUnit.unit
  | cons b l ih =>
    obtain ⟨here, rest⟩ := List.forall_mem_cons.1 hf
    rw [findSome?_cons_or]
    exact (here w (.refl mark w)).bind fun _ w₁ near =>
      ih fun b hb w₂ more => rest b hb w₂ (near.trans more)

end Answers
end LiveMarkup.Live
