import LiveMarkup.Proofs.Writing

/-!
Operations that call nothing back: what they do does not depend on the runner. A condition that such
operations keep is closed under doing them one after another.
-/
namespace LiveMarkup.Live

/-- An operation calls nothing back from a world, and whatever it yields satisfies a condition. -/
structure Unaided {α : Type} (x : Op α) (w : World) (Q : α → World → Prop) : Prop where
  same : ∀ run run', x run w = x run' w
  ensures : ∀ run, Ensures run x w Q

namespace Unaided
variable {α β : Type} {w : World} {Q : α → World → Prop}

/-- An operation whose outcome is known. -/
theorem of_eq {x : Op α} {a : α} {w' : World} (h : ∀ run, x run w = .ok (a, w')) (hQ : Q a w') :
    Unaided x w Q := by
  refine ⟨fun run run' => by rw [h, h], fun run b w₁ hx => ?_⟩
  rw [h] at hx
  cases hx
  exact hQ

protected theorem pure {a : α} (h : Q a w) : Unaided (pure a) w Q :=
  of_eq (fun _ => rfl) h

protected theorem get : Unaided (get : Op World) w fun a w' => a = w ∧ w' = w :=
  of_eq (fun _ => rfl) ⟨rfl, rfl⟩

protected theorem throw (e : Halt) : Unaided (throw e : Op α) w Q :=
  ⟨fun _ _ => rfl, fun _ => (ensures_throw ..).2 trivial⟩

theorem modify {f : World → World} {Q : PUnit → World → Prop} (h : Q ⟨⟩ (f w)) :
    Unaided (modify f : Op PUnit) w Q :=
  of_eq (fun _ => rfl) h

protected theorem bind {x : Op α} {f : α → Op β} {R : β → World → Prop} (hx : Unaided x w Q)
    (hf : ∀ a w', Q a w' → Unaided (f a) w' R) : Unaided (x >>= f) w R := by
  have bound : ∀ run, (x >>= f) run w = (x run w).bind fun p => f p.1 run p.2 := fun _ => rfl
  refine ⟨fun run run' => ?_, fun run => (ensures_bind ..).2 ?_⟩
  · rw [bound, bound, hx.same run run']
    cases h : x run' w with
    | error e => rfl
    | ok p => exact (hf p.1 p.2 (hx.ensures run' _ _ h)).same run run'
  · exact (hx.ensures run).mono fun a w' h => (hf a w' h).ensures run

theorem mono {x : Op α} {Q' : α → World → Prop} (h : Unaided x w Q)
    (imp : ∀ a w', Q a w' → Q' a w') : Unaided x w Q' :=
  ⟨h.same, fun run => (h.ensures run).mono imp⟩

/-- Only what an operation does in this world matters. -/
theorem congr {x y : Op α} (h : Unaided x w Q) (eq : ∀ run, y run w = x run w) :
    Unaided y w Q :=
  ⟨fun run run' => by rw [eq, eq, h.same], fun run a w' hy => h.ensures run a w' (eq run ▸ hy)⟩

/-- Looking first. -/
theorem get_bind {f : World → Op α} (h : Unaided (f w) w Q) : Unaided (get >>= f) w Q := by
  refine Unaided.get.bind fun _ _ => ?_
  rintro ⟨rfl, rfl⟩
  exact h

/-- Where the operation that comes first may fail. -/
theorem run_bind {ε : Type} {x : ExceptT ε Op α} {f : α → ExceptT ε Op β}
    {Q : Except ε α → World → Prop} {R : Except ε β → World → Prop} (hx : Unaided x.run w Q)
    (ok : ∀ a w', Q (.ok a) w' → Unaided (f a).run w' R)
    (error : ∀ e w', Q (.error e) w' → R (.error e) w') : Unaided (x >>= f).run w R := by
  rw [ExceptT.run_bind]
  refine hx.bind fun r w' hr => ?_
  cases r with
  | ok a => exact ok a w' hr
  | error e => exact .pure (error e w' hr)

theorem run_lift_bind {ε : Type} {x : Op α} {f : α → ExceptT ε Op β}
    {R : Except ε β → World → Prop} (hx : Unaided x w Q)
    (hf : ∀ a w', Q a w' → Unaided (f a).run w' R) :
    Unaided ((liftM x : ExceptT ε Op α) >>= f).run w R := by
  rw [run_liftM_bind]
  exact hx.bind hf

theorem atSlot {x : Fitting α} {Q : World → Prop} (index : Option Nat)
    (hx : Unaided x.run w fun _ w' => Q w') :
    Unaided (x.atSlot index).run w fun _ w' => Q w' := by
  refine hx.bind fun r w' h => ?_
  cases r with
  | ok a => exact .pure h
  | error e => exact .pure h

end Unaided

/-- From where a condition holds, an operation calls nothing back, and the condition holds again. -/
def Safe {α : Type} (I : World → Prop) (x : Op α) : Prop :=
  ∀ w, I w → Unaided x w fun _ w' => I w'

variable {I : World → Prop}

theorem safe_closed
    (create : ∀ w content, (∀ name value, content.carries name value = false) → I w →
      I { w with nodes := (w.nodes.create content).2 })
    (elsewhere : ∀ w w', Elsewhere w w' → I w → I w') : Closed (Safe I) where
  pure a w h := .pure h
  bind hx hf w h := (hx w h).bind fun a w' h' => hf a w' h'
  get w h := Unaided.of_eq (fun _ => rfl) h
  throw e w _ := .throw e
  create unmarked w h := Unaided.of_eq (fun _ => rfl) (create w _ unmarked h)
  elsewhere := by
    intro α f g apart hg w h
    refine Unaided.get_bind ?_
    have here : I (f w) := elsewhere w (f w) (apart w) h
    exact Unaided.bind (Q := fun _ w' => I w') (.of_eq (fun _ => rfl) here) fun u w' h' => hg w u w' h'

end LiveMarkup.Live
