import Mathlib.Data.List.Forall2
import LiveMarkup.Proofs.Binding

/-!
Pairing: two operations followed side by side, each from a world of its own. Both come to an end
whatever callbacks would do, change nothing but nodes, and yield what goes together. Rules for
sequences, loops and operations that may fail.
-/
namespace LiveMarkup.Live

/-- Two operations that lead from two forests to two that go together, with related results. -/
def Pairs {α β : Type} (w v : World) (level : Dom.Forest → Dom.Forest → Prop) (x : Op α) (y : Op β)
    (f g : Dom.Forest) (Q : α → β → Prop) : Prop :=
  ∃ a b f' g', (∀ run, x run { w with nodes := f } = .ok (a, { w with nodes := f' })) ∧
    (∀ run, y run { v with nodes := g } = .ok (b, { v with nodes := g' })) ∧ level f' g' ∧ Q a b

/-- What goes together of two operations that may fail: results, or failures. -/
inductive Outcomes {α β ε : Type} (E : ε → ε → Prop) (Q : α → β → Prop) :
    Except ε α → Except ε β → Prop
  | ok {a : α} {b : β} (h : Q a b) : Outcomes E Q (.ok a) (.ok b)
  | error {e e' : ε} (h : E e e') : Outcomes E Q (.error e) (.error e')

namespace Pairs

variable {α α' β β' ε : Type} {w v : World} {level level' : Dom.Forest → Dom.Forest → Prop}
  {f g : Dom.Forest} {Q : α → α' → Prop} {R : β → β' → Prop} {E : ε → ε → Prop}

protected theorem pure (h : level f g) {a : α} {b : α'} (hQ : Q a b) :
    Pairs w v level (pure a) (pure b) f g Q :=
  ⟨a, b, f, g, fun _ => rfl, fun _ => rfl, h, hQ⟩

protected theorem bind {x : Op α} {y : Op α'} {k : α → Op β} {l : α' → Op β'}
    (h : Pairs w v level x y f g Q)
    (rest : ∀ a b f' g', level f' g' → Q a b → Pairs w v level' (k a) (l b) f' g' R) :
    Pairs w v level' (x >>= k) (y >>= l) f g R := by
  obtain ⟨a, b, f', g', hx, hy, after, hQ⟩ := h
  obtain ⟨a', b', f₂, g₂, hk, hl, last, hR⟩ := rest a b f' g' after hQ
  exact ⟨a', b', f₂, g₂, fun run => (bind_of_ok (hx run)).trans (hk run),
    fun run => (bind_of_ok (hy run)).trans (hl run), last, hR⟩

/-! Operations that may fail. -/

theorem run_pure (h : level f g) {a : α} {b : α'} (hQ : Q a b) :
    Pairs w v level (pure a : ExceptT ε Op α).run (pure b : ExceptT ε Op α').run f g
      (Outcomes E Q) :=
  .pure h (.ok hQ)

theorem run_throw (h : level f g) {e e' : ε} (hE : E e e') :
    Pairs w v level (throw e : ExceptT ε Op α).run (throw e' : ExceptT ε Op α').run f g
      (Outcomes E Q) :=
  .pure h (.error hE)

theorem run_bind {x : ExceptT ε Op α} {y : ExceptT ε Op α'} {k : α → ExceptT ε Op β}
    {l : α' → ExceptT ε Op β'} (h : Pairs w v level x.run y.run f g (Outcomes E Q))
    (rest : ∀ a b f' g', level f' g' → Q a b →
      Pairs w v level' (k a).run (l b).run f' g' (Outcomes E R))
    (levels : ∀ f g, level f g → level' f g) :
    Pairs w v level' (x >>= k).run (y >>= l).run f g (Outcomes E R) := by
  rw [ExceptT.run_bind, ExceptT.run_bind]
  refine h.bind fun r r' f' g' after both => ?_
  cases both with
  | ok hQ => exact rest _ _ f' g' after hQ
  | error hE => exact .pure (levels f' g' after) (.error hE)

theorem run_lift {x : Op α} {y : Op α'} (h : Pairs w v level x y f g Q) :
    Pairs w v level (liftM x : ExceptT ε Op α).run (liftM y : ExceptT ε Op α').run f g
      (Outcomes E Q) := by
  rw [run_liftM, run_liftM]
  exact h.bind fun a b f' g' after hQ => .pure after (.ok hQ)

end Pairs
end LiveMarkup.Live
