import LiveMarkup.Proofs.Unaided

/-!
Objections: runs under watch. A watched run takes the course of the run itself until something is
called that is objected to, and is stopped short there. So what becomes of a world comes in two
grades: fair, if the watched run comes to the same end, and foul, if it was stopped short.
-/
namespace LiveMarkup.Live

/-- What is objected to: that a task is called in a world. -/
abbrev Objection := Task → World → Bool

/-- Runs a task like `exec`, but stops short where something is called that is objected to. -/
def execUnless (objects : Objection) : Nat → Runner
  | 0, _ => throw .outOfFuel
  | fuel + 1, t => fun w =>
    if objects t w then .error .outOfFuel else t.run (execUnless objects fuel) w

/-- Whatever an operation yields satisfies a condition; and either it yields the same under watch,
and the new world is a fair one, or it is stopped short there, and the new world is a foul one. -/
def Heeds {α : Type} (run watched : Runner) (fair foul : World → World → Prop) (x : Op α)
    (w : World) (Q : α → World → Prop) : Prop :=
  ∀ a w', x run w = .ok (a, w') → Q a w' ∧
    (x watched w = .ok (a, w') ∧ fair w w' ∨ (∃ e, x watched w = .error e) ∧ foul w w')

/-- Whatever comes of a foul world, or becomes foul on the way, is foul. -/
class Graded (fair foul : World → World → Prop) : Prop extends Lasting fair where
  early : ∀ {w₁ w₂ w₃}, foul w₁ w₂ → fair w₂ w₃ → foul w₁ w₃
  late : ∀ {w₁ w₂ w₃}, fair w₁ w₂ → foul w₂ w₃ → foul w₁ w₃
  both : ∀ {w₁ w₂ w₃}, foul w₁ w₂ → foul w₂ w₃ → foul w₁ w₃

section
variable {α β : Type} {run watched : Runner} {fair foul : World → World → Prop} {w : World}

theorem Heeds.mono {x : Op α} {fair' foul' : World → World → Prop} {Q Q' : α → World → Prop}
    (h : Heeds run watched fair foul x w Q) (imp : ∀ a w', Q a w' → Q' a w')
    (better : ∀ a w', Q a w' → fair w w' → fair' w w')
    (worse : ∀ a w', Q a w' → foul w w' → foul' w w') : Heeds run watched fair' foul' x w Q' := by
  intro a w' hx
  obtain ⟨q, graded⟩ := h a w' hx
  exact ⟨imp a w' q, graded.imp (.imp_right (better a w' q)) (.imp_right (worse a w' q))⟩

theorem Heeds.weaken {x : Op α} {Q Q' : α → World → Prop} (h : Heeds run watched fair foul x w Q)
    (imp : ∀ a w', Q a w' → Q' a w') : Heeds run watched fair foul x w Q' :=
  h.mono imp (fun _ _ _ => id) fun _ _ _ => id

/-- Only what an operation does in this world matters. -/
theorem Heeds.congr {x y : Op α} {Q : α → World → Prop} (h : Heeds run watched fair foul x w Q)
    (eq : ∀ run, y run w = x run w) : Heeds run watched fair foul y w Q := by
  intro a w' hy
  rw [eq] at hy ⊢
  exact h a w' hy

/-- What calls nothing back is not objected to. -/
theorem heeds_of_unaided {x : Op α} {Q : α → World → Prop}
    (h : Unaided x w fun a w' => fair w w' ∧ Q a w') : Heeds run watched fair foul x w Q := by
  intro a w' hx
  obtain ⟨kept, q⟩ := h.ensures run a w' hx
  exact ⟨q, .inl ⟨h.same run watched ▸ hx, kept⟩⟩

theorem heeds_throw (e : Halt) (Q : α → World → Prop) :
    Heeds run watched fair foul (throw e : Op α) w Q :=
  nofun

theorem heeds_invoke {t : Task} {Q : World → Prop}
    (h : ∀ w', run t w = .ok ((), w') → Q w' ∧
      (watched t w = .ok ((), w') ∧ fair w w' ∨ (∃ e, watched t w = .error e) ∧ foul w w')) :
    Heeds run watched fair foul (invoke t) w fun _ => Q :=
  fun _ w' hx => h w' hx

/-- Going on from another world, if getting there was fair. -/
theorem heeds_from {x y : Op α} {w₁ : World} {fair' foul' : World → World → Prop}
    {Q : α → World → Prop} (eq : ∀ run, y run w = x run w₁)
    (h : Heeds run watched fair' foul' x w₁ Q) (kept : ∀ w₂, fair' w₁ w₂ → fair w w₂)
    (late : ∀ w₂, foul' w₁ w₂ → foul w w₂) : Heeds run watched fair foul y w Q := by
  intro a w' hy
  rw [eq] at hy ⊢
  obtain ⟨q, graded⟩ := h a w' hy
  exact ⟨q, graded.imp (.imp_right (kept w')) (.imp_right (late w'))⟩

/-- One operation after another, where each has grades of its own. -/
theorem heeds_bind_of {fair₁ foul₁ fair₂ foul₂ : World → World → Prop} {x : Op α} {f : α → Op β}
    {P : α → World → Prop} {Q : β → World → Prop} (hx : Heeds run watched fair₁ foul₁ x w P)
    (hf : ∀ a w₁, P a w₁ → Heeds run watched fair₂ foul₂ (f a) w₁ Q)
    (kept : ∀ w₁ w₂, fair₁ w w₁ → fair₂ w₁ w₂ → fair w w₂)
    (early : ∀ w₁ w₂, foul₁ w w₁ → fair₂ w₁ w₂ ∨ foul₂ w₁ w₂ → foul w w₂)
    (late : ∀ w₁ w₂, fair₁ w w₁ → foul₂ w₁ w₂ → foul w w₂) :
    Heeds run watched fair foul (x >>= f) w Q := by
  intro b w₂ ran
  obtain ⟨a, w₁, first, next⟩ := ok_of_bind ran
  obtain ⟨p, graded⟩ := hx a w₁ first
  obtain ⟨q, graded'⟩ := hf a w₁ p b w₂ next
  refine ⟨q, ?_⟩
  rcases graded with ⟨same, here⟩ | ⟨⟨e, stopped⟩, here⟩
  · rw [bind_of_ok same]
    rcases graded' with ⟨same', there⟩ | ⟨stopped, there⟩
    · exact .inl ⟨same', kept w₁ w₂ here there⟩
    · exact .inr ⟨stopped, late w₁ w₂ here there⟩
  · exact .inr ⟨⟨e, bind_of_error stopped⟩, early w₁ w₂ here (graded'.imp And.right And.right)⟩

/-! Nesting. -/

theorem heeds_exec_zero (objects : Objection) (t : Task) (Q : Unit → World → Prop) :
    Heeds (exec 0) (execUnless objects 0) fair foul (invoke t) w Q :=
  nofun

theorem execUnless_succ {objects : Objection} {t : Task} (fine : objects t w = false) (fuel : Nat) :
    execUnless objects (fuel + 1) t w = t.run (execUnless objects fuel) w := by
  have read : execUnless objects (fuel + 1) t w =
      if objects t w then .error .outOfFuel else t.run (execUnless objects fuel) w := rfl
  rw [read, fine]
  rfl

/-- A task to which there is no objection does what it does. -/
theorem heeds_exec_succ {objects : Objection} {t : Task} {fuel : Nat} {Q : Unit → World → Prop}
    (fine : objects t w = false)
    (h : Heeds (exec fuel) (execUnless objects fuel) fair foul t.run w Q) :
    Heeds (exec (fuel + 1)) (execUnless objects (fuel + 1)) fair foul (invoke t) w Q := by
  intro a w' hx
  have watched : invoke t (execUnless objects (fuel + 1)) w = t.run (execUnless objects fuel) w :=
    execUnless_succ fine fuel
  rw [watched]
  exact h a w' hx

/-- One to which there is an objection is not done under watch. -/
theorem heeds_exec_objected {objects : Objection} {t : Task} {fuel : Nat} {Q : Unit → World → Prop}
    (objected : objects t w = true) {w' : World} (ran : t.run (exec fuel) w = .ok ((), w'))
    (q : Q () w') (here : foul w w') :
    Heeds (exec (fuel + 1)) (execUnless objects (fuel + 1)) fair foul (invoke t) w Q := by
  intro a w₁ hx
  cases ran.symm.trans hx
  have read : execUnless objects (fuel + 1) t w =
      if objects t w then .error .outOfFuel else t.run (execUnless objects fuel) w := rfl
  rw [if_pos objected] at read
  exact ⟨q, .inr ⟨⟨_, read⟩, here⟩⟩

variable [Graded fair foul]

theorem heeds_pure {a : α} {Q : α → World → Prop} (q : Q a w) :
    Heeds run watched fair foul (pure a) w Q :=
  heeds_of_unaided (.pure ⟨Lasting.refl w, q⟩)

theorem heeds_bind {x : Op α} {f : α → Op β} {P : α → World → Prop} {Q : β → World → Prop}
    (hx : Heeds run watched fair foul x w P)
    (hf : ∀ a w₁, P a w₁ → Heeds run watched fair foul (f a) w₁ Q) :
    Heeds run watched fair foul (x >>= f) w Q :=
  heeds_bind_of hx hf (fun _ _ => Lasting.trans)
    (fun _ _ here there => there.elim (Graded.early here) (Graded.both fair here))
    fun _ _ => Graded.late

/-- Looking first. -/
theorem heeds_get {f : World → Op α} {Q : α → World → Prop}
    (h : Heeds run watched fair foul (f w) w Q) :
    Heeds run watched fair foul (get >>= f) w Q := by
  refine heeds_bind (P := fun a w' => a = w ∧ w' = w)
    (heeds_of_unaided (Unaided.get.mono ?_)) ?_
  · rintro _ _ ⟨rfl, rfl⟩
    exact ⟨Lasting.refl _, rfl, rfl⟩
  · rintro _ _ ⟨rfl, rfl⟩
    exact h

/-- A loop, by induction on the list. -/
theorem heeds_forM {l : List β} {f : β → Op PUnit} {I : World → Prop}
    (hf : ∀ b ∈ l, ∀ w, I w → Heeds run watched fair foul (f b) w fun _ => I) (hw : I w) :
    Heeds run watched fair foul (l.forM f) w fun _ => I := by
  induction l generalizing w with
  | nil => exact heeds_pure hw
  | cons b l ih =>
    obtain ⟨here, rest⟩ := List.forall_mem_cons.1 hf
    exact heeds_bind (here w hw) fun _ w₁ h₁ => ih rest h₁

/-- Nothing but an answer comes after. -/
theorem heeds_answer {x : Op Unit} {a : β} {Q : World → Prop}
    (hx : Heeds run watched fair foul x w fun _ => Q) :
    Heeds run watched fair foul (do x; return a) w fun _ => Q :=
  heeds_bind hx fun _ _ q => heeds_pure q

end
end LiveMarkup.Live
