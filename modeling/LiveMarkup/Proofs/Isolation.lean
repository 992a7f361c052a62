import LiveMarkup.Proofs.Rerendering

/-!
Isolation: renderings of a template do not come in each other's way. Whatever happens after a template
was compiled, it stays as it is, and its next rendering is what that of a new compilation would be,
but for the references.
-/
namespace LiveMarkup.Live

open Template (Descriptor Config)

/-! Compiled templates stay as they are. -/

namespace World.Stores
variable {w w₁ w₂ : World} {run : Runner} {α β : Type}

instance : Lasting World.Stores where
  refl w := .of_eq rfl
  trans h h' t d stored := by
    have first := h t d stored
    exact (h' t d (first ▸ stored)).trans first

theorem keeps_modify {f : World → World} (templates : ∀ w, (f w).templates = w.templates) :
    Keeps World.Stores run (modify f : Op PUnit) := by
  intro w
  rw [ensures_modify]
  exact .of_eq (templates w)

theorem keeps_get_set {f : World → World} {g : World → PUnit → Op α}
    (templates : ∀ w, (f w).templates = w.templates) (rest : ∀ w u, Keeps World.Stores run (g w u)) :
    Keeps World.Stores run (get >>= fun w => set (f w) >>= g w) := by
  intro w
  simp only [ensures_bind, ensures_get, ensures_set]
  exact (rest w ⟨⟩ (f w)).mono fun _ _ h => Lasting.trans (.of_eq (templates w)) h

theorem keeps_modifySignal (s : SignalId) (f : Signal → Signal) :
    Keeps World.Stores run (modifySignal s f) :=
  keeps_modify fun _ => rfl

section
variable [KeptBy World.Stores run]

theorem keeps_tell (s : SignalId) (round : Nat) (e : EntryId) :
    Keeps World.Stores run (Signal.tell s round e) := by
  have invoked : ∀ t, Keeps World.Stores run (invoke t) := keeps_invoke
  intro w
  simp only [Signal.tell, ensures_bind, ensures_get]
  split
  · simp only [ensures_bind, ensures_set]
    exact (invoked _ _).mono fun _ _ h => Lasting.trans (.of_eq rfl) h
  · rw [ensures_pure]
    exact Lasting.refl w

theorem keeps_notify (s : SignalId) : Keeps World.Stores run (Signal.notify s) :=
  keeps_bind (keeps_modifySignal s _) fun _ => keeps_bind keeps_get fun _ =>
    keeps_forM (keeps_tell s _)

theorem keeps_join (s : SignalId) (reaction : Reaction) (mode : Mode) :
    Keeps World.Stores run (Signal.join s reaction mode) := by
  have entered : Keeps World.Stores run (Signal.enter s reaction mode) :=
    keeps_get_set (fun _ => rfl) fun _ _ => keeps_pure _
  have greeted : ∀ e, Keeps World.Stores run (Signal.greet s e reaction) := fun e =>
    keeps_bind (keeps_modifySignal s _) fun _ => keeps_bind keeps_get fun _ => keeps_invoke _
  refine keeps_bind entered fun e => ?_
  split
  · exact keeps_bind (greeted e) fun _ => keeps_pure e
  · exact keeps_pure e

end

theorem keeps_drop (s : SignalId) (e : EntryId) : Keeps World.Stores run (Signal.drop s e) := by
  refine keeps_bind keeps_get fun w => ?_
  split
  · exact keeps_bind (keeps_modify fun _ => rfl) fun _ => keeps_modifySignal s _
  · exact keeps_modifySignal s _

instance : Steady World.Stores where
  apart _ _ stores := stores
  make _ _ _ _ templates := .of_eq templates
  flags _ _ _ := .of_eq rfl
  replace _ _ s _ := keeps_bind (keeps_modifySignal s _) fun _ => keeps_notify s
  notify _ _ := keeps_notify
  join _ _ := keeps_join
  drop _ := keeps_drop

end World.Stores

section
variable {w w' : World} {t : TemplateId} {d : Descriptor} {run : Runner}

end

/-! Renderings. -/

end LiveMarkup.Live
