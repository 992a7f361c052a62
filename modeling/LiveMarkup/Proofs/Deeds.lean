import LiveMarkup.Live.Branch

/-!
Deeds: what the deeds of a match come to, and which it may do when. They are listed last deed first, so
what is said of a deed is said of the list behind it.
-/
namespace LiveMarkup.Live

namespace Deed

/-- Whether no case applied. -/
def falls (d : Deed) : Bool :=
  match d.response with
  | .handled _ _ => false
  | _ => true

/-- What the deed writes to the output, if it writes at all. -/
def written (d : Deed) : Option (Option Value) :=
  match d.response with
  | .handled _ v | .fellBack _ v => some (some v)
  | .stayed => none
  | .emptied => some none

end Deed

/-- A computation may yield a value. -/
def Yields (x : Op Value) (v : Value) : Prop :=
  ∃ run w w', x run w = .ok (v, w')

namespace Deeds

/-- The content of the output that the deeds lead to. -/
def content : List Deed → Option Value
  | [] => none
  | d :: past =>
    match d.written with
    | some value => if sameContent (content past) value then content past else value
    | none => content past

/-- What the deeds have changed the output to; a write may go unnoticed. -/
def changes : List Deed → List (Option Value)
  | [] => []
  | d :: past =>
    match d.written with
    | some value => if sameContent (content past) value then changes past else value :: changes past
    | none => changes past

/-- No case applied at the last deed, which was done in a certain period. -/
def Falling (a : ActivationId) (past : List Deed) : Prop :=
  ∃ d before, past = d :: before ∧ d.activation = a ∧ d.falls = true

/-- Whether a match may do something after what it did before: in the period of the last deed, or in a
new one. Where a case applies its handler runs; otherwise the fallback runs, unless no case applied
just before. -/
def Allowed (m : Branch) (past : List Deed) (d : Deed) : Prop :=
  d.active = true ∧
  ((∃ d' before, past = d' :: before ∧ d'.activation = d.activation) ∨
    ∀ d' ∈ past, d'.activation ≠ d.activation) ∧
  match d.response with
  | .handled f v => m.cases.resolve d.facets d.value = some f ∧ Yields (Branch.handle f d.value) v
  | .fellBack f v => m.cases.resolve d.facets d.value = none ∧ m.fallback = some f ∧
      ¬ Falling d.activation past ∧ Yields (Branch.fallBack f d.value) v
  | .stayed => m.cases.resolve d.facets d.value = none ∧ m.fallback ≠ none ∧
      Falling d.activation past
  | .emptied => m.cases.resolve d.facets d.value = none ∧ m.fallback = none

/-- Every deed may follow those before it. -/
def Lawful (m : Branch) : List Deed → Prop
  | [] => True
  | d :: past => Allowed m past d ∧ Lawful m past

section
variable {m : Branch} {d : Deed} {past : List Deed} {value : Option Value}

theorem content_of_unnoticed (h : d.written = some value)
    (same : sameContent (content past) value = true) :
    content (d :: past) = content past ∧ changes (d :: past) = changes past := by
  simp [content, changes, h, same]

theorem content_of_noticed (h : d.written = some value)
    (other : ¬ sameContent (content past) value = true) :
    content (d :: past) = value ∧ changes (d :: past) = value :: changes past := by
  simp [content, changes, h, other]

theorem content_of_unwritten (h : d.written = none) :
    content (d :: past) = content past ∧ changes (d :: past) = changes past := by
  simp [content, changes, h]

theorem Lawful.of_append {since : List Deed} (h : Lawful m (since ++ past)) : Lawful m past := by
  induction since with
  | nil => exact h
  | cons d since ih => exact ih h.2

/-- By induction on the deeds. -/
theorem Lawful.all (h : Lawful m past) : ∀ d ∈ past, ∃ before, Allowed m before d := by
  induction past with
  | nil => simp
  | cons d past ih => exact List.forall_mem_cons.2 ⟨⟨past, h.1⟩, ih h.2⟩

/-- By induction on the deeds in between: a period that was left is not taken up again. -/
theorem Lawful.periods {between : List Deed} {d' : Deed} (h : Lawful m (d :: (between ++ d' :: past)))
    (same : d'.activation = d.activation) : ∀ x ∈ between, x.activation = d.activation := by
  induction between generalizing d with
  | nil => simp
  | cons x between ih =>
    obtain ⟨⟨-, ⟨_, _, ⟨⟩, here⟩ | new, -⟩, rest⟩ := h
    · exact List.forall_mem_cons.2 ⟨here, fun y hy => (ih rest (same.trans here.symm) y hy).trans here⟩
    · exact absurd same (new d' (by simp))

end

end Deeds

end LiveMarkup.Live
