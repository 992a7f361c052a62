/-!
Identities and the cells they name. An identity is a position in a heap; the kind in its type keeps
identities of different heaps apart. Cells are never freed, so an identity stays good once it was
given out.
-/
namespace LiveMarkup

/-- What an identity names. -/
inductive Kind where
  | signal | entry | subscription | derivation | formula | branch | activation | follow
  | node | listener | component | registry | template
deriving DecidableEq, Repr

/-- The identity of a cell. -/
structure Id (kind : Kind) where
  index : Nat
deriving DecidableEq, Repr, Inhabited

abbrev SignalId := Id .signal
abbrev EntryId := Id .entry
abbrev SubscriptionId := Id .subscription
abbrev DerivationId := Id .derivation
abbrev FormulaId := Id .formula
abbrev BranchId := Id .branch
abbrev ActivationId := Id .activation
abbrev FollowId := Id .follow
abbrev NodeId := Id .node
abbrev ListenerId := Id .listener
abbrev RegistryId := Id .registry
abbrev TemplateId := Id .template

/-- The cells of one kind, in order of creation. -/
structure Heap (kind : Kind) (α : Type) where
  cells : Array α

namespace Heap
variable {kind : Kind} {α : Type}

def empty : Heap kind α := ⟨#[]⟩

instance : Inhabited (Heap kind α) := ⟨empty⟩

/-- The number of cells made so far. -/
def size (h : Heap kind α) : Nat :=
  h.cells.size

/-- The identity that the next cell will have. -/
def next (h : Heap kind α) : Id kind :=
  ⟨h.size⟩

/-- The heap with one more cell, which `next` names. -/
def push (h : Heap kind α) (a : α) : Heap kind α :=
  ⟨h.cells.push a⟩

/-- The cell of an identity; the default cell for an identity that was never given out. -/
def get [Inhabited α] (h : Heap kind α) (i : Id kind) : α :=
  h.cells.getD i.index default

/-- The heap with one cell changed; an identity that was never given out changes nothing. -/
def modify (h : Heap kind α) (i : Id kind) (f : α → α) : Heap kind α :=
  ⟨h.cells.modify i.index f⟩

variable (h : Heap kind α) (i j : Id kind) (a : α) (f : α → α)

@[simp] theorem size_empty : (empty : Heap kind α).size = 0 := rfl

@[simp] theorem size_push : (h.push a).size = h.size + 1 := by
  simp [push, size]

@[simp] theorem size_modify : (h.modify i f).size = h.size := by
  simp [modify, size]

@[simp] theorem get_push_next [Inhabited α] : (h.push a).get h.next = a := by
  simp [push, get, next, size]

theorem get_push_of_lt [Inhabited α] (hi : i.index < h.size) : (h.push a).get i = h.get i := by
  simp only [size] at hi
  simp [push, get, Array.getElem?_push, Nat.ne_of_lt hi]

/-- What holds of all cells that were made and of the default cell holds of every cell. -/
theorem get_of_cells [Inhabited α] {P : α → Prop} (made : ∀ a ∈ h.cells.toList, P a)
    (rest : P default) : P (h.get i) := by
  by_cases hi : i.index < h.cells.size
  · have cell : h.get i = h.cells[i.index] := by simp [get, hi]
    rw [cell]
    exact made _ (by simp)
  · have cell : h.get i = default := by simp [get, hi]
    rwa [cell]

theorem get_modify_self [Inhabited α] (hi : i.index < h.size) :
    (h.modify i f).get i = f (h.get i) := by
  simp only [size] at hi
  simp [modify, get, hi, Array.getElem_modify]

theorem get_of_size_le [Inhabited α] (hi : h.size ≤ i.index) : h.get i = default := by
  simp only [size] at hi
  simp [get, Array.getElem?_eq_none hi]

@[simp] theorem get_next [Inhabited α] : h.get h.next = default :=
  get_of_size_le h h.next (Nat.le_refl _)

theorem modify_of_size_le (hi : h.size ≤ i.index) : h.modify i f = h := by
  simp only [size] at hi
  simp [modify, Array.modify, Array.modifyM, Nat.not_lt.2 hi]

theorem modify_modify (g : α → α) : (h.modify i f).modify i g = h.modify i (g ∘ f) := by
  simp only [modify, mk.injEq]
  ext j hj hj'
  · simp
  · simp only [Array.getElem_modify, Function.comp]
    split
    · rfl
    · rfl

theorem get_push_of_ne [Inhabited α] (hi : i ≠ h.next) : (h.push a).get i = h.get i := by
  rcases Nat.lt_trichotomy i.index h.size with hlt | heq | hgt
  · exact get_push_of_lt h i a hlt
  · exact absurd (by cases i; simp_all [next]) hi
  · rw [get_of_size_le h i (Nat.le_of_lt hgt), get_of_size_le]
    rw [size_push]
    exact hgt

/-- Only what a change does to the cell itself matters. -/
theorem modify_congr [Inhabited α] {f g : α → α} (hfg : f (h.get i) = g (h.get i)) :
    h.modify i f = h.modify i g := by
  simp only [modify, mk.injEq]
  ext j hj hj'
  · simp
  · simp only [Array.getElem_modify]
    split
    case isTrue hij =>
      subst hij
      simp only [Array.size_modify] at hj
      simpa [get, hj] using hfg
    case isFalse => rfl

theorem get_modify_of_ne [Inhabited α] (hij : i ≠ j) : (h.modify i f).get j = h.get j := by
  have : i.index ≠ j.index := fun e => hij (by cases i; cases j; simp_all)
  simp [modify, get, Array.getElem?_modify, this]

/-- What a change leaves alone in every cell, it leaves alone in the heap. -/
theorem get_modify_same [Inhabited α] {β : Type} (g : α → β) (same : ∀ a, g (f a) = g a) :
    g ((h.modify i f).get j) = g (h.get j) := by
  by_cases hij : i = j
  · subst hij
    rcases Nat.lt_or_ge i.index h.size with hi | hi
    · rw [get_modify_self h i f hi, same]
    · rw [modify_of_size_le h i f hi]
  · rw [get_modify_of_ne h i j f hij]

/-- What a change keeps in every cell, it keeps in the heap. -/
theorem get_modify_of [Inhabited α] (P : α → Prop) (keeps : ∀ a, P a → P (f a)) (hj : P (h.get j)) :
    P ((h.modify i f).get j) := by
  by_cases hij : i = j
  · subst hij
    rcases Nat.lt_or_ge i.index h.size with hi | hi
    · rw [get_modify_self h i f hi]
      exact keeps _ hj
    · rwa [modify_of_size_le h i f hi]
  · rwa [get_modify_of_ne h i j f hij]

end Heap
end LiveMarkup
