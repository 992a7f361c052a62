import LiveMarkup.Proofs.Precedence
import LiveMarkup.Proofs.Coercion

/-!
Sameness: the three ways in which values are compared agree. Values that are equal as keys are alike
to a hash and to every case of a match. A write that goes unnoticed is one over an equal value, so
it hides nothing that a match would tell apart, although numbers are compared there as numbers,
where a NaN is not even the same as itself.
-/
namespace LiveMarkup

namespace Ordered
variable {κ ν : Type} [BEq κ] [EquivBEq κ]

/-- Equal keys find the same entry. By induction on the entries. -/
theorem find?_congr {j k : κ} (h : (j == k) = true) (l : List (κ × ν)) : find? j l = find? k l := by
  induction l with
  | nil => rfl
  | cons e l ih =>
    obtain ⟨key, value⟩ := e
    have same : (key == j) = (key == k) := BEq.congr_right h
    rw [find?, find?, same, ih]

theorem get?_congr {j k : κ} (h : (j == k) = true) (m : Ordered κ ν) : m.get? j = m.get? k :=
  find?_congr h m.entries

end Ordered

/-- A table has one result for equal values, given that its facets do not tell them apart. -/
theorem CaseTable.resolve_congr {α κ ρ : Type} [BEq α] [EquivBEq α] [DecidableEq κ]
    {facets : Facets α κ} {a b : α} (equal : (a == b) = true) (tag : facets.tag a = facets.tag b)
    (type : facets.type? a = facets.type? b) (table : CaseTable α κ ρ) :
    table.resolve facets a = table.resolve facets b := by
  have found : Chunk.find? (ρ := ρ) facets a = Chunk.find? facets b := by
    funext chunk
    cases chunk with
    | equal results => exact Ordered.get?_congr equal results
    | tagged results => exact congrArg results.get? tag
    | typed results => exact congrArg (·.bind results.get?) type
  unfold resolve
  rw [found]

namespace Value

theorem tag_canonical (v : Value) : v.canonical.tag = v.tag := by
  cases v with
  | _ => rfl

theorem type?_canonical (isElement : NodeId → Bool) (v : Value) :
    v.canonical.type? isElement = v.type? isElement := by
  cases v with
  | _ => rfl

theorem tag_congr {a b : Value} (h : (a == b) = true) : a.tag = b.tag := by
  rw [← tag_canonical a, (equal_iff a b).1 h, tag_canonical]

theorem type?_congr {a b : Value} (h : (a == b) = true) (isElement : NodeId → Bool) :
    a.type? isElement = b.type? isElement := by
  rw [← type?_canonical isElement a, (equal_iff a b).1 h, type?_canonical]

/-- What is the same is equal. Only booleans, numbers and strings are ever the same. -/
theorem beq_of_isSame {a b : Value} (h : a.isSame b = true) : (a == b) = true := by
  cases a with
  | bool a =>
    cases b with
    | bool b => exact h
    | _ => cases h
  | number m =>
    cases b with
    | number n =>
      have same : m.canonical = n.canonical := Number.canonical_of_same h
      exact (equal_iff (.number m) (.number n)).2 (congrArg (fun bits => Value.number ⟨bits⟩) same)
    | _ => cases h
  | string s =>
    cases b with
    | string t => exact h
    | _ => cases h
  | _ => cases h

/-- Equality of values is an equivalence. Equal values are alike to a hash and have the same tag and
the same exact type. Values of which the second may be written over the first unnoticed are equal,
and no match tells them apart. -/
theorem equality_fit :
    Equivalence (fun a b : Value => (a == b) = true) ∧
    (∀ a b : Value, (a == b) = true → a.hashInput = b.hashInput ∧ a.tag = b.tag ∧
      ∀ isElement, a.type? isElement = b.type? isElement) ∧
    ∀ a b : Value, a.isSame b = true → (a == b) = true ∧
      ∀ (w : Live.World) (table : CaseTable Value ValueType Live.Formula),
        table.resolve w.facets a = table.resolve w.facets b := by
  have equivalence : Equivalence (fun a b : Value => (a == b) = true) :=
    ⟨fun _ => BEq.rfl, BEq.symm, BEq.trans⟩
  refine ⟨equivalence, fun a b equal => ?_, fun a b same => ?_⟩
  · exact ⟨hashInput_congr equal, tag_congr equal, type?_congr equal⟩
  · have equal : (a == b) = true := beq_of_isSame same
    exact ⟨equal, fun w table =>
      CaseTable.resolve_congr equal (tag_congr equal) (type?_congr equal _) table⟩

/-- Two NaNs of different bits are equal, although writing one over the other is noticed; the two
zeros are the same. -/
theorem equality_fit_numbers :
    let nan : Value := .number ⟨0x7FF8000000000000⟩
    let other : Value := .number ⟨0xFFF0000000000001⟩
    let zero : Value := .number ⟨0⟩
    let minus : Value := .number ⟨0x8000000000000000⟩
    nan ≠ other ∧ nan.isSame other = false ∧ (nan == other) = true ∧
      nan.hashInput = other.hashInput ∧ zero ≠ minus ∧ (zero == minus) = true ∧
        ∀ (w : Live.World) (table : CaseTable Value ValueType Live.Formula),
          table.resolve w.facets zero = table.resolve w.facets minus := by
  obtain ⟨-, alike, unnoticed⟩ := equality_fit
  obtain ⟨equal, dispatched⟩ := unnoticed (.number ⟨0⟩) (.number ⟨0x8000000000000000⟩) (by decide)
  exact ⟨by decide, by decide, by decide, (alike _ _ (by decide)).1, by decide, equal, dispatched⟩

end Value
end LiveMarkup
