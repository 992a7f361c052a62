import LiveMarkup.Dom.Element
import LiveMarkup.Proofs.ReadBack

/-!
Form state as binding keys see it. What a key writes it reads back as the coerced value, and a value that
would go unnoticed over what a key reads is the same to that key.
-/
namespace LiveMarkup

theorem Value.equal_self (v : Value) : v.equal v = true := by
  cases v with
  | null => rfl
  | bool b => exact beq_self_eq_true b
  | number n => exact beq_self_eq_true n.canonical
  | string s => exact beq_self_eq_true s
  | date d => exact beq_self_eq_true d
  | node n => exact beq_self_eq_true n
  | object o => exact beq_self_eq_true o

/-- What can go unnoticed over a node is nothing. -/
theorem Value.node?_of_isSame {u v : Value} (same : u.isSame v = true) : u.node? = none := by
  cases u with
  | node n => cases same
  | _ => rfl

theorem Number.canonical_of_same {m n : Number} (h : m.same n = true) : m.canonical = n.canonical := by
  simp only [same, Bool.and_eq_true, Bool.or_eq_true, Bool.not_eq_true', beq_iff_eq] at h
  obtain ⟨⟨number, number'⟩, rfl | ⟨zero, zero'⟩⟩ := h
  · rfl
  · unfold canonical
    rw [number, number', zero, zero']
    rfl

namespace Dom
variable {e : Element} {v : Value} {content : NodeId → String}

namespace Element

/-- A number that was written is read back; a NaN stands for all. -/
theorem formNumber_setFormNumber (e : Element) (n : Number) :
    (e.setFormNumber n).formNumber.canonical = n.canonical := by
  cases number : n.isNaN with
  | true =>
    have empty : (e.setFormNumber n).formNumber = .nan := by
      unfold setFormNumber
      rw [number]
      have none : Number.read? (Text.trim []) = none := by decide
      exact congrArg (fun o : Option Number => o.getD .nan) none
    rw [empty]
    unfold Number.canonical
    rw [number]
    rfl
  | false =>
    obtain ⟨n', read, same⟩ := Number.read?_text n number
    have written : (e.setFormNumber n).formNumber = n' := by
      unfold setFormNumber
      rw [number]
      have read' : Number.read? (Text.trim n.text.toList) = some n' := by
        rw [n.unbroken_text.trim, read]
      exact congrArg (fun o : Option Number => o.getD .nan) read'
    rw [written, same]

/-- A date that was written is read back. -/
theorem formDate?_setFormDate (e : Element) (d : Option Date) : (e.setFormDate d).formDate? = d := by
  cases d with
  | none =>
    have none : Date.read? (Text.trim []) = none := by decide
    exact none
  | some d =>
    have read : Date.read? (Text.trim d.text.toList) = some d := by
      rw [d.unbroken_text.trim, d.read?_text]
    exact read

end Element

namespace BindingKey

/-- A value as a key has it: its text, the number that it is, or NaN, the date that it is, or null, or
its truth. -/
def coerce (key : BindingKey) (content : NodeId → String) (v : Value) : Value :=
  match key with
  | .string => .string (v.text content)
  | .number => .number (numberOf v)
  | .date => v.date?.elim .null .date
  | .boolean => .bool v.isTruthy

/-- Whether the form state that a key reads was written. -/
def Written (key : BindingKey) (e : Element) : Prop :=
  match key with
  | .boolean => e.checked.isSome = true
  | .string | .number | .date => e.value.isSome = true

/-- The text of a value depends on nodes only if it is one. -/
theorem coerce_congr (key : BindingKey) (plain : v.node? = none) (content content' : NodeId → String) :
    key.coerce content v = key.coerce content' v := by
  cases v with
  | node n => cases plain
  | _ => rfl

theorem ofName?_name (key : BindingKey) : ofName? key.name = some key := by
  cases key <;> decide

/-- What a key writes it reads back as the coerced value. -/
theorem read_write (key : BindingKey) (content : NodeId → String) (e : Element) (v : Value) :
    (key.read (key.write content e v)).equal (key.coerce content v) = true := by
  cases key with
  | string => exact beq_self_eq_true (v.text content)
  | number => exact beq_iff_eq.2 (e.formNumber_setFormNumber (numberOf v))
  | date =>
    have read : BindingKey.date.read (e.setFormDate v.date?) = v.date?.elim .null .date := by
      unfold read
      dsimp only
      rw [e.formDate?_setFormDate]
    exact read.symm ▸ Value.equal_self _
  | boolean => exact beq_self_eq_true v.isTruthy

theorem written_write (key : BindingKey) (content : NodeId → String) (e : Element) (v : Value) :
    key.Written (key.write content e v) := by
  cases key <;> exact rfl

/-- A key reads nothing but the form state that was written. -/
theorem read_congr {key : BindingKey} {e' : Element} (written : key.Written e) (value : e'.value = e.value)
    (checked : e'.checked = e.checked) : key.Written e' ∧ key.read e' = key.read e := by
  have formValue (some : e.value.isSome = true) : e'.formValue = e.formValue := by
    obtain ⟨t, eq⟩ := Option.isSome_iff_exists.1 some
    unfold Element.formValue
    rw [value, eq]
    rfl
  have valued (some : e.value.isSome = true) : e'.value.isSome = true := by
    rw [value]
    exact some
  cases key with
  | string => exact ⟨valued written, congrArg Value.string (formValue written)⟩
  | number =>
    refine ⟨valued written, congrArg Value.number ?_⟩
    unfold Element.formNumber
    rw [formValue written]
  | date =>
    refine ⟨valued written, ?_⟩
    unfold read Element.formDate?
    dsimp only
    rw [formValue written]
  | boolean =>
    obtain ⟨b, eq⟩ := Option.isSome_iff_exists.1 written
    have set : e'.checked = some b := checked.trans eq
    refine ⟨Option.isSome_iff_exists.2 ⟨b, set⟩, congrArg Value.bool ?_⟩
    unfold Element.isChecked
    rw [set, eq]
    rfl

/-- What would go unnoticed over a value is what the key has of it. -/
theorem coerce_of_same {key : BindingKey} (same : v.isSame (key.read e) = true) :
    (key.read e).equal (key.coerce content v) = true := by
  cases key with
  | string =>
    cases v with
    | string s => exact beq_iff_eq.2 (eq_of_beq same).symm
    | _ => cases same
  | number =>
    cases v with
    | number n => exact beq_iff_eq.2 (Number.canonical_of_same same).symm
    | _ => cases same
  | date =>
    have never : v.isSame (BindingKey.date.read e) = false := by
      have date : BindingKey.date.read e = e.formDate?.elim .null .date := rfl
      rw [date]
      cases e.formDate? <;> cases v <;> rfl
    rw [never] at same
    cases same
  | boolean =>
    cases v with
    | bool b => exact beq_iff_eq.2 (eq_of_beq same).symm
    | _ => cases same

/-- Nothing that a key reads is a node. -/
theorem node?_read (key : BindingKey) (e : Element) : (key.read e).node? = none := by
  cases key with
  | date =>
    have date : BindingKey.date.read e = e.formDate?.elim .null .date := rfl
    rw [date]
    cases e.formDate? <;> rfl
  | _ => rfl

end BindingKey
end Dom
end LiveMarkup
