import LiveMarkup.Dom.ClassList
import LiveMarkup.Dom.Style
import LiveMarkup.Value

/-!
Elements: a tag, attributes, and the live state of form fields, which stands in front of the
attributes `value` and `checked` once it was written. Binding keys name the typed views of that
state.
-/
namespace LiveMarkup.Dom

open Markup (Attributes)

/-- The data of an element. -/
structure Element where
  tag : String
  attributes : Attributes
  /-- The form value, once it was written. -/
  value : Option String
  /-- The checkedness, once it was written. -/
  checked : Option Bool

namespace Element

/-- A new element; its tag is in small letters. -/
def ofTag (tag : String) : Element :=
  ⟨Text.lowercase tag, .empty, none, none⟩

/-- The element with attributes written in order. -/
def withAttributes (e : Element) (attributes : List (String × String)) : Element :=
  { e with attributes := attributes.foldl (fun a (name, value) => a.set name value) e.attributes }

/-- The form value. -/
def formValue (e : Element) : String :=
  (e.value <|> e.attributes.value? "value").getD ""

def setFormValue (e : Element) (value : String) : Element :=
  { e with value := some value }

/-- The form value as a number, blanks at its ends apart; NaN if it is none. -/
def formNumber (e : Element) : Number :=
  (Number.read? (Text.trim e.formValue.toList)).getD .nan

/-- Writes a number as form value; NaN empties it. -/
def setFormNumber (e : Element) (n : Number) : Element :=
  e.setFormValue (if n.isNaN then "" else n.text)

/-- The form value as a date, blanks at its ends apart. -/
def formDate? (e : Element) : Option Date :=
  Date.read? (Text.trim e.formValue.toList)

/-- Writes a date as form value; no date empties it. -/
def setFormDate (e : Element) (d : Option Date) : Element :=
  e.setFormValue (d.elim "" Date.text)

def isChecked (e : Element) : Bool :=
  e.checked.getD (e.attributes.has "checked")

def setChecked (e : Element) (checked : Bool) : Element :=
  { e with checked := some checked }

end Element

/-- The typed views of form state that a two-way binding can use. -/
inductive BindingKey where
  | string | number | date | boolean
deriving DecidableEq, Repr

namespace BindingKey

def all : List BindingKey := [.string, .number, .date, .boolean]

/-- The name of a key in a directive. -/
def name : BindingKey → String
  | .string => "value:string"
  | .number => "value:number"
  | .date => "value:date"
  | .boolean => "value:boolean"

def ofName? (name : String) : Option BindingKey :=
  all.find? fun k => k.name == name

/-- The number that a value is as form state. -/
def numberOf : Value → Number
  | .number n => n
  | .bool b => if b then .one else .zero
  | .string s => (Number.read? (Text.trim s.toList)).getD .nan
  | _ => .nan

/-- Reads form state through a key. -/
def read (key : BindingKey) (e : Element) : Value :=
  match key with
  | .string => .string e.formValue
  | .number => .number e.formNumber
  | .date => e.formDate?.elim .null .date
  | .boolean => .bool e.isChecked

/-- Writes form state through a key, given the text that nodes hold. -/
def write (key : BindingKey) (content : NodeId → String) (e : Element) (v : Value) : Element :=
  match key with
  | .string => e.setFormValue (v.text content)
  | .number => e.setFormNumber (numberOf v)
  | .date => e.setFormDate v.date?
  | .boolean => e.setChecked v.isTruthy

end BindingKey
end LiveMarkup.Dom
