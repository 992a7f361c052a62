/-!
JSON documents. The type of texts is a parameter: a document that is written holds strings, while
one that was read may hold texts that are no strings.
-/
namespace LiveMarkup

/-- A JSON document with texts in `σ`. -/
inductive Json (σ : Type) where
  | null
  | bool (b : Bool)
  /-- A number written as digits alone. -/
  | natural (n : Nat)
  /-- Any other number. -/
  | number
  | text (s : σ)
  | array (items : List (Json σ))
  | object (members : List (σ × Json σ))

end LiveMarkup
