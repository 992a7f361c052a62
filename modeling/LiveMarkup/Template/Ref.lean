/-!
References: the numbers that tie slots to elements. Their text stands in compiled markup, so that
an element can be found again in a copy.
-/
namespace LiveMarkup.Template

/-- A reference to an element of a template. -/
structure Ref where
  number : Nat
deriving DecidableEq, Repr, Inhabited

namespace Ref

/-- The number of the first reference. -/
def first : Nat := 1000000

/-- The text of a reference in markup. -/
def text (r : Ref) : String :=
  "__ref_" ++ toString r.number ++ "__"

end Ref
end LiveMarkup.Template
