import LiveMarkup.Markup.Tree
import LiveMarkup.Text.Blank

/-!
The class list of an element: the words of its attribute `class`.
-/
namespace LiveMarkup.Markup.Attributes

/-- The classes, in order. -/
def classes (a : Attributes) : List String :=
  (a.value? "class").elim [] Text.words

def hasClass (a : Attributes) (name : String) : Bool :=
  a.classes.contains name

/-- Puts a class on the list or takes it off. The attribute is written only if that changes
something. -/
def toggleClass (a : Attributes) (name : String) (on : Bool) : Attributes :=
  if on == a.hasClass name then a
  else
    let classes := if on then a.classes ++ [name] else a.classes.filter (· != name)
    a.set "class" (" ".intercalate classes)

end LiveMarkup.Markup.Attributes
