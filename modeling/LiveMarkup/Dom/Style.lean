import LiveMarkup.Markup.Tree
import LiveMarkup.Text.Blank

/-!
The inline style of an element: the declarations `property: value` in its attribute `style`.
-/
namespace LiveMarkup.Markup.Attributes

/-- The declaration that a text between two semicolons holds. -/
def declaration? (s : String) : Option (String × String) :=
  match Text.cutAt? ':' s with
  | some (property, value) =>
    let property := Text.trimmed property
    if property.isEmpty then none else some (property, Text.trimmed value)
  | none => none

/-- The style properties, in the order in which they first come. -/
def styles (a : Attributes) : Ordered String String :=
  match a.value? "style" with
  | some s => .ofList ((Text.pieces ";" s).filterMap declaration?)
  | none => .empty

/-- The value of a style property. -/
def style? (a : Attributes) (property : String) : Option String :=
  a.styles.get? property

/-- A style as attribute text. -/
def styleText (styles : Ordered String String) : String :=
  " ".intercalate (styles.entries.map fun (property, value) => property ++ ": " ++ value ++ ";")

/-- Writes one style property; an empty value removes it. -/
def setStyle (a : Attributes) (property value : String) : Attributes :=
  let styles := a.styles
  a.set "style" (styleText
    (if value.isEmpty then styles.erase property else styles.insert property value))

end LiveMarkup.Markup.Attributes
