import LiveMarkup.Dom.Element

/-!
Custom elements: which names can be registered, and what a registered name creates.
-/
namespace LiveMarkup.Dom

/-- A registered tag; one that extends a built-in tag creates elements of that tag. -/
structure Definition where
  tag : String
  base : Option String
deriving DecidableEq, Repr

namespace Definition

/-- A new element of the definition. An extended built-in tag carries the own tag as attribute
`is`. -/
def create (d : Definition) : Element :=
  match d.base with
  | some base => (Element.ofTag base).withAttributes [("is", d.tag)]
  | none => .ofTag d.tag

end Definition

/-- Why a tag cannot be registered. -/
inductive RegistryError where
  | invalidName (tag : String)
  | alreadyDefined (tag : String)
deriving DecidableEq, Repr

def RegistryError.message : RegistryError → String
  | .invalidName tag => "`" ++ tag ++ "` is not a valid custom element name"
  | .alreadyDefined tag => "`" ++ tag ++ "` is already defined"

/-- Whether a tag can be registered: it starts with a small ASCII letter, holds a hyphen, and holds
no ASCII capital, no blank, no slash and no `>`. -/
def isCustomName (tag : String) : Bool :=
  let chars := tag.toList
  chars.head?.any Char.isLower && chars.contains '-' &&
    chars.all fun c => !c.isUpper && !Text.isBlank c && c != '/' && c != '>'

/-- The registered tags, in order of registration. -/
abbrev Registry := Ordered String Definition

/-- Registers a tag. -/
def Registry.define (r : Registry) (tag : String) (base : Option String) :
    Except RegistryError (Registry × Definition) :=
  if !isCustomName tag then .error (.invalidName tag)
  else if r.contains tag then .error (.alreadyDefined tag)
  else
    let d : Definition := ⟨tag, base.map Text.lowercase⟩
    .ok (r.insert tag d, d)

end LiveMarkup.Dom
