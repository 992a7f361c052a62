import LiveMarkup.Ordered
import LiveMarkup.Text.Search
import LiveMarkup.Markup.Names

/-!
Markup trees and their text. A tree is an element, a text or a comment; a fragment is a list of
trees. Printing escapes text and attribute values, and leaves raw text and comments as they are.
-/
namespace LiveMarkup.Markup

/-- The attributes of an element. Names are compared and kept in small ASCII letters. -/
abbrev Attributes := Ordered String String

namespace Attributes

/-- The value of an attribute. -/
def value? (a : Attributes) (name : String) : Option String :=
  a.get? (Text.lowercase name)

def has (a : Attributes) (name : String) : Bool :=
  (a.value? name).isSome

/-- The attributes with one written. -/
def set (a : Attributes) (name value : String) : Attributes :=
  a.insert (Text.lowercase name) value

/-- The attributes without one. -/
def remove (a : Attributes) (name : String) : Attributes :=
  a.erase (Text.lowercase name)

end Attributes

/-- A markup tree. -/
inductive Tree where
  | element (tag : String) (attributes : Attributes) (children : List Tree)
  | text (data : String)
  | comment (data : String)

instance : Inhabited Tree := ⟨.text ""⟩

/-- The written form of a character of text. -/
def escapeInText (c : Char) : List Char :=
  if c = '&' then "&amp;".toList
  else if c = '<' then "&lt;".toList
  else if c = '>' then "&gt;".toList
  else [c]

/-- The written form of a character of an attribute value. -/
def escapeInValue (c : Char) : List Char :=
  if c = '&' then "&amp;".toList
  else if c = '\x22' then "&quot;".toList
  else [c]

/-- One attribute in a start tag, after a blank. -/
def printAttribute (a : String × String) : List Char :=
  ' ' :: a.1.toList ++ ['=', '\x22'] ++ a.2.toList.flatMap escapeInValue ++ ['\x22']

/-- The start tag of an element. -/
def printStart (tag : String) (attributes : Attributes) : List Char :=
  '<' :: tag.toList ++ attributes.entries.flatMap printAttribute ++ ['>']

/-- The end tag of an element. -/
def printEnd (tag : String) : List Char :=
  '<' :: '/' :: tag.toList ++ ['>']

mutual

/-- The markup of a tree; `raw` says that it stands in an element of raw text. -/
def Tree.print (raw : Bool) : Tree → List Char
  | .text data => if raw then data.toList else data.toList.flatMap escapeInText
  | .comment data => "<!--".toList ++ data.toList ++ "-->".toList
  | .element tag attributes children =>
    printStart tag attributes ++
      if isVoid tag then [] else printAll (isRaw tag) children ++ printEnd tag

/-- The markup of trees that stand side by side. -/
def printAll (raw : Bool) : List Tree → List Char
  | [] => []
  | t :: rest => t.print raw ++ printAll raw rest

end

mutual

/-- The text that a tree holds; comments hold none. -/
def Tree.content : Tree → String
  | .text data => data
  | .comment _ => ""
  | .element _ _ children => contentAll children

/-- The text that trees hold, in order. -/
def contentAll : List Tree → String
  | [] => ""
  | t :: rest => t.content ++ contentAll rest

end

mutual

/-- The attributes of the elements in a tree whose attribute `name` has the given value, in
document order. -/
def Tree.elementsWith (name value : String) : Tree → List Attributes
  | .element _ attributes children =>
    (if attributes.value? name = some value then [attributes] else []) ++
      elementsWithAll name value children
  | .text _ | .comment _ => []

/-- The same over trees that stand side by side. -/
def elementsWithAll (name value : String) : List Tree → List Attributes
  | [] => []
  | t :: rest => t.elementsWith name value ++ elementsWithAll name value rest

end

/-- The markup of a fragment. -/
def html (fragment : List Tree) : String :=
  String.ofList (printAll false fragment)

end LiveMarkup.Markup
