import LiveMarkup.Text.Blank

/-!
The names of markup: which characters they have, and which tags are special.
-/
namespace LiveMarkup.Markup

/-- Elements that have neither children nor an end tag. -/
def voidTags : List String :=
  ["area", "base", "br", "col", "embed", "hr", "img", "input", "link", "meta", "source", "track",
    "wbr"]

/-- Elements whose content is raw text. -/
def rawTags : List String :=
  ["script", "style"]

def isVoid (tag : String) : Bool :=
  voidTags.contains tag

def isRaw (tag : String) : Bool :=
  rawTags.contains tag

/-- A tag name starts with an ASCII letter. -/
def isTagStart (c : Char) : Bool :=
  c.isAlpha

/-- A tag name goes on with ASCII letters, digits and four marks. -/
def isTagChar (c : Char) : Bool :=
  c.isAlphanum || c == '-' || c == '_' || c == ':' || c == '.'

/-- The characters of an attribute name in markup. -/
def isAttributeChar (c : Char) : Bool :=
  !Text.isBlank c && !(c == '=' || c == '>' || c == '/' || c == '\x22' || c == '\x27')

theorem isTagChar_of_isTagStart {c : Char} (h : isTagStart c = true) : isTagChar c = true := by
  simp_all [isTagStart, isTagChar, Char.isAlphanum]

end LiveMarkup.Markup
