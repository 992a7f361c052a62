import LiveMarkup.Markup.Item

/-!
Fragments from markup. End tags close the innermost open element of their name with everything
inside it, and are ignored where there is none; elements that stay open end with the input.
-/
namespace LiveMarkup.Markup

/-- An element that is still open: its start tag, and its elder siblings with the youngest first. -/
structure Frame where
  tag : String
  attributes : Attributes
  elder : List Tree

/-- A fragment under construction: the trees of the innermost open element with the last one first,
and the open elements from the inside out. -/
structure Builder where
  here : List Tree
  frames : List Frame

namespace Builder

/-- Nothing read yet. -/
def start : Builder := ⟨[], []⟩

/-- One more tree in the innermost open element. -/
def add (b : Builder) (t : Tree) : Builder :=
  { b with here := t :: b.here }

/-- Closes the innermost element as often as there are frames in the list, and leaves `outer`
open. -/
def closeAll (here : List Tree) (outer : List Frame) : List Frame → Builder
  | [] => ⟨here, outer⟩
  | f :: rest => closeAll (.element f.tag f.attributes here.reverse :: f.elder) outer rest

/-- Closes the innermost open element of the name with everything inside it. -/
def close (b : Builder) (tag : String) : Builder :=
  let inner := b.frames.takeWhile fun f => f.tag != tag
  match b.frames.drop inner.length with
  | [] => b
  | f :: outer => closeAll b.here outer (inner ++ [f])

/-- The builder after one more item. -/
def step (b : Builder) : Item → Builder
  | .text data => b.add (.text data)
  | .comment data => b.add (.comment data)
  | .declaration => b
  | .closed tag attributes content =>
    b.add (.element tag attributes (if content.isEmpty then [] else [.text content]))
  | .opening tag attributes => ⟨[], ⟨tag, attributes, b.here⟩ :: b.frames⟩
  | .ending tag => b.close tag

/-- The fragment, with every open element closed. -/
def finish (b : Builder) : List Tree :=
  (closeAll b.here [] b.frames).here.reverse

end Builder

/-- The fragment of a list of items. -/
def ofItems (items : List Item) : List Tree :=
  (items.foldl Builder.step .start).finish

/-- Parses markup into a fragment. -/
def parse (html : String) : Except Unfinished (List Tree) :=
  (items html.toList).map ofItems

end LiveMarkup.Markup
