import LiveMarkup.Dom.Element

/-!
The forest of nodes. Every node knows its parent and its children; both links are changed together
by the operations here, which run no callbacks. Traversals take the number of nodes as fuel, which
bounds the depth of a forest.
-/
namespace LiveMarkup.Dom

open Markup (Tree Attributes)

/-- What a node is. -/
inductive Content where
  | fragment
  | element (e : Element)
  | text (data : String)
  | comment (data : String)

/-- A node. -/
structure Node where
  content : Content
  parent : Option NodeId
  children : List NodeId
  /-- Whether the node is taken to hang below a document body. -/
  connected : Bool

namespace Node

/-- A node that stands alone. -/
def alone (content : Content) : Node := ⟨content, none, [], false⟩

instance : Inhabited Node := ⟨alone .fragment⟩

def element? (n : Node) : Option Element :=
  match n.content with
  | .element e => some e
  | _ => none

def isFragment (n : Node) : Bool :=
  match n.content with
  | .fragment => true
  | _ => false

def isText (n : Node) : Bool :=
  match n.content with
  | .text _ => true
  | _ => false

/-- The tag of an element, and a word for every other node. -/
def name (n : Node) : String :=
  match n.content with
  | .fragment => "#document-fragment"
  | .element e => e.tag
  | .text _ => "#text"
  | .comment _ => "#comment"

/-- The node with its element data changed. -/
def mapElement (f : Element → Element) (n : Node) : Node :=
  match n.content with
  | .element e => { n with content := .element (f e) }
  | _ => n

/-- A text or a comment with other data; any other node has none. -/
def withData (data : String) (n : Node) : Node :=
  match n.content with
  | .text _ => { n with content := .text data }
  | .comment _ => { n with content := .comment data }
  | _ => n

end Node

/-- All nodes that were ever made. -/
abbrev Forest := Heap .node Node

namespace Forest
variable (f : Forest)

/-- A new node that stands alone, and the forest with it. -/
def create (content : Content) : NodeId × Forest :=
  (f.next, f.push (.alone content))

def isElement (n : NodeId) : Bool :=
  (f.get n).element?.isSome

/-- The attributes of a node; a node that is no element has none. -/
def attributes (n : NodeId) : Attributes :=
  (f.get n).element?.elim .empty Element.attributes

/-- Changes the data of an element. -/
def mapElement (n : NodeId) (g : Element → Element) : Forest :=
  f.modify n (Node.mapElement g)

/-- Changes the attributes of an element. -/
def mapAttributes (n : NodeId) (g : Attributes → Attributes) : Forest :=
  f.mapElement n fun e => { e with attributes := g e.attributes }

/-- The trees that a node stands for: a fragment for its children, any other node for itself. -/
def treesWith : Nat → NodeId → List Tree
  | 0, _ => []
  | fuel + 1, n =>
    let node := f.get n
    match node.content with
    | .fragment => node.children.flatMap (treesWith fuel)
    | .element e => [.element e.tag e.attributes (node.children.flatMap (treesWith fuel))]
    | .text data => [.text data]
    | .comment data => [.comment data]

def trees (n : NodeId) : List Tree :=
  treesWith f (f.size + 1) n

/-- The trees of the children of a node. -/
def childTrees (n : NodeId) : List Tree :=
  (f.get n).children.flatMap f.trees

/-- The markup of a node. -/
def html (n : NodeId) : String :=
  Markup.html (f.trees n)

/-- The markup inside a node. -/
def innerHtml (n : NodeId) : String :=
  let raw := (f.get n).element?.any fun e => Markup.isRaw e.tag
  String.ofList (Markup.printAll raw (f.childTrees n))

/-- The text that a node holds; comments inside a node hold none. -/
def textContent (n : NodeId) : String :=
  match (f.get n).content with
  | .text data | .comment data => data
  | .fragment | .element _ => Markup.contentAll (f.childTrees n)

/-- A node and everything below it in document order, each with its depth. -/
def outlineWith : Nat → Nat → NodeId → List (Nat × Content)
  | 0, _, _ => []
  | fuel + 1, depth, n =>
    let node := f.get n
    (depth, node.content) :: node.children.flatMap (outlineWith fuel (depth + 1))

def outline (n : NodeId) : List (Nat × Content) :=
  outlineWith f (f.size + 1) 0 n

/-- The nodes below a node, in document order. -/
def descendantsWith : Nat → NodeId → List NodeId
  | 0, _ => []
  | fuel + 1, n => (f.get n).children.flatMap fun c => c :: descendantsWith fuel c

def descendants (n : NodeId) : List NodeId :=
  descendantsWith f (f.size + 1) n

/-- The first element below a node whose attribute has a value. -/
def findByAttribute (n : NodeId) (name value : String) : Option NodeId :=
  (f.descendants n).find? fun c =>
    f.isElement c && (f.attributes c).value? name == some value

/-- Takes a node out of its parent. -/
def detach (n : NodeId) : Forest :=
  match (f.get n).parent with
  | none => f
  | some p =>
    (f.modify p fun node => { node with children := node.children.erase n }).modify n
      fun node => { node with parent := none }

/-- Writes the parent link of a node. -/
def setParent (n : NodeId) (p : Option NodeId) : Forest :=
  f.modify n fun node => { node with parent := p }

/-- Writes the list of children of a node. -/
def setChildren (n : NodeId) (children : List NodeId) : Forest :=
  f.modify n fun node => { node with children }

/-- Makes a node the last child of another. -/
def attach (p n : NodeId) : Forest :=
  (f.setParent n (some p)).modify p fun node => { node with children := node.children ++ [n] }

/-- The nodes to insert in place of a node: a fragment gives away its children, any other node
stands for itself. -/
def takeForInsertion (n : NodeId) : List NodeId × Forest :=
  let node := f.get n
  if node.isFragment then
    (node.children,
      node.children.foldl (fun f c => f.setParent c none) (f.setChildren n []))
  else ([n], f)

/-- The nodes to insert for a list of nodes. -/
def takeAll (f : Forest) : List NodeId → List NodeId × Forest
  | [] => ([], f)
  | n :: rest =>
    let (first, f) := f.takeForInsertion n
    let (more, f) := takeAll f rest
    (first ++ more, f)

/-- Takes a node out of its parent and puts others in its place. The answer names the parent and
the nodes put there; it is absent if there is no parent, or if the node left its parent together
with the nodes that were to replace it. -/
def splice (n : NodeId) (replacements : List NodeId) : Forest × Option (NodeId × List NodeId) :=
  match (f.get n).parent with
  | none => (f, none)
  | some p =>
    let (incoming, f) := f.takeAll (replacements.filter (· != n))
    let f := incoming.foldl detach f
    match (f.get p).children.idxOf? n with
    | none => (f, none)
    | some position =>
      let f := incoming.foldl (fun f c => f.setParent c (some p)) f
      let children := (f.get p).children
      let f := f.setChildren p
        (children.take position ++ incoming ++ children.drop (position + 1))
      (f.setParent n none, some (p, incoming))

/-- A copy of a node and everything below it. The copy stands alone. -/
def cloneWith : Nat → NodeId → Forest → NodeId × Forest
  | 0, n, f => f.create (f.get n).content
  | fuel + 1, n, f =>
    let (copy, f) := f.create (f.get n).content
    let f := (f.get n).children.foldl (fun f c =>
      let (child, f) := cloneWith fuel c f
      f.attach copy child) f
    (copy, f)

def deepClone (n : NodeId) : NodeId × Forest :=
  cloneWith (f.size + 1) n f

mutual

/-- A new node with everything below it, after a tree. -/
def plant (f : Forest) : Tree → NodeId × Forest
  | .text data => f.create (.text data)
  | .comment data => f.create (.comment data)
  | .element tag attributes children =>
    let (n, f) := f.create (.element ⟨tag, attributes, none, none⟩)
    (n, plantAll f n children)

/-- New nodes after trees, as the last children of a node. -/
def plantAll (f : Forest) (p : NodeId) : List Tree → Forest
  | [] => f
  | t :: rest =>
    let (n, f) := plant f t
    plantAll (f.attach p n) p rest

end

/-- A new fragment after trees. -/
def plantFragment (trees : List Tree) : NodeId × Forest :=
  let (n, f) := f.create .fragment
  (n, plantAll f n trees)

/-- The nodes below a node that are older than `limit`, and below no other such node. -/
def olderBelowWith (limit : Nat) : Nat → NodeId → List NodeId
  | 0, _ => []
  | fuel + 1, n =>
    (f.get n).children.flatMap fun c =>
      if c.index < limit then [c] else olderBelowWith limit fuel c

def olderBelow (limit : Nat) (n : NodeId) : List NodeId :=
  olderBelowWith f limit (f.size + 1) n

/-- The nodes along a path of child positions. -/
def along (n : NodeId) : List Nat → Option NodeId
  | [] => some n
  | i :: path => ((f.get n).children[i]?).bind fun c => along c path

end Forest
end LiveMarkup.Dom
