import LiveMarkup.Template.Shape
import LiveMarkup.Markup.Fragment

/-!
Descriptors: compiled templates. A descriptor holds the fragment that every rendering copies, the use
of each slot, and for each element with quoted attributes that slots are part of the programs that
put those attributes together.
-/
namespace LiveMarkup.Template

/-- A part of an attribute value. -/
inductive Part where
  | literal (text : String)
  | slot (index : Nat)
deriving DecidableEq, Repr

/-- The attributes of an element that are put together from parts. -/
abbrev Programs := Ordered String (List Part)

/-- A compiled template. -/
structure Descriptor where
  fragment : List Markup.Tree
  html : String
  slots : List Slot
  programs : Ordered Ref Programs
  config : Config

/-- The literal pieces of a value with the slots between them; empty pieces are dropped. -/
def interleave : List String → List Nat → List Part
  | [], _ => []
  | piece :: pieces, indexes =>
    (if piece.isEmpty then [] else [.literal piece]) ++
      match indexes with
      | [] => interleave pieces []
      | index :: indexes => .slot index :: interleave pieces indexes

/-- The program of an attribute whose value holds the reference once for each of its slots. -/
def program? (r : Ref) (value : String) (indexes : List Nat) : Option (List Part) :=
  let pieces := Text.pieces r.text value
  if pieces.length = indexes.length + 1 then some (interleave pieces indexes) else none

/-- The programs of an element's attributes. -/
def elementPrograms (r : Ref) (attributes : Markup.Attributes) :
    List (String × List Nat) → Except Fault Programs
  | [] => .ok .empty
  | entries =>
    entries.foldlM (fun programs (name, indexes) =>
      match (attributes.value? name).bind fun value => program? r value indexes with
      | some parts => .ok (programs.insert name parts)
      | none => .error (.placeholderMismatch name)) Ordered.empty

/-- The programs of all elements. -/
def allPrograms (config : Config) (fragment : List Markup.Tree) :
    List (Ref × SlotIndexes) → Except Fault (Ordered Ref Programs) :=
  List.foldlM (fun programs (r, indexes) =>
    if indexes.isEmpty then .ok programs
    else
      match (Markup.elementsWithAll config.refAttribute r.text fragment).head? with
      | none => .error (.missingReference r)
      | some attributes =>
        (elementPrograms r attributes indexes.entries).map (programs.insert r)) Ordered.empty

namespace Descriptor

/-- Compiles a shape. -/
def ofShape (config : Config) (s : Shape) : Except CompileError Descriptor :=
  match Markup.parse s.html with
  | .error unfinished => .error (.at config s.html (.markup unfinished))
  | .ok fragment =>
    match allPrograms config fragment s.elements.entries with
    | .error fault => .error (.at config s.html fault)
    | .ok programs => .ok ⟨fragment, s.html, s.slots, programs, config⟩

/-- Compiles the chunks of a template, with edits of its shape; also the number of the next
reference. -/
def compileEdited (config : Config) (nextRef : Nat) (edits : List Shape.Edit)
    (chunks : List String) : Except CompileError Descriptor × Nat :=
  let (shape, nextRef) := Shape.parse config nextRef chunks
  (shape.bind fun s => ofShape config (edits.foldl Shape.edit s), nextRef)

/-- Compiles the chunks of a template; also the number of the next reference. -/
def compile (config : Config) (nextRef : Nat) (chunks : List String) :
    Except CompileError Descriptor × Nat :=
  compileEdited config nextRef [] chunks

end Descriptor
end LiveMarkup.Template
