import LiveMarkup.Template.Token
import LiveMarkup.Markup.Item
import LiveMarkup.Json.Printer

/-!
Shapes: what each slot of a template is for, which element it belongs to, and the markup to build
the template from. A slot in text becomes an outlet, a slot in an outlet's start tag a component, a
slot in an attribute value an attribute or, where the name has the form `kind:name`, a directive.
-/
namespace LiveMarkup.Template

/-- How an attribute value is quoted. -/
inductive Quote where
  | none | single | double
deriving DecidableEq, Repr

namespace Quote

def all : List Quote := [.none, .single, .double]

/-- The quotation mark. -/
def mark : Quote → String
  | .none => ""
  | .single => "'"
  | .double => "\""

def name : Quote → String
  | .none => "None"
  | .single => "Single"
  | .double => "Double"

/-- The quoting of the attribute value at a place. -/
def ofPlace : Place → Quote
  | .singleQuoted => .single
  | .doubleQuoted => .double
  | _ => .none

end Quote

/-- The kinds of directives. -/
inductive DirectiveKind where
  | classes | style | on | bind | ref
deriving DecidableEq, Repr

namespace DirectiveKind

def all : List DirectiveKind := [.classes, .style, .on, .bind, .ref]

def name : DirectiveKind → String
  | .classes => "class"
  | .style => "style"
  | .on => "on"
  | .bind => "bind"
  | .ref => "ref"

def ofName? (name : String) : Option DirectiveKind :=
  all.find? fun k => k.name == name

end DirectiveKind

/-- What a slot is for, and the reference of its element. -/
inductive Slot where
  | attr (name : String) (quote : Quote) (ref : Ref)
  | directive (kind : DirectiveKind) (name : String) (ref : Ref)
  | component (ref : Ref)
  | node (ref : Ref)
deriving DecidableEq, Repr

def Slot.ref : Slot → Ref
  | .attr _ _ r | .directive _ _ r | .component r | .node r => r

/-- Why a template does not compile. -/
inductive Fault where
  | quotedDirective (name : String)
  | unknownDirective (kind : String)
  | unexpectedSlot (index : Nat) (place : Place)
  | markup (unfinished : Markup.Unfinished)
  | missingReference (ref : Ref)
  | placeholderMismatch (name : String)
deriving DecidableEq, Repr

def Fault.message : Fault → String
  | .quotedDirective name => "directive `" ++ name ++ "` must not be quoted"
  | .unknownDirective kind => "unknown directive kind `" ++ kind ++ "`"
  | .unexpectedSlot index place =>
    "interpolation slot " ++ toString index ++ " in unexpected position (" ++ place.name ++ ")"
  | .markup unfinished => "compiled template is not valid HTML: " ++ unfinished.message
  | .missingReference ref => "no element carries reference `" ++ ref.text ++ "`"
  | .placeholderMismatch name =>
    "attribute `" ++ name ++ "` does not contain the placeholders its slots expect"

/-- A fault with the end of the markup put together so far. -/
structure CompileError where
  fault : Fault
  context : String
deriving DecidableEq, Repr

/-- The error of a fault: its context is the last characters of the markup, without blanks at the
ends. -/
def CompileError.at (config : Config) (html : String) (fault : Fault) : CompileError :=
  ⟨fault, String.ofList (Text.trim (Text.lastChars config.contextChars html.toList))⟩

/-- The quoted attributes of an element that slots are part of, with the indexes of the slots. -/
abbrev SlotIndexes := Ordered String (List Nat)

/-- The structure of a template. -/
structure Shape where
  html : String
  slots : List Slot
  /-- Every reference among the slots has an entry. -/
  elements : Ordered Ref SlotIndexes

/-- The outlet that takes the place of a slot in text. -/
def outlet (config : Config) (r : Ref) : String :=
  "<" ++ config.outletTag ++ marker config r ++ "></" ++ config.outletTag ++ ">"

/-- What a slot adds: its use, the markup that stands for it, and whether its index is recorded with
its element. -/
structure Placement where
  slot : Slot
  insertion : String
  recorded : Option String

/-- The use of a slot in an attribute value. -/
def placeValue (t : Token) (r : Ref) : Except Fault Placement :=
  let quote := Quote.ofPlace t.place
  match Text.cutAt? ':' t.attr with
  | some (kind, name) =>
    if quote ≠ .none then .error (.quotedDirective t.attr)
    else
      match DirectiveKind.ofName? kind with
      | none => .error (.unknownDirective kind)
      | some kind => .ok ⟨.directive kind name r, "\"\"", none⟩
  | none =>
    let slot := .attr t.attr quote r
    if quote = .none then .ok ⟨slot, "\"\"", none⟩ else .ok ⟨slot, r.text, some t.attr⟩

/-- The use of the slot behind a token; `fresh` is the reference that a slot in text takes. -/
def place (config : Config) (index : Nat) (fresh : Ref) (t : Token) : Except Fault Placement :=
  if t.place = .outer then .ok ⟨.node fresh, outlet config fresh, none⟩
  else
    match t.ref with
    | none => .error (.unexpectedSlot index t.place)
    | some r =>
      if !t.place.isInsideTag then .error (.unexpectedSlot index t.place)
      else if t.place = .tagInner ∧ t.attr.isEmpty ∧ t.tag = config.outletTag then
        .ok ⟨.component r, "", none⟩
      else if !t.place.isValue then .error (.unexpectedSlot index t.place)
      else placeValue t r

namespace Shape

def empty : Shape := ⟨"", [], .empty⟩

/-- The shape with one more slot. -/
def add (s : Shape) (index : Nat) (p : Placement) : Shape :=
  let old := (s.elements.get? p.slot.ref).getD .empty
  let new :=
    match p.recorded with
    | none => old
    | some name => old.insert name ((old.get? name).getD [] ++ [index])
  { html := s.html ++ p.insertion, slots := s.slots ++ [p.slot],
    elements := s.elements.insert p.slot.ref new }

/-- The shape of the tokens that are left, `s` being that of the ones before, and the number of the
next reference. The last token has no slot behind it. -/
def build (config : Config) (nextRef : Nat) (s : Shape) :
    List Token → Except CompileError Shape × Nat
  | [] => (.ok s, nextRef)
  | [last] => (.ok { s with html := s.html ++ last.html }, nextRef)
  | t :: rest =>
    let s := { s with html := s.html ++ t.html }
    let index := s.slots.length
    let nextRef' := if t.place = .outer then nextRef + 1 else nextRef
    match place config index ⟨nextRef⟩ t with
    | .ok p => build config nextRef' (s.add index p) rest
    | .error fault => (.error (.at config s.html fault), nextRef')

/-- The shape of a list of tokens, and the number of the next reference. -/
def ofTokens (config : Config) (nextRef : Nat) (tokens : List Token) :
    Except CompileError Shape × Nat :=
  build config nextRef empty tokens

/-- The shape of the chunks of a template, and the number of the next reference. -/
def parse (config : Config) (nextRef : Nat) (chunks : List String) :
    Except CompileError Shape × Nat :=
  let (tokens, nextRef) := tokenize config nextRef chunks
  ofTokens config nextRef tokens

/-- A slot as JSON. -/
def slotJson : Slot → Json String
  | .attr name quote ref =>
    .object [("type", .text "Attribute"), ("name", .text name), ("quote", .text quote.name),
      ("ref_id", .text ref.text)]
  | .directive kind name ref =>
    .object [("type", .text "Directive"), ("kind", .text kind.name), ("name", .text name),
      ("ref_id", .text ref.text)]
  | .component ref => .object [("type", .text "RenderElement"), ("ref_id", .text ref.text)]
  | .node ref => .object [("type", .text "RenderNode"), ("ref_id", .text ref.text)]

/-- The slots of an element's attributes as JSON. -/
def indexesJson (attributes : SlotIndexes) : Json String :=
  .object (attributes.entries.map fun (name, indexes) =>
    (name, .object [("indexes", .array (indexes.map .natural))]))

/-- The shape as JSON. -/
def json (s : Shape) : Json String :=
  .object
    [("html", .text s.html),
      ("items", .array (s.slots.map slotJson)),
      ("ref_data", .object (s.elements.entries.map fun (ref, attributes) =>
        (ref.text, .object [("attributes", indexesJson attributes)])))]

/-- A change made to a shape by hand. -/
inductive Edit where
  /-- Records one more index with the first element that has the attribute. -/
  | pushIndex (attr : String) (index : Nat)
  /-- Replaces a text in the markup. -/
  | replace (old new : String)
deriving DecidableEq, Repr

/-- Records an index with the first element that has the attribute. -/
def pushIndex (attr : String) (index : Nat) (elements : Ordered Ref SlotIndexes) :
    Ordered Ref SlotIndexes :=
  match elements.entries.find? fun (_, attributes) => attributes.contains attr with
  | some (ref, attributes) =>
    elements.insert ref
      (attributes.insert attr ((attributes.get? attr).getD [] ++ [index]))
  | none => elements

def edit (s : Shape) : Edit → Shape
  | .pushIndex attr index => { s with elements := pushIndex attr index s.elements }
  | .replace old new => { s with html := Text.replaceAll old new s.html }

end Shape
end LiveMarkup.Template
