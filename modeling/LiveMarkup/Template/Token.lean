import LiveMarkup.Template.Config
import LiveMarkup.Template.Ref
import LiveMarkup.Text.Search
import LiveMarkup.Markup.Names

/-!
Tokens: the literal chunks of a template, each with the place in markup where it ends. That place is
where the next slot sits. A scan goes over the chunks character by character; every start tag takes a
fresh reference, and when a slot falls into a tag that is not yet marked, a marker with the reference
is put behind the tag's name.
-/
namespace LiveMarkup.Template

/-- Where in markup a scan stands. The order matters: the places strictly between `valueStart` and
`valueEnd` are attribute values. -/
inductive Place where
  | outer | tagOpen | tagName | endTag | tagInner | attributeName | afterAttributeName
  | beforeValue | valueStart | unquoted | singleQuoted | doubleQuoted | valueEnd
  | selfClosing | comment | rawText
deriving DecidableEq, Repr, Inhabited

namespace Place

/-- All places, in their order. -/
def all : List Place :=
  [.outer, .tagOpen, .tagName, .endTag, .tagInner, .attributeName, .afterAttributeName,
    .beforeValue, .valueStart, .unquoted, .singleQuoted, .doubleQuoted, .valueEnd, .selfClosing,
    .comment, .rawText]

def name : Place → String
  | .outer => "Outer"
  | .tagOpen => "TagOpen"
  | .tagName => "TagName"
  | .endTag => "EndTag"
  | .tagInner => "TagInner"
  | .attributeName => "AttributeName"
  | .afterAttributeName => "AfterAttributeName"
  | .beforeValue => "BeforeAttributeValue"
  | .valueStart => "AttributeValueStart"
  | .unquoted => "AttributeValueUnquoted"
  | .singleQuoted => "AttributeValueSingleQuoted"
  | .doubleQuoted => "AttributeValueDoubleQuoted"
  | .valueEnd => "AttributeValueEnd"
  | .selfClosing => "SelfClosing"
  | .comment => "Comment"
  | .rawText => "RawText"

/-- The position of a place in the order. -/
def rank (p : Place) : Nat :=
  all.idxOf p

/-- Whether a slot here is part of an attribute value. -/
def isValue (p : Place) : Bool :=
  valueStart.rank < p.rank && p.rank < valueEnd.rank

/-- Whether a slot here belongs to the current start tag. -/
def isInsideTag (p : Place) : Bool :=
  p == .tagInner || p == .attributeName || p == .afterAttributeName || p == .beforeValue ||
    p == .selfClosing || p.isValue

/-- Whether each place ranks below the next one. -/
def ascending (places : List Place) : Bool :=
  (places.zip (places.drop 1)).all fun (p, q) => p.rank < q.rank

end Place

/-- The state of a scan. -/
structure Scan where
  place : Place
  /-- The name of the current or last start tag, in small letters. -/
  tag : String
  /-- The pending attribute name; empty when there is none. -/
  attr : String
  /-- The reference of the current or last start tag. -/
  ref : Option Ref
  /-- Whether the current tag carries its marker. -/
  marked : Bool
  /-- The characters read of the current raw text, last one first. -/
  raw : List Char
  /-- How many characters of the current chunk have been read. -/
  read : Nat
  /-- How many hyphens stand directly before in the current chunk. -/
  hyphens : Nat
  /-- Where in the current chunk the current tag's name ended. -/
  nameEnd : Option Nat
  /-- The number of the next reference. -/
  nextRef : Nat
deriving Repr

namespace Scan

/-- The scan before the first chunk. -/
def start (nextRef : Nat) : Scan :=
  { place := .outer, tag := "", attr := "", ref := none, marked := false, raw := [],
    read := 0, hyphens := 0, nameEnd := none, nextRef }

/-- The scan after a letter opened a start tag. -/
def openTag (s : Scan) (c : Char) : Scan :=
  { s with
    place := .tagName, tag := String.singleton c.toLower, attr := "",
    ref := some ⟨s.nextRef⟩, nextRef := s.nextRef + 1, nameEnd := none, marked := false }

/-- The scan after the current tag's name ended. -/
def endName (s : Scan) : Scan :=
  { s with nameEnd := some s.read }

/-- The scan after a start tag's `>`. -/
def closeTag (s : Scan) (selfClosing : Bool) : Scan :=
  if !selfClosing && Markup.isRaw s.tag then { s with attr := "", raw := [], place := .rawText }
  else { s with attr := "", place := .outer }

/-- A character inside a start tag, outside names and values. -/
def inner (s : Scan) (c : Char) : Scan :=
  if c = '/' then { s with place := .selfClosing }
  else if c = '>' then s.closeTag false
  else if Text.isBlank c then { s with place := .tagInner }
  else { s with attr := String.singleton c, place := .attributeName }

/-- The scan after an attribute value ended. -/
def endAttribute (s : Scan) : Scan :=
  { s with attr := "", place := .tagInner }

/-- Whether raw text that ends with `raw`, last character first, is at the name of its end tag. -/
def atEndTag (tag : String) (raw : List Char) : Bool :=
  ('<' :: '/' :: tag.toList).reverse.isPrefixOf
    ((Text.trimStart raw).map Char.toLower)

/-- What a character does at each place. -/
def advance (s : Scan) (c : Char) : Scan :=
  match s.place with
  | .outer => if c = '<' then { s with place := .tagOpen } else s
  | .tagOpen =>
    if Markup.isTagStart c then s.openTag c
    else if c = '/' ∨ c = '!' then { s with place := .endTag }
    else { s with place := .outer }
  | .tagName =>
    if Text.isBlank c then { s.endName with place := .tagInner }
    else if c = '/' then { s.endName with place := .selfClosing }
    else if c = '>' then s.endName.closeTag false
    else { s with tag := s.tag.push c.toLower }
  | .endTag => if c = '>' then { s with place := .outer } else s
  | .tagInner => s.inner c
  | .attributeName =>
    if c = '=' then { s with place := .beforeValue }
    else if Text.isBlank c then { s with place := .afterAttributeName }
    else if c = '/' then { s with attr := "", place := .selfClosing }
    else if c = '>' then s.closeTag false
    else { s with attr := s.attr.push c }
  | .afterAttributeName =>
    if c = '=' then { s with place := .beforeValue }
    else if Text.isBlank c then s
    else { s with attr := "" }.inner c
  | .beforeValue =>
    if c = '\x22' then { s with place := .doubleQuoted }
    else if c = '\x27' then { s with place := .singleQuoted }
    else if c = '>' then s.closeTag false
    else if Text.isBlank c then s
    else { s with place := .unquoted }
  | .unquoted =>
    if Text.isBlank c then s.endAttribute else if c = '>' then s.closeTag false else s
  | .singleQuoted => if c = '\x27' then s.endAttribute else s
  | .doubleQuoted => if c = '\x22' then s.endAttribute else s
  | .selfClosing =>
    if c = '>' then s.closeTag true
    else if Text.isBlank c then { s with place := .tagInner }
    else s.inner c
  | .comment => if c = '>' ∧ 2 ≤ s.hyphens then { s with place := .outer } else s
  | .rawText =>
    if c = '>' ∧ atEndTag s.tag s.raw then { s with raw := [], place := .outer }
    else { s with raw := c :: s.raw }
  | .valueStart | .valueEnd => s

/-- One character read. -/
def step (s : Scan) (c : Char) : Scan :=
  let t := s.advance c
  { t with read := s.read + 1, hyphens := if c = '-' then s.hyphens + 1 else 0 }

/-- Whether `!--` follows an opening `<`. -/
def opensComment (s : Scan) : List Char → Bool
  | '!' :: '-' :: '-' :: _ => s.place == .tagOpen
  | _ => false

/-- The scan after the `!--` that opens a comment. -/
def enterComment (s : Scan) : Scan :=
  { s with place := .comment, read := s.read + 3, hyphens := 2 }

/-- The scan after the characters of a chunk. -/
def feed (s : Scan) (chars : List Char) : Scan :=
  match chars with
  | [] => s
  | c :: rest =>
    if s.opensComment (c :: rest) then s.enterComment.feed (rest.drop 2)
    else (s.step c).feed rest
termination_by chars.length
decreasing_by all_goals simp only [List.length_cons, List.length_drop]; omega

end Scan

/-- A literal chunk with its marker, and the state in which it leaves the scan. -/
structure Token where
  html : String
  place : Place
  tag : String
  attr : String
  ref : Option Ref
deriving DecidableEq, Repr

/-- The marker that ties an element to a reference. -/
def marker (config : Config) (r : Ref) : String :=
  " " ++ config.refAttribute ++ "=\"" ++ r.text ++ "\""

namespace Scan

/-- The token of a chunk after which no slot follows. -/
def token (s : Scan) (html : String) : Token :=
  ⟨html, s.place, s.tag, s.attr, s.ref⟩

/-- The scan with a slot behind the chunk: a slot in place of a value is an unquoted value. -/
def atSlot (s : Scan) : Scan :=
  if s.place = .beforeValue then { s with place := .unquoted } else s

/-- Where in the chunk a slot behind it calls for a marker, and the reference of that. -/
def markerAt? (s : Scan) : Option (Nat × Ref) :=
  if s.place.isInsideTag && !s.marked then
    match s.nameEnd, s.ref with
    | some offset, some r => some (offset, r)
    | _, _ => none
  else none

/-- The token of a chunk with a slot behind it, and the scan after both. -/
def slotToken (config : Config) (s : Scan) (chunk : String) : Token × Scan :=
  let s := s.atSlot
  match s.markerAt? with
  | some (offset, r) =>
    let chars := chunk.toList
    let html := String.ofList (chars.take offset) ++ marker config r ++
      String.ofList (chars.drop offset)
    (s.token html, { s with marked := true })
  | none => (s.token chunk, s)

/-- The scan at the start of a chunk. -/
def nextChunk (s : Scan) : Scan :=
  { s with read := 0, hyphens := 0, nameEnd := none }

/-- The tokens of the chunks that are left, and the number of the next reference. -/
def tokens (config : Config) (s : Scan) : List String → List Token × Nat
  | [] => ([], s.nextRef)
  | [last] =>
    let s := s.nextChunk.feed last.toList
    ([s.token last], s.nextRef)
  | chunk :: rest =>
    let (token, s) := (s.nextChunk.feed chunk.toList).slotToken config chunk
    let (more, nextRef) := tokens config s rest
    (token :: more, nextRef)

end Scan

/-- The tokens of a template, one for each chunk, and the number of the next reference. -/
def tokenize (config : Config) (nextRef : Nat) (chunks : List String) : List Token × Nat :=
  (Scan.start nextRef).tokens config chunks

end LiveMarkup.Template
