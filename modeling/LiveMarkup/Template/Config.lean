import LiveMarkup.Json.Reader
import LiveMarkup.Text.Blank

/-!
Template configuration: the attribute that marks elements, the tag of outlets, and how much markup
an error quotes. A configuration read from JSON is checked; one put together in code is not.
-/
namespace LiveMarkup.Template

/-- What the stages of compilation and rendering share. -/
structure Config where
  refAttribute : String
  outletTag : String
  /-- How many characters of markup an error quotes; zero stands for all of them. -/
  contextChars : Nat
deriving DecidableEq, Repr

/-- Why a configuration is refused. -/
inductive ConfigError where
  | json
  | refAttribute (name : String)
  | outletTag (tag : String)
deriving DecidableEq, Repr

def ConfigError.message (e : ConfigError) : String :=
  "invalid configuration: " ++
    match e with
    | .json => "json"
    | .refAttribute name => "ref_attribute `" ++ name ++ "` is not an attribute name"
    | .outletTag tag => "outlet_tag `" ++ tag ++ "` is not a tag name"

namespace Config

/-- The configuration where none is given. -/
def standard : Config := ⟨":ref", "x", 256⟩

instance : Inhabited Config := ⟨standard⟩

/-- Whether the name can mark elements: it is not empty and holds no blank. -/
def isRefAttribute (name : String) : Bool :=
  !name.isEmpty && !name.toList.any Text.isBlank

/-- Whether the tag can stand for outlets: ASCII letters, digits and hyphens, at least one. -/
def isOutletTag (tag : String) : Bool :=
  !tag.isEmpty && tag.toList.all fun c => c.isAlphanum || c == '-'

/-- Refuses names that cannot stand in markup. -/
def validate (c : Config) : Except ConfigError Config :=
  if !isRefAttribute c.refAttribute then .error (.refAttribute c.refAttribute)
  else if !isOutletTag c.outletTag then .error (.outletTag c.outletTag)
  else .ok c

/-- A field of a configuration document. -/
inductive Field where
  | refAttribute | outletTag | contextChars
deriving DecidableEq, Repr

/-- The fields in the order in which an array gives them. -/
def Field.all : List Field := [.refAttribute, .outletTag, .contextChars]

def Field.ofName? (name : String) : Option Field :=
  if name = "ref_attribute" then some .refAttribute
  else if name = "outlet_tag" then some .outletTag
  else if name = "error_context_chars" then some .contextChars
  else none

/-- The configuration with a field read from JSON. A count must fit into 64 bits. -/
def setField? (c : Config) (field : Field) (value : Json (Option String)) : Option Config :=
  match field, value with
  | .refAttribute, .text (some s) => some { c with refAttribute := s }
  | .outletTag, .text (some s) => some { c with outletTag := s }
  | .contextChars, .natural n => if n < UInt64.size then some { c with contextChars := n } else none
  | _, _ => none

/-- The configuration with the members of an object; `seen` are the fields that came already.
Unknown members are passed over, and a field that comes twice is refused. -/
def setMembers? (c : Config) (seen : List Field) :
    List (Option String × Json (Option String)) → Option Config
  | [] => some c
  | (none, _) :: _ => none
  | (some key, value) :: rest =>
    match Field.ofName? key with
    | none => c.setMembers? seen rest
    | some field =>
      if seen.contains field then none
      else
        match c.setField? field value with
        | some c => c.setMembers? (field :: seen) rest
        | none => none

/-- The configuration with the items of an array, which stand for the fields in order. -/
def setItems? (c : Config) : List Field → List (Json (Option String)) → Option Config
  | _, [] => some c
  | [], _ :: _ => none
  | field :: fields, value :: values =>
    match c.setField? field value with
    | some c => c.setItems? fields values
    | none => none

/-- The configuration that a document describes; what it leaves out is standard. -/
def ofDocument? : Json (Option String) → Option Config
  | .object members => standard.setMembers? [] members
  | .array items => standard.setItems? Field.all items
  | _ => none

/-- Reads a configuration from JSON text. -/
def ofJson (text : String) : Except ConfigError Config :=
  match (Json.read? text).bind ofDocument? with
  | some c => c.validate
  | none => .error .json

end Config
end LiveMarkup.Template
