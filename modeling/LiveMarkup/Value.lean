import LiveMarkup.Heap
import LiveMarkup.Number
import LiveMarkup.Calendar
import LiveMarkup.Text.Quoted

/-!
Dynamic values: what a template slot or a signal bound to one carries. Numbers keep their bit
patterns, nodes and objects their identity. Text that shows a node needs the tree the node stands
in, so the functions that write a value take what they need of it as arguments.
-/
namespace LiveMarkup

/-- An opaque object: the name of its type and the label that tells it from its like. -/
structure Opaque where
  type : String
  label : String
deriving DecidableEq, Repr

/-- A dynamic value. -/
inductive Value where
  | null
  | bool (b : Bool)
  | number (n : Number)
  | string (s : String)
  | date (d : Date)
  | node (n : NodeId)
  | object (o : Opaque)
deriving DecidableEq

instance : Inhabited Value := ⟨.null⟩

/-- The coarse runtime type of a value. -/
inductive TypeTag where
  | undefined | boolean | number | bigint | string | symbol | function | object
deriving DecidableEq, Repr

/-- All tags, in their order. -/
def TypeTag.all : List TypeTag :=
  [.undefined, .boolean, .number, .bigint, .string, .symbol, .function, .object]

def TypeTag.name : TypeTag → String
  | .undefined => "undefined"
  | .boolean => "boolean"
  | .number => "number"
  | .bigint => "bigint"
  | .string => "string"
  | .symbol => "symbol"
  | .function => "function"
  | .object => "object"

/-- The exact runtime type of a value. -/
inductive ValueType where
  | bool | number | string | date | element | node
  | object (type : String)
deriving DecidableEq, Repr

/-- The word for a truth value. -/
def boolText (b : Bool) : String :=
  if b then "true" else "false"

namespace Value

def isNull : Value → Bool
  | .null => true
  | _ => false

/-- Truth of a value: null, false, zero, NaN and the empty string are not true. -/
def isTruthy : Value → Bool
  | .null => false
  | .bool b => b
  | .number n => !n.isZero && !n.isNaN
  | .string s => !s.isEmpty
  | .date _ | .node _ | .object _ => true

def bool? : Value → Option Bool
  | .bool b => some b
  | _ => none

def number? : Value → Option Number
  | .number n => some n
  | _ => none

def string? : Value → Option String
  | .string s => some s
  | _ => none

def date? : Value → Option Date
  | .date d => some d
  | _ => none

def node? : Value → Option NodeId
  | .node n => some n
  | _ => none

/-- Whether the value is an object of the named type. -/
def isObjectOf (type : String) : Value → Bool
  | .object o => o.type == type
  | _ => false

/-- Equality as keys are compared: structural for scalars and dates, where all NaNs are equal and
so are the two zeros, and by identity for nodes and objects. -/
def equal : Value → Value → Bool
  | .null, .null => true
  | .bool a, .bool b => a == b
  | .number a, .number b => a.canonical == b.canonical
  | .string a, .string b => a == b
  | .date a, .date b => a == b
  | .node a, .node b => a == b
  | .object a, .object b => a == b
  | _, _ => false

instance : BEq Value := ⟨equal⟩

/-- What a hash of the value reads: the number of its case, and its content as natural numbers. -/
def hashInput : Value → Nat × List Nat
  | .null => (0, [])
  | .bool b => (1, [b.toNat])
  | .number n => (2, [n.canonical.toNat])
  | .string s => (3, s.toList.map Char.toNat)
  | .date d => (4, [d.year.toNat, (-d.year).toNat, d.month, d.day])
  | .node n => (5, [n.index])
  | .object o => (6, o.type.toList.map Char.toNat ++ 0x110000 :: o.label.toList.map Char.toNat)

/-- Whether two values are equal and hashes of them are equal too. -/
def equalWithHash (a b : Value) : Bool :=
  a.equal b && a.hashInput == b.hashInput

/-- Whether writing the second value over the first goes unnoticed. Only booleans, numbers and
strings can be the same; anything else always counts as a change. -/
def isSame : Value → Value → Bool
  | .bool a, .bool b => a == b
  | .number a, .number b => a.same b
  | .string a, .string b => a == b
  | _, _ => false

def tag : Value → TypeTag
  | .bool _ => .boolean
  | .number _ => .number
  | .string _ => .string
  | .null | .date _ | .node _ | .object _ => .object

/-- The exact type of a value, given which nodes are elements. -/
def type? (isElement : NodeId → Bool) : Value → Option ValueType
  | .null => none
  | .bool _ => some .bool
  | .number _ => some .number
  | .string _ => some .string
  | .date _ => some .date
  | .node n => some (if isElement n then .element else .node)
  | .object o => some (.object o.type)

/-- The text of a value, given the text that nodes hold. -/
def text (content : NodeId → String) : Value → String
  | .null => "null"
  | .bool b => boolText b
  | .number n => n.text
  | .string s => s
  | .date d => d.text
  | .node n => content n
  | .object _ => "[object Object]"

/-- The text of a value where null contributes nothing. -/
def textOrEmpty (content : NodeId → String) (v : Value) : String :=
  if v.isNull then "" else v.text content

/-- The value in diagnostics, given the names of nodes. -/
def diagnostic (name : NodeId → String) : Value → String
  | .null => "Null"
  | .bool b => "Bool(" ++ boolText b ++ ")"
  | .number n => "Number(" ++ n.diagnostic ++ ")"
  | .string s => "String(" ++ Text.quoted s ++ ")"
  | .date d => "Date(" ++ d.text ++ ")"
  | .node n => "Node(" ++ Text.quoted (name n) ++ ")"
  | .object _ => "Object(PTR)"

/-- The number of a value; anything but a number counts as zero. -/
def numberOrZero (v : Value) : Number :=
  v.number?.getD .zero

end Value
end LiveMarkup
