import LiveMarkup.Dispatch
import LiveMarkup.Text.Search

/-!
Typed scalars: fixed-width integers, two floating formats, characters, text, optional values, and
two containers. They show how change detection and dispatch treat each type; the dynamic values of
templates are a type of their own.
-/
namespace LiveMarkup

/-- A fixed-width integer type. -/
structure IntegerType where
  signed : Bool
  width : Nat
  /-- Tells apart two types of one sign and width. -/
  native : Bool
deriving DecidableEq, Repr

namespace IntegerType

def least (t : IntegerType) : Int :=
  if t.signed then -((1 <<< (t.width - 1) : Nat) : Int) else 0

def greatest (t : IntegerType) : Int :=
  ((1 <<< (if t.signed then t.width - 1 else t.width) : Nat) : Int) - 1

/-- Reads an integer of the type; an unsigned one takes no minus sign. -/
def read? (t : IntegerType) (s : String) : Option Int :=
  match Decimal.readInt? s.toList with
  | none => none
  | some n =>
    if !t.signed && (s.toList.head? == some '-') then none
    else if t.least ≤ n ∧ n ≤ t.greatest then some n
    else none

end IntegerType

/-- The type of a scalar. -/
inductive ScalarType where
  | unit | bool | char
  | integer (t : IntegerType)
  | real32 | real64
  /-- Text that owns its characters, or borrows them. -/
  | text (owned : Bool)
  | optional (t : ScalarType)
  /-- A handle on text that others may hold too. -/
  | sharedText
  | integerList
deriving DecidableEq, Repr

/-- A scalar. -/
inductive Scalar where
  | unit
  | bool (b : Bool)
  | char (c : Char)
  | integer (t : IntegerType) (n : Int)
  /-- A 32-bit floating value: its sign and magnitude, or nothing for NaN. -/
  | real32 (x : Option (Bool × Nat))
  | real64 (x : Number)
  | text (owned : Bool) (s : String)
  | absent (t : ScalarType)
  | present (x : Scalar)
  | sharedText (s : String)
  | integerList (l : List Int)
deriving DecidableEq

instance : Inhabited Scalar := ⟨.unit⟩

namespace Scalar

/-- Reads a scalar of a type. An optional integer or number that cannot be read is absent; of an
optional one, only the word `None` is. -/
def read? (s : String) : ScalarType → Option Scalar
  | .unit => some .unit
  | .bool => if s = "true" then some (.bool true) else if s = "false" then some (.bool false) else none
  | .char =>
    match s.toList with
    | [c] => some (.char c)
    | _ => none
  | .integer t => (t.read? s).map (.integer t)
  | .real32 => (Decimal.Numeral.read? s.toList).map fun n => .real32 (n.round Decimal.single)
  | .real64 => (Number.read? s.toList).map .real64
  | .text owned => some (.text owned s)
  | .optional (.optional t) =>
    if s = "None" then some (.absent (.optional t)) else (read? s (.optional t)).map .present
  | .optional t =>
    match read? s t with
    | some x => some (.present x)
    | none => some (.absent t)
  | .sharedText => some (.sharedText s)
  | .integerList =>
    some (.integerList ((Text.pieces "," s).filterMap fun piece => Decimal.readInt? piece.toList))

/-- Whether writing the second scalar over the first goes unnoticed: equal scalars do, but an absent
value, a shared handle and a list always count as a change. -/
def isSame : Scalar → Scalar → Bool
  | .real32 (some (n, a)), .real32 (some (m, b)) => (n, a) == (m, b) || (a == 0 && b == 0)
  | .real32 _, .real32 _ => false
  | .real64 a, .real64 b => a.same b
  | .present a, .present b => isSame a b
  | .absent _, _ => false
  | .sharedText _, _ => false
  | .integerList _, _ => false
  | a, b => a == b

def tag : Scalar → TypeTag
  | .unit => .undefined
  | .bool _ => .boolean
  | .char _ | .text _ _ => .string
  | .integer t _ => if t.width = 128 then .bigint else .number
  | .real32 _ | .real64 _ => .number
  | .present x => x.tag
  | .absent _ | .sharedText _ | .integerList _ => .object

/-- The exact type; an optional scalar has the type of what it holds. -/
def type? : Scalar → Option ScalarType
  | .unit => none
  | .bool _ => some .bool
  | .char _ => some .char
  | .integer t _ => some (.integer t)
  | .real32 _ => some .real32
  | .real64 _ => some .real64
  | .text owned _ => some (.text owned)
  | .present x => x.type?
  | .absent _ => none
  | .sharedText _ => some .sharedText
  | .integerList _ => some .integerList

def facets : Facets Scalar ScalarType := ⟨tag, type?⟩

/-- The scalar in diagnostics. -/
def diagnostic : Scalar → String
  | .unit => "()"
  | .bool b => boolText b
  | .char c => Text.quotedChar c
  | .integer _ n => toString n
  | .real32 (some (negative, magnitude)) =>
    Number.diagnosticStyle.write Decimal.single negative magnitude
  | .real32 none => "NaN"
  | .real64 x => x.diagnostic
  | .text _ s => Text.quoted s
  | .present x => "Some(" ++ x.diagnostic ++ ")"
  | .absent _ => "None"
  | .sharedText s => Text.quoted s
  | .integerList l => "[" ++ ", ".intercalate (l.map toString) ++ "]"

/-- How often an observer of a cell holding `a` has been told of a change after `b` was written
once, and after it was written twice. -/
def writeCounts (a b : Scalar) : Nat × Nat :=
  let write (cell : Scalar × Nat) : Scalar × Nat :=
    if cell.1.isSame b then cell else (b, cell.2 + 1)
  let once := write (a, 0)
  (once.2, (write once).2)

/-- Dispatches a scalar over cases that name their result; the answer is the name of the deciding
case and the scalar in diagnostics. -/
def dispatch (v : Scalar) (cases : List (Case Scalar ScalarType String)) (fallback : Option String) :
    Option String :=
  match (CaseTable.ofCases cases).resolve facets v <|> fallback with
  | some name => some (name ++ ":" ++ v.diagnostic)
  | none => none

end Scalar
end LiveMarkup
