import LiveMarkup.Decimal.Shortest
import LiveMarkup.Decimal.Layout
import LiveMarkup.Decimal.Reading

/-!
Numbers: 64-bit floating values kept as their bit patterns, so that every NaN payload and both
zeros can be told apart. Three notions of sameness live here: equality of bits (`=`), numeric
equality (`same`), and equality of canonical patterns (`canonical`).
-/
namespace LiveMarkup

/-- A 64-bit floating value, as its bit pattern. -/
structure Number where
  bits : UInt64
deriving DecidableEq, Repr, Inhabited

namespace Number
open Decimal

/-- The weight of the bit that holds the sign. -/
def signBit : Nat := 0x8000000000000000

/-- Whether the sign bit is set. -/
def isNegative (x : Number) : Bool :=
  signBit ≤ x.bits.toNat

/-- The bits without the sign. -/
def magnitude (x : Number) : Nat :=
  x.bits.toNat % signBit

def isNaN (x : Number) : Bool :=
  double.infinity < x.magnitude

def isZero (x : Number) : Bool :=
  x.magnitude == 0

def isInfinite (x : Number) : Bool :=
  x.magnitude == double.infinity

/-- The number with a given sign and magnitude. -/
def ofMagnitude (negative : Bool) (magnitude : Nat) : Number :=
  ⟨UInt64.ofNat (if negative then signBit + magnitude else magnitude)⟩

def nan : Number := ⟨0x7FF8000000000000⟩

def zero : Number := ⟨0⟩

def one : Number := ⟨0x3FF0000000000000⟩

/-- Numeric equality: a NaN equals nothing, and the two zeros are equal. -/
def same (x y : Number) : Bool :=
  !x.isNaN && !y.isNaN && (x == y || (x.isZero && y.isZero))

/-- One pattern for all NaNs, one for both zeros, and the own pattern for every other number. -/
def canonical (x : Number) : UInt64 :=
  if x.isNaN then nan.bits else if x.isZero then 0 else x.bits

/-- The place of a number that is no NaN in the numeric order. -/
def rank (x : Number) : Int :=
  if x.isNegative then -(x.magnitude : Int) else x.magnitude

/-- Numeric order; a NaN stands in no order. -/
def less (x y : Number) : Bool :=
  !x.isNaN && !y.isNaN && x.rank < y.rank

/-- A finite number as `m · 2^q`: the pair of a signed `m` and of `q`. -/
def scaled (x : Number) : Int × Int :=
  let (m, q) := double.decode x.magnitude
  (if x.isNegative then -m else m, q)

/-- The number nearest to `m · 2^q`, with a sign. -/
def ofScaled (negative : Bool) (m : Nat) (q : Int) : Number :=
  ofMagnitude negative (double.nearest (m <<< q.toNat) (1 <<< (-q).toNat))

/-- The sum of two finite numbers. A sum of zero is negative only if both are. -/
def addFinite (x y : Number) : Number :=
  let (a, p) := x.scaled
  let (b, q) := y.scaled
  let low := min p q
  let sum := (a <<< (p - low).toNat) + (b <<< (q - low).toNat)
  ofScaled (if sum = 0 then x.isNegative && y.isNegative else sum < 0) sum.natAbs low

/-- The product of two finite numbers. -/
def mulFinite (x y : Number) : Number :=
  let (m, p) := double.decode x.magnitude
  let (n, q) := double.decode y.magnitude
  ofScaled (x.isNegative != y.isNegative) (m * n) (p + q)

/-- The sum, rounded to the nearest number. -/
def add (x y : Number) : Number :=
  if x.isNaN || y.isNaN then nan
  else if x.isInfinite then
    if y.isInfinite && x.isNegative != y.isNegative then nan else x
  else if y.isInfinite then y
  else addFinite x y

/-- The product, rounded to the nearest number. -/
def mul (x y : Number) : Number :=
  if x.isNaN || y.isNaN then nan
  else if x.isInfinite || y.isInfinite then
    if x.isZero || y.isZero then nan
    else ofMagnitude (x.isNegative != y.isNegative) double.infinity
  else mulFinite x y

/-- The number nearest to a numeral. -/
def ofNumeral (n : Numeral) : Number :=
  match n.round double with
  | none => nan
  | some (negative, magnitude) => ofMagnitude negative magnitude

/-- Reads a number; the text must hold nothing else. -/
def read? (s : List Char) : Option Number :=
  (Numeral.read? s).map ofNumeral

/-- How numbers are written. A number whose point `p` (the number is `0.d₁d₂… · 10^p`) lies
between `firstPoint` and `lastPoint` is written positionally, any other one with an exponent. -/
structure Style where
  infinity : String
  firstPoint : Int
  lastPoint : Int
  /-- Whether a positive exponent carries its sign. -/
  plus : Bool
  /-- Whether whole numbers are written with all their digits, or with the shortest ones. -/
  exactWhole : Bool
  /-- Whether whole numbers end in `.0`. -/
  wholeMark : Bool
  /-- Whether negative zero keeps its sign. -/
  signedZero : Bool

/-- How numbers stand in attributes and text: plain digits from `0.000001` up to below `1e+21`. -/
def plainStyle : Style :=
  { infinity := "Infinity", firstPoint := -5, lastPoint := 21, plus := true, exactWhole := true,
    wholeMark := false, signedZero := false }

/-- How numbers stand in diagnostics: recognisable as fractions, plain digits from `0.0001` up to
below `1e16`. -/
def diagnosticStyle : Style :=
  { infinity := "inf", firstPoint := -3, lastPoint := 16, plus := false, exactWhole := false,
    wholeMark := true, signedZero := true }

namespace Style

/-- The natural number that a finite magnitude stands for, if it is whole. -/
def whole? (f : Format) (magnitude : Nat) : Option Nat :=
  let (m, q) := f.decode magnitude
  if 0 ≤ q then some (m <<< q.toNat)
  else if m % (1 <<< (-q).toNat) = 0 then some (m >>> (-q).toNat)
  else none

/-- The digits of a positive finite magnitude. -/
def writeMagnitude (style : Style) (f : Format) (magnitude : Nat) : List Char :=
  let d := shortest f magnitude
  let digits := digitsOf d.value
  let point := digits.length + d.exponent
  if style.firstPoint ≤ point ∧ point ≤ style.lastPoint then
    match whole? f magnitude with
    | some n =>
      (if style.exactWhole then digitsOf n else positional digits point) ++
        if style.wholeMark then ['.', '0'] else []
    | none => positional digits point
  else scientific style.plus digits point

/-- The text of a sign and a magnitude. -/
def write (style : Style) (f : Format) (negative : Bool) (magnitude : Nat) : String :=
  if f.infinity < magnitude then "NaN"
  else if magnitude = 0 then
    (if negative && style.signedZero then "-0" else "0") ++ if style.wholeMark then ".0" else ""
  else
    (if negative then "-" else "") ++
      if magnitude = f.infinity then style.infinity
      else String.ofList (style.writeMagnitude f magnitude)

end Style

/-- The text of a number in a style. -/
def write (style : Style) (x : Number) : String :=
  style.write double x.isNegative x.magnitude

/-- The text of a number in attributes and text nodes. -/
def text (x : Number) : String :=
  x.write plainStyle

/-- The text of a number in diagnostics. -/
def diagnostic (x : Number) : String :=
  x.write diagnosticStyle

end Number
end LiveMarkup
