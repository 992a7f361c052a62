import LiveMarkup.Decimal.Binary

/-!
Reading numbers: an optional sign, then digits with at most one point and an optional exponent, or
one of the words `inf`, `infinity` and `nan` in any case.
-/
namespace LiveMarkup.Decimal

/-- What a numeral says, before it is rounded to a format. -/
inductive Numeral where
  | nan
  | infinity (negative : Bool)
  /-- The number `mantissa · 10^exponent`. -/
  | finite (negative : Bool) (mantissa : Nat) (exponent : Int)
deriving DecidableEq, Repr

/-- The value of a run of digits read after `start`. -/
def digitsValue (start : Nat) (digits : List Char) : Nat :=
  digits.foldl (fun value c => 10 * value + (c.toNat - '0'.toNat)) start

/-- The sign a text starts with, and the rest. -/
def splitSign : List Char → Bool × List Char
  | '-' :: rest => (true, rest)
  | '+' :: rest => (false, rest)
  | s => (false, s)

/-- A whole number with an optional sign. -/
def readInt? (s : List Char) : Option Int :=
  let (negative, digits) := splitSign s
  if digits.isEmpty || !digits.all Char.isDigit then none
  else
    let n : Int := digitsValue 0 digits
    some (if negative then -n else n)

/-- The exponent part, which may be absent. -/
def readExponent? : List Char → Option Int
  | [] => some 0
  | c :: rest => if c = 'e' ∨ c = 'E' then readInt? rest else none

namespace Numeral

/-- Digits, a point, digits and an exponent; one of the runs of digits may be empty. -/
def readFinite? (negative : Bool) (s : List Char) : Option Numeral :=
  let whole := s.takeWhile Char.isDigit
  let rest := s.dropWhile Char.isDigit
  let (fraction, rest) : List Char × List Char :=
    match rest with
    | '.' :: rest => (rest.takeWhile Char.isDigit, rest.dropWhile Char.isDigit)
    | rest => ([], rest)
  if whole.isEmpty && fraction.isEmpty then none
  else
    (readExponent? rest).map fun exponent =>
      .finite negative (digitsValue (digitsValue 0 whole) fraction) (exponent - fraction.length)

/-- Reads a whole text as a numeral. -/
def read? (s : List Char) : Option Numeral :=
  let (negative, rest) := splitSign s
  let word := String.ofList (rest.map Char.toLower)
  if word = "nan" then some .nan
  else if word = "inf" ∨ word = "infinity" then some (.infinity negative)
  else readFinite? negative rest

/-- The sign and the magnitude of the nearest value of a format; `none` stands for NaN. A decimal
far outside the range of the formats is infinite or zero without being computed. -/
def round (f : Format) : Numeral → Option (Bool × Nat)
  | .nan => none
  | .infinity negative => some (negative, f.infinity)
  | .finite negative mantissa exponent =>
    let size : Int := mantissa.log2 / 3 + 1 + exponent
    let least : Int := mantissa.log2 / 4 + exponent
    some (negative,
      if mantissa = 0 ∨ size < -400 then 0
      else if 400 < least then f.infinity
      else f.nearest (mantissa * Nat.pow 10 exponent.toNat) (Nat.pow 10 (-exponent).toNat))

end Numeral
end LiveMarkup.Decimal
