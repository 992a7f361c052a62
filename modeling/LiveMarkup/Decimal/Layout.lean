/-!
Laying out decimal digits: positional, and with an exponent. The digits `d₁d₂…` and the point `p`
stand for `0.d₁d₂… · 10^p`.
-/
namespace LiveMarkup.Decimal

/-- The decimal digits of a natural number. -/
def digitsOf (n : Nat) : List Char :=
  Nat.toDigits 10 n

/-- Digits with the point in place; a number below one starts with `0.`. -/
def positional (digits : List Char) (point : Int) : List Char :=
  if point ≤ 0 then ['0', '.'] ++ List.replicate (-point).toNat '0' ++ digits
  else if digits.length ≤ point.toNat then
    digits ++ List.replicate (point.toNat - digits.length) '0'
  else digits.take point.toNat ++ ['.'] ++ digits.drop point.toNat

/-- One digit, the others after a point, and the exponent; `plus` marks a positive exponent. -/
def scientific (plus : Bool) (digits : List Char) (point : Int) : List Char :=
  let exponent := point - 1
  let sign := if exponent < 0 then ['-'] else if plus then ['+'] else []
  let fraction := if digits.length ≤ 1 then [] else '.' :: digits.drop 1
  digits.take 1 ++ fraction ++ ['e'] ++ sign ++ digitsOf exponent.natAbs

/-- A number's digits to a fixed width, padded with zeros. -/
def padded (width n : Nat) : List Char :=
  let digits := digitsOf n
  List.replicate (width - digits.length) '0' ++ digits

end LiveMarkup.Decimal
