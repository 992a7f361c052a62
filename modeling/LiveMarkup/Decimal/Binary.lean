/-!
Binary floating formats: the magnitude part of a bit pattern as `m · 2^q`, and the magnitude
nearest to a positive fraction. All arithmetic is exact and on natural numbers.
-/
namespace LiveMarkup.Decimal

/-- A binary format: bits of a full significand, and the negated exponent of its smallest
positive value. A magnitude is a bit pattern without its sign bit. -/
structure Format where
  precision : Nat
  depth : Nat
  infinity : Nat

/-- The 64-bit format. -/
def double : Format := ⟨53, 1074, 0x7FF0000000000000⟩

/-- The 32-bit format. -/
def single : Format := ⟨24, 149, 0x7F800000⟩

namespace Format
variable (f : Format)

/-- The weight of the significand's leading bit, which a pattern does not store. -/
def hidden : Nat := 1 <<< (f.precision - 1)

/-- The significand and the exponent of a finite magnitude. -/
def decode (magnitude : Nat) : Nat × Int :=
  let field := magnitude / f.hidden
  let fraction := magnitude % f.hidden
  if field = 0 then (fraction, -(f.depth : Int))
  else (fraction + f.hidden, (field : Int) - 1 - f.depth)

/-- A quotient rounded to the nearest natural number, a half to the even one. -/
def roundDiv (num den : Nat) : Nat :=
  let floor := num / den
  let twice := 2 * (num % den)
  if twice < den then floor
  else if den < twice then floor + 1
  else floor + floor % 2

/-- `num / den · 2^(-q)` as a fraction. -/
def scaled (num den : Nat) (q : Int) : Nat × Nat :=
  if 0 ≤ q then (num, den <<< q.toNat) else (num <<< (-q).toNat, den)

/-- The exponent at which the significand of `num / den` has full precision, and no less than the
smallest one. -/
def exponentFor (num den : Nat) : Int :=
  let guess : Int := (num.log2 : Int) - den.log2 - f.precision
  let (a, b) := scaled num den guess
  let q := if 2 * f.hidden * b ≤ a then guess + 1 else guess
  max q (-(f.depth : Int))

/-- The magnitude nearest to `num / den`, ties to the even significand; `infinity` when it is out
of range. A significand that rounds up to the next power of two carries into the exponent. -/
def nearest (num den : Nat) : Nat :=
  if num = 0 then 0
  else
    let q := f.exponentFor num den
    let (a, b) := scaled num den q
    min f.infinity ((q + f.depth).toNat * f.hidden + roundDiv a b)

end Format
end LiveMarkup.Decimal
