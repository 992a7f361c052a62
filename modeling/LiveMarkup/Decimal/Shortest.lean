import LiveMarkup.Decimal.Binary

/-!
The shortest decimal that reads back as a given binary value. For one digit, two digits and so on,
the value's two neighbours on that decimal grid are tested against the interval of numbers that
round to the value; the first grid with a hit wins, of two hits the nearer one, and of two equally
near ones the larger.
-/
namespace LiveMarkup.Decimal

/-- The number of decimal digits of a natural number; zero has none. -/
def digitCount (n : Nat) : Nat :=
  if n = 0 then 0 else digitCount (n / 10) + 1
termination_by n
decreasing_by omega

/-- How many powers of ten lift `num / den` to one or more, for a fraction below one. -/
def liftCount (num den : Nat) : Nat → Nat
  | 0 => 0
  | fuel + 1 => if den ≤ num then 0 else liftCount (10 * num) den fuel + 1

/-- The `k` with `10^(k-1) ≤ num/den < 10^k`. A fraction whose numerator is positive is lifted to
one by fewer powers of ten than its denominator has binary digits. -/
def pointOf (num den : Nat) : Int :=
  if den ≤ num then digitCount (num / den)
  else 1 - (liftCount num den (den.log2 + 1) : Int)

/-- The decimal `value · 10^exponent`. -/
structure Digits where
  value : Nat
  exponent : Int
deriving DecidableEq, Repr

/-- The interval of numbers that round to a binary value, as fractions over a common
denominator. -/
structure Interval where
  low : Nat
  value : Nat
  high : Nat
  den : Nat
  closed : Bool

/-- The interval of the significand `m` at exponent `q`. Below a power of two the neighbours stand
half as far apart. -/
def Interval.of (f : Format) (m : Nat) (q : Int) : Interval :=
  let below := if m = f.hidden ∧ -(f.depth : Int) < q then 1 else 2
  let (unit, den) : Nat × Nat :=
    if 2 ≤ q then (1 <<< (q - 2).toNat, 1) else (1, 1 <<< (2 - q).toNat)
  ⟨(4 * m - below) * unit, 4 * m * unit, (4 * m + 2) * unit, den, m % 2 == 0⟩

/-- Whether `c · ten / one` lies in the interval. -/
def Interval.contains (i : Interval) (ten one c : Nat) : Bool :=
  let x := c * ten * i.den
  if i.closed then i.low * one ≤ x && x ≤ i.high * one
  else i.low * one < x && x < i.high * one

/-- The best multiple of `10^e` in the interval, if there is one. -/
def Interval.onGrid? (i : Interval) (e : Int) : Option Nat :=
  let ten := Nat.pow 10 e.toNat
  let one := Nat.pow 10 (-e).toNat
  let floor := i.value * one / (i.den * ten)
  let rest := i.value * one % (i.den * ten)
  let lower := i.contains ten one floor
  let upper := i.contains ten one (floor + 1)
  if lower && (!upper || 2 * rest < i.den * ten) then some floor
  else if upper then some (floor + 1)
  else none

/-- Looks at the grids of `point - digits`, `point - digits - 1`, … until one has a hit. -/
def Interval.search (i : Interval) (point : Int) (digits : Nat) : Nat → Digits
  | 0 => ⟨0, 0⟩
  | fuel + 1 =>
    match i.onGrid? (point - digits) with
    | some c => ⟨c, point - digits⟩
    | none => i.search point (digits + 1) fuel

/-- A decimal without trailing zeros. -/
def Digits.trimmed (d : Digits) : Nat → Digits
  | 0 => d
  | fuel + 1 =>
    if d.value ≠ 0 ∧ d.value % 10 = 0 then
      Digits.trimmed ⟨d.value / 10, d.exponent + 1⟩ fuel
    else d

/-- The shortest decimal that reads back as the positive finite magnitude. Seventeen digits always
suffice in the 64-bit format. -/
def shortest (f : Format) (magnitude : Nat) : Digits :=
  let (m, q) := f.decode magnitude
  let i := Interval.of f m q
  (i.search (pointOf i.value i.den) 1 20).trimmed 20

end LiveMarkup.Decimal
