import LiveMarkup.Decimal.Shortest
import LiveMarkup.Proofs.Nearest
import Mathlib.Data.Nat.Cast.Order.Field

/-!
The shortest decimal of a magnitude lies in the interval of numbers that are rounded to it. The search
comes to an end because a grid of eighteen digits is finer than half a unit of the significand.
-/
namespace LiveMarkup.Decimal

variable {f : Format} {m : Nat} {q : Int} {i : Interval} {x : ℚ}

theorem zpow_ten_pos (e : Int) : (0 : ℚ) < 10 ^ e :=
  zpow_pos (by norm_num) e

/-- A power of ten as a fraction. -/
theorem ten_over_one (e : Int) : (10 : ℚ) ^ e = (Nat.pow 10 e.toNat : Nat) / (Nat.pow 10 (-e).toNat : Nat) := by
  rcases le_total 0 e with nonneg | negative
  · lift e to Nat using nonneg
    have none : (-(e : Int)).toNat = 0 := by omega
    rw [none, Int.toNat_natCast, zpow_natCast]
    simp
  · obtain ⟨k, rfl⟩ : ∃ k : Nat, e = -k := ⟨(-e).toNat, by omega⟩
    have none : (-(k : Int)).toNat = 0 := by omega
    rw [none, neg_neg, Int.toNat_natCast, zpow_neg, zpow_natCast]
    simp

/-- The number that a decimal stands for. -/
def Digits.number (d : Digits) : ℚ :=
  d.value * 10 ^ d.exponent

namespace Interval

/-- A number lies in an interval; the ends belong to one that is closed. -/
def Holds (i : Interval) (x : ℚ) : Prop :=
  if i.closed then (i.low / i.den : ℚ) ≤ x ∧ x ≤ i.high / i.den
  else (i.low / i.den : ℚ) < x ∧ x < i.high / i.den

/-- What lies strictly between the ends lies in the interval. -/
theorem holds_of_between (low : (i.low / i.den : ℚ) < x) (high : x < i.high / i.den) : i.Holds x := by
  unfold Holds
  split
  · exact ⟨low.le, high.le⟩
  · exact ⟨low, high⟩

theorem contains_iff (pos : 0 < i.den) (e : Int) (c : Nat) :
    i.contains (Nat.pow 10 e.toNat) (Nat.pow 10 (-e).toNat) c = true ↔ i.Holds (c * 10 ^ e) := by
  have pos' : (0 : ℚ) < i.den := by exact_mod_cast pos
  have one : 0 < Nat.pow 10 (-e).toNat := Nat.pow_pos (by decide)
  have one' : (0 : ℚ) < (Nat.pow 10 (-e).toNat : Nat) := by exact_mod_cast one
  have value : (c * 10 ^ e : ℚ) =
      (c * (Nat.pow 10 e.toNat : Nat)) / (Nat.pow 10 (-e).toNat : Nat) := by
    rw [ten_over_one, mul_div_assoc]
  rw [value]
  unfold contains Holds
  generalize Nat.pow 10 e.toNat = ten at *
  generalize Nat.pow 10 (-e).toNat = under at *
  split
  · rw [div_le_div_iff₀ pos' one', div_le_div_iff₀ one' pos', Bool.and_eq_true, decide_eq_true_eq,
      decide_eq_true_eq]
    exact_mod_cast Iff.rfl
  · rw [div_lt_div_iff₀ pos' one', div_lt_div_iff₀ one' pos', Bool.and_eq_true, decide_eq_true_eq,
      decide_eq_true_eq]
    exact_mod_cast Iff.rfl

/-- What is found on a grid lies in the interval. -/
theorem holds_of_onGrid? (pos : 0 < i.den) {e : Int} {c : Nat} (found : i.onGrid? e = some c) :
    i.Holds (c * 10 ^ e) := by
  rw [← contains_iff pos]
  unfold onGrid? at found
  dsimp only at found
  split at found
  case isTrue lower =>
    cases found
    exact (Bool.and_eq_true _ _ ▸ lower).1
  case isFalse =>
    split at found
    case isTrue upper =>
      cases found
      exact upper
    case isFalse => cases found

/-- A grid that is at least as fine as the upper half of the interval has a hit. -/
theorem onGrid?_isSome (pos : 0 < i.den) (low : i.low < i.value) {e : Int}
    (fine : (i.value / i.den + 10 ^ e : ℚ) ≤ i.high / i.den) : (i.onGrid? e).isSome = true := by
  have pos' : (0 : ℚ) < i.den := by exact_mod_cast pos
  have unit := zpow_ten_pos e
  have one : (0 : ℚ) < (Nat.pow 10 (-e).toNat : Nat) := by
    exact_mod_cast (Nat.pow_pos (by decide) : 0 < 10 ^ (-e).toNat)
  have ten : 0 < Nat.pow 10 e.toNat := Nat.pow_pos (by decide)
  let floor := i.value * Nat.pow 10 (-e).toNat / (i.den * Nat.pow 10 e.toNat)
  -- The value lies between two neighbours on the grid.
  have division := Nat.div_add_mod (i.value * Nat.pow 10 (-e).toNat) (i.den * Nat.pow 10 e.toNat)
  have rest := Nat.mod_lt (i.value * Nat.pow 10 (-e).toNat) (Nat.mul_pos pos ten)
  have value : (i.value / i.den : ℚ) = (i.value * Nat.pow 10 (-e).toNat : Nat) /
      (i.den * Nat.pow 10 e.toNat : Nat) * 10 ^ e := by
    rw [ten_over_one]
    have ten' : ((Nat.pow 10 e.toNat : Nat) : ℚ) ≠ 0 := by exact_mod_cast ten.ne'
    push_cast
    field_simp
  have below : (floor * 10 ^ e : ℚ) ≤ i.value / i.den := by
    rw [value]
    have : (floor : ℚ) ≤ (i.value * Nat.pow 10 (-e).toNat : Nat) / (i.den * Nat.pow 10 e.toNat : Nat) :=
      Nat.cast_div_le
    gcongr
  have above : (i.value / i.den : ℚ) < (floor + 1 : Nat) * 10 ^ e := by
    rw [value]
    have den : (0 : ℚ) < (i.den * Nat.pow 10 e.toNat : Nat) := by
      exact_mod_cast Nat.mul_pos pos ten
    have : ((i.value * Nat.pow 10 (-e).toNat : Nat) / (i.den * Nat.pow 10 e.toNat : Nat) : ℚ) <
        (floor + 1 : Nat) := by
      rw [div_lt_iff₀ den]
      exact_mod_cast (Nat.div_lt_iff_lt_mul (Nat.mul_pos pos ten)).1 (Nat.lt_succ_self floor)
    gcongr
  have low' : (i.low / i.den : ℚ) < i.value / i.den := by
    have : (i.low : ℚ) < i.value := by exact_mod_cast low
    gcongr
  have hit : i.Holds (floor * 10 ^ e) ∨ i.Holds ((floor + 1 : Nat) * 10 ^ e) := by
    have next : (((floor + 1 : Nat) : ℚ) * 10 ^ e) = floor * 10 ^ e + 10 ^ e := by
      push_cast
      ring
    rcases below.eq_or_lt with exact' | less
    · left
      refine holds_of_between (exact' ▸ low') ?_
      rw [exact']
      linarith
    · right
      refine holds_of_between (low'.trans above) ?_
      rw [next]
      linarith
  rw [← contains_iff pos, ← contains_iff pos] at hit
  unfold onGrid?
  dsimp only
  rcases hit with lower | upper
  · rw [lower]
    split
    · rfl
    case isFalse other =>
      have upper : i.contains (Nat.pow 10 e.toNat) (Nat.pow 10 (-e).toNat) (floor + 1) = true := by
        by_contra no
        rw [Bool.not_eq_true] at no
        rw [no] at other
        exact other rfl
      rw [if_pos upper]
      rfl
  · rw [upper]
    split
    · rfl
    · rw [if_pos rfl]
      rfl

/-- The search finds a decimal in the interval, when one of the grids that it looks at has a hit. -/
theorem holds_of_search (pos : 0 < i.den) {point : Int} {k : Nat} :
    ∀ (fuel digits : Nat), digits ≤ k → k < digits + fuel → (i.onGrid? (point - k)).isSome = true →
      i.Holds (i.search point digits fuel).number
  | 0, digits, least, most, _ => by omega
  | fuel + 1, digits, least, most, hit => by
    unfold search
    cases found : i.onGrid? (point - digits) with
    | some c => exact holds_of_onGrid? pos found
    | none =>
      have ne : digits ≠ k := by
        rintro rfl
        rw [found] at hit
        cases hit
      exact holds_of_search pos fuel (digits + 1) (by omega) (by omega) hit

/-- The interval of a significand is that of the numbers around it. -/
theorem of_spec (positive : 0 < m) :
    0 < (Interval.of f m q).den ∧ (Interval.of f m q).low < (Interval.of f m q).value ∧
      ((Interval.of f m q).value / (Interval.of f m q).den : ℚ) = m * 2 ^ q ∧
        ((Interval.of f m q).low / (Interval.of f m q).den : ℚ) = (m - f.reach m q) * 2 ^ q ∧
          ((Interval.of f m q).high / (Interval.of f m q).den : ℚ) = (m + 1 / 2) * 2 ^ q := by
  let below := if m = f.hidden ∧ -(f.depth : Int) < q then 1 else 2
  have reach : f.reach m q = (below : Nat) / 4 := by
    unfold Format.reach
    by_cases power : m = f.hidden ∧ -(f.depth : Int) < q
    · have eq : below = 1 := if_pos power
      rw [if_pos power, eq, Nat.cast_one]
    · have eq : below = 2 := if_neg power
      rw [if_neg power, eq]
      norm_num
  have bounds : 0 < below ∧ below ≤ 2 := by
    by_cases power : m = f.hidden ∧ -(f.depth : Int) < q
    · have eq : below = 1 := if_pos power
      omega
    · have eq : below = 2 := if_neg power
      omega
  have under : ((4 * m - below : Nat) : ℚ) = 4 * m - below := by
    rw [Nat.cast_sub (by omega)]
    push_cast
    rfl
  obtain ⟨unit, den, pair, unitPos, denPos, ratio⟩ : ∃ unit den : Nat,
      (if 2 ≤ q then (1 <<< (q - 2).toNat, 1) else (1, 1 <<< (2 - q).toNat)) = (unit, den) ∧
        0 < unit ∧ 0 < den ∧ (unit / den : ℚ) = 2 ^ q / 4 := by
    by_cases large : 2 ≤ q
    · obtain ⟨k, rfl⟩ : ∃ k : Nat, q = k + 2 := ⟨(q - 2).toNat, by omega⟩
      refine ⟨_, _, if_pos large, ?_, Nat.one_pos, ?_⟩
      · rw [Nat.one_shiftLeft]
        exact Nat.pow_pos (by decide)
      · rw [add_sub_cancel_right, Int.toNat_natCast, Nat.one_shiftLeft, zpow_add₀ two_ne_zero,
          zpow_natCast]
        push_cast
        norm_num
    · obtain ⟨k, rfl⟩ : ∃ k : Nat, q = 2 - k := ⟨(2 - q).toNat, by omega⟩
      refine ⟨_, _, if_neg large, Nat.one_pos, ?_, ?_⟩
      · rw [Nat.one_shiftLeft]
        exact Nat.pow_pos (by decide)
      · rw [sub_sub_cancel, Int.toNat_natCast, Nat.one_shiftLeft, zpow_sub₀ two_ne_zero, zpow_natCast]
        push_cast
        field_simp
  have fields : Interval.of f m q =
      ⟨(4 * m - below) * unit, 4 * m * unit, (4 * m + 2) * unit, den, m % 2 == 0⟩ := by
    unfold Interval.of
    rw [pair]
  have den' : (den : ℚ) ≠ 0 := by exact_mod_cast denPos.ne'
  have unit' : (unit : ℚ) = 2 ^ q / 4 * den := by
    rw [← ratio]
    field_simp
  rw [fields, reach]
  refine ⟨denPos, Nat.mul_lt_mul_of_pos_right (by omega) unitPos, ?_, ?_, ?_⟩
  · push_cast
    rw [unit']
    field_simp
  · push_cast
    rw [under, unit']
    field_simp
  · push_cast
    rw [unit']
    field_simp
    ring

theorem around_of_holds (positive : 0 < m) (h : (Interval.of f m q).Holds x) : f.Around m q x := by
  obtain ⟨-, -, -, low, high⟩ := of_spec (f := f) (q := q) positive
  have closed : (Interval.of f m q).closed = (m % 2 == 0) := rfl
  unfold Holds at h
  rw [low, high, closed] at h
  split at h
  case isTrue even => exact ⟨h.1, h.2, .inl (eq_of_beq even)⟩
  case isFalse => exact ⟨h.1.le, h.2.le, .inr h⟩

end Interval

/-! The point. -/

theorem le_of_digitCount (n : Nat) (positive : 0 < n) : 10 ^ (digitCount n - 1) ≤ n := by
  induction n using digitCount.induct with
  | case1 => omega
  | case2 n _ ih =>
    rw [digitCount, if_neg positive.ne', Nat.add_sub_cancel]
    by_cases small : n / 10 = 0
    · rw [small, digitCount, if_pos rfl]
      exact positive
    · have count : digitCount (n / 10) = digitCount (n / 10) - 1 + 1 := by
        rw [digitCount, if_neg small, Nat.add_sub_cancel]
      rw [count, Nat.pow_succ]
      have := ih (Nat.pos_of_ne_zero small)
      omega

theorem le_of_liftCount {den : Nat} : ∀ {fuel num : Nat}, den ≤ 10 ^ fuel * num →
    den ≤ 10 ^ liftCount num den fuel * num
  | 0, num, h => h
  | fuel + 1, num, h => by
    unfold liftCount
    split
    case isTrue here => rwa [Nat.pow_zero, Nat.one_mul]
    case isFalse =>
      have rest : den ≤ 10 ^ fuel * (10 * num) := by
        rw [Nat.pow_succ, Nat.mul_assoc] at h
        exact h
      rw [Nat.pow_succ, Nat.mul_assoc]
      exact le_of_liftCount rest

/-- The digit before the point is not zero. -/
theorem le_of_pointOf {num den : Nat} (hn : 0 < num) (hd : 0 < den) :
    (10 : ℚ) ^ (pointOf num den - 1) ≤ num / den := by
  have pos : (0 : ℚ) < den := by exact_mod_cast hd
  unfold pointOf
  split
  case isTrue large =>
    have whole : 0 < num / den := Nat.div_pos large hd
    have count : 0 < digitCount (num / den) := by
      rw [digitCount, if_neg whole.ne']
      exact Nat.succ_pos _
    have exponent : (digitCount (num / den) : Int) - 1 = (digitCount (num / den) - 1 : Nat) := by omega
    rw [exponent, zpow_natCast]
    calc (10 : ℚ) ^ (digitCount (num / den) - 1) ≤ (num / den : Nat) := by
          exact_mod_cast le_of_digitCount _ whole
      _ ≤ num / den := Nat.cast_div_le
  case isFalse =>
    have enough : den ≤ 10 ^ (den.log2 + 1) * num := by
      calc den ≤ 2 ^ (den.log2 + 1) := Nat.lt_log2_self.le
        _ ≤ 10 ^ (den.log2 + 1) := Nat.pow_le_pow_left (by decide) _
        _ ≤ 10 ^ (den.log2 + 1) * num := Nat.le_mul_of_pos_right _ hn
    have lifted := le_of_liftCount enough
    rw [sub_sub_cancel_left, zpow_neg, zpow_natCast, le_div_iff₀ pos, inv_mul_le_iff₀ (by positivity)]
    exact_mod_cast lifted

/-- Zeros at the end of a decimal may go. -/
theorem Digits.number_trimmed (d : Digits) (fuel : Nat) : (d.trimmed fuel).number = d.number := by
  induction fuel generalizing d with
  | zero => rfl
  | succ fuel ih =>
    unfold trimmed
    split
    case isTrue zero =>
      have value : d.value = d.value / 10 * 10 := by omega
      rw [ih]
      unfold number
      rw [zpow_add_one₀ (by norm_num)]
      conv_rhs => rw [value]
      push_cast
      ring
    case isFalse => rfl

/-- The shortest decimal is rounded to its magnitude. -/
theorem around_shortest {magnitude : Nat} (small : 4 * f.hidden ≤ 10 ^ 17) (positive : 0 < m)
    (eq : f.decode magnitude = (m, q)) : f.Around m q (shortest f magnitude).number := by
  obtain ⟨-, -, fits, -⟩ := Format.decode_spec eq
  obtain ⟨denPos, low, value, -, high⟩ := Interval.of_spec (f := f) (q := q) positive
  have valuePos : 0 < (Interval.of f m q).value := Nat.lt_of_le_of_lt (Nat.zero_le _) low
  have reads : shortest f magnitude = ((Interval.of f m q).search
      (pointOf (Interval.of f m q).value (Interval.of f m q).den) 1 20).trimmed 20 := by
    unfold shortest
    rw [eq]
  rw [reads, Digits.number_trimmed]
  refine Interval.around_of_holds positive
    (Interval.holds_of_search denPos (k := 18) 20 1 (by decide) (by decide) ?_)
  refine Interval.onGrid?_isSome denPos low ?_
  have first := le_of_pointOf valuePos denPos
  generalize pointOf (Interval.of f m q).value (Interval.of f m q).den = point at *
  rw [value] at first ⊢
  rw [high]
  have unit := Format.zpow_two_pos q
  -- One unit in the eighteenth digit is less than a part of the value that has all its binary digits.
  have fine : (10 : ℚ) ^ (point - (18 : Nat)) ≤ 1 / 2 * 2 ^ q := by
    have split : (10 : ℚ) ^ (point - (18 : Nat)) = 10 ^ (point - 1) / 10 ^ 17 := by
      rw [eq_div_iff (by norm_num), ← zpow_natCast, ← zpow_add₀ (by norm_num)]
      congr 1
      push_cast
      ring
    have less : (m : ℚ) ≤ 2 * f.hidden := by exact_mod_cast fits.le
    have small' : (4 * f.hidden : ℚ) ≤ 10 ^ 17 := by exact_mod_cast small
    rw [split, div_le_iff₀ (by norm_num)]
    calc (10 : ℚ) ^ (point - 1) ≤ m * 2 ^ q := first
      _ ≤ 2 * f.hidden * 2 ^ q := by gcongr
      _ = 1 / 2 * 2 ^ q * (4 * f.hidden) := by ring
      _ ≤ 1 / 2 * 2 ^ q * 10 ^ 17 := by gcongr
  linarith

end LiveMarkup.Decimal
