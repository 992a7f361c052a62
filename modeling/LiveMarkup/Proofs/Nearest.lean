import LiveMarkup.Decimal.Binary
import Mathlib.Algebra.Order.Field.Power
import Mathlib.Tactic.FieldSimp
import Mathlib.Tactic.Linarith
import Mathlib.Tactic.NormNum
import Mathlib.Tactic.Positivity
import Mathlib.Tactic.Ring

/-!
Rounding to the nearest magnitude of a binary format, over the rational numbers. Main statement: each
number of the interval around a magnitude is rounded to that magnitude; the ends of the interval
belong to it when the significand is even.
-/
namespace LiveMarkup.Decimal.Format

variable {f : Format} {num den m : Nat} {q : Int} {x : ℚ}

theorem hidden_eq : f.hidden = 2 ^ (f.precision - 1) := by
  rw [hidden, Nat.one_shiftLeft]

theorem hidden_pos : 0 < f.hidden :=
  hidden_eq ▸ Nat.pow_pos (by decide)

/-! Integers. -/

/-- A quotient is rounded to the integer that is no further than a half away; at a half it is the even
one. -/
theorem roundDiv_eq (pos : 0 < den) (low : 2 * m * den ≤ 2 * num + den)
    (high : 2 * num ≤ 2 * m * den + den)
    (even : 2 * m * den = 2 * num + den ∨ 2 * num = 2 * m * den + den → m % 2 = 0) :
    roundDiv num den = m := by
  have division : den * (num / den) + num % den = num := Nat.div_add_mod num den
  have rest : num % den < den := Nat.mod_lt num pos
  have above : num / den < m + 1 := by
    refine (Nat.div_lt_iff_lt_mul pos).2 ?_
    have : (m + 1) * den = m * den + den := Nat.succ_mul m den
    rw [Nat.mul_assoc] at high
    omega
  have below : m < num / den + 2 := by
    refine Nat.lt_of_mul_lt_mul_right (a := den) ?_
    have : (num / den + 2) * den = den * (num / den) + 2 * den := by ring
    rw [Nat.mul_assoc] at low
    omega
  unfold roundDiv
  rcases (by omega : num / den = m ∨ num / den + 1 = m) with here | next
  · rw [here, Nat.mul_comm den m] at division
    rw [Nat.mul_assoc] at high even
    dsimp only
    rw [here]
    split
    · rfl
    · rw [if_neg (by omega), even (.inr (by omega)), Nat.add_zero]
  · have product : m * den = den * (num / den) + den := by
      rw [← next]
      ring
    rw [Nat.mul_assoc] at low even
    dsimp only
    rw [if_neg (by omega)]
    split
    · exact next
    · have tie := even (.inl (by omega))
      omega

/-! Exponents. -/

/-- The fraction that is rounded to a significand. -/
theorem scaled_spec (num : Nat) (pos : 0 < den) (q : Int) :
    0 < (scaled num den q).2 ∧
      ((scaled num den q).1 : ℚ) = num / den / 2 ^ q * (scaled num den q).2 := by
  have pos' : (den : ℚ) ≠ 0 := by exact_mod_cast pos.ne'
  unfold scaled
  split
  case isTrue nonneg =>
    lift q to Nat using nonneg
    refine ⟨?_, ?_⟩
    · rw [Nat.shiftLeft_eq]
      exact Nat.mul_pos pos (Nat.pow_pos (by decide))
    · simp only [Int.toNat_natCast, Nat.shiftLeft_eq, zpow_natCast]
      push_cast
      field_simp
  case isFalse negative =>
    obtain ⟨k, rfl⟩ : ∃ k : Nat, q = -k := ⟨(-q).toNat, by omega⟩
    refine ⟨pos, ?_⟩
    simp only [neg_neg, Int.toNat_natCast, Nat.shiftLeft_eq, zpow_neg, zpow_natCast]
    push_cast
    field_simp

theorem zpow_two_pos (q : Int) : (0 : ℚ) < 2 ^ q :=
  zpow_pos (by norm_num) q

theorem zpow_two_succ (q : Int) : (2 : ℚ) ^ (q + 1) = 2 * 2 ^ q := by
  rw [zpow_add_one₀ (by norm_num), mul_comm]

theorem zpow_two_le {q q' : Int} (h : q ≤ q') : (2 : ℚ) ^ q ≤ 2 ^ q' :=
  zpow_le_zpow_right₀ (by norm_num) h

/-- The binary logarithm of a fraction, up to one. -/
theorem bounds_of_log2 (hn : 0 < num) (hd : 0 < den) :
    (2 : ℚ) ^ ((num.log2 : Int) - den.log2 - 1) < num / den ∧
      (num / den : ℚ) < 2 ^ ((num.log2 : Int) - den.log2 + 1) := by
  have low : ((2 : ℚ) ^ num.log2) ≤ num := by exact_mod_cast Nat.log2_self_le hn.ne'
  have high : (num : ℚ) < 2 ^ num.log2 * 2 := by
    exact_mod_cast (Nat.lt_log2_self : num < 2 ^ (num.log2 + 1))
  have low' : ((2 : ℚ) ^ den.log2) ≤ den := by exact_mod_cast Nat.log2_self_le hd.ne'
  have high' : (den : ℚ) < 2 ^ den.log2 * 2 := by
    exact_mod_cast (Nat.lt_log2_self : den < 2 ^ (den.log2 + 1))
  have pos : (0 : ℚ) < den := by exact_mod_cast hd
  have p : (0 : ℚ) < 2 ^ num.log2 := by positivity
  have p' : (0 : ℚ) < 2 ^ den.log2 := by positivity
  rw [lt_div_iff₀ pos, div_lt_iff₀ pos, zpow_sub₀ two_ne_zero, zpow_add₀ two_ne_zero,
    zpow_sub₀ two_ne_zero, zpow_natCast, zpow_natCast, zpow_one]
  constructor
  · calc (2 : ℚ) ^ num.log2 / 2 ^ den.log2 / 2 * den
        < 2 ^ num.log2 / 2 ^ den.log2 / 2 * (2 ^ den.log2 * 2) := by gcongr
      _ = 2 ^ num.log2 := by field_simp
      _ ≤ num := low
  · calc (num : ℚ) < 2 ^ num.log2 * 2 := high
      _ = 2 ^ num.log2 / 2 ^ den.log2 * 2 * 2 ^ den.log2 := by field_simp
      _ ≤ 2 ^ num.log2 / 2 ^ den.log2 * 2 * den := by gcongr

/-- At the exponent for a fraction, the significand has full precision, unless the exponent is the
smallest one. -/
theorem exponentFor_spec (precise : 1 ≤ f.precision) (hn : 0 < num) (hd : 0 < den) :
    -(f.depth : Int) ≤ f.exponentFor num den ∧
      (num / den : ℚ) < 2 * f.hidden * 2 ^ f.exponentFor num den ∧
        ((f.hidden : ℚ) * 2 ^ f.exponentFor num den ≤ num / den ∨
          f.exponentFor num den = -(f.depth : Int)) := by
  obtain ⟨low, high⟩ := bounds_of_log2 hn hd
  let guess : Int := (num.log2 : Int) - den.log2 - f.precision
  have hidden : (f.hidden : ℚ) = 2 ^ ((f.precision : Int) - 1) := by
    rw [hidden_eq, Nat.cast_pow, ← zpow_natCast, Int.natCast_sub precise]
    rfl
  have product (k : Int) : (f.hidden : ℚ) * 2 ^ k = 2 ^ ((f.precision : Int) - 1 + k) := by
    rw [hidden, ← zpow_add₀ two_ne_zero]
  have low' : (f.hidden : ℚ) * 2 ^ guess < num / den := by
    rw [product]
    convert low using 2
    omega
  have high' : (num / den : ℚ) < 2 * f.hidden * 2 ^ (guess + 1) := by
    rw [mul_assoc, product, ← zpow_two_succ]
    convert high using 2
    omega
  obtain ⟨pos, quotient⟩ := scaled_spec num hd guess
  let full : Int :=
    if 2 * f.hidden * (scaled num den guess).2 ≤ (scaled num den guess).1 then guess + 1 else guess
  have full_low : (f.hidden : ℚ) * 2 ^ full ≤ num / den ∧ (num / den : ℚ) < 2 * f.hidden * 2 ^ full := by
    have pos' : (0 : ℚ) < (scaled num den guess).2 := by exact_mod_cast pos
    have fits : 2 * f.hidden * (scaled num den guess).2 ≤ (scaled num den guess).1 ↔
        2 * f.hidden * 2 ^ guess ≤ (num / den : ℚ) := by
      rw [← le_div_iff₀ (zpow_two_pos guess), ← mul_le_mul_iff_left₀ pos', ← quotient]
      exact_mod_cast Iff.rfl
    by_cases more : 2 * f.hidden * (scaled num den guess).2 ≤ (scaled num den guess).1
    · have eq : full = guess + 1 := if_pos more
      rw [eq]
      refine ⟨?_, high'⟩
      rw [zpow_two_succ]
      linarith [fits.1 more]
    · have eq : full = guess := if_neg more
      rw [eq]
      exact ⟨low'.le, lt_of_not_ge fun h => more (fits.2 h)⟩
  have value : f.exponentFor num den = max full (-(f.depth : Int)) := rfl
  rw [value]
  rcases le_total full (-(f.depth : Int)) with least | least
  · rw [max_eq_right least]
    refine ⟨le_refl _, full_low.2.trans_le ?_, .inr rfl⟩
    have := zpow_two_le least
    gcongr
  · rw [max_eq_left least]
    exact ⟨least, full_low.2, .inl full_low.1⟩

/-! Magnitudes. -/

/-- The significand and the exponent of a magnitude determine it. -/
theorem decode_spec {magnitude : Nat} (eq : f.decode magnitude = (m, q)) :
    -(f.depth : Int) ≤ q ∧ (q + f.depth).toNat * f.hidden + m = magnitude ∧ m < 2 * f.hidden ∧
      (f.hidden ≤ m ∨ q = -(f.depth : Int)) := by
  have division : f.hidden * (magnitude / f.hidden) + magnitude % f.hidden = magnitude :=
    Nat.div_add_mod magnitude f.hidden
  have rest : magnitude % f.hidden < f.hidden := Nat.mod_lt _ hidden_pos
  unfold decode at eq
  dsimp only at eq
  split at eq
  case isTrue none =>
    cases eq
    rw [none, Nat.mul_zero] at division
    refine ⟨le_refl _, ?_, by omega, .inr rfl⟩
    rw [neg_add_cancel, Int.toNat_zero]
    omega
  case isFalse some =>
    cases eq
    generalize magnitude / f.hidden = field at *
    refine ⟨by omega, ?_, by omega, .inl (by omega)⟩
    have exponent : ((field : Int) - 1 - f.depth + f.depth).toNat + 1 = field := by omega
    calc _ = (((field : Int) - 1 - f.depth + f.depth).toNat + 1) * f.hidden +
          magnitude % f.hidden := by ring
      _ = magnitude := by rw [exponent, Nat.mul_comm, division]

/-- How far the numbers reach downwards that are rounded to `m · 2^q`, as a part of `2^q`. Below a power
of two the neighbours stand half as far apart. -/
def reach (f : Format) (m : Nat) (q : Int) : ℚ :=
  if m = f.hidden ∧ -(f.depth : Int) < q then 1 / 4 else 1 / 2

/-- A number lies in the interval around `m · 2^q`, whose ends belong to it when `m` is even. -/
structure Around (f : Format) (m : Nat) (q : Int) (x : ℚ) : Prop where
  low : (m - f.reach m q) * 2 ^ q ≤ x
  high : x ≤ (m + 1 / 2) * 2 ^ q
  inner : m % 2 = 0 ∨ (m - f.reach m q) * 2 ^ q < x ∧ x < (m + 1 / 2) * 2 ^ q

theorem reach_le : f.reach m q ≤ 1 / 2 := by
  unfold reach
  split <;> norm_num

theorem reach_pos : 0 < f.reach m q := by
  unfold reach
  split <;> norm_num

/-- The significand of what lies around `m · 2^q`, when it is rounded at that exponent. -/
theorem Around.roundDiv (h : f.Around m q (num / den)) (pos : 0 < den) :
    roundDiv (scaled num den q).1 (scaled num den q).2 = m := by
  obtain ⟨pos', quotient⟩ := scaled_spec num pos q
  have unit := zpow_two_pos q
  have pos'' : (0 : ℚ) < (scaled num den q).2 := by exact_mod_cast pos'
  have reach := f.reach_le (m := m) (q := q)
  have low : (m - 1 / 2 : ℚ) ≤ num / den / 2 ^ q := by
    rw [le_div_iff₀ unit]
    exact le_trans (by gcongr) h.low
  have high : (num / den / 2 ^ q : ℚ) ≤ m + 1 / 2 := by
    rw [div_le_iff₀ unit]
    exact h.high
  have product : ∀ y : ℚ, y * (scaled num den q).2 + y * (scaled num den q).2 =
      2 * y * (scaled num den q).2 := fun y => by ring
  generalize (scaled num den q).1 = a at *
  generalize (scaled num den q).2 = b at *
  refine roundDiv_eq pos' ?_ ?_ fun tie => ?_
  · have : (2 * m * b : ℚ) ≤ 2 * a + b := by
      rw [quotient]
      nlinarith
    exact_mod_cast this
  · have : (2 * a : ℚ) ≤ 2 * m * b + b := by
      rw [quotient]
      nlinarith
    exact_mod_cast this
  · refine h.inner.resolve_right fun inside => ?_
    have low' : (m - 1 / 2 : ℚ) < num / den / 2 ^ q := by
      rw [lt_div_iff₀ unit]
      exact lt_of_le_of_lt (by gcongr) inside.1
    have high' : (num / den / 2 ^ q : ℚ) < m + 1 / 2 := by
      rw [div_lt_iff₀ unit]
      exact inside.2
    rcases tie with tie | tie
    · have : (2 * m * b : ℚ) = 2 * a + b := by exact_mod_cast tie
      rw [quotient] at this
      nlinarith
    · have : (2 * a : ℚ) = 2 * m * b + b := by exact_mod_cast tie
      rw [quotient] at this
      nlinarith

/-- What lies around a finite magnitude is rounded to it. Only just below a power of two it has a smaller
exponent; its significand is then rounded up to that power. -/
theorem nearest_eq {magnitude : Nat} (precise : 1 ≤ f.precision) (finite : magnitude ≤ f.infinity)
    (eq : f.decode magnitude = (m, q)) (hn : 0 < num) (hd : 0 < den)
    (around : f.Around m q (num / den)) : f.nearest num den = magnitude := by
  obtain ⟨least, whole, fits, full⟩ := decode_spec eq
  obtain ⟨least', fits', full'⟩ := exponentFor_spec precise hn hd
  have unit := zpow_two_pos q
  have one : (1 : ℚ) ≤ f.hidden := by exact_mod_cast f.hidden_pos
  have fits₁ : (m : ℚ) + 1 ≤ 2 * f.hidden := by exact_mod_cast fits
  unfold nearest
  rw [if_neg hn.ne']
  dsimp only
  generalize f.exponentFor num den = q' at *
  rcases lt_trichotomy q' q with below | rfl | above
  · have normal : f.hidden ≤ m := full.resolve_right (by omega)
    have half : (2 : ℚ) ^ q = 2 * 2 ^ (q - 1) := by rw [← zpow_two_succ, sub_add_cancel]
    -- The fraction is less than the power of two, but not by more than a part of the unit.
    have power : m = f.hidden := by
      refine le_antisymm (Nat.le_of_lt_succ ?_) normal
      have less : (m - 1 / 2 : ℚ) * 2 ^ q < f.hidden * 2 ^ q := by
        have down : (2 : ℚ) ^ q' ≤ 2 ^ (q - 1) := zpow_two_le (by omega)
        have reach := f.reach_le (m := m) (q := q)
        calc (m - 1 / 2 : ℚ) * 2 ^ q ≤ (m - f.reach m q) * 2 ^ q := by gcongr
          _ ≤ num / den := around.low
          _ < 2 * f.hidden * 2 ^ q' := fits'
          _ ≤ 2 * f.hidden * 2 ^ (q - 1) := by gcongr
          _ = f.hidden * 2 ^ q := by rw [half]; ring
      have less' : (m : ℚ) - 1 / 2 < f.hidden := lt_of_mul_lt_mul_right less unit.le
      have : (m : ℚ) < f.hidden + 1 := by linarith
      exact_mod_cast this
    have reach : f.reach m q = 1 / 4 := if_pos ⟨power, by omega⟩
    have near : (f.hidden - 1 / 4 : ℚ) * 2 ^ q ≤ num / den := by
      have low := around.low
      rwa [reach, power] at low
    have next : q' = q - 1 := by
      refine le_antisymm (by omega) (Int.not_lt.1 fun far => ?_)
      have down : (2 : ℚ) ^ q' ≤ 2 ^ (q - 1 - 1) := zpow_two_le (by omega)
      have quarter : (2 : ℚ) ^ (q - 1) = 2 * 2 ^ (q - 1 - 1) := by
        rw [← zpow_two_succ, sub_add_cancel]
      have : (f.hidden - 1 / 4 : ℚ) * 2 ^ q < f.hidden / 2 * 2 ^ q := by
        calc _ ≤ (num / den : ℚ) := near
          _ < 2 * f.hidden * 2 ^ q' := fits'
          _ ≤ 2 * f.hidden * 2 ^ (q - 1 - 1) := by gcongr
          _ = f.hidden / 2 * 2 ^ q := by rw [half, quarter]; ring
      have := lt_of_mul_lt_mul_right this unit.le
      linarith
    subst next
    have short : f.reach (2 * f.hidden) (q - 1) = 1 / 2 :=
      if_neg fun twice => by have := f.hidden_pos; omega
    have around' : f.Around (2 * f.hidden) (q - 1) (num / den) := by
      have top : (num / den : ℚ) ≤ (2 * f.hidden + 1 / 2) * 2 ^ (q - 1) := by
        refine fits'.le.trans ?_
        have := zpow_two_pos (q - 1)
        gcongr
        linarith
      refine ⟨?_, ?_, .inl (Nat.mul_mod_right 2 _)⟩
      · rw [short]
        refine le_trans (le_of_eq ?_) near
        rw [half]
        push_cast
        ring
      · push_cast
        exact top
    rw [around'.roundDiv hd]
    have exponent : (q - 1 + f.depth).toNat + 1 = (q + f.depth).toNat := by omega
    have same : (q - 1 + f.depth).toNat * f.hidden + 2 * f.hidden = magnitude := by
      rw [← whole, ← exponent, power]
      ring
    rw [same, Nat.min_eq_right finite]
  · rw [around.roundDiv hd, whole, Nat.min_eq_right finite]
  · exfalso
    have full' : (f.hidden : ℚ) * 2 ^ q' ≤ num / den := full'.resolve_right (by omega)
    have up : (2 : ℚ) ^ (q + 1) ≤ 2 ^ q' := zpow_two_le (by omega)
    have : (2 * f.hidden : ℚ) * 2 ^ q ≤ (m + 1 / 2) * 2 ^ q := by
      calc (2 * f.hidden : ℚ) * 2 ^ q = f.hidden * 2 ^ (q + 1) := by rw [zpow_two_succ]; ring
        _ ≤ f.hidden * 2 ^ q' := by gcongr
        _ ≤ num / den := full'
        _ ≤ (m + 1 / 2) * 2 ^ q := around.high
    have := le_of_mul_le_mul_right this unit
    linarith

end LiveMarkup.Decimal.Format
