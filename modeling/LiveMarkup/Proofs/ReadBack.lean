import LiveMarkup.Number
import LiveMarkup.Calendar
import LiveMarkup.Proofs.MarkupReading
import LiveMarkup.Proofs.ShortestDecimal

/-!
Reading back what was written. Main statements: the text of each number that is no NaN reads as that
number, the two zeros taken as one, and the text of each date reads as that date.
-/
namespace LiveMarkup

open Decimal

variable {s t : List Char} {x : ℚ} {f : Format} {m : Nat} {q : Int}

/-! Blanks. -/

/-- There is no blank in a text. -/
def Unbroken (s : List Char) : Prop :=
  ∀ c ∈ s, Text.isBlank c = false

namespace Unbroken

theorem trimStart (h : Unbroken s) : Text.trimStart s = s := by
  cases s with
  | nil => rfl
  | cons c s => exact Markup.trimStart_of_not_blank (h c List.mem_cons_self) s

theorem trim (h : Unbroken s) : Text.trim s = s := by
  have back : Text.trimStart s.reverse = s.reverse :=
    trimStart fun c mem => h c (List.mem_reverse.1 mem)
  unfold Text.trim Text.trimEnd
  rw [h.trimStart]
  exact (congrArg List.reverse back).trans s.reverse_reverse

end Unbroken

/-! Digits. -/

theorem not_blank_of_isDigit {c : Char} (h : c.isDigit = true) : Text.isBlank c = false := by
  simp only [Char.isDigit, Bool.and_eq_true, decide_eq_true_eq] at h
  have low : 48 ≤ c.toNat := h.1
  have high : c.toNat ≤ 57 := h.2
  simp only [Text.isBlank, Bool.or_eq_false_iff, Bool.and_eq_false_iff, decide_eq_false_iff_not,
    beq_eq_false_iff_ne]
  omega

/-- The characters of written numbers and dates. -/
def isNumeric (c : Char) : Bool :=
  c.isDigit || "+-.eNaInfity".toList.contains c

/-- A text of such characters. -/
def Numeric (s : List Char) : Prop :=
  ∀ c ∈ s, isNumeric c = true

namespace Numeric

theorem append (h : Numeric s) (h' : Numeric t) : Numeric (s ++ t) :=
  fun c mem => (List.mem_append.1 mem).elim (h c) (h' c)

theorem of_all (h : s.all isNumeric = true) : Numeric s :=
  List.all_eq_true.1 h

theorem of_digits (digits : ∀ c ∈ s, c.isDigit = true) : Numeric s :=
  fun c mem => by rw [isNumeric, digits c mem, Bool.true_or]

theorem unbroken (h : Numeric s) : Unbroken s := by
  intro c mem
  have marks : ∀ c ∈ "+-.eNaInfity".toList, Text.isBlank c = false :=
    Text.forall_mem_of_all (by decide)
  rcases Bool.or_eq_true_iff.1 (h c mem) with digit | mark
  · exact not_blank_of_isDigit digit
  · exact marks c (List.contains_iff_mem.1 mark)

end Numeric

namespace Decimal

theorem isDigit_of_mem_digitsOf {n : Nat} : ∀ c ∈ digitsOf n, c.isDigit = true :=
  fun _ h => Nat.isDigit_of_mem_toDigits (by decide) (by decide) h

theorem length_digitsOf_pos (n : Nat) : 0 < (digitsOf n).length :=
  Nat.length_toDigits_pos

theorem digitsValue_digitsOf (n : Nat) : digitsValue 0 (digitsOf n) = n :=
  Nat.ofDigitChars_ten_toDigits

theorem digitsValue_append (start : Nat) (s t : List Char) :
    digitsValue start (s ++ t) = digitsValue (digitsValue start s) t :=
  List.foldl_append

theorem digitsValue_zeros (start k : Nat) :
    digitsValue start (List.replicate k '0') = start * 10 ^ k := by
  induction k generalizing start with
  | zero => exact (Nat.mul_one start).symm
  | succ k ih =>
    have step : digitsValue start (List.replicate (k + 1) '0') =
        digitsValue (10 * start + 0) (List.replicate k '0') := rfl
    rw [step, ih, Nat.pow_succ]
    ring

theorem isDigit_of_mem_zeros {k : Nat} : ∀ c ∈ List.replicate k '0', c.isDigit = true :=
  fun _ h => List.eq_of_mem_replicate h ▸ rfl

theorem numeric_digitsOf (n : Nat) : Numeric (digitsOf n) :=
  .of_digits isDigit_of_mem_digitsOf

/-! Numerals. -/

/-- A text reads as a finite numeral for a number. -/
def Reads (negative : Bool) (s : List Char) (x : ℚ) : Prop :=
  ∃ mantissa exponent, Numeral.readFinite? negative s = some (.finite negative mantissa exponent) ∧
    (mantissa * 10 ^ exponent : ℚ) = x

/-- Digits with no point, and an exponent. -/
theorem reads_whole (negative : Bool) {e : Int} (digits : ∀ c ∈ s, c.isDigit = true) (here : s ≠ [])
    (tail : readExponent? t = some e) (stop : ∀ c ∈ t.head?, c.isDigit = false ∧ c ≠ '.') :
    Reads negative (s ++ t) (digitsValue 0 s * 10 ^ e) := by
  obtain ⟨taken, dropped⟩ := Markup.takeWhile_append_stop t digits fun c h => (stop c h).1
  refine ⟨digitsValue 0 s, e, ?_, rfl⟩
  unfold Numeral.readFinite?
  dsimp only
  rw [taken, dropped]
  have nonempty : s.isEmpty = false := List.isEmpty_eq_false_iff.2 here
  split
  case h_1 rest => exact absurd rfl (stop '.' rfl).2
  case h_2 =>
    dsimp only
    rw [nonempty, tail, Bool.false_and, if_neg Bool.false_ne_true, Option.map_some, List.length_nil,
      Int.natCast_zero, Int.sub_zero]
    rfl

/-- Digits on both sides of a point, and an exponent. -/
theorem reads_point (negative : Bool) {u : List Char} {e : Int} (digits : ∀ c ∈ s, c.isDigit = true) (here : s ≠ [])
    (digits' : ∀ c ∈ t, c.isDigit = true) (tail : readExponent? u = some e)
    (stop : ∀ c ∈ u.head?, c.isDigit = false) :
    Reads negative (s ++ '.' :: (t ++ u)) (digitsValue 0 (s ++ t) * 10 ^ (e - t.length)) := by
  obtain ⟨taken, dropped⟩ := Markup.takeWhile_append_stop ('.' :: (t ++ u)) digits fun c h => by
    cases h
    rfl
  obtain ⟨taken', dropped'⟩ := Markup.takeWhile_append_stop u digits' stop
  refine ⟨digitsValue 0 (s ++ t), e - t.length, ?_, rfl⟩
  unfold Numeral.readFinite?
  dsimp only
  rw [taken, dropped]
  have nonempty : s.isEmpty = false := List.isEmpty_eq_false_iff.2 here
  split
  case h_1 rest eq =>
    obtain ⟨-, rfl⟩ := List.cons.inj eq
    dsimp only
    rw [taken', dropped', nonempty, tail, digitsValue_append, Bool.false_and,
      if_neg Bool.false_ne_true, Option.map_some]
  case h_2 other => exact absurd rfl (other _)

/-- After the last character there is none. -/
theorem nothing_next {P : Char → Prop} : ∀ c ∈ ([] : List Char).head?, P c := by
  intro c h
  cases h

/-- The digits of a number, laid out with the point in place. -/
theorem reads_positional (negative : Bool) (n : Nat) (e : Int) :
    Reads negative (positional (digitsOf n) ((digitsOf n).length + e)) (n * 10 ^ e) := by
  have digits := isDigit_of_mem_digitsOf (n := n)
  have long := length_digitsOf_pos n
  have value := digitsValue_digitsOf n
  unfold positional
  generalize digitsOf n = ds at *
  split
  case isTrue below =>
    have zeros : ∀ c ∈ List.replicate (-(ds.length + e)).toNat '0' ++ ds, c.isDigit = true :=
      fun c h => (List.mem_append.1 h).elim (isDigit_of_mem_zeros c) (digits c)
    have read := reads_point negative (s := ['0']) (u := []) (e := 0)
      (List.forall_mem_singleton.2 rfl) (List.cons_ne_nil _ _) zeros rfl nothing_next
    have mantissa : digitsValue 0 (['0'] ++ (List.replicate (-(ds.length + e)).toNat '0' ++ ds)) = n := by
      have zero : digitsValue 0 ['0'] = 0 := rfl
      rw [digitsValue_append, digitsValue_append, digitsValue_zeros, zero, Nat.zero_mul, value]
    have exponent :
        0 - ((List.replicate (-(ds.length + e)).toNat '0' ++ ds).length : Int) = e := by
      rw [List.length_append, List.length_replicate]
      omega
    rwa [List.append_nil, mantissa, exponent] at read
  case isFalse above =>
    split
    case isTrue whole =>
      have zeros : ∀ c ∈ ds ++ List.replicate ((ds.length + e).toNat - ds.length) '0',
          c.isDigit = true :=
        fun c h => (List.mem_append.1 h).elim (digits c) (isDigit_of_mem_zeros c)
      have read := reads_whole negative (t := []) (e := 0) zeros
        (List.append_ne_nil_of_left_ne_nil (List.ne_nil_of_length_pos long) _) rfl nothing_next
      obtain ⟨k, rfl⟩ : ∃ k : Nat, e = k := ⟨e.toNat, by omega⟩
      have count : (ds.length + (k : Int)).toNat - ds.length = k := by omega
      rw [List.append_nil, digitsValue_append, digitsValue_zeros, value, zpow_zero, mul_one, count] at read
      rw [count, zpow_natCast]
      convert read using 1
      push_cast
      rfl
    case isFalse part =>
      have read := reads_point negative (s := ds.take (ds.length + e).toNat)
        (t := ds.drop (ds.length + e).toNat) (u := []) (e := 0)
        (fun c h => digits c (List.mem_of_mem_take h))
        (List.ne_nil_of_length_pos (by rw [List.length_take]; omega))
        (fun c h => digits c (List.mem_of_mem_drop h)) rfl nothing_next
      have exponent : 0 - ((ds.drop (ds.length + e).toNat).length : Int) = e := by
        rw [List.length_drop]
        omega
      rw [List.append_nil, List.take_append_drop, value, exponent] at read
      rwa [List.append_assoc, List.singleton_append]

theorem readInt?_of_split (negative : Bool) {s : List Char} {n : Nat} (split : splitSign s = (negative, digitsOf n)) :
    readInt? s = some (if negative then -(n : Int) else n) := by
  have nonempty : (digitsOf n).isEmpty = false :=
    List.isEmpty_eq_false_iff.2 (List.ne_nil_of_length_pos (length_digitsOf_pos n))
  have all : (digitsOf n).all Char.isDigit = true := List.all_eq_true.2 isDigit_of_mem_digitsOf
  unfold readInt?
  rw [split]
  dsimp only
  rw [nonempty, all, digitsValue_digitsOf, Bool.not_true, Bool.or_false, if_neg Bool.false_ne_true]

/-- What starts with a digit has no sign. -/
theorem splitSign_of_digit (digits : ∀ c ∈ s, c.isDigit = true) (t : List Char) (here : s ≠ []) :
    splitSign (s ++ t) = (false, s ++ t) := by
  cases s with
  | nil => exact absurd rfl here
  | cons c cs =>
    have first := digits c List.mem_cons_self
    rw [List.cons_append]
    unfold splitSign
    split
    case h_1 eq =>
      cases eq
      cases first
    case h_2 eq =>
      cases eq
      cases first
    case h_3 => rfl

/-- An exponent as it is written. -/
theorem readExponent?_written (plus : Bool) (exponent : Int) :
    readExponent? (['e'] ++ (if exponent < 0 then ['-'] else if plus then ['+'] else []) ++
      digitsOf exponent.natAbs) = some exponent := by
  have mark : ∀ t, readExponent? ('e' :: t) = readInt? t := fun _ => rfl
  rw [List.append_assoc, List.singleton_append, mark]
  split
  case isTrue negative =>
    rw [readInt?_of_split true rfl, if_pos rfl]
    congr 1
    omega
  case isFalse =>
    have whole : (exponent.natAbs : Int) = exponent := by omega
    cases plus with
    | true => rw [if_pos rfl, readInt?_of_split false rfl, if_neg Bool.false_ne_true, whole]
    | false =>
      have digit := splitSign_of_digit (isDigit_of_mem_digitsOf (n := exponent.natAbs)) []
        (List.ne_nil_of_length_pos (length_digitsOf_pos _))
      rw [List.append_nil] at digit
      rw [if_neg Bool.false_ne_true, List.nil_append, readInt?_of_split false digit,
        if_neg Bool.false_ne_true, whole]

/-- The digits of a number, laid out with an exponent. -/
theorem reads_scientific (negative plus : Bool) (n : Nat) (e : Int) :
    Reads negative (scientific plus (digitsOf n) ((digitsOf n).length + e)) (n * 10 ^ e) := by
  have digits := isDigit_of_mem_digitsOf (n := n)
  have long := length_digitsOf_pos n
  have value := digitsValue_digitsOf n
  unfold scientific
  generalize digitsOf n = ds at *
  dsimp only
  have tail := readExponent?_written plus (ds.length + e - 1)
  rw [List.append_assoc, List.append_assoc, ← List.append_assoc ['e']]
  generalize exponent : ['e'] ++ (if (ds.length : Int) + e - 1 < 0 then ['-'] else
    if plus then ['+'] else []) ++ digitsOf ((ds.length : Int) + e - 1).natAbs = u at *
  have stop : ∀ c ∈ u.head?, c.isDigit = false ∧ c ≠ '.' := by
    subst exponent
    intro c h
    cases h
    exact ⟨rfl, by decide⟩
  have head : ∀ c ∈ ds.take 1, c.isDigit = true := fun c h => digits c (List.mem_of_mem_take h)
  have one : ds.take 1 ≠ [] := List.ne_nil_of_length_pos (by rw [List.length_take]; omega)
  split
  case isTrue short =>
    have read := reads_whole negative head one tail stop
    have all : ds.take 1 = ds := List.take_of_length_le short
    have place : (ds.length : Int) + e - 1 = e := by omega
    rw [all, value, place] at read
    rwa [all, List.append_nil]
  case isFalse more =>
    have read := reads_point negative (t := ds.drop 1) head one
      (fun c h => digits c (List.mem_of_mem_drop h)) tail fun c h => (stop c h).1
    have place : (ds.length : Int) + e - 1 - ((ds.drop 1).length : Int) = e := by
      rw [List.length_drop]
      omega
    rw [List.take_append_drop, value, place] at read
    rwa [List.append_assoc, List.cons_append]

/-! Rounding what was read. -/

/-- Ten to the 401st is beyond the range of the format. -/
theorem two_lt_ten : (2 : ℚ) ^ (1075 : Int) < 10 ^ (401 : Int) := by
  calc (2 : ℚ) ^ (1075 : Int) < 2 ^ ((3 : Int) * 401) := zpow_lt_zpow_right₀ (by norm_num) (by decide)
    _ = (2 ^ (3 : Int)) ^ (401 : Int) := zpow_mul ..
    _ ≤ 10 ^ (401 : Int) := zpow_le_zpow_left₀ (by decide) (by norm_num) (by norm_num)

/-- The bounds of what is rounded to a finite magnitude that is not zero. -/
theorem bounds_of_around {magnitude : Nat} (finite : magnitude < double.infinity) (positive : 0 < m)
    (eq : double.decode magnitude = (m, q)) (around : double.Around m q x) :
    (2 : ℚ) ^ (-1075 : Int) ≤ x ∧ x < 2 ^ (1027 : Int) := by
  obtain ⟨least, whole, fits, -⟩ := Format.decode_spec eq
  have hidden : double.hidden = 2 ^ 52 := rfl
  have infinity : double.infinity = 2047 * 2 ^ 52 := rfl
  have depth : (double.depth : Int) = 1074 := rfl
  rw [hidden] at whole fits
  rw [infinity] at finite
  rw [depth] at least whole
  have most : q ≤ 972 := by omega
  have reach := double.reach_le (m := m) (q := q)
  have unit := Format.zpow_two_pos q
  have positive' : (1 : ℚ) ≤ m := by exact_mod_cast positive
  have fits' : (m + 1 / 2 : ℚ) ≤ 2 ^ (54 : Int) := by
    have : (m : ℚ) + 1 ≤ 2 * 2 ^ 52 := by exact_mod_cast fits
    norm_num at this ⊢
    linarith
  constructor
  · calc (2 : ℚ) ^ (-1075 : Int) = 1 / 2 * 2 ^ (-1074 : Int) := by
          rw [show (-1074 : Int) = -1075 + 1 from rfl, Format.zpow_two_succ]
          ring
      _ ≤ 1 / 2 * 2 ^ q := by
          have := Format.zpow_two_le least
          gcongr
      _ ≤ (m - double.reach m q) * 2 ^ q := by
          gcongr
          linarith
      _ ≤ x := around.low
  · calc x ≤ (m + 1 / 2) * 2 ^ q := around.high
      _ ≤ 2 ^ (54 : Int) * 2 ^ (972 : Int) := by
          have := Format.zpow_two_le most
          gcongr
      _ = 2 ^ (1026 : Int) := by rw [← zpow_add₀ two_ne_zero]; rfl
      _ < 2 ^ (1027 : Int) := zpow_lt_zpow_right₀ (by norm_num) (by decide)

/-- A numeral for a number around a magnitude is rounded to that magnitude: it is not so small and not so
large that it is not looked at. -/
theorem round_of_around (negative : Bool) {magnitude mantissa : Nat} {exponent : Int}
    (finite : magnitude < double.infinity) (positive : 0 < m) (eq : double.decode magnitude = (m, q))
    (around : double.Around m q (mantissa * 10 ^ exponent)) :
    (Numeral.finite negative mantissa exponent).round double = some (negative, magnitude) := by
  obtain ⟨low, high⟩ := bounds_of_around finite positive eq around
  have some : mantissa ≠ 0 := by
    rintro rfl
    rw [Nat.cast_zero, zero_mul] at low
    exact absurd low (not_le.2 (Format.zpow_two_pos _))
  have unit := zpow_ten_pos exponent
  have size : ¬ ((mantissa.log2 / 3 + 1 : Nat) : Int) + exponent < -400 := by
    intro small
    have digits : (mantissa : ℚ) ≤ 10 ^ (mantissa.log2 / 3 + 1) := by
      have : mantissa ≤ 10 ^ (mantissa.log2 / 3 + 1) := by
        calc mantissa ≤ 2 ^ (mantissa.log2 + 1) := Nat.lt_log2_self.le
          _ ≤ 2 ^ (3 * (mantissa.log2 / 3 + 1)) := Nat.pow_le_pow_right (by decide) (by omega)
          _ = 8 ^ (mantissa.log2 / 3 + 1) := Nat.pow_mul ..
          _ ≤ 10 ^ (mantissa.log2 / 3 + 1) := Nat.pow_le_pow_left (by decide) _
      exact_mod_cast this
    have : (mantissa * 10 ^ exponent : ℚ) < 2 ^ (-1075 : Int) := by
      calc (mantissa * 10 ^ exponent : ℚ) ≤ 10 ^ (mantissa.log2 / 3 + 1) * 10 ^ exponent := by gcongr
        _ = 10 ^ (((mantissa.log2 / 3 + 1 : Nat) : Int) + exponent) := by
            rw [zpow_add₀ (by norm_num), zpow_natCast]
        _ ≤ 10 ^ (-401 : Int) := zpow_le_zpow_right₀ (by norm_num) (by omega)
        _ < 2 ^ (-1075 : Int) := by
            rw [zpow_neg, zpow_neg]
            exact inv_strictAnti₀ (Format.zpow_two_pos _) two_lt_ten
    exact absurd low (not_le.2 this)
  have least : ¬ (400 : Int) < (mantissa.log2 / 4 : Nat) + exponent := by
    intro large
    have digits : ((10 : ℚ) ^ (mantissa.log2 / 4)) ≤ mantissa := by
      have : 10 ^ (mantissa.log2 / 4) ≤ mantissa := by
        calc 10 ^ (mantissa.log2 / 4) ≤ 16 ^ (mantissa.log2 / 4) := Nat.pow_le_pow_left (by decide) _
          _ = 2 ^ (4 * (mantissa.log2 / 4)) := (Nat.pow_mul 2 4 _).symm
          _ ≤ 2 ^ mantissa.log2 := Nat.pow_le_pow_right (by decide) (by omega)
          _ ≤ mantissa := Nat.log2_self_le some
      exact_mod_cast this
    have : (2 : ℚ) ^ (1027 : Int) < mantissa * 10 ^ exponent := by
      calc (2 : ℚ) ^ (1027 : Int) < 10 ^ (401 : Int) :=
            lt_of_le_of_lt (Format.zpow_two_le (by decide)) two_lt_ten
        _ ≤ 10 ^ (((mantissa.log2 / 4 : Nat) : Int) + exponent) :=
            zpow_le_zpow_right₀ (by norm_num) (by omega)
        _ = 10 ^ (mantissa.log2 / 4) * 10 ^ exponent := by
            rw [zpow_add₀ (by norm_num), zpow_natCast]
        _ ≤ mantissa * 10 ^ exponent := by gcongr
    exact absurd high (not_lt.2 this.le)
  have fraction : ((mantissa * Nat.pow 10 exponent.toNat : Nat) : ℚ) /
      (Nat.pow 10 (-exponent).toNat : Nat) = mantissa * 10 ^ exponent := by
    rw [ten_over_one, Nat.cast_mul, mul_div_assoc]
  have small : ¬ (mantissa = 0 ∨ (mantissa.log2 / 3 + 1 + exponent : Int) < -400) := by
    rintro (none | small)
    · exact some none
    · exact size (by push_cast; exact small)
  have near := Format.nearest_eq (f := double) (by decide) finite.le eq
    (Nat.mul_pos (Nat.pos_of_ne_zero some) (Nat.pow_pos (by decide)))
    (Nat.pow_pos (by decide) : 0 < 10 ^ (-exponent).toNat) (fraction ▸ around)
  unfold Numeral.round
  dsimp only
  rw [if_neg small, if_neg (by push_cast at least; exact least)]
  exact congrArg (fun n => Option.some (negative, n)) near

/-! Layouts begin with a digit. -/

/-- A text begins with a digit. -/
def StartsWithDigit (s : List Char) : Prop :=
  ∃ c rest, s = c :: rest ∧ c.isDigit = true

theorem StartsWithDigit.append (h : StartsWithDigit s) (t : List Char) : StartsWithDigit (s ++ t) := by
  obtain ⟨c, rest, rfl, digit⟩ := h
  exact ⟨c, rest ++ t, rfl, digit⟩

theorem startsWithDigit_of_digits (digits : ∀ c ∈ s, c.isDigit = true) (here : s ≠ []) :
    StartsWithDigit s := by
  cases s with
  | nil => exact absurd rfl here
  | cons c rest => exact ⟨c, rest, rfl, digits c List.mem_cons_self⟩

theorem startsWithDigit_digitsOf (n : Nat) : StartsWithDigit (digitsOf n) :=
  startsWithDigit_of_digits isDigit_of_mem_digitsOf (List.ne_nil_of_length_pos (length_digitsOf_pos n))

theorem startsWithDigit_take {n k : Nat} (some : 0 < k) : StartsWithDigit ((digitsOf n).take k) := by
  refine startsWithDigit_of_digits (fun c h => isDigit_of_mem_digitsOf c (List.mem_of_mem_take h))
    (List.ne_nil_of_length_pos ?_)
  rw [List.length_take]
  have := length_digitsOf_pos n
  omega

theorem startsWithDigit_positional (n : Nat) (point : Int) :
    StartsWithDigit (positional (digitsOf n) point) := by
  unfold positional
  split
  · exact ⟨'0', _, rfl, rfl⟩
  · split
    · exact (startsWithDigit_digitsOf n).append _
    · rw [List.append_assoc]
      exact (startsWithDigit_take (by omega)).append _

theorem startsWithDigit_scientific (plus : Bool) (n : Nat) (point : Int) :
    StartsWithDigit (scientific plus (digitsOf n) point) := by
  unfold scientific
  dsimp only
  rw [List.append_assoc, List.append_assoc, List.append_assoc]
  exact (startsWithDigit_take Nat.one_pos).append _

theorem numeric_positional (h : Numeric s) (point : Int) : Numeric (positional s point) := by
  have zeros (k : Nat) : Numeric (List.replicate k '0') := Numeric.of_digits isDigit_of_mem_zeros
  unfold positional
  split
  · exact ((Numeric.of_all rfl).append (zeros _)).append h
  · split
    · exact h.append (zeros _)
    · exact (Numeric.append (fun c mem => h c (List.mem_of_mem_take mem)) (.of_all rfl)).append
        fun c mem => h c (List.mem_of_mem_drop mem)

theorem numeric_scientific (plus : Bool) (h : Numeric s) (point : Int) :
    Numeric (scientific plus s point) := by
  have sign : Numeric (if point - 1 < 0 then ['-'] else if plus then ['+'] else []) := by
    split
    · exact .of_all rfl
    · split
      · exact .of_all rfl
      · exact List.forall_mem_nil _
  have fraction : Numeric (if s.length ≤ 1 then [] else '.' :: s.drop 1) := by
    split
    · exact List.forall_mem_nil _
    · exact List.forall_mem_cons.2 ⟨rfl, fun c mem => h c (List.mem_of_mem_drop mem)⟩
  exact (((Numeric.append (fun c mem => h c (List.mem_of_mem_take mem)) fraction).append
    (.of_all rfl)).append sign).append (numeric_digitsOf _)

/-- A finite numeral with its sign. -/
theorem read?_of_reads {negative : Bool} (start : StartsWithDigit s) (reads : Reads negative s x) :
    ∃ mantissa exponent,
      Numeral.read? ((if negative then ['-'] else []) ++ s) = some (.finite negative mantissa exponent) ∧
        (mantissa * 10 ^ exponent : ℚ) = x := by
  obtain ⟨mantissa, exponent, read, value⟩ := reads
  refine ⟨mantissa, exponent, ?_, value⟩
  obtain ⟨c, rest, rfl, digit⟩ := start
  have signed : splitSign ((if negative then ['-'] else []) ++ c :: rest) = (negative, c :: rest) := by
    cases negative with
    | true => rfl
    | false =>
      rw [if_neg Bool.false_ne_true, List.nil_append]
      exact splitSign_of_digit (List.forall_mem_singleton.2 digit) rest (List.cons_ne_nil c [])
  have small : c.toLower = c := by
    refine Markup.toLower_of_not_upper ?_
    cases upper : c.isUpper with
    | false => rfl
    | true =>
      delta Char.isUpper at upper
      simp only [Char.isDigit, Bool.and_eq_true, decide_eq_true_eq] at digit upper
      exact absurd (Nat.le_trans upper.1 digit.2) (by decide)
  have word : ∀ d ds, d.isDigit = false → String.ofList ((c :: rest).map Char.toLower) ≠
      String.ofList (d :: ds) := by
    intro d ds other same
    have lists := String.ofList_injective same
    rw [List.map_cons, small] at lists
    rw [(List.cons.inj lists).1, other] at digit
    cases digit
  unfold Numeral.read?
  rw [signed]
  dsimp only
  rw [if_neg (word 'n' ['a', 'n'] rfl), if_neg, read]
  rintro (inf | infinity)
  · exact word 'i' ['n', 'f'] rfl inf
  · exact word 'i' ['n', 'f', 'i', 'n', 'i', 't', 'y'] rfl infinity

end Decimal

namespace Number
open Decimal

theorem around_self : f.Around m q (m * 2 ^ q) := by
  have unit := Format.zpow_two_pos q
  have reach := f.reach_pos (m := m) (q := q)
  have low : (m - f.reach m q) * 2 ^ q < m * 2 ^ q := by
    gcongr
    linarith
  have high : (m * 2 ^ q : ℚ) < (m + 1 / 2) * 2 ^ q := by
    gcongr
    linarith
  exact ⟨low.le, high.le, .inr ⟨low, high⟩⟩

/-- A magnitude that is whole is the number that its digits are of. -/
theorem whole?_spec {magnitude n : Nat} (eq : f.decode magnitude = (m, q))
    (whole : Style.whole? f magnitude = some n) : (n : ℚ) = m * 2 ^ q := by
  unfold Style.whole? at whole
  rw [eq] at whole
  dsimp only at whole
  split at whole
  case isTrue nonneg =>
    cases whole
    lift q to Nat using nonneg
    rw [Nat.shiftLeft_eq, Int.toNat_natCast, zpow_natCast]
    push_cast
    rfl
  case isFalse below =>
    split at whole
    case isFalse => cases whole
    case isTrue divides =>
      cases whole
      obtain ⟨k, rfl⟩ : ∃ k : Nat, q = -k := ⟨(-q).toNat, by omega⟩
      rw [neg_neg, Int.toNat_natCast, Nat.one_shiftLeft] at divides
      obtain ⟨n, rfl⟩ := Nat.dvd_of_mod_eq_zero divides
      rw [neg_neg, Int.toNat_natCast, Nat.shiftRight_eq_div_pow,
        Nat.mul_div_cancel_left _ (Nat.pow_pos (by decide)), zpow_neg, zpow_natCast]
      push_cast
      field_simp

/-- The digits of a finite magnitude that is not zero read as a number around it. -/
theorem reads_writeMagnitude {magnitude : Nat} (negative : Bool) (positive : 0 < m)
    (eq : double.decode magnitude = (m, q)) :
    StartsWithDigit (plainStyle.writeMagnitude double magnitude) ∧
      ∃ x, Reads negative (plainStyle.writeMagnitude double magnitude) x ∧ double.Around m q x := by
  have around := around_shortest (by decide : 4 * double.hidden ≤ 10 ^ 17) positive eq
  unfold Style.writeMagnitude
  dsimp only
  split
  · split
    case h_1 n whole =>
      have read := reads_whole negative (t := []) (e := 0) (isDigit_of_mem_digitsOf (n := n))
        (List.ne_nil_of_length_pos (length_digitsOf_pos n)) rfl nothing_next
      rw [digitsValue_digitsOf, zpow_zero, mul_one, whole?_spec eq whole] at read
      exact ⟨(startsWithDigit_digitsOf n).append _, _, read, around_self⟩
    case h_2 =>
      exact ⟨startsWithDigit_positional _ _, _, reads_positional negative _ _, around⟩
  · exact ⟨startsWithDigit_scientific _ _ _, _, reads_scientific negative _ _ _, around⟩

theorem numeric_text (n : Number) : Numeric n.text.toList := by
  have digits : Numeric (plainStyle.writeMagnitude double n.magnitude) := by
    unfold Style.writeMagnitude
    dsimp only
    split
    · split
      · exact (numeric_digitsOf _).append (List.forall_mem_nil _)
      · exact numeric_positional (numeric_digitsOf _) _
    · exact numeric_scientific _ (numeric_digitsOf _) _
  unfold text write Style.write
  split
  · exact .of_all rfl
  · split
    · cases n.isNegative <;> exact .of_all rfl
    · rw [String.toList_append]
      refine Numeric.append (by cases n.isNegative <;> exact .of_all rfl) ?_
      split
      · exact .of_all rfl
      · rw [String.toList_ofList]
        exact digits

theorem unbroken_text (n : Number) : Unbroken n.text.toList :=
  n.numeric_text.unbroken

theorem ofMagnitude_magnitude (n : Number) : ofMagnitude n.isNegative n.magnitude = n := by
  have bound : n.bits.toNat < 2 * signBit := n.bits.toNat_lt
  have positive : 0 < signBit := by decide
  have bits : (if n.isNegative then signBit + n.magnitude else n.magnitude) = n.bits.toNat := by
    unfold magnitude isNegative
    by_cases sign : signBit ≤ n.bits.toNat
    · rw [decide_eq_true sign, if_pos rfl, Nat.mod_eq_sub_mod sign, Nat.mod_eq_of_lt (by omega)]
      omega
    · rw [decide_eq_false sign, if_neg Bool.false_ne_true, Nat.mod_eq_of_lt (by omega)]
  unfold ofMagnitude
  rw [bits, UInt64.ofNat_toNat]

/-- The text of a number reads as the number, and that of a zero as zero. -/
theorem read?_text (n : Number) (number : n.isNaN = false) :
    ∃ n', read? n.text.toList = some n' ∧ n'.canonical = n.canonical := by
  have most : n.magnitude ≤ double.infinity := Nat.not_lt.1 (of_decide_eq_false number)
  unfold text write Style.write
  rw [if_neg (Nat.not_lt.2 most)]
  by_cases zero : n.magnitude = 0
  · have canonical : n.canonical = 0 := by
      unfold canonical isZero
      rw [number, if_neg Bool.false_ne_true, zero]
      rfl
    have style : (n.isNegative && plainStyle.signedZero) = false := Bool.and_false _
    refine ⟨Number.zero, ?_, canonical.symm⟩
    rw [if_pos zero, style]
    decide
  rw [if_neg zero]
  by_cases infinite : n.magnitude = double.infinity
  · rw [if_pos infinite]
    refine ⟨n, ?_, rfl⟩
    have self := ofMagnitude_magnitude n
    rw [infinite] at self
    rw [← self]
    cases n.isNegative with
    | true => decide
    | false => decide
  rw [if_neg infinite]
  have finite : n.magnitude < double.infinity := Nat.lt_of_le_of_ne most infinite
  obtain ⟨m, q, eq⟩ : ∃ m q, double.decode n.magnitude = (m, q) := ⟨_, _, rfl⟩
  have positive : 0 < m := by
    obtain ⟨least, whole, -, full⟩ := Format.decode_spec eq
    rcases full with full | smallest
    · exact Nat.lt_of_lt_of_le Format.hidden_pos full
    · rw [smallest, neg_add_cancel, Int.toNat_zero, Nat.zero_mul, Nat.zero_add] at whole
      omega
  obtain ⟨start, x, reads, around⟩ := reads_writeMagnitude n.isNegative positive eq
  obtain ⟨mantissa, exponent, read, value⟩ := read?_of_reads start reads
  refine ⟨n, ?_, rfl⟩
  have signed : ((if n.isNegative then "-" else "") ++
      String.ofList (plainStyle.writeMagnitude double n.magnitude)).toList =
        (if n.isNegative then ['-'] else []) ++ plainStyle.writeMagnitude double n.magnitude := by
    rw [String.toList_append, String.toList_ofList]
    cases n.isNegative <;> rfl
  rw [signed]
  unfold read? ofNumeral
  rw [read, Option.map_some, round_of_around n.isNegative finite positive eq (value ▸ around)]
  exact congrArg some (ofMagnitude_magnitude n)

end Number

namespace Date
open Decimal

/-! Dates. -/

theorem isDigit_of_mem_padded {width n : Nat} : ∀ c ∈ padded width n, c.isDigit = true :=
  fun c h => (List.mem_append.1 h).elim (isDigit_of_mem_zeros c) (isDigit_of_mem_digitsOf c)

theorem digitsValue_padded (width n : Nat) : digitsValue 0 (padded width n) = n := by
  unfold padded
  rw [digitsValue_append, digitsValue_zeros, Nat.zero_mul, digitsValue_digitsOf]

theorem length_padded {width n : Nat} (some : 0 < width) (fits : n < 10 ^ width) :
    (padded width n).length = width := by
  have short : (digitsOf n).length ≤ width := (Nat.length_toDigits_le_iff (by decide) some).2 fits
  unfold padded
  rw [List.length_append, List.length_replicate]
  omega

theorem padded_ne_nil (width n : Nat) : padded width n ≠ [] :=
  List.append_ne_nil_of_right_ne_nil _ (List.ne_nil_of_length_pos (length_digitsOf_pos n))

/-- Digits are read as far as there are any. -/
theorem readDigits?_padded {most width n : Nat} (fits : (padded width n).length ≤ most)
    (stop : ∀ c ∈ s.head?, c.isDigit = false) :
    readDigits? most (padded width n ++ s) = some (n, s) := by
  have taken : ((padded width n ++ s).take most).takeWhile Char.isDigit = padded width n := by
    rw [List.take_append, List.take_of_length_le fits]
    refine (Markup.takeWhile_append_stop _ isDigit_of_mem_padded fun c h => ?_).1
    cases s with
    | nil =>
      rw [List.take_nil] at h
      cases h
    | cons d s =>
      cases rest : most - (padded width n).length with
      | zero =>
        rw [rest] at h
        cases h
      | succ k =>
        rw [rest] at h
        cases h
        exact stop c rfl
  have nonempty : (padded width n).isEmpty = false :=
    List.isEmpty_eq_false_iff.2 (padded_ne_nil width n)
  unfold readDigits?
  dsimp only
  rw [taken, nonempty, if_neg Bool.false_ne_true, digitsValue_padded, List.drop_left]

theorem readYear?_text (year : Int) (s : List Char) :
    readYear? (yearText year ++ '-' :: s) = some (year, '-' :: s) := by
  have stop : ∀ c ∈ ('-' :: s).head?, c.isDigit = false := by
    intro c h
    cases h
    rfl
  unfold yearText
  split
  case isTrue plain =>
    have four : (padded 4 year.toNat).length = 4 := length_padded (by decide) (by omega)
    have read : readDigits? 4 (padded 4 year.toNat ++ '-' :: s) = some (year.toNat, '-' :: s) :=
      readDigits?_padded four.le stop
    obtain ⟨c, rest, same, digit⟩ :=
      startsWithDigit_of_digits isDigit_of_mem_padded (padded_ne_nil 4 year.toNat)
    have start : Text.trimStart (padded 4 year.toNat ++ '-' :: s) = padded 4 year.toNat ++ '-' :: s := by
      rw [same]
      exact Markup.trimStart_of_not_blank (not_blank_of_isDigit digit) _
    unfold readYear?
    rw [start]
    split
    case h_1 eq =>
      rw [same] at eq
      cases eq
      cases digit
    case h_2 eq =>
      rw [same] at eq
      cases eq
      cases digit
    case h_3 =>
      have whole : (year.toNat : Int) = year := Int.toNat_of_nonneg plain.1
      rw [read]
      exact congrArg (fun y => some (y, '-' :: s)) whole
  case isFalse =>
    have read (t : List Char) (here : t = padded 4 year.natAbs ++ '-' :: s) :
        readDigits? t.length t = some (year.natAbs, '-' :: s) := by
      subst here
      exact readDigits?_padded (by rw [List.length_append]; omega) stop
    by_cases negative : year < 0
    · have year' : -(year.natAbs : Int) = year := by omega
      have minus : readYear? ('-' :: (padded 4 year.natAbs ++ '-' :: s)) =
          (readDigits? _ (padded 4 year.natAbs ++ '-' :: s)).map fun p => (-(p.1 : Int), p.2) := rfl
      rw [if_pos negative, List.cons_append, minus, read _ rfl, Option.map_some, year']
    · have year' : (year.natAbs : Int) = year := by omega
      have plus : readYear? ('+' :: (padded 4 year.natAbs ++ '-' :: s)) =
          (readDigits? _ (padded 4 year.natAbs ++ '-' :: s)).map fun p => ((p.1 : Int), p.2) := rfl
      rw [if_neg negative, List.cons_append, plus, read _ rfl, Option.map_some, year']

theorem readPart?_padded {n : Nat} (fits : n < 100) (stop : ∀ c ∈ s.head?, c.isDigit = false) :
    readPart? ('-' :: (padded 2 n ++ s)) = some (n, s) := by
  obtain ⟨c, rest, same, digit⟩ := startsWithDigit_of_digits isDigit_of_mem_padded (padded_ne_nil 2 n)
  have start : Text.trimStart (padded 2 n ++ s) = padded 2 n ++ s := by
    rw [same]
    exact Markup.trimStart_of_not_blank (not_blank_of_isDigit digit) _
  have hyphen : readPart? ('-' :: (padded 2 n ++ s)) = readDigits? 2 (Text.trimStart (padded 2 n ++ s)) :=
    rfl
  rw [hyphen, start]
  exact readDigits?_padded (length_padded (by decide) fits).le stop

theorem daysIn_le (year : Int) (month : Nat) : daysIn year month ≤ 31 := by
  unfold daysIn
  split
  · split <;> decide
  all_goals decide

theorem numeric_text (d : Date) : Numeric d.text.toList := by
  have padded (width n : Nat) : Numeric (padded width n) := Numeric.of_digits isDigit_of_mem_padded
  have year : Numeric (yearText d.year) := by
    unfold yearText
    split
    · exact padded _ _
    · exact List.forall_mem_cons.2 ⟨by split <;> rfl, padded _ _⟩
  unfold text
  rw [String.toList_ofList]
  exact (year.append (List.forall_mem_cons.2 ⟨rfl, padded _ _⟩)).append
    (List.forall_mem_cons.2 ⟨rfl, padded _ _⟩)

theorem unbroken_text (d : Date) : Unbroken d.text.toList :=
  d.numeric_text.unbroken

/-- The text of a date reads as the date. -/
theorem read?_text (d : Date) : read? d.text.toList = some d := by
  have valid := d.valid
  simp only [isDate, Bool.and_eq_true, decide_eq_true_eq] at valid
  obtain ⟨⟨-, some⟩, fits⟩ := valid
  have days := daysIn_le d.year d.month
  have month : d.month < 100 := by
    refine Nat.lt_of_not_le fun large => ?_
    have none : daysIn d.year d.month = 0 := by
      unfold daysIn
      split <;> first | rfl | omega
    omega
  have stop : ∀ c ∈ ('-' :: padded 2 d.day).head?, c.isDigit = false := by
    intro c h
    cases h
    rfl
  have day := readPart?_padded (n := d.day) (s := []) (by omega) nothing_next
  rw [List.append_nil] at day
  unfold text read?
  rw [String.toList_ofList, List.append_assoc, List.cons_append, readYear?_text]
  dsimp only
  rw [readPart?_padded month stop]
  dsimp only
  rw [day]
  exact dif_pos d.valid

end Date
end LiveMarkup
