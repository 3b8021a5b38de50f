import Mathlib.Data.Int.Log
import Mathlib.Data.Rat.Floor
import Mathlib.Tactic.FieldSimp
import Mathlib.Tactic.Linarith
import HybridTable.Number.Decimal

/-! Rounding to significant digits. The quotient of two natural numbers is scaled by a power of ten
so that it has as many digits before the point as are asked for, and then rounded to an integer.
All of this is exact. Rounding up to a power of ten gives one digit more, so the power of ten of the
leading digit is read off the result and not off the quotient. -/
namespace HybridTable

/-- Being the integer nearest to a rational number, and of two equally near ones the even one. -/
def IsNearestEven (q : ℚ) (k : ℤ) : Prop := |q - k| ≤ 1 / 2 ∧ (|q - k| = 1 / 2 → Even k)

/-- Being a rational number rounded to so many significant digits. -/
def RoundsTo (count : ℕ) (q rounded : ℚ) : Prop :=
  let unit : ℚ := 10 ^ (Int.log 10 |q| + 1 - count)
  ∃ k : ℤ, rounded = k * unit ∧ IsNearestEven (q / unit) k

/-! ## Nearest integers -/

namespace IsNearestEven

variable {q : ℚ} {k k' : ℤ}

theorem neg (nearest : IsNearestEven q k) : IsNearestEven (-q) (-k) := by
  have same : |-q - ((-k : ℤ) : ℚ)| = |q - k| := by
    rw [Int.cast_neg, ← abs_neg]
    congr 1
    ring
  unfold IsNearestEven
  rw [same, even_neg]
  exact nearest

/-- Two integers cannot both be nearest, since of two neighbours one is odd. -/
theorem unique (nearest : IsNearestEven q k) (nearest' : IsNearestEven q k') : k = k' := by
  by_contra apart
  wlog less : k < k' generalizing k k'
  · exact this nearest' nearest (Ne.symm apart) (lt_of_le_of_ne (not_lt.mp less) (Ne.symm apart))
  have above := (abs_le.mp nearest.1).2
  have below := (abs_le.mp nearest'.1).1
  have step : (k : ℚ) + 1 ≤ k' := by exact_mod_cast less
  have next : (k' : ℚ) = k + 1 := by linarith
  have half : q - k = 1 / 2 := by linarith
  have half' : q - k' = -(1 / 2) := by linarith
  have even : Even k := nearest.2 (by rw [half]; norm_num)
  have even' : Even (k + 1) := by
    rw [show k + 1 = k' by exact_mod_cast next.symm]
    exact nearest'.2 (by rw [half']; norm_num)
  exact (Int.even_add_one.mp even') even

/-- Rounding does not pass an integer. -/
theorem le_of_le (nearest : IsNearestEven q k) {bound : ℤ} (within : q ≤ bound) : k ≤ bound := by
  by_contra past
  have step : (bound : ℚ) + 1 ≤ k := by exact_mod_cast not_le.mp past
  have below := (abs_le.mp nearest.1).1
  have whole : q = bound := by linarith
  linarith

theorem ge_of_ge (nearest : IsNearestEven q k) {bound : ℤ} (within : bound ≤ q) : bound ≤ k := by
  have within' : -q ≤ (-bound : ℤ) := by
    rw [Int.cast_neg]
    exact neg_le_neg within
  exact neg_le_neg_iff.mp (nearest.neg.le_of_le within')

end IsNearestEven

namespace RoundsTo

variable {count : ℕ} {q rounded : ℚ}

theorem zero (count : ℕ) : RoundsTo count 0 0 := ⟨0, by simp, by simp [IsNearestEven]⟩

theorem neg (rounds : RoundsTo count q rounded) : RoundsTo count (-q) (-rounded) := by
  obtain ⟨k, multiple, nearest⟩ := rounds
  unfold RoundsTo
  rw [abs_neg]
  refine ⟨-k, ?_, ?_⟩
  · rw [multiple, Int.cast_neg, neg_mul]
  · rw [neg_div]
    exact nearest.neg

/-- Rounding is off by half a unit of the last digit at most. -/
theorem error_le (rounds : RoundsTo count q rounded) :
    |rounded - q| ≤ 10 ^ (Int.log 10 |q| + 1 - count) / 2 := by
  obtain ⟨k, multiple, near, -⟩ := rounds
  have unit : (0 : ℚ) < 10 ^ (Int.log 10 |q| + 1 - count) := zpow_pos (by norm_num) _
  rw [multiple, abs_sub_comm]
  generalize (10 : ℚ) ^ (Int.log 10 |q| + 1 - count) = u at *
  have scaled : q - k * u = (q / u - k) * u := by
    rw [sub_mul, div_mul_cancel₀ _ unit.ne']
  rw [scaled, abs_mul, abs_of_pos unit]
  linarith [mul_le_mul_of_nonneg_right near unit.le]

end RoundsTo

/-- Rounding down or up is decided by twice the remainder and, halfway, by the last digit. -/
theorem roundHalfEven_cases (n d : ℕ) :
    (roundHalfEven n d = n / d ∧ 2 * (n % d) ≤ d ∧ (2 * (n % d) = d → n / d % 2 = 0)) ∨
      (roundHalfEven n d = n / d + 1 ∧ d ≤ 2 * (n % d) ∧ (2 * (n % d) = d → n / d % 2 = 1)) := by
  unfold roundHalfEven
  dsimp only
  generalize n / d = whole
  split
  · rename_i down
    simp only [Bool.or_eq_true, decide_eq_true_eq, Bool.and_eq_true, beq_iff_eq] at down
    exact .inl ⟨rfl, by omega, by omega⟩
  · rename_i up
    simp only [Bool.or_eq_true, decide_eq_true_eq, Bool.and_eq_true, beq_iff_eq] at up
    exact .inr ⟨rfl, by omega, by omega⟩

theorem isNearestEven_roundHalfEven {n d : ℕ} (positive : 0 < d) :
    IsNearestEven (n / d) (roundHalfEven n d) := by
  have scale : (0 : ℚ) < d := Nat.cast_pos.mpr positive
  have quotient : (n : ℚ) / d = (n / d : ℕ) + (n % d : ℕ) / d := by
    rw [div_eq_iff scale.ne', add_mul, div_mul_cancel₀ _ scale.ne', mul_comm]
    exact_mod_cast (Nat.div_add_mod n d).symm
  have less : ((n % d : ℕ) : ℚ) / d < 1 :=
    (div_lt_one scale).mpr (Nat.cast_lt.mpr (Nat.mod_lt n positive))
  have nonneg : 0 ≤ ((n % d : ℕ) : ℚ) / d := by positivity
  have half_le : ((n % d : ℕ) : ℚ) / d ≤ 1 / 2 ↔ 2 * (n % d) ≤ d := by
    rw [div_le_div_iff₀ scale two_pos, one_mul, mul_comm]
    exact_mod_cast Iff.rfl
  have half_ge : 1 / 2 ≤ ((n % d : ℕ) : ℚ) / d ↔ d ≤ 2 * (n % d) := by
    rw [div_le_div_iff₀ two_pos scale, one_mul, mul_comm]
    exact_mod_cast Iff.rfl
  have cases := roundHalfEven_cases n d
  rw [quotient]
  generalize ((n % d : ℕ) : ℚ) / d = rest at *
  generalize n / d = whole at *
  rcases cases with ⟨down, little, even⟩ | ⟨up, much, odd⟩
  · have away : (whole : ℚ) + rest - ((roundHalfEven n d : ℕ) : ℤ) = rest := by
      rw [down]
      push_cast
      ring
    unfold IsNearestEven
    rw [away, abs_of_nonneg nonneg]
    refine ⟨half_le.mpr little, fun tie => ?_⟩
    have half := half_ge.mp tie.ge
    rw [down]
    exact_mod_cast Nat.even_iff.mpr (even (by omega))
  · have away : (whole : ℚ) + rest - ((roundHalfEven n d : ℕ) : ℤ) = rest - 1 := by
      rw [up]
      push_cast
      ring
    have past := half_ge.mpr much
    unfold IsNearestEven
    rw [away, abs_of_neg (by linarith)]
    refine ⟨by linarith, fun tie => ?_⟩
    have half := half_le.mp (by linarith)
    rw [up]
    exact_mod_cast Nat.even_iff.mpr (by have := odd (by omega); omega)

/-! ## Counting digits -/

/-- A number has at most so many digits when it is below that power of ten. -/
theorem digitCount_le_iff {n k : ℕ} : digitCount n ≤ k ↔ n < 10 ^ k := by
  induction k generalizing n with
  | zero =>
    unfold digitCount
    split <;> omega
  | succ k ih =>
    rw [digitCount]
    split
    · rename_i zero
      simp [zero]
    · rw [Nat.succ_le_succ_iff, ih, Nat.div_lt_iff_lt_mul (by decide), Nat.pow_succ]

theorem lt_pow_digitCount (n : ℕ) : n < 10 ^ digitCount n := digitCount_le_iff.mp le_rfl

theorem digitCount_pos {n : ℕ} (nonzero : n ≠ 0) : 0 < digitCount n := by
  rw [digitCount, if_neg nonzero]
  exact Nat.succ_pos _

theorem pow_digitCount_le {n : ℕ} (nonzero : n ≠ 0) : 10 ^ (digitCount n - 1) ≤ n := by
  by_contra less
  have := digitCount_le_iff.mpr (not_le.mp less)
  have := digitCount_pos nonzero
  omega

theorem digitCount_of_bounds {n count : ℕ} (least : 10 ^ (count - 1) ≤ n) (most : n < 10 ^ count) :
    digitCount n = count := by
  have enough := digitCount_le_iff.mpr most
  have more : ¬ digitCount n ≤ count - 1 := fun few => absurd (digitCount_le_iff.mp few) (by omega)
  omega

/-- The power of ten that a positive number reaches is unique. -/
theorem log_eq_of_bounds {q : ℚ} {e : ℤ} (reached : 10 ^ e ≤ q) (below : q < 10 ^ (e + 1)) :
    Int.log 10 q = e := by
  have positive : 0 < q := lt_of_lt_of_le (zpow_pos (by norm_num) e) reached
  have least := (Int.zpow_le_iff_le_log (b := 10) (by decide) positive).mp
    (by exact_mod_cast reached)
  have greatest := (Int.lt_zpow_iff_log_lt (b := 10) (by decide) positive).mp
    (by exact_mod_cast below)
  omega

theorem cast_pow_mul_zpow (a : ℕ) (e : ℤ) : ((10 ^ a : ℕ) : ℚ) * 10 ^ e = 10 ^ (a + e) := by
  rw [Nat.cast_pow, Nat.cast_ofNat, zpow_add₀ (by norm_num), zpow_natCast]

theorem ne_zero_of_trimmed {n : ℕ} (trimmed : n % 10 ≠ 0) : n ≠ 0 := by
  rintro rfl
  exact trimmed rfl

namespace Decimal

/-- The number that a decimal is. -/
def value (d : Decimal) : ℚ := d.significand * 10 ^ d.exponent

theorem value_pos {d : Decimal} (nonzero : d.significand ≠ 0) : 0 < d.value :=
  mul_pos (Nat.cast_pos.mpr (Nat.pos_of_ne_zero nonzero)) (zpow_pos (by norm_num) _)

/-- The leading digit of a decimal is the one that its size is reached with. -/
theorem log_value {d : Decimal} (nonzero : d.significand ≠ 0) : Int.log 10 d.value = d.leading := by
  have unit : (0 : ℚ) < 10 ^ d.exponent := zpow_pos (by norm_num) _
  have count := digitCount_pos nonzero
  refine log_eq_of_bounds ?_ ?_
  · rw [show d.leading = (digitCount d.significand - 1 : ℕ) + d.exponent by unfold leading; omega,
      ← cast_pow_mul_zpow]
    exact mul_le_mul_of_nonneg_right (Nat.cast_le.mpr (pow_digitCount_le nonzero)) unit.le
  · rw [show d.leading + 1 = (digitCount d.significand : ℕ) + d.exponent by unfold leading; omega,
      ← cast_pow_mul_zpow]
    exact mul_lt_mul_of_pos_right (Nat.cast_lt.mpr (lt_pow_digitCount _)) unit

/-- Trimming moves all the zeros at the end into the exponent. -/
theorem exists_trim {d : Decimal} (nonzero : d.significand ≠ 0) :
    d.trim.significand % 10 ≠ 0 ∧ ∃ zeros : ℕ,
      d.significand = d.trim.significand * 10 ^ zeros ∧ d.trim.exponent = d.exponent + zeros := by
  fun_induction trim d with
  | case1 d more ih =>
    have shorter : d.significand / 10 ≠ 0 := by omega
    obtain ⟨trimmed, zeros, digits, moved⟩ := ih shorter
    refine ⟨trimmed, zeros + 1, ?_, ?_⟩
    · rw [Nat.pow_succ, ← Nat.mul_assoc, ← digits]
      dsimp only
      omega
    · rw [moved]
      push_cast
      ring
  | case2 d done => exact ⟨fun zero => done ⟨nonzero, zero⟩, 0, by simp, by simp⟩

theorem value_trim {d : Decimal} (nonzero : d.significand ≠ 0) : d.trim.value = d.value := by
  obtain ⟨-, zeros, digits, moved⟩ := exists_trim nonzero
  unfold value
  rw [moved, zpow_add₀ (by norm_num), zpow_natCast, digits]
  push_cast
  ring

/-! ## The quotient of two natural numbers -/

section
variable {n d : ℕ} (some_units : 0 < n) (positive : 0 < d)
include some_units positive

/-- The leading digit of a quotient is found by division without a remainder. -/
theorem log_div : Int.log 10 (n / d : ℚ) = leadingOf n d := by
  have above : (0 : ℚ) < n := Nat.cast_pos.mpr some_units
  have scale : (0 : ℚ) < d := Nat.cast_pos.mpr positive
  unfold leadingOf
  split
  · rename_i large
    have nonzero : n / d ≠ 0 := (Nat.div_pos large positive).ne'
    have count := digitCount_pos nonzero
    have least := (Nat.le_div_iff_mul_le positive).mp (pow_digitCount_le nonzero)
    have most := (Nat.div_lt_iff_lt_mul positive).mp (lt_pow_digitCount (n / d))
    refine log_eq_of_bounds ?_ ?_
    · rw [show (digitCount (n / d) : ℤ) - 1 = (digitCount (n / d) - 1 : ℕ) by omega, zpow_natCast,
        le_div_iff₀ scale]
      exact_mod_cast least
    · rw [Int.sub_add_cancel, zpow_natCast, div_lt_iff₀ scale]
      exact_mod_cast most
  · rename_i small
    have nonzero : (d - 1) / n ≠ 0 := (Nat.div_pos (by omega) some_units).ne'
    have count := digitCount_pos nonzero
    have least := (Nat.le_div_iff_mul_le some_units).mp (pow_digitCount_le nonzero)
    have most := (Nat.div_lt_iff_lt_mul some_units).mp (lt_pow_digitCount ((d - 1) / n))
    refine log_eq_of_bounds ?_ ?_
    · rw [zpow_neg, zpow_natCast, inv_le_iff_one_le_mul₀ (by positivity), mul_comm, ← mul_div_assoc,
        one_le_div scale]
      exact_mod_cast (by omega : d ≤ 10 ^ digitCount ((d - 1) / n) * n)
    · rw [show -(digitCount ((d - 1) / n) : ℤ) + 1 = -(digitCount ((d - 1) / n) - 1 : ℕ) by omega,
        zpow_neg, zpow_natCast, lt_inv_comm₀ (by positivity) (by positivity), inv_div,
        lt_div_iff₀ above]
      exact_mod_cast (by omega : 10 ^ (digitCount ((d - 1) / n) - 1) * n < d)

end

/-- Scaling divides by a power of ten. -/
theorem scale_spec (n : ℕ) {d : ℕ} (positive : 0 < d) (e : ℤ) :
    0 < (scale n d e).2 ∧ ((scale n d e).1 / (scale n d e).2 : ℚ) = n / d / 10 ^ e := by
  have ten : (10 : ℚ) ≠ 0 := by norm_num
  unfold scale
  split
  · obtain ⟨k, rfl⟩ : ∃ k : ℕ, e = -k := ⟨e.natAbs, by omega⟩
    refine ⟨positive, ?_⟩
    simp
    ring
  · obtain ⟨k, rfl⟩ : ∃ k : ℕ, e = k := ⟨e.natAbs, by omega⟩
    refine ⟨Nat.mul_pos positive (Nat.pow_pos (by decide)), ?_⟩
    simp
    rw [div_div]

/-- A decimal of one digit more than wanted, if that is a power of ten, with the digit taken off. -/
def carry (count : ℕ) (d : Decimal) : Decimal :=
  if d.significand = 10 ^ count then ⟨10 ^ (count - 1), d.exponent + 1⟩ else d

/-- Taking off a zero makes no difference once all are taken off. -/
theorem trim_carry {count : ℕ} (some_digit : 0 < count) (d : Decimal) :
    (d.carry count).trim = d.trim := by
  unfold carry
  split
  · rename_i power
    have shorter : d.significand / 10 = 10 ^ (count - 1) := by
      rw [power, ← Nat.pow_sub_one (by decide) some_digit.ne']
    have more : d.significand ≠ 0 ∧ d.significand % 10 = 0 := by
      rw [power]
      exact ⟨(Nat.pow_pos (by decide)).ne', Nat.mod_eq_zero_of_dvd (dvd_pow_self 10 some_digit.ne')⟩
    rw [trim.eq_def d, if_pos more, shorter]
  · rfl

section
variable {count n d : ℕ} (some_digit : 0 < count) (some_units : 0 < n) (positive : 0 < d)

include positive in
/-- The significand is the quotient rounded on the grid of its last digit. -/
theorem isNearestEven_significant : IsNearestEven (n / d / 10 ^ (significant count n d).exponent)
    (significant count n d).significand := by
  obtain ⟨positive', scaled⟩ := scale_spec n positive (leadingOf n d + 1 - count)
  exact scaled ▸ isNearestEven_roundHalfEven positive'

include some_digit positive in
/-- What rounds up to a power of ten also does on the coarser grid, from even nearer. -/
theorem isNearestEven_carry :
    IsNearestEven (n / d / 10 ^ ((significant count n d).carry count).exponent)
      ((significant count n d).carry count).significand := by
  have nearest : IsNearestEven (n / d / 10 ^ (significant count n d).exponent)
      (significant count n d).significand := isNearestEven_significant positive
  unfold carry
  split
  · rename_i power
    have near := nearest.1
    have coarser : (n / d / 10 ^ ((significant count n d).exponent + 1) : ℚ) =
        n / d / 10 ^ (significant count n d).exponent / 10 := by
      rw [zpow_add_one₀ (by norm_num), div_mul_eq_div_div]
    have tenth : ((10 ^ (count - 1) : ℕ) : ℚ) = (10 ^ count : ℕ) / 10 := by
      rw [eq_div_iff (by norm_num)]
      exact_mod_cast pow_sub_one_mul some_digit.ne' 10
    rw [power, Int.cast_natCast] at near
    have nearer : |(n / d / 10 ^ ((significant count n d).exponent + 1) : ℚ) -
        ((10 ^ (count - 1) : ℕ) : ℤ)| ≤ 1 / 20 := by
      rw [coarser, Int.cast_natCast, tenth, ← sub_div, abs_div,
        abs_of_pos (by norm_num : (0 : ℚ) < 10)]
      linarith
    exact ⟨by linarith, fun tie => absurd tie (by linarith)⟩
  · exact nearest

include some_units positive

/-- A quotient is rounded to so many digits. -/
theorem roundsTo_significant : RoundsTo count (n / d) (significant count n d).value := by
  have absolute : |(n / d : ℚ)| = n / d := abs_of_nonneg (by positivity)
  refine ⟨(significant count n d).significand, ?_, ?_⟩
  · rw [absolute, log_div some_units positive]
    rfl
  · rw [absolute, log_div some_units positive]
    exact isNearestEven_significant positive

include some_digit

/-- The significand has as many digits as are asked for, or is the next power of ten. -/
theorem significand_bounds : 10 ^ (count - 1) ≤ (significant count n d).significand ∧
    (significant count n d).significand ≤ 10 ^ count := by
  have nearest : IsNearestEven (n / d / 10 ^ (significant count n d).exponent)
      (significant count n d).significand := isNearestEven_significant positive
  have exponent : (significant count n d).exponent = Int.log 10 (n / d : ℚ) + 1 - count := by
    rw [log_div some_units positive]
    rfl
  have quotient : (0 : ℚ) < n / d :=
    div_pos (Nat.cast_pos.mpr some_units) (Nat.cast_pos.mpr positive)
  have reached := Int.zpow_log_le_self (b := 10) (by decide) quotient
  have below := Int.lt_zpow_succ_log_self (b := 10) (by decide) (n / d : ℚ)
  have unit : (0 : ℚ) < 10 ^ (significant count n d).exponent := zpow_pos (by norm_num) _
  generalize (significant count n d).significand = k at *
  generalize (significant count n d).exponent = e at *
  generalize Int.log 10 (n / d : ℚ) = leading at *
  constructor
  · have least : (((10 ^ (count - 1) : ℕ) : ℤ) : ℚ) ≤ n / d / 10 ^ e := by
      rw [le_div_iff₀ unit, Int.cast_natCast, cast_pow_mul_zpow,
        show ((count - 1 : ℕ) : ℤ) + e = leading by omega]
      exact_mod_cast reached
    exact_mod_cast nearest.ge_of_ge least
  · have most : n / d / 10 ^ e ≤ (((10 ^ count : ℕ) : ℤ) : ℚ) := by
      rw [div_le_iff₀ unit, Int.cast_natCast, cast_pow_mul_zpow,
        show (count : ℤ) + e = leading + 1 by omega]
      exact_mod_cast below.le
    exact_mod_cast nearest.le_of_le most

theorem digitCount_carry :
    digitCount ((significant count n d).carry count).significand = count := by
  obtain ⟨least, most⟩ := significand_bounds some_digit some_units positive
  unfold carry
  split
  · exact digitCount_of_bounds le_rfl (Nat.pow_lt_pow_right (by decide) (by omega))
  · exact digitCount_of_bounds least (by omega)

end

end Decimal

end HybridTable
