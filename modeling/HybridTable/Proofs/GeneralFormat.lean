import Mathlib.Data.List.DropRight
import HybridTable.Proofs.NumberText

/-! The format with fourteen significant digits. By its rules a number is first written with an
exponent, which is compared with the precision, and then perhaps again without one, to as many
decimals as that exponent leaves. Both times it is rounded. That the two agree is clear except where
rounding gives a power of ten, and there the second rounding gives the same power. -/
namespace HybridTable

open NumberLayout

/-! ## The format -/

/-- Digits with a point before the last so many of them. -/
def withPoint (decimals : ℕ) (ds : List Char) : List Char :=
  if decimals = 0 then ds
  else ds.take (ds.length - decimals) ++ '.' :: ds.drop (ds.length - decimals)

/-- The quotient `n / d`, correctly rounded to so many decimals. -/
def fixedText (decimals n d : ℕ) : List Char :=
  withPoint decimals ((digits (roundHalfEven (n * 10 ^ decimals) d)).leftpad (decimals + 1) '0')

/-- The quotient `n / d` with one digit before the point and so many after it, correctly rounded,
and its exponent. -/
def exponentText (decimals n d : ℕ) : List Char × Int :=
  if n = 0 then (withPoint decimals (List.replicate (decimals + 1) '0'), 0)
  else
    let rounded := (Decimal.significant (decimals + 1) n d).carry (decimals + 1)
    (withPoint decimals (digits rounded.significand), rounded.leading)

/-- A text without the zeros at the end of a fraction, and without a point that then comes last. -/
def withoutZeros (text : List Char) : List Char :=
  if '.' ∈ text then (text.rdropWhile (· == '0')).rdropWhile (· == '.') else text

/-- The quotient `n / d` to so many significant digits: with an exponent if that is less than -4 or
not less than the precision, and otherwise with as many decimals as the exponent leaves. -/
def generalText (precision n d : ℕ) : List Char :=
  let (mantissa, exponent) := exponentText (precision - 1) n d
  if exponent < -4 ∨ precision ≤ exponent then
    withoutZeros mantissa ++ NumberText.spellExponent exponent
  else withoutZeros (fixedText (precision - 1 - exponent).toNat n d)

/-- A finite number to so many significant digits. -/
def Binary64.general (precision : ℕ) (x : Binary64) : List Char :=
  (if x.isNegative then ['-'] else []) ++ generalText precision x.unitCount Binary64.unitsPerOne

/-! ## Zeros at the end -/

theorem rdropWhile_of_getLast? {l : List Char} {c : Char} (other : l.getLast? ≠ some c) :
    l.rdropWhile (· == c) = l := by
  rw [List.rdropWhile_eq_self_iff]
  intro nonempty same
  exact other (by rw [List.getLast?_eq_some_getLast nonempty, beq_iff_eq.mp same])

theorem rdropWhile_append_replicate (l : List Char) (c : Char) (n : ℕ) :
    (l ++ List.replicate n c).rdropWhile (· == c) = l.rdropWhile (· == c) := by
  induction n with
  | zero => simp
  | succ n ih =>
    rw [List.replicate_succ', ← List.append_assoc,
      List.rdropWhile_concat_pos (fun other => other == c) _ _ (beq_self_eq_true c), ih]

/-- All that is left out of a fraction are the zeros at its end. -/
theorem withoutZeros_withPoint {whole fraction : List Char} (brief : Decimal.Brief whole fraction)
    (zeros : ℕ) : withoutZeros (withPoint (fraction.length + zeros)
      (whole ++ fraction ++ List.replicate zeros '0')) = joined whole fraction := by
  obtain ⟨whole_digits, fraction_digits⟩ := List.forall_mem_append.mp brief.digits
  have no_point {ds : List Char} (all_digits : ∀ c ∈ ds, c.isDigit = true) : '.' ∉ ds :=
    fun member => absurd (all_digits _ member) (by decide)
  have last_digit {ds : List Char} (all_digits : ∀ c ∈ ds, c.isDigit = true) :
      ds.getLast? ≠ some '.' := fun last => no_point all_digits (List.mem_of_getLast? last)
  by_cases integral : fraction.length + zeros = 0
  · obtain ⟨empty, rfl⟩ := Nat.add_eq_zero_iff.mp integral
    simp [withPoint, withoutZeros, joined, List.length_eq_zero_iff.mp empty,
      no_point whole_digits]
  · have before : (whole ++ fraction ++ List.replicate zeros '0').length -
        (fraction.length + zeros) = whole.length := by
      simp only [List.length_append, List.length_replicate]
      omega
    have pointed : withPoint (fraction.length + zeros)
        (whole ++ fraction ++ List.replicate zeros '0') =
          (whole ++ '.' :: fraction) ++ List.replicate zeros '0' := by
      rw [withPoint, if_neg integral, before, List.append_assoc, List.take_left, List.drop_left,
        List.append_assoc, List.cons_append]
    rw [pointed, withoutZeros, if_pos (by simp), rdropWhile_append_replicate, joined]
    split
    · rename_i empty
      rw [empty, List.append_nil, rdropWhile_of_getLast? (c := '0') (by simp),
        List.rdropWhile_concat_pos (· == '.') _ _ (beq_self_eq_true _)]
      exact rdropWhile_of_getLast? (last_digit whole_digits)
    · rename_i some_fraction
      have ending : (whole ++ '.' :: fraction).getLast? = fraction.getLast? := by
        rw [List.append_cons, List.getLast?_append_of_ne_nil _ some_fraction]
      rw [rdropWhile_of_getLast? (c := '0') (ending ▸ brief.ending),
        rdropWhile_of_getLast? (ending ▸ last_digit fraction_digits)]

namespace Decimal

/-- A decimal written to a fixed number of decimals has the digits of the trimmed one, and zeros. -/
theorem leftpad_digits {c : Decimal} {decimals : ℕ} (nonzero : c.significand ≠ 0)
    (grid : c.exponent = -decimals) : ∃ zeros, decimals = c.trim.pointed.2.length + zeros ∧
      (digits c.significand).leftpad (decimals + 1) '0' =
        c.trim.pointed.1 ++ c.trim.pointed.2 ++ List.replicate zeros '0' := by
  obtain ⟨trimmed, zeros, more, moved⟩ := exists_trim nonzero
  generalize c.trim = t at *
  have some_digits := ne_zero_of_trimmed trimmed
  have length := length_digits some_digits
  have count := digitCount_pos some_digits
  have written : digits c.significand = digits t.significand ++ List.replicate zeros '0' := by
    rw [more, digits_mul_pow some_digits]
  have total : (digits t.significand ++ List.replicate zeros '0').length =
      digitCount t.significand + zeros := by
    rw [List.length_append, List.length_replicate, length]
  unfold pointed leading List.leftpad
  rw [written, total]
  dsimp only
  split
  · -- of the zeros, some are before the point
    refine ⟨decimals, by simp, ?_⟩
    rw [show decimals + 1 - (digitCount t.significand + zeros) = 0 by omega,
      show zeros = t.exponent.toNat + decimals by omega, List.replicate_add]
    simp
  · split
    · refine ⟨zeros, ?_, ?_⟩
      · rw [List.length_drop]
        omega
      · rw [show decimals + 1 - (digitCount t.significand + zeros) = 0 by omega,
          List.take_append_drop]
        simp
    · refine ⟨zeros, ?_, ?_⟩
      · rw [List.length_append, List.length_replicate]
        omega
      · rw [show decimals + 1 - (digitCount t.significand + zeros) =
          (-(t.exponent + digitCount t.significand - 1) - 1).toNat + 1 by omega]
        simp [List.replicate_succ]

/-- Without the zeros at the end, a fixed number of decimals makes no difference. -/
theorem withoutZeros_digits {c : Decimal} {decimals : ℕ} (nonzero : c.significand ≠ 0)
    (grid : c.exponent = -decimals) :
    withoutZeros (withPoint decimals ((digits c.significand).leftpad (decimals + 1) '0')) =
      joined c.trim.pointed.1 c.trim.pointed.2 := by
  obtain ⟨zeros, decimals_eq, written⟩ := leftpad_digits nonzero grid
  have trimmed := (exists_trim nonzero).1
  have brief := brief_pointed (ne_zero_of_trimmed trimmed) trimmed
  rw [written, decimals_eq]
  exact withoutZeros_withPoint brief zeros

theorem leading_trim {d : Decimal} (nonzero : d.significand ≠ 0) : d.trim.leading = d.leading := by
  have trimmed := (exists_trim nonzero).1
  rw [← log_value nonzero, ← value_trim nonzero, log_value (ne_zero_of_trimmed trimmed)]

/-- Trimming does not depend on the exponent. -/
theorem trim_shift (significand : ℕ) (e shift : ℤ) : trim ⟨significand, e + shift⟩ =
    ⟨(trim ⟨significand, e⟩).significand, (trim ⟨significand, e⟩).exponent + shift⟩ := by
  induction significand using Nat.strong_induction_on generalizing e with
  | _ significand ih =>
    rw [trim.eq_def ⟨significand, e + shift⟩, trim.eq_def ⟨significand, e⟩]
    dsimp only
    split
    · rename_i more
      rw [← ih (significand / 10) (by omega), add_right_comm]
    · rfl

theorem trim_mantissa {d : Decimal} (nonzero : d.significand ≠ 0) :
    d.mantissa.trim = d.trim.mantissa := by
  unfold mantissa
  rw [sub_eq_add_neg, trim_shift, leading_trim nonzero]
  rfl

end Decimal

/-! ## Rounding twice -/

/-- A decimal without a point where no digit is after it. -/
def Decimal.briefText (count : ℕ) (d : Decimal) : List Char :=
  if d.leading < -4 ∨ count ≤ d.leading then
    joined d.mantissa.pointed.1 d.mantissa.pointed.2 ++ NumberText.spellExponent d.leading
  else joined d.pointed.1 d.pointed.2

section
variable {count n d : ℕ} (some_digit : 0 < count) (some_units : 0 < n) (positive : 0 < d)

include some_digit positive in
/-- The second rounding gives the digits of the first one. -/
theorem fixedText_eq {decimals : ℕ}
    (grid : ((Decimal.significant count n d).carry count).exponent = -decimals) :
    fixedText decimals n d = withPoint decimals
      ((digits ((Decimal.significant count n d).carry count).significand).leftpad
        (decimals + 1) '0') := by
  have first := Decimal.isNearestEven_carry some_digit (n := n) positive
  have second := isNearestEven_roundHalfEven (n := n * 10 ^ decimals) positive
  have scaled : ((n * 10 ^ decimals : ℕ) : ℚ) / d =
      n / d / 10 ^ ((Decimal.significant count n d).carry count).exponent := by
    rw [grid, zpow_neg, zpow_natCast, div_inv_eq_mul]
    push_cast
    ring
  rw [scaled] at second
  rw [fixedText, Int.ofNat_inj.mp (second.unique first)]

include some_digit some_units positive in
/-- The format gives the digits of the rounded quotient without the zeros at their end. -/
theorem generalText_eq :
    generalText count n d = (Decimal.significant count n d).trim.briefText count := by
  have fixed (decimals : ℕ) := @fixedText_eq count n d some_digit positive decimals
  have digits_count := Decimal.digitCount_carry some_digit some_units positive
  rw [← Decimal.trim_carry some_digit]
  have started : exponentText (count - 1) n d =
      (withPoint (count - 1) (digits ((Decimal.significant count n d).carry count).significand),
        ((Decimal.significant count n d).carry count).leading) := by
    rw [exponentText, if_neg some_units.ne', Nat.sub_add_cancel some_digit]
  rw [generalText, started]
  generalize (Decimal.significant count n d).carry count = c at *
  have nonzero : c.significand ≠ 0 := by
    intro zero
    rw [zero, digitCount, if_pos rfl] at digits_count
    omega
  have exponent : c.exponent = c.leading + 1 - count := by
    unfold Decimal.leading
    omega
  unfold Decimal.briefText
  dsimp only
  rw [Decimal.leading_trim nonzero]
  split
  · congr 1
    have grid : c.mantissa.exponent = -(count - 1 : ℕ) := by
      unfold Decimal.mantissa
      dsimp only
      omega
    have written := Decimal.withoutZeros_digits (c := c.mantissa) nonzero grid
    rw [Decimal.trim_mantissa nonzero] at written
    rw [← written, List.leftpad, show (digits c.mantissa.significand).length = count from
      (length_digits nonzero).trans digits_count, Nat.sub_add_cancel some_digit, Nat.sub_self]
    rfl
  · rename_i plain
    have grid : c.exponent = -((count - 1 - c.leading).toNat : ℕ) := by omega
    rw [fixed _ grid, Decimal.withoutZeros_digits nonzero grid]

end

theorem generalText_zero {d : ℕ} (positive : 0 < d) : generalText 14 0 d = ['0'] := by
  have nothing : roundHalfEven (0 * 10 ^ 13) d = 0 := by
    unfold roundHalfEven
    simp [positive]
  have started : exponentText 13 0 d = ("0.0000000000000".toList, 0) := by
    rw [exponentText, if_pos rfl]
    rfl
  have again : fixedText 13 0 d = "0.0000000000000".toList := by
    rw [fixedText, nothing]
    rfl
  unfold generalText
  rw [show 14 - 1 = 13 from rfl, started]
  exact (congrArg withoutZeros again).trans (by decide)

/-- A text of nothing but digits and a sign. -/
def looksIntegral (text : List Char) : Bool := text.all fun c => c == '-' || c.isDigit

/-- The text of a decimal has a zero after the point where only digits would be there otherwise. -/
theorem Decimal.spell_text_eq {d : Decimal} (trimmed : d.significand % 10 ≠ 0) (negative : Bool) :
    (d.text negative).spell =
      let text := (if negative then ['-'] else []) ++ d.briefText 14
      if looksIntegral text then text ++ ['.', '0'] else text := by
  have brief := brief_pointed (ne_zero_of_trimmed trimmed) trimmed
  have whole_digits := (List.forall_mem_append.mp brief.digits).1
  unfold text briefText
  dsimp only
  by_cases plain : -4 ≤ d.leading ∧ d.leading < 14
  · rw [if_pos plain, if_neg (show ¬(d.leading < -4 ∨ (14 : ℕ) ≤ d.leading) by omega)]
    by_cases integral : d.pointed.2 = []
    · have whole : looksIntegral d.pointed.1 = true :=
        List.all_eq_true.mpr fun c member => by rw [whole_digits c member, Bool.or_true]
      have only_digits : looksIntegral ((if negative then ['-'] else []) ++ d.pointed.1) = true := by
        rw [looksIntegral, List.all_append, ← looksIntegral, ← looksIntegral, whole, Bool.and_true]
        cases negative <;> rfl
      simp [NumberText.spell, joined, integral, only_digits]
    · simp [NumberText.spell, joined, integral, looksIntegral]
  · rw [if_neg plain, if_pos (show d.leading < -4 ∨ (14 : ℕ) ≤ d.leading by omega)]
    simp [NumberText.spell, NumberText.spellExponent, looksIntegral]

namespace Binary64

variable {x : Binary64}

/-- A number is written in the format with fourteen digits, and as a fraction in any case. -/
theorem print_eq_general (finite : x.isFinite = true) : x.print.toList =
    if looksIntegral (x.general 14) then x.general 14 ++ ['.', '0'] else x.general 14 := by
  rw [print_eq finite]
  unfold text general
  split
  · rename_i zero
    have unitless : x.unitCount = 0 := by
      rw [unitCount, zero]
      rfl
    rw [unitless, generalText_zero unitsPerOne_pos]
    cases x.isNegative <;> decide
  · rename_i nonzero
    have written : generalText 14 x.unitCount unitsPerOne =
        (fourteenDigits x.magnitudeBits).briefText 14 :=
      generalText_eq (by decide) (unitCount_pos nonzero) unitsPerOne_pos
    rw [written]
    exact Decimal.spell_text_eq (fourteenDigits_spec nonzero).1 x.isNegative

/-- A finite number is written in the format with fourteen significant digits, with a zero after the
point if only digits and a sign would be there otherwise. So it is told from an integer by a point
or an exponent. The text denotes the number rounded to fourteen digits, which is off by half a unit
of the last one at most. It has no digit too many, and an exponent just where the leading digit of
the rounded number is far from the point. -/
theorem print_rounds_to_fourteen_digits (finite : x.isFinite = true) :
    (x.print.toList =
      if looksIntegral (x.general 14) then x.general 14 ++ ['.', '0'] else x.general 14) ∧
    (∃ c ∈ x.print.toList, c = '.' ∨ c = 'e') ∧
    x.number? = some ((x.exactly : ℝ) : EReal) ∧
    ∃ t : NumberText, x.print.toList = t.spell ∧ t.Concise ∧ t.negative = x.isNegative ∧
      RoundsTo 14 x.exactly t.value ∧
      |t.value - x.exactly| ≤ 10 ^ (Int.log 10 |x.exactly| - 13) / 2 ∧
      t.exponent = let leading := Int.log 10 |t.value|
        if -4 ≤ leading ∧ leading < 14 then none else some leading := by
  have rounds := x.roundsTo_text
  have concise := x.concise_text
  have number : x.number? = some ((x.exactly : ℝ) : EReal) := by
    rw [number?_of_isFinite finite, exactly, Rat.cast_div, Rat.cast_intCast, Rat.cast_natCast]
  have mark : ∃ c ∈ x.print.toList, c = '.' ∨ c = 'e' := by
    rw [print_eq finite]
    cases written : x.text.exponent with
    | none => exact ⟨'.', by simp [NumberText.spell, joined, concise.point written], .inl rfl⟩
    | some e => exact ⟨'e', by simp [NumberText.spell, written, NumberText.spellExponent], .inr rfl⟩
  have sign : x.text.negative = x.isNegative := by
    unfold text Decimal.text
    split_ifs <;> rfl
  have error := rounds.error_le
  rw [add_sub_assoc, show (1 : ℤ) - (14 : ℕ) = -13 from rfl, ← sub_eq_add_neg] at error
  exact ⟨print_eq_general finite, mark, number, x.text, print_eq finite, concise, sign, rounds,
    error, x.exponent_text⟩

/-- Halfway below a power of ten, the number is rounded up to it, and so has an exponent. -/
theorem print_of_rounded_up : let x : Binary64 := ⟨0x42d6bcc41e8fffe0⟩
    x.isFinite = true ∧ x.exactly = 199999999999999 / 2 ∧ x.print = "1e+14" ∧
      ∃ t : NumberText, "1e+14".toList = t.spell ∧ t.Concise ∧
        RoundsTo 14 (199999999999999 / 2) t.value := by
  intro x
  have finite : x.isFinite = true := by decide +kernel
  have number : x.exactly = 199999999999999 / 2 := by decide +kernel
  have written : x.print = "1e+14" := by decide +kernel
  obtain ⟨-, -, -, t, spelled, concise, -, rounds, -⟩ := print_rounds_to_fourteen_digits finite
  rw [written] at spelled
  rw [number] at rounds
  exact ⟨finite, number, written, t, spelled, concise, rounds⟩

end Binary64

end HybridTable
