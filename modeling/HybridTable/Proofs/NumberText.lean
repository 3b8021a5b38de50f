import Mathlib.Tactic.IntervalCases
import HybridTable.Proofs.DecimalRounding
import HybridTable.Proofs.NumberOrder
import HybridTable.Value.Printed

/-! The text of a float. It consists of a sign, digits before a point, digits after it and perhaps
an exponent, and so denotes a decimal. That decimal is the float rounded to fourteen significant
digits. The digits are the significand without the zeros at its end, so the text is as brief as it
can be. -/
namespace HybridTable

/-! ## Digits -/

namespace NumberLayout

variable {n : ℕ}

theorem length_digits (nonzero : n ≠ 0) : (digits n).length = digitCount n := by
  have some_digit := digitCount_pos nonzero
  have some_character : 0 < (digits n).length := Nat.length_toDigits_pos
  have most : (digits n).length ≤ digitCount n :=
    (Nat.length_toDigits_le_iff (by decide) some_digit).mpr (lt_pow_digitCount n)
  have least : digitCount n ≤ (digits n).length :=
    digitCount_le_iff.mpr ((Nat.length_toDigits_le_iff (by decide) some_character).mp le_rfl)
  exact le_antisymm most least

theorem isDigit_of_mem_digits {c : Char} (member : c ∈ digits n) : c.isDigit = true :=
  Nat.isDigit_of_mem_toDigits (by decide) (by decide) member

/-- Powers of ten are written as zeros. -/
theorem digits_mul_pow (nonzero : n ≠ 0) (zeros : ℕ) :
    digits (n * 10 ^ zeros) = digits n ++ List.replicate zeros '0' := by
  induction zeros with
  | zero => simp
  | succ zeros ih =>
    have before : 0 < n * 10 ^ zeros := by positivity
    have last := Nat.toDigits_append_toDigits (b := 10) (d := 0) (by decide) before (by decide)
    rw [List.replicate_succ', ← List.append_assoc, ← ih, Nat.pow_succ, ← Nat.mul_assoc,
      Nat.mul_comm _ 10]
    exact last.symm

theorem digitChar_eq_zero {k : ℕ} (digit : k < 10) : k.digitChar = '0' ↔ k = 0 := by
  interval_cases k <;> decide

/-- No zero stands before the other digits. -/
theorem head?_digits (nonzero : n ≠ 0) : (digits n).head? ≠ some '0' := by
  induction n using Nat.strong_induction_on with
  | _ n ih =>
    rw [digits, Nat.toDigits_eq_if (by decide)]
    split
    · rename_i single
      simpa [digitChar_eq_zero single] using nonzero
    · rw [List.head?_append_of_ne_nil _ Nat.toDigits_ne_nil]
      exact ih (n / 10) (by omega) (by omega)

/-- The last digit is a zero only if the number is a multiple of ten. -/
theorem getLast?_digits (odd_end : n % 10 ≠ 0) : (digits n).getLast? ≠ some '0' := by
  have last := digitChar_eq_zero (Nat.mod_lt n (by decide : 10 > 0))
  rw [digits, Nat.toDigits_eq_if (by decide)]
  split
  · rename_i single
    rw [Nat.mod_eq_of_lt single] at last odd_end
    simpa [last] using odd_end
  · simpa [last] using odd_end

end NumberLayout

/-! ## Digits around a point -/

namespace Decimal

open NumberLayout

/-- The digits before and after the point when no exponent is written. There is at least one before
it, and none after it if the decimal is an integer. -/
def pointed (d : Decimal) : List Char × List Char :=
  let ds := digits d.significand
  if 0 ≤ d.exponent then (ds ++ List.replicate d.exponent.toNat '0', [])
  else if 0 ≤ d.leading then (ds.take (d.leading.toNat + 1), ds.drop (d.leading.toNat + 1))
  else (['0'], List.replicate (-d.leading - 1).toNat '0' ++ ds)

/-- Being digits around a point of which none can be left out. -/
structure Brief (whole fraction : List Char) : Prop where
  /-- All of them are digits. -/
  digits : ∀ c ∈ whole ++ fraction, c.isDigit = true
  /-- There is one before the point. -/
  some_digit : whole ≠ []
  /-- No zero comes first except one that stands alone. -/
  start : whole.head? = some '0' → whole = ['0']
  /-- No zero comes last. -/
  ending : fraction.getLast? ≠ some '0'

section
variable {d : Decimal} (nonzero : d.significand ≠ 0)
include nonzero

theorem brief_pointed (trimmed : d.significand % 10 ≠ 0) : Brief d.pointed.1 d.pointed.2 := by
  have all_digits (c : Char) (member : c ∈ digits d.significand) : c.isDigit = true :=
    isDigit_of_mem_digits member
  have zeros (n : ℕ) (c : Char) (member : c ∈ List.replicate n '0') : c.isDigit = true := by
    rw [List.eq_of_mem_replicate member]
    decide
  have start := head?_digits nonzero
  have ending := getLast?_digits trimmed
  have length := length_digits nonzero
  have count := digitCount_pos nonzero
  have some_digit : digits d.significand ≠ [] := List.ne_nil_of_length_pos (by omega)
  unfold pointed
  dsimp only
  split
  · refine ⟨?_, by simp [some_digit], fun zero => absurd ?_ start, by simp⟩
    · rw [List.append_nil]
      exact List.forall_mem_append.mpr ⟨all_digits, zeros _⟩
    · rwa [List.head?_append_of_ne_nil _ some_digit] at zero
  · rename_i fractional
    split
    · rename_i above
      -- the first digit is before the point and the last one after it
      have inside : d.leading.toNat + 1 < (digits d.significand).length := by
        unfold leading at above ⊢
        omega
      refine ⟨?_, ?_, fun zero => absurd ?_ start, ?_⟩
      · rwa [List.take_append_drop]
      · simpa using some_digit
      · rwa [List.head?_take, if_neg (by omega)] at zero
      · rwa [List.getLast?_drop, if_neg (by omega)]
    · refine ⟨?_, by simp, fun _ => rfl, ?_⟩
      · exact List.forall_mem_append.mpr ⟨by simp, List.forall_mem_append.mpr ⟨zeros _, all_digits⟩⟩
      · rwa [List.getLast?_append_of_ne_nil _ some_digit]

/-- The digits around the point are those of the decimal. -/
theorem value_pointed : (Nat.ofDigitChars 10 (d.pointed.1 ++ d.pointed.2) 0 : ℚ) *
    10 ^ (-d.pointed.2.length : ℤ) = d.value := by
  have length := length_digits nonzero
  have count := digitCount_pos nonzero
  have whole : Nat.ofDigitChars 10 (digits d.significand) 0 = d.significand :=
    Nat.ofDigitChars_ten_toDigits
  unfold pointed value
  dsimp only
  split
  · rename_i integral
    obtain ⟨zeros, exponent⟩ := Int.eq_ofNat_of_zero_le integral
    rw [exponent, List.append_nil, Nat.ofDigitChars_append, whole, Nat.ofDigitChars_replicate_zero]
    simp
    ring
  · rename_i fractional
    split
    · rename_i above
      have after : ((digits d.significand).drop (d.leading.toNat + 1)).length = -d.exponent := by
        unfold leading at above ⊢
        rw [List.length_drop]
        omega
      rw [List.take_append_drop, whole, after, neg_neg]
    · rename_i below
      have after : (List.replicate (-d.leading - 1).toNat '0' ++ digits d.significand).length =
          -d.exponent := by
        unfold leading at below ⊢
        rw [List.length_append, List.length_replicate]
        omega
      have zero : Nat.ofDigitChars 10 ['0'] 0 = 0 := rfl
      rw [after, neg_neg, Nat.ofDigitChars_append, Nat.ofDigitChars_append,
        Nat.ofDigitChars_replicate_zero, zero, Nat.mul_zero, whole]

end

/-- A decimal with its leading digit before the point. -/
def mantissa (d : Decimal) : Decimal := ⟨d.significand, d.exponent - d.leading⟩

theorem leading_mantissa (d : Decimal) : d.mantissa.leading = 0 := by
  unfold mantissa leading
  dsimp only
  omega

/-- A mantissa has one digit before the point. -/
theorem pointed_mantissa {d : Decimal} (nonzero : d.significand ≠ 0) :
    d.mantissa.pointed = ((digits d.significand).take 1, (digits d.significand).drop 1) := by
  have length := length_digits nonzero
  have count := digitCount_pos nonzero
  have zero := d.leading_mantissa
  unfold pointed
  dsimp only
  rw [zero]
  split
  · rename_i single
    have one : digitCount d.significand = 1 := by
      unfold mantissa leading at single
      dsimp only at single
      omega
    have exponent : d.mantissa.exponent = 0 := by
      unfold mantissa leading
      dsimp only
      omega
    rw [exponent, List.take_of_length_le (by omega), List.drop_eq_nil_of_le (by omega)]
    simp [mantissa]
  · rfl

end Decimal

/-! ## Texts and what they denote -/

/-- Digits around a point, which is left out if no digit is after it. -/
def joined (whole fraction : List Char) : List Char :=
  whole ++ if fraction = [] then [] else '.' :: fraction

/-- The parts that the text of a number is made of. -/
structure NumberText where
  /-- Whether it starts with a minus. -/
  negative : Bool
  /-- The digits before the point. -/
  whole : List Char
  /-- The digits after the point; without any there is no point. -/
  fraction : List Char
  /-- The exponent, if there is one. -/
  exponent : Option Int

namespace NumberText

/-- An exponent with a sign and at least two digits. -/
def spellExponent (exponent : Int) : List Char :=
  'e' :: (if exponent < 0 then '-' else '+') ::
    (Nat.toDigits 10 exponent.natAbs).leftpad 2 '0'

/-- The text. -/
def spell (t : NumberText) : List Char :=
  (if t.negative then ['-'] else []) ++ joined t.whole t.fraction ++
    t.exponent.elim [] spellExponent

/-- The decimal that the text denotes. -/
def value (t : NumberText) : ℚ :=
  (if t.negative then -1 else 1) * (Nat.ofDigitChars 10 (t.whole ++ t.fraction) 0 *
    10 ^ (t.exponent.getD 0 - t.fraction.length))

/-- Being as brief as a text can be that does not read as an integer. -/
structure Concise (t : NumberText) : Prop where
  /-- There are digits only around the point. -/
  digits : ∀ c ∈ t.whole ++ t.fraction, c.isDigit = true
  /-- There is one before it. -/
  some_digit : t.whole ≠ []
  /-- No zero comes first except one that stands alone. -/
  start : t.whole.head? = some '0' → t.whole = ['0']
  /-- No zero comes last except one that stands alone where no exponent does. -/
  ending : t.fraction.getLast? = some '0' → t.fraction = ['0'] ∧ t.exponent = none
  /-- There is a point or an exponent. -/
  point : t.exponent = none → t.fraction ≠ []
  /-- With an exponent one digit is before the point, and that is no zero. -/
  normalized : t.exponent ≠ none → t.whole.length = 1 ∧ t.whole ≠ ['0']

end NumberText

/-- The parts of the text of a positive decimal, or of its opposite. -/
def Decimal.text (negative : Bool) (d : Decimal) : NumberText :=
  if -4 ≤ d.leading ∧ d.leading < 14 then
    ⟨negative, d.pointed.1, if d.pointed.2 = [] then ['0'] else d.pointed.2, none⟩
  else ⟨negative, d.mantissa.pointed.1, d.mantissa.pointed.2, some d.leading⟩

namespace Decimal

open NumberLayout

section
variable {d : Decimal} (nonzero : d.significand ≠ 0)
include nonzero

theorem plain_eq : plain d =
    d.pointed.1 ++ '.' :: if d.pointed.2 = [] then ['0'] else d.pointed.2 := by
  have length := length_digits nonzero
  have count := digitCount_pos nonzero
  unfold plain pointed
  dsimp only
  split
  · simp
  · rename_i fractional
    split
    · rename_i above
      have after : (digits d.significand).drop (d.leading.toNat + 1) ≠ [] := by
        refine List.ne_nil_of_length_pos ?_
        unfold leading at above ⊢
        rw [List.length_drop]
        omega
      rw [if_neg after]
    · have after : List.replicate (-d.leading - 1).toNat '0' ++ digits d.significand ≠ [] := by
        refine List.ne_nil_of_length_pos ?_
        rw [List.length_append]
        omega
      rw [if_neg after]
      rfl

theorem scientific_eq : scientific 2 d =
    joined d.mantissa.pointed.1 d.mantissa.pointed.2 ++ NumberText.spellExponent d.leading := by
  have some_digit : digits d.significand ≠ [] := Nat.toDigits_ne_nil
  rw [pointed_mantissa nonzero]
  unfold scientific NumberText.spellExponent joined
  cases written : digits d.significand with
  | nil => exact absurd written some_digit
  | cons first rest => cases rest <;> simp [List.leftpad, digits]

/-- The text is the one that is written. -/
theorem spell_text (negative : Bool) : (d.text negative).spell =
    (if negative then ['-'] else []) ++ textLayout.write d := by
  have limit : textLayout.leastPlain ≤ d.leading ∧ d.leading ≤ textLayout.greatestPlain ↔
      -4 ≤ d.leading ∧ d.leading < 14 := by
    have least : textLayout.leastPlain = -4 := rfl
    have greatest : textLayout.greatestPlain = 13 := rfl
    omega
  unfold text write
  rw [if_congr limit rfl rfl]
  split
  · have point : (if d.pointed.2 = [] then ['0'] else d.pointed.2) ≠ [] := by
      split
      · simp
      · assumption
    simp [NumberText.spell, joined, plain_eq nonzero, point]
  · rw [show textLayout.exponentDigits = 2 from rfl, scientific_eq nonzero]
    simp [NumberText.spell]

omit nonzero in
theorem value_mantissa : d.mantissa.value * 10 ^ d.leading = d.value := by
  unfold mantissa value
  dsimp only
  rw [mul_assoc, ← zpow_add₀ (by norm_num), Int.sub_add_cancel]

/-- The text denotes the decimal. -/
theorem value_text (negative : Bool) :
    (d.text negative).value = (if negative then -1 else 1) * d.value := by
  unfold text
  split
  · have around := value_pointed nonzero
    unfold NumberText.value
    dsimp only [Option.getD_none]
    congr 1
    split
    · rename_i none
      have zero : Nat.ofDigitChars 10 (d.pointed.1 ++ ['0']) 0 =
          10 * Nat.ofDigitChars 10 d.pointed.1 0 := by
        rw [Nat.ofDigitChars_append]
        exact (Nat.ofDigitChars_replicate_zero (n := 1)).trans (by rw [Nat.pow_one])
      rw [← around, none, zero]
      simp
      ring
    · rw [zero_sub, around]
  · have around := value_pointed (d := d.mantissa) nonzero
    unfold NumberText.value
    dsimp only [Option.getD_some]
    rw [sub_eq_neg_add, zpow_add₀ (by norm_num), ← mul_assoc (Nat.cast _), around, value_mantissa]

theorem concise_text (trimmed : d.significand % 10 ≠ 0) (negative : Bool) :
    (d.text negative).Concise := by
  unfold text
  split
  · have brief := brief_pointed nonzero trimmed
    by_cases none : d.pointed.2 = []
    · refine ⟨?_, brief.some_digit, brief.start, ?_, ?_, by simp⟩
      · have all_digits := (List.forall_mem_append.mp brief.digits).1
        rw [if_pos none]
        exact List.forall_mem_append.mpr ⟨all_digits, by simp⟩
      · simp [none]
      · simp [none]
    · refine ⟨?_, brief.some_digit, brief.start, ?_, ?_, by simp⟩
      · simpa [none] using brief.digits
      · exact fun zero => absurd (by simpa [none] using zero) brief.ending
      · simp [none]
  · have brief := brief_pointed (d := d.mantissa) nonzero trimmed
    have count := digitCount_pos nonzero
    refine ⟨brief.digits, brief.some_digit, brief.start, fun zero => absurd zero brief.ending,
      by simp, fun _ => ?_⟩
    have start := head?_digits nonzero
    rw [pointed_mantissa nonzero]
    cases written : digits d.significand with
    | nil => exact absurd written Nat.toDigits_ne_nil
    | cons first rest => simpa [written] using start

end

end Decimal

namespace Binary64

variable {x : Binary64}

/-- The parts of the text of a finite number. -/
def text (x : Binary64) : NumberText :=
  if x.magnitudeBits = 0 then ⟨x.isNegative, ['0'], ['0'], none⟩
  else (fourteenDigits x.magnitudeBits).text x.isNegative

/-- The number that a finite encoding stands for. -/
def exactly (x : Binary64) : ℚ := x.units / unitsPerOne

theorem exactly_eq (x : Binary64) :
    x.exactly = (if x.isNegative then -1 else 1) * (x.unitCount / unitsPerOne) := by
  unfold exactly units
  generalize unitsPerOne = scale
  split <;> simp [neg_div]

section
variable (nonzero : x.magnitudeBits ≠ 0)
include nonzero

theorem unitCount_pos : 0 < x.unitCount :=
  unitsOfBits_lt (Nat.pos_of_ne_zero nonzero)

/-- The digits are those of the rounded number. -/
theorem fourteenDigits_spec : (fourteenDigits x.magnitudeBits).significand % 10 ≠ 0 ∧
    RoundsTo 14 (x.unitCount / unitsPerOne) (fourteenDigits x.magnitudeBits).value := by
  have units := unitCount_pos nonzero
  have least := (Decimal.significand_bounds (by decide : 0 < 14) units unitsPerOne_pos).1
  have some_digits : (Decimal.significant 14 x.unitCount unitsPerOne).significand ≠ 0 :=
    (lt_of_lt_of_le (by decide) least).ne'
  unfold fourteenDigits
  rw [show unitsOfBits x.magnitudeBits = x.unitCount from rfl, Decimal.value_trim some_digits]
  exact ⟨(Decimal.exists_trim some_digits).1, Decimal.roundsTo_significant units unitsPerOne_pos⟩

end

/-- A finite number is written as its text. -/
theorem print_eq (finite : x.isFinite = true) : x.print.toList = x.text.spell := by
  have below : x.magnitudeBits < infinityBits := by simpa [isFinite] using finite
  have number : x.isNaN = false := by simpa [isNaN] using below.le
  have no_infinity : x.isInfinite = false := by simpa [isInfinite] using below.ne
  unfold print text NumberLayout.writeFinite
  simp only [number, no_infinity, Bool.false_eq_true, ↓reduceIte, String.toList_ofList]
  by_cases zero : x.magnitudeBits = 0
  · simp only [if_pos zero]
    cases x.isNegative <;> rfl
  · have trimmed := (fourteenDigits_spec zero).1
    simp only [if_neg zero]
    rw [Decimal.spell_text (ne_zero_of_trimmed trimmed)]
    cases x.isNegative <;> rfl

theorem concise_text (x : Binary64) : x.text.Concise := by
  unfold text
  split
  · exact ⟨by simp, by simp, by simp, by simp, by simp, by simp⟩
  · rename_i nonzero
    have trimmed := (fourteenDigits_spec nonzero).1
    exact Decimal.concise_text (ne_zero_of_trimmed trimmed) trimmed _

/-- The text of a number denotes what the number is rounded to. -/
theorem roundsTo_text (x : Binary64) : RoundsTo 14 x.exactly x.text.value := by
  unfold text
  split
  · rename_i zero
    have unitless : x.unitCount = 0 := by
      rw [unitCount, zero]
      rfl
    have nothing : (⟨x.isNegative, ['0'], ['0'], none⟩ : NumberText).value = 0 := by
      simp [NumberText.value, Nat.ofDigitChars_cons]
    rw [nothing, exactly_eq, unitless, Nat.cast_zero, zero_div, mul_zero]
    exact .zero 14
  · rename_i nonzero
    obtain ⟨trimmed, rounds⟩ := fourteenDigits_spec nonzero
    rw [exactly_eq, Decimal.value_text (ne_zero_of_trimmed trimmed)]
    generalize (x.unitCount / unitsPerOne : ℚ) = magnitude at *
    cases x.isNegative with
    | false => simpa using rounds
    | true => simpa using rounds.neg

/-- The exponent is that of the rounded number, and is written unless the leading digit is near the
point. -/
theorem exponent_text (x : Binary64) : x.text.exponent =
    let leading := Int.log 10 |x.text.value|
    if -4 ≤ leading ∧ leading < 14 then none else some leading := by
  unfold text
  split
  · simp [NumberText.value, Nat.ofDigitChars_cons]
  · rename_i nonzero
    have trimmed := (fourteenDigits_spec nonzero).1
    generalize fourteenDigits x.magnitudeBits = d at *
    have some_digits := ne_zero_of_trimmed trimmed
    have magnitude : |(d.text x.isNegative).value| = d.value := by
      rw [Decimal.value_text some_digits, abs_mul, abs_of_pos (Decimal.value_pos some_digits)]
      split <;> simp
    rw [magnitude, Decimal.log_value some_digits]
    unfold Decimal.text
    dsimp only
    split_ifs <;> rfl

end Binary64

end HybridTable
