import Mathlib.Data.EReal.Basic
import Mathlib.Tactic.FieldSimp
import HybridTable.Proofs.KeyIdentity

/-! What numbers stand for. The real number or infinity behind an encoding is read off its three
fields by the rules of the interchange format; nothing that compares or converts numbers defines it.
The signed count of units orders numbers in the same way, infinities included, so comparing counts
is exact whatever mix of integers and floats is compared. -/
namespace HybridTable

namespace Binary64

/-- The number that an encoding stands for by its sign, exponent and fraction; an encoding of no
number stands for none. -/
noncomputable def number? (x : Binary64) : Option EReal :=
  let exponent := x.magnitudeBits / binadeSize
  let fraction := x.magnitudeBits % binadeSize
  let sign : ℝ := if x.isNegative then -1 else 1
  if exponent = 2047 then
    if fraction = 0 then some (if x.isNegative then ⊥ else ⊤) else none
  else if exponent = 0 then
    some ((sign * (fraction / binadeSize) * (2 : ℝ) ^ (-1022 : ℤ) : ℝ) : EReal)
  else some ((sign * (1 + fraction / binadeSize) * (2 : ℝ) ^ ((exponent : ℤ) - 1023) : ℝ) : EReal)

/-- The units of an infinity. -/
def infinityUnits : Nat := unitsOfBits infinityBits

/-- The number that a count of units stands for. -/
noncomputable def ofUnits (units : Int) : EReal :=
  if (infinityUnits : Int) ≤ units then ⊤
  else if units ≤ -infinityUnits then ⊥
  else ((units / unitsPerOne : ℝ) : EReal)

/-! ## Counting units -/

theorem magnitudeBits_lt (x : Binary64) : x.magnitudeBits < 2048 * binadeSize := by
  rw [magnitudeBits, UInt64.toNat_and]
  exact Nat.lt_of_le_of_lt Nat.and_le_right (by decide)

theorem infinityBits_eq : infinityBits = 2047 * binadeSize := rfl

theorem unitsPerOne_pos : 0 < unitsPerOne := by
  unfold unitsPerOne
  generalize 1074 = n
  exact Nat.pow_pos (by decide)

/-- All 64-bit integers are far from infinity. -/
theorem integers_lt_infinityUnits : 2 ^ 63 * unitsPerOne < infinityUnits := by
  decide +kernel

theorem cast_unitsPerOne : (unitsPerOne : ℝ) = (2 : ℝ) ^ (1074 : ℤ) := by
  have power (n : ℕ) : ((Nat.pow 2 n : ℕ) : ℝ) = (2 : ℝ) ^ (n : ℤ) := by simp
  unfold unitsPerOne
  rw [show (1074 : ℤ) = ((1074 : ℕ) : ℤ) from rfl]
  generalize 1074 = n
  exact power n

theorem cast_binadeSize : (binadeSize : ℝ) = (2 : ℝ) ^ (52 : ℤ) := by
  norm_num [binadeSize]

/-- The units of a finite number, as a real number. -/
theorem cast_unitCount (x : Binary64) : (x.unitCount : ℝ) =
    if x.magnitudeBits / binadeSize = 0 then ((x.magnitudeBits % binadeSize : ℕ) : ℝ)
    else (binadeSize + (x.magnitudeBits % binadeSize : ℕ)) *
      (2 : ℝ) ^ (((x.magnitudeBits / binadeSize : ℕ) : ℤ) - 1) := by
  rw [unitCount, unitsOfBits]
  split
  · rfl
  · rename_i higher
    obtain ⟨e, same⟩ := Nat.exists_eq_succ_of_ne_zero higher
    rw [same, Nat.pow_eq]
    push_cast
    simp

theorem number?_of_isFinite {x : Binary64} (finite : x.isFinite = true) :
    x.number? = some ((x.units / unitsPerOne : ℝ) : EReal) := by
  have below : x.magnitudeBits < infinityBits := by simpa [isFinite] using finite
  have exponent : x.magnitudeBits / binadeSize ≠ 2047 :=
    Nat.ne_of_lt (Nat.div_lt_of_lt_mul below)
  have signed : (x.units : ℝ) = (if x.isNegative then -1 else 1) * (x.unitCount : ℝ) := by
    unfold units
    split <;> simp
  rw [number?, if_neg exponent, signed, cast_unitCount, cast_unitsPerOne, cast_binadeSize]
  have nonzero : (2 : ℝ) ≠ 0 := two_ne_zero
  split
  · rw [show (-1022 : ℤ) = 52 - 1074 from rfl, zpow_sub₀ nonzero]
    congr 2
    field_simp
  · have power (e : ℤ) : (2 : ℝ) ^ (e - 1023) = 2 ^ (e - 1) * 2 ^ (52 : ℤ) / 2 ^ (1074 : ℤ) := by
      rw [← zpow_add₀ nonzero, ← zpow_sub₀ nonzero]
      congr 1
      ring
    rw [power]
    congr 2
    field_simp

theorem natAbs_units (x : Binary64) : x.units.natAbs = x.unitCount := by
  unfold units
  split <;> simp

/-- A finite number has fewer units than an infinity. -/
theorem natAbs_units_lt {x : Binary64} (finite : x.isFinite = true) :
    x.units.natAbs < infinityUnits := by
  rw [natAbs_units]
  exact unitsOfBits_lt (by simpa [isFinite] using finite)

/-- What is not finite is an infinity of its sign, unless it is no number. -/
theorem number?_of_infinite {x : Binary64} (infinite : x.isFinite = false)
    (number : x.isNaN = false) : x.number? = some (if x.isNegative then ⊥ else ⊤) ∧
      x.units = if x.isNegative then -(infinityUnits : Int) else infinityUnits := by
  simp only [isFinite, isNaN, decide_eq_false_iff_not, Nat.not_lt] at infinite number
  have same : x.magnitudeBits = infinityBits := Nat.le_antisymm number infinite
  refine ⟨?_, by rw [units, unitCount, same]; rfl⟩
  rw [number?, same]
  rfl

theorem number?_of_isNaN {x : Binary64} (undefined : x.isNaN = true) : x.number? = none := by
  have above : infinityBits < x.magnitudeBits := by simpa [isNaN] using undefined
  have bound := x.magnitudeBits_lt
  have split := Nat.div_add_mod x.magnitudeBits binadeSize
  rw [infinityBits_eq] at above
  have exponent : x.magnitudeBits / binadeSize = 2047 :=
    Nat.div_eq_of_lt_le (Nat.le_of_lt above) bound
  rw [exponent] at split
  have fraction : x.magnitudeBits % binadeSize ≠ 0 := by omega
  rw [number?, if_pos exponent, if_neg fraction]

/-! ## Units and their order -/

theorem infinityUnits_pos : 0 < infinityUnits := Nat.zero_lt_of_lt integers_lt_infinityUnits

theorem ofUnits_infinityUnits : ofUnits infinityUnits = ⊤ := if_pos (Int.le_refl _)

theorem ofUnits_neg_infinityUnits : ofUnits (-infinityUnits) = ⊥ := by
  have positive := infinityUnits_pos
  rw [ofUnits, if_neg (by omega), if_pos (Int.le_refl _)]

theorem ofUnits_of_lt {u : Int} (finite : u.natAbs < infinityUnits) :
    ofUnits u = ((u / unitsPerOne : ℝ) : EReal) := by
  rw [ofUnits, if_neg (by omega), if_neg (by omega)]

/-- A number stands for what its units stand for. -/
theorem number?_eq (x : Binary64) :
    x.number? = if x.isNaN then none else some (ofUnits x.units) := by
  cases number : x.isNaN with
  | true => exact number?_of_isNaN number
  | false =>
    rw [if_neg Bool.false_ne_true]
    cases finite : x.isFinite with
    | true => rw [number?_of_isFinite finite, ofUnits_of_lt (natAbs_units_lt finite)]
    | false =>
      obtain ⟨found, counted⟩ := number?_of_infinite finite number
      rw [found, counted]
      cases x.isNegative
      · exact congrArg some ofUnits_infinityUnits.symm
      · exact congrArg some ofUnits_neg_infinityUnits.symm

/-- No number has more units than an infinity. -/
theorem natAbs_units_le {x : Binary64} (number : x.isNaN = false) :
    x.units.natAbs ≤ infinityUnits := by
  cases finite : x.isFinite with
  | true => exact Nat.le_of_lt (natAbs_units_lt finite)
  | false =>
    rw [(number?_of_infinite finite number).2]
    split <;> simp only [Int.natAbs_neg, Int.natAbs_natCast, Nat.le_refl]

/-- Numbers are in the order of their units. -/
theorem ofUnits_lt_iff {u v : Int} (first : u.natAbs ≤ infinityUnits)
    (second : v.natAbs ≤ infinityUnits) : ofUnits u < ofUnits v ↔ u < v := by
  have positive := infinityUnits_pos
  have extreme {u : Int} (bound : u.natAbs ≤ infinityUnits) :
      u = infinityUnits ∨ u = -infinityUnits ∨ u.natAbs < infinityUnits := by omega
  rcases extreme first with top | bottom | finite
  · rw [top, ofUnits_infinityUnits]
    exact iff_of_false not_top_lt (by omega)
  · rcases extreme second with top | bottom' | finite'
    · rw [bottom, top, ofUnits_neg_infinityUnits, ofUnits_infinityUnits]
      exact iff_of_true bot_lt_top (by omega)
    · rw [bottom, bottom']
      exact iff_of_false (lt_irrefl _) (lt_irrefl _)
    · rw [bottom, ofUnits_neg_infinityUnits, ofUnits_of_lt finite']
      exact iff_of_true (EReal.bot_lt_coe _) (by omega)
  · rcases extreme second with top | bottom | finite'
    · rw [top, ofUnits_infinityUnits, ofUnits_of_lt finite]
      exact iff_of_true (EReal.coe_lt_top _) (by omega)
    · rw [bottom, ofUnits_neg_infinityUnits]
      exact iff_of_false not_lt_bot (by omega)
    · have scale : (0 : ℝ) < unitsPerOne := Nat.cast_pos.mpr unitsPerOne_pos
      rw [ofUnits_of_lt finite, ofUnits_of_lt finite', EReal.coe_lt_coe_iff,
        div_lt_div_iff_of_pos_right scale, Int.cast_lt]

/-- A 64-bit integer has fewer units than an infinity. -/
theorem natAbs_mul_unitsPerOne_lt (i : Int64) :
    (i.toInt * unitsPerOne).natAbs < infinityUnits := by
  have low := i.le_toInt
  have high := i.toInt_lt
  rw [Int.natAbs_mul, Int.natAbs_natCast]
  refine Nat.lt_of_le_of_lt (Nat.mul_le_mul_right _ ?_) integers_lt_infinityUnits
  omega

/-- A float is the integer that has as many units. -/
theorem toInt64?_eq_some_iff {x : Binary64} {i : Int64} :
    x.toInt64? = some i ↔ x.isNaN = false ∧ x.units = i.toInt * unitsPerOne := by
  constructor
  · exact fun integral => (units_of_toInt64? integral).symm
  · rintro ⟨number, counted⟩
    have finite : x.isFinite = true := by
      by_contra infinite
      have small := natAbs_mul_unitsPerOne_lt i
      rw [← counted, (number?_of_infinite (Bool.eq_false_iff.mpr infinite) number).2] at small
      split at small <;>
        simp only [Int.natAbs_neg, Int.natAbs_natCast, Nat.lt_irrefl] at small
    have scale : (unitsPerOne : Int) ≠ 0 := Int.natCast_ne_zero.mpr unitsPerOne_pos.ne'
    have whole : x.unitCount % unitsPerOne = 0 := by
      rw [← natAbs_units, counted, Int.natAbs_mul, Int.natAbs_natCast, Nat.mul_mod_left]
    have integer : x.toInt? = some i.toInt := by
      rw [toInt?, finite, whole, counted, Int.mul_ediv_cancel _ scale]
      rfl
    have low := i.le_toInt
    have high := i.toInt_lt
    have bottom : Int64.minValue.toInt = -2 ^ 63 := rfl
    have top : Int64.maxValue.toInt = 2 ^ 63 - 1 := rfl
    simp only [toInt64?, integer]
    rw [if_pos (by omega), Int64.ofInt_toInt]

/-! ## Integers among the floats -/

theorem units_pastIntegers : pastIntegers.units = 2 ^ 63 * unitsPerOne := by decide +kernel

theorem units_leastInteger : leastInteger.units = -2 ^ 63 * unitsPerOne := by decide +kernel

/-- A number is an integer unless it is below `2 ^ 52`, where a binade has numbers between its
integers. -/
theorem integral_or_small (x : Binary64) :
    unitsPerOne ∣ x.unitCount ∨ x.unitCount < 2 ^ 52 * unitsPerOne := by
  have fraction : x.magnitudeBits % binadeSize < binadeSize := Nat.mod_lt _ (by decide)
  have size : binadeSize = 2 ^ 52 := rfl
  rw [unitCount, unitsOfBits]
  generalize x.magnitudeBits / binadeSize = e at *
  generalize x.magnitudeBits % binadeSize = f at *
  unfold unitsPerOne
  generalize 1074 = ones
  rw [Nat.pow_eq, Nat.pow_eq]
  have one_le : 1 ≤ 2 ^ ones := Nat.one_le_two_pow
  split
  · right
    calc f < 2 ^ 52 := size ▸ fraction
      _ ≤ 2 ^ 52 * 2 ^ ones := Nat.le_mul_of_pos_right _ one_le
  · by_cases large : ones ≤ e - 1
    · exact .inl (Dvd.dvd.mul_left (Nat.pow_dvd_pow 2 large) _)
    · right
      calc (binadeSize + f) * 2 ^ (e - 1) < 2 ^ 52 * 2 * 2 ^ (e - 1) :=
            Nat.mul_lt_mul_of_pos_right (by omega) Nat.one_le_two_pow
        _ = 2 ^ 52 * 2 ^ (e - 1 + 1) := by rw [Nat.mul_assoc, ← Nat.pow_succ']
        _ ≤ 2 ^ 52 * 2 ^ ones := Nat.mul_le_mul_left _ (Nat.pow_le_pow_right (by decide) (by omega))

theorem toInt_clampInt64 {i : Int} (low : -2 ^ 63 ≤ i) (high : i < 2 ^ 63) :
    (clampInt64 i).toInt = i := by
  have bottom : Int64.minValue.toInt = -2 ^ 63 := rfl
  have top : Int64.maxValue.toInt = 2 ^ 63 - 1 := rfl
  rw [clampInt64, show max Int64.minValue.toInt (min i Int64.maxValue.toInt) = i by omega]
  exact Int64.toInt_ofInt_of_le low (by omega)

theorem lt_ceil_iff {i : Int} {x : Binary64} : i < x.ceil ↔ i * unitsPerOne < x.units := by
  have scale : (0 : Int) < unitsPerOne := Int.natCast_pos.mpr unitsPerOne_pos
  rw [ceil, lt_neg, Int.ediv_lt_iff_lt_mul scale, Int.neg_mul, Int.neg_lt_neg_iff]

theorem floor_lt_iff {i : Int} {x : Binary64} : x.floor < i ↔ x.units < i * unitsPerOne :=
  Int.ediv_lt_iff_lt_mul (Int.natCast_pos.mpr unitsPerOne_pos)

/-- A number below `2 ^ 63` is not rounded up to it: so close to it all numbers are integers. -/
theorem ceil_lt {x : Binary64} (below : x.units < 2 ^ 63 * unitsPerOne) : x.ceil < 2 ^ 63 := by
  have scale : (0 : Int) < unitsPerOne := Int.natCast_pos.mpr unitsPerOne_pos
  have least : x.ceil ≤ 2 ^ 63 - 1 ↔ x.units ≤ (2 ^ 63 - 1) * unitsPerOne := by
    rw [← not_lt, ← not_lt, lt_ceil_iff]
  rw [← Int.le_sub_one_iff, least]
  rcases x.integral_or_small with whole | small
  · rw [← natAbs_units, ← Int.natCast_dvd] at whole
    obtain ⟨k, counted⟩ := whole
    rw [counted, mul_comm] at below ⊢
    have fewer : k < 2 ^ 63 := lt_of_mul_lt_mul_right below scale.le
    exact Int.mul_le_mul_of_nonneg_right (Int.le_sub_one_iff.mpr fewer) scale.le
  · rw [← natAbs_units] at small
    have near : (x.units.natAbs : Int) ≤ 2 ^ 52 * unitsPerOne := by exact_mod_cast small.le
    calc x.units ≤ x.units.natAbs := Int.le_natAbs
      _ ≤ 2 ^ 52 * unitsPerOne := near
      _ ≤ (2 ^ 63 - 1) * unitsPerOne := Int.mul_le_mul_of_nonneg_right (by decide) scale.le

/-- The integers are between the two limits. -/
theorem toInt_mul_bounds (i : Int64) : -2 ^ 63 * unitsPerOne ≤ i.toInt * unitsPerOne ∧
    i.toInt * unitsPerOne < 2 ^ 63 * unitsPerOne := by
  have scale : (0 : Int) < unitsPerOne := Int.natCast_pos.mpr unitsPerOne_pos
  exact ⟨Int.mul_le_mul_of_nonneg_right i.le_toInt scale.le,
    Int.mul_lt_mul_of_pos_right i.toInt_lt scale⟩

/-- An integer is compared with a number exactly. -/
theorem intLess_eq (i : Int64) (x : Binary64) :
    intLess i x = (!x.isNaN && decide (i.toInt * unitsPerOne < x.units)) := by
  obtain ⟨low, high⟩ := toInt_mul_bounds i
  have numbers : pastIntegers.isNaN = false ∧ leastInteger.isNaN = false := by decide +kernel
  unfold intLess atMost less
  rw [units_pastIntegers, units_leastInteger, numbers.1, numbers.2]
  cases x.isNaN with
  | true => rfl
  | false =>
    simp only [Bool.false_eq_true, ↓reduceIte, Bool.not_false, Bool.true_and, decide_eq_true_eq]
    split
    · rename_i past
      exact (decide_eq_true (high.trans_le past)).symm
    · rename_i below
      split
      · rename_i above
        have least : -2 ^ 63 < x.ceil := lt_ceil_iff.mpr above
        rw [decide_eq_decide, Int64.lt_iff_toInt_lt,
          toInt_clampInt64 least.le (ceil_lt (not_le.mp below)), lt_ceil_iff]
      · rename_i under
        exact (decide_eq_false (not_lt.mpr ((not_lt.mp under).trans low))).symm

/-- A number is compared with an integer exactly. -/
theorem lessInt_eq (x : Binary64) (i : Int64) :
    x.lessInt i = (!x.isNaN && decide (x.units < i.toInt * unitsPerOne)) := by
  obtain ⟨low, high⟩ := toInt_mul_bounds i
  have numbers : pastIntegers.isNaN = false ∧ leastInteger.isNaN = false := by decide +kernel
  unfold lessInt atMost
  rw [units_pastIntegers, units_leastInteger, numbers.1, numbers.2]
  cases x.isNaN with
  | true => rfl
  | false =>
    simp only [Bool.false_eq_true, ↓reduceIte, Bool.not_false, Bool.true_and, decide_eq_true_eq]
    split
    · rename_i past
      exact (decide_eq_false (not_lt.mpr (high.le.trans past))).symm
    · rename_i below
      split
      · rename_i above
        have least : -2 ^ 63 ≤ x.floor :=
          not_lt.mp fun under => not_lt.mpr above (floor_lt_iff.mp under)
        rw [decide_eq_decide, Int64.lt_iff_toInt_lt,
          toInt_clampInt64 least (floor_lt_iff.mpr (not_le.mp below)), floor_lt_iff]
      · rename_i under
        exact (decide_eq_true ((not_le.mp under).trans_le low)).symm

end Binary64

namespace Value

/-- The real number or infinity that a value is; a non-number is none. -/
noncomputable def number? : Value → Option EReal
  | int i => some ((i.toInt : ℝ) : EReal)
  | float x => x.number?
  | _ => none

/-- The units of a number, whether an integer or a float. -/
def units? : Value → Option Int
  | int i => some (i.toInt * Binary64.unitsPerOne)
  | float x => if x.isNaN then none else some x.units
  | _ => none

theorem units?_float {x : Binary64} {u : Int} :
    (float x).units? = some u ↔ x.isNaN = false ∧ x.units = u := by
  cases number : x.isNaN <;> simp [units?, number]

theorem number?_eq (v : Value) : v.number? = v.units?.map Binary64.ofUnits := by
  cases v with
  | int i =>
    have scale : (Binary64.unitsPerOne : ℝ) ≠ 0 := Nat.cast_ne_zero.mpr Binary64.unitsPerOne_pos.ne'
    rw [number?, units?, Option.map_some,
      Binary64.ofUnits_of_lt (Binary64.natAbs_mul_unitsPerOne_lt i), Int.cast_mul, Int.cast_natCast,
      mul_div_cancel_right₀ _ scale]
  | float x =>
    rw [number?, units?, Binary64.number?_eq]
    split <;> rfl
  | _ => rfl

theorem natAbs_units_le {v : Value} {u : Int} (counted : v.units? = some u) :
    u.natAbs ≤ Binary64.infinityUnits := by
  cases v with
  | int i =>
    cases counted
    exact Nat.le_of_lt (Binary64.natAbs_mul_unitsPerOne_lt i)
  | float x =>
    obtain ⟨number, rfl⟩ := units?_float.mp counted
    exact Binary64.natAbs_units_le number
  | _ => cases counted

/-- Numbers of any form are in the order of their units. -/
theorem exists_number?_lt_iff {a b : Value} : (∃ x ∈ a.number?, ∃ y ∈ b.number?, x < y) ↔
    ∃ u ∈ a.units?, ∃ v ∈ b.units?, u < v := by
  simp only [number?_eq, Option.mem_def, Option.map_eq_some_iff]
  constructor
  · rintro ⟨_, ⟨u, first, rfl⟩, _, ⟨v, second, rfl⟩, below⟩
    exact ⟨u, first, v, second,
      (Binary64.ofUnits_lt_iff (natAbs_units_le first) (natAbs_units_le second)).mp below⟩
  · rintro ⟨u, first, v, second, below⟩
    exact ⟨_, ⟨u, first, rfl⟩, _, ⟨v, second, rfl⟩,
      (Binary64.ofUnits_lt_iff (natAbs_units_le first) (natAbs_units_le second)).mpr below⟩

/-- Numbers are equal when they have the same units. -/
theorem rawEqual_iff_units {a b : Value} {u v : Int} (first : a.units? = some u)
    (second : b.units? = some v) : a.rawEqual b = true ↔ u = v := by
  have scale : (Binary64.unitsPerOne : Int) ≠ 0 :=
    Int.natCast_ne_zero.mpr Binary64.unitsPerOne_pos.ne'
  cases a with
  | int i =>
    cases first
    cases b with
    | int j =>
      cases second
      simp only [rawEqual, beq_iff_eq, mul_left_inj' scale, Int64.toInt_inj]
    | float y =>
      obtain ⟨number, rfl⟩ := units?_float.mp second
      simp only [rawEqual, beq_iff_eq, Binary64.toInt64?_eq_some_iff, number, true_and]
      exact eq_comm
    | _ => cases second
  | float x =>
    obtain ⟨number, rfl⟩ := units?_float.mp first
    cases b with
    | int j =>
      cases second
      simp only [rawEqual, beq_iff_eq, Binary64.toInt64?_eq_some_iff, number, true_and]
    | float y =>
      obtain ⟨number', rfl⟩ := units?_float.mp second
      simp [rawEqual, Binary64.equal, number, number']
    | _ => cases second
  | _ => cases first

end Value

end HybridTable
