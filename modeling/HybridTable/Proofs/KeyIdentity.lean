import Mathlib.Algebra.Group.Nat.Defs
import HybridTable.Value.Key

/-! Which values are the same key. A `Key` is what is left of a value once spelling is set aside:
an integral float is its integer, a string is its content, an object is its identity. Primitive
equality decides exactly this, and the hash of a value in normal form depends on nothing else, so
equal keys always meet in one bucket. -/
namespace HybridTable

namespace Binary64

/-- Greater magnitudes are greater numbers, from one binade to the next as well as inside one. -/
theorem unitsOfBits_lt {m n : Nat} (below : m < n) : unitsOfBits m < unitsOfBits n := by
  have splitM := Nat.div_add_mod m binadeSize
  have splitN := Nat.div_add_mod n binadeSize
  have fractionM : m % binadeSize < binadeSize := Nat.mod_lt _ (by decide)
  have fractionN : n % binadeSize < binadeSize := Nat.mod_lt _ (by decide)
  have order : m / binadeSize ≤ n / binadeSize := Nat.div_le_div_right (Nat.le_of_lt below)
  unfold unitsOfBits
  dsimp only
  generalize m / binadeSize = e at *
  generalize m % binadeSize = f at *
  generalize n / binadeSize = e' at *
  generalize n % binadeSize = f' at *
  by_cases same : e = e'
  · subst e'
    have fractions : f < f' := by omega
    by_cases lowest : e = 0
    · simpa only [lowest, ↓reduceIte] using fractions
    · simp only [lowest, ↓reduceIte]
      exact Nat.mul_lt_mul_of_pos_right (by omega) (Nat.pow_pos (by decide))
  · have higher : e < e' := by omega
    have upper : (if e = 0 then f else (binadeSize + f) * Nat.pow 2 (e - 1)) <
        binadeSize * Nat.pow 2 e := by
      by_cases lowest : e = 0
      · simpa [lowest] using fractionM
      · obtain ⟨d, rfl⟩ : ∃ d, e = d + 1 := ⟨e - 1, by omega⟩
        have doubled : binadeSize * Nat.pow 2 (d + 1) = (2 * binadeSize) * Nat.pow 2 d := by
          rw [Nat.pow_eq, Nat.pow_eq, Nat.pow_succ, Nat.mul_comm (2 ^ d) 2, ← Nat.mul_assoc,
            Nat.mul_comm binadeSize 2]
        rw [if_neg lowest, doubled]
        exact Nat.mul_lt_mul_of_pos_right (by omega) (Nat.pow_pos (by decide))
    have lower : binadeSize * Nat.pow 2 e ≤
        (if e' = 0 then f' else (binadeSize + f') * Nat.pow 2 (e' - 1)) := by
      rw [if_neg (by omega)]
      exact Nat.mul_le_mul (by omega) (Nat.pow_le_pow_right (by decide) (by omega))
    omega

/-- Numbers of one size have one magnitude encoding. -/
theorem magnitudeBits_of_unitCount {x y : Binary64} (same : x.unitCount = y.unitCount) :
    x.magnitudeBits = y.magnitudeBits := by
  rcases Nat.lt_trichotomy x.magnitudeBits y.magnitudeBits with below | equal | above
  · have := unitsOfBits_lt below
    simp only [unitCount] at same
    omega
  · exact equal
  · have := unitsOfBits_lt above
    simp only [unitCount] at same
    omega

theorem unitCount_of_units {x y : Binary64} (same : x.units = y.units) :
    x.unitCount = y.unitCount := by
  simp only [units] at same
  split at same <;> split at same <;> omega

/-- The sign bit and the magnitude make up the encoding. -/
theorem bits_toNat (x : Binary64) :
    x.bits.toNat = x.magnitudeBits + (if x.isNegative then 2 ^ 63 else 0) := by
  have bound := x.bits.toNat_lt
  have low : x.magnitudeBits = x.bits.toNat % 2 ^ 63 := by
    rw [magnitudeBits, UInt64.toNat_and]
    exact Nat.and_two_pow_sub_one_eq_mod x.bits.toNat 63
  have high : (x.bits >>> 63).toNat = x.bits.toNat / 2 ^ 63 := by
    rw [UInt64.toNat_shiftRight]
    exact Nat.shiftRight_eq_div_pow ..
  have sign : x.isNegative = true ↔ x.bits.toNat / 2 ^ 63 = 1 := by
    rw [isNegative, beq_iff_eq, ← UInt64.toNat_inj, high]
    rfl
  by_cases negative : x.isNegative = true
  · have := sign.mp negative
    rw [if_pos negative]
    omega
  · have : x.bits.toNat / 2 ^ 63 ≠ 1 := fun one => negative (sign.mpr one)
    rw [if_neg negative]
    omega

/-- Whether a number is an integer, and which one, is a matter of its size and sign. -/
theorem toInt64?_congr {x y : Binary64} (same : x.units = y.units) : x.toInt64? = y.toInt64? := by
  have count := unitCount_of_units same
  have magnitude := magnitudeBits_of_unitCount count
  have integer : x.toInt? = y.toInt? := by
    rw [toInt?, toInt?, isFinite, isFinite, same, count, magnitude]
  rw [toInt64?, toInt64?, integer]

/-- An integral number counts as many units as its integer does. -/
theorem units_of_toInt64? {x : Binary64} {i : Int64} (integral : x.toInt64? = some i) :
    x.units = i.toInt * unitsPerOne ∧ x.isNaN = false := by
  simp only [toInt64?, toInt?] at integral
  split at integral
  · rename_i j found
    split at found
    · rename_i whole
      simp only [Bool.and_eq_true, beq_iff_eq, isFinite, decide_eq_true_eq] at whole
      split at integral
      · rename_i range
        cases integral
        cases found
        have divides : (unitsPerOne : Int) ∣ x.units := by
          have count : (unitsPerOne : Int) ∣ x.unitCount :=
            Int.natCast_dvd_natCast.mpr (Nat.dvd_of_mod_eq_zero whole.2)
          unfold units
          split
          · exact Int.dvd_neg.mpr count
          · exact count
        constructor
        · have top : Int64.maxValue.toInt = 2 ^ 63 - 1 := rfl
          rw [Int64.toInt_ofInt_of_le range.1 (by omega)]
          exact (Int.ediv_mul_cancel divides).symm
        · simp only [isNaN, decide_eq_false_iff_not]
          omega
      · cases integral
    · cases found
  · cases integral

theorem toInt64?_of_isNaN {x : Binary64} (number : x.isNaN = true) :
    x.toInt64? = none := by
  cases integral : x.toInt64? with
  | none => rfl
  | some i => exact absurd number (by simp [(units_of_toInt64? integral).2])

/-- A number that is no integer has one encoding. -/
theorem eq_of_units {x y : Binary64} (same : x.units = y.units) (fractional : x.toInt64? = none) :
    x = y := by
  have count := unitCount_of_units same
  have magnitude := magnitudeBits_of_unitCount count
  have sign : x.isNegative = y.isNegative := by
    apply Classical.byContradiction
    intro differ
    have zero : x.unitCount = 0 := by
      rw [units, units, ← count] at same
      cases negative : x.isNegative <;> cases other : y.isNegative
      · exact absurd (negative.trans other.symm) differ
      · rw [negative, other, if_neg Bool.false_ne_true, if_pos rfl] at same
        omega
      · rw [negative, other, if_pos rfl, if_neg Bool.false_ne_true] at same
        omega
      · exact absurd (negative.trans other.symm) differ
    have zeroBits : x.magnitudeBits = 0 := by
      apply Classical.byContradiction
      intro positive
      have := unitsOfBits_lt (Nat.pos_of_ne_zero positive)
      simp only [unitCount] at zero
      omega
    have finite : x.isFinite = true := by
      rw [isFinite, zeroBits]
      rfl
    have none : x.units = 0 := by
      rw [units, zero]
      split <;> rfl
    have integral : x.toInt? = some 0 := by
      rw [toInt?, finite, zero, none, Nat.zero_mod, Int.zero_ediv]
      rfl
    simp only [toInt64?, integral] at fractional
    revert fractional
    decide
  have bits : x.bits = y.bits := by
    rw [← UInt64.toNat_inj, bits_toNat x, bits_toNat y, magnitude, sign]
  cases x
  cases y
  exact congrArg Binary64.mk bits

end Binary64

/-- A key, apart from the value that spells it. -/
inductive Key where
  | bool (b : Bool)
  | int (i : Int64)
  | float (x : Binary64)
  | text (content : String)
  | table (ref : Ref)
  | function (ref : Ref)
  | userdata (ref : Ref)
  | thread (ref : Ref)
  deriving DecidableEq

/-- The hash of a key, which that of every spelling in normal form is. -/
def Key.hash [Hashing] : Key → KeyHash
  | .bool b => (Value.bool b).keyHash
  | .int i => (Value.int i).keyHash
  | .float x => (Value.float x).keyHash
  | .text content => (Value.text (.short content)).keyHash
  | .table ref => (Value.table ref).keyHash
  | .function ref => (Value.function ⟨ref, ""⟩).keyHash
  | .userdata ref => (Value.userdata ref).keyHash
  | .thread ref => (Value.thread ref).keyHash

namespace Value

theorem isNil_iff {v : Value} : v.isNil = true ↔ v = .nil := by
  cases v <;> simp [isNil]

/-- The key that a value spells, unless it cannot be a key. -/
def toKey? : Value → Option Key
  | nil => none
  | bool b => some (.bool b)
  | int i => some (.int i)
  | float x =>
    if x.isNaN then none
    else match x.toInt64? with
      | some i => some (.int i)
      | none => some (.float x)
  | text s => some (.text s.content)
  | table ref => some (.table ref)
  | function f => some (.function f.ref)
  | userdata ref => some (.userdata ref)
  | thread ref => some (.thread ref)

theorem toKey?_integral {x : Binary64} {i : Int64} (integral : x.toInt64? = some i) :
    (float x).toKey? = some (.int i) := by
  simp [toKey?, integral, (Binary64.units_of_toInt64? integral).2]

theorem toKey?_fractional {x : Binary64} (fractional : x.toInt64? = none) :
    (float x).toKey? = if x.isNaN then none else some (.float x) := by
  simp only [toKey?, fractional]

/-- What cannot be a key is refused, and nothing else is. -/
theorem toKey?_eq_none_iff (v : Value) : v.toKey? = none ↔ v.keyDefect?.isSome := by
  cases v with
  | float x =>
    cases number : x.isNaN with
    | true => simp [toKey?, keyDefect?, number]
    | false => cases integral : x.toInt64? <;> simp [toKey?, keyDefect?, number, integral]
  | _ => simp [toKey?, keyDefect?]

/-- A value and its normal form spell one key. -/
theorem toKey?_normalize (v : Value) : v.normalize.toKey? = v.toKey? := by
  cases v with
  | float x => cases integral : x.toInt64? <;> simp [normalize, toKey?, integral,
      Binary64.units_of_toInt64?]
  | _ => rfl

/-- A value can be a key just if its normal form can. -/
theorem keyDefect?_normalize (v : Value) : v.normalize.keyDefect? = v.keyDefect? := by
  cases v with
  | float x =>
    cases integral : x.toInt64? with
    | none => simp only [normalize, integral]
    | some i =>
      simp only [normalize, integral, keyDefect?, (Binary64.units_of_toInt64? integral).2,
        Bool.false_eq_true, ↓reduceIte]
  | _ => rfl

theorem refs_normalize (v : Value) : v.normalize.refs = v.refs := by
  cases v with
  | float x => cases integral : x.toInt64? <;> simp [normalize, integral, refs, ref?]
  | _ => rfl

theorem normalize_normalize (v : Value) : v.normalize.normalize = v.normalize := by
  cases v with
  | float x => cases integral : x.toInt64? <;> simp [normalize, integral]
  | _ => rfl

/-- A float spells an integer key only by being that integer. -/
theorem float_int_iff {x : Binary64} {i : Int64} :
    (float x).toKey? = some (.int i) ↔ x.toInt64? = some i := by
  cases integral : x.toInt64? with
  | some j => simp [toKey?_integral integral]
  | none =>
    rw [toKey?_fractional integral]
    split <;> simp

/-- A float spells a float key only if that is the same float, and no integer. -/
theorem float_float_iff {x y : Binary64} :
    (float y).toKey? = some (.float x) ↔ y = x ∧ x.toInt64? = none ∧ x.isNaN = false := by
  constructor
  · intro named
    cases integral : y.toInt64? with
    | some j => simp [toKey?_integral integral] at named
    | none =>
      rw [toKey?_fractional integral] at named
      split at named
      · cases named
      · rename_i number
        cases named
        exact ⟨rfl, integral, by simpa using number⟩
  · rintro ⟨rfl, fractional, number⟩
    simp [toKey?_fractional fractional, number]

/-- A float spells a number. -/
theorem number_of_float {x : Binary64} {k : Key} (named : (float x).toKey? = some k) :
    k = .float x ∨ ∃ i, k = .int i := by
  cases integral : x.toInt64? with
  | some i => exact .inr ⟨i, Option.some.inj (named.symm.trans (toKey?_integral integral))⟩
  | none =>
    rw [toKey?_fractional integral] at named
    split at named <;> cases named
    exact .inl rfl

private theorem float_equal_iff {x y : Binary64} {k : Key} (named : (float x).toKey? = some k) :
    x.equal y = true ↔ (float y).toKey? = some k := by
  cases integral : x.toInt64? with
  | some i =>
    cases (toKey?_integral integral).symm.trans named
    have unitsX := Binary64.units_of_toInt64? integral
    simp only [Binary64.equal, unitsX.2, Bool.not_false, Bool.true_and, Bool.and_eq_true,
      Bool.not_eq_true', beq_iff_eq, float_int_iff]
    constructor
    · rintro ⟨_, same⟩
      exact (Binary64.toInt64?_congr same).symm.trans integral
    · intro integralY
      have unitsY := Binary64.units_of_toInt64? integralY
      exact ⟨unitsY.2, unitsX.1.trans unitsY.1.symm⟩
  | none =>
    have number : x.isNaN = false ∧ k = .float x := by
      rw [toKey?_fractional integral] at named
      split at named
      · cases named
      · rename_i number
        cases named
        exact ⟨by simpa using number, rfl⟩
    obtain ⟨number, rfl⟩ := number
    simp only [Binary64.equal, number, Bool.not_false, Bool.true_and, Bool.and_eq_true,
      Bool.not_eq_true', beq_iff_eq, float_float_iff]
    constructor
    · rintro ⟨_, same⟩
      exact ⟨(Binary64.eq_of_units same integral).symm, integral, trivial⟩
    · rintro ⟨rfl, _, _⟩
      exact ⟨number, rfl⟩

/-- Primitive equality of keys is equality of what they spell. -/
theorem rawEqual_iff {a b : Value} {k : Key} (named : a.toKey? = some k) :
    a.rawEqual b = true ↔ b.toKey? = some k := by
  cases a with
  | nil => cases named
  | float x =>
    cases b with
    | float y => exact float_equal_iff named
    | int i =>
      show (x.toInt64? == some i) = true ↔ some (Key.int i) = some k
      rw [beq_iff_eq, ← float_int_iff, named, eq_comm]
    | _ =>
      rcases number_of_float named with rfl | ⟨i, rfl⟩ <;> simp [rawEqual, toKey?]
  | int i =>
    cases named
    cases b with
    | float x =>
      show (x.toInt64? == some i) = true ↔ _
      rw [beq_iff_eq, float_int_iff]
    | _ => simp [rawEqual, toKey?] <;> exact eq_comm
  | _ =>
    cases named
    cases b with
    | float x =>
      cases integral : x.toInt64? with
      | some i => simp [rawEqual, toKey?_integral integral]
      | none =>
        rw [toKey?_fractional integral]
        split <;> simp [rawEqual]
    | _ => simp [rawEqual, toKey?] <;> exact eq_comm

/-- Keys that spell different things are not primitively equal. -/
theorem rawEqual_eq_false {a b : Value} (named : a.toKey? ≠ none) (apart : a.toKey? ≠ b.toKey?) :
    a.rawEqual b = false := by
  obtain ⟨k, spelled⟩ := Option.ne_none_iff_exists'.mp named
  refine Bool.eq_false_iff.mpr fun same => apart ?_
  rw [spelled, (rawEqual_iff spelled).mp same]

/-- Being in the form that tables store. -/
def IsNormal (v : Value) : Prop := v.normalize = v

theorem isNormal_normalize (v : Value) : v.normalize.IsNormal := normalize_normalize v

/-- A float in normal form is no integer. -/
theorem fractional_of_normal {x : Binary64} (normal : (float x).IsNormal) : x.toInt64? = none := by
  cases integral : x.toInt64? with
  | none => rfl
  | some i => simp [IsNormal, normalize, integral] at normal

/-- In normal form only integers spell integer keys. -/
theorem eq_int_of_normal {v : Value} {i : Int64} (normal : v.IsNormal)
    (named : v.toKey? = some (.int i)) : v = .int i := by
  cases v with
  | int j => cases named; rfl
  | float x => simp [float_int_iff, fractional_of_normal normal] at named
  | _ => simp [toKey?] at named

/-- Strings are hashed by content and objects by identity, so in normal form the hash is one of the
key alone. -/
theorem keyHash_eq [Hashing] {v : Value} {k : Key} (normal : v.IsNormal)
    (named : v.toKey? = some k) : v.keyHash = k.hash := by
  cases v with
  | float x =>
    rw [toKey?_fractional (fractional_of_normal normal)] at named
    split at named <;> cases named
    rfl
  | _ => cases named <;> rfl

end Value

/-- The identity that a key consists in, if it is an object. -/
def Key.ref? : Key → Option Ref
  | .table ref => some ref
  | .function ref => some ref
  | .userdata ref => some ref
  | .thread ref => some ref
  | _ => none

namespace Value

/-- An object is one referent under every spelling. -/
theorem ref?_of_isObject {v : Value} {k : Key} (object : v.isObject = true)
    (named : v.toKey? = some k) : v.ref? = k.ref? := by
  cases v with
  | table | function | userdata | thread => cases named; rfl
  | _ => cases object

/-- Only objects spell object keys. -/
theorem isObject_of_ref? {v : Value} {k : Key} {r : Ref} (named : v.toKey? = some k)
    (identity : k.ref? = some r) : v.isObject = true := by
  cases v with
  | nil => cases named
  | float x => rcases number_of_float named with rfl | ⟨i, rfl⟩ <;> cases identity
  | bool | int | text => cases named; cases identity
  | table | function | userdata | thread => rfl

end Value

end HybridTable
