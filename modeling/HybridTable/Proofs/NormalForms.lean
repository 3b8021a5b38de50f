import HybridTable.Proofs.Layout
import HybridTable.Proofs.NumberOrder

/-! Normal forms of keys. A table compares what it stores and what it looks up in normal form, and
picks the bucket there. Two values that can be keys are equal just if their normal forms have one
type and one payload, so that equality is an equivalence and normal forms of equal keys share a
bucket. An integer and a float are never equal in normal form: a float whose number is a 64-bit
integer has become that integer, however it is encoded, and no float of any other number has. -/
namespace HybridTable

/-- Different counts of units are different numbers. -/
theorem Binary64.ofUnits_inj {u v : Int} (first : u.natAbs ≤ infinityUnits)
    (second : v.natAbs ≤ infinityUnits) : ofUnits u = ofUnits v ↔ u = v := by
  refine ⟨fun same => ?_, congrArg ofUnits⟩
  have notBelow : ¬ u < v := fun below =>
    same.not_lt ((ofUnits_lt_iff first second).mpr below)
  have notAbove : ¬ v < u := fun above =>
    same.not_gt ((ofUnits_lt_iff second first).mpr above)
  omega

namespace Value

variable {a b : Value} {x y : Binary64} {i : Int64}

/-! ## Numbers -/

/-- Numbers are equal just if they are one real number or infinity. -/
theorem rawEqual_iff_number? {u v : Int} (first : a.units? = some u) (second : b.units? = some v) :
    a.rawEqual b = true ↔ a.number? = b.number? := by
  rw [rawEqual_iff_units first second, number?_eq, number?_eq, first, second, Option.map_some,
    Option.map_some, Option.some_inj,
    Binary64.ofUnits_inj (natAbs_units_le first) (natAbs_units_le second)]

/-- A float is an integer just if its number is. -/
theorem toInt64?_eq_some_iff_number? :
    x.toInt64? = some i ↔ x.number? = some ((i.toInt : ℝ) : EReal) := by
  cases number : x.isNaN with
  | true =>
    rw [Binary64.toInt64?_of_isNaN number, Binary64.number?_of_isNaN number]
    simp only [reduceCtorEq]
  | false =>
    have equal : (float x).rawEqual (int i) = true ↔ x.toInt64? = some i := beq_iff_eq
    rw [← equal, rawEqual_iff_number? (units?_float.mpr ⟨number, rfl⟩) rfl]
    rfl

/-- The normal form of a float is an integer just if its number is that integer. -/
theorem normalize_eq_int_iff :
    (float x).normalize = int i ↔ x.number? = some ((i.toInt : ℝ) : EReal) := by
  rw [← toInt64?_eq_some_iff_number?]
  cases integral : x.toInt64? <;> simp [normalize, integral]

/-- The normal form of a float is an integer just if its number is one of 64 bits. -/
theorem exists_normalize_eq_int_iff : (∃ i, (float x).normalize = int i) ↔
    ∃ n : ℤ, -2 ^ 63 ≤ n ∧ n < 2 ^ 63 ∧ x.number? = some ((n : ℝ) : EReal) := by
  simp only [normalize_eq_int_iff]
  constructor
  · rintro ⟨i, same⟩
    exact ⟨i.toInt, i.le_toInt, i.toInt_lt, same⟩
  · rintro ⟨n, low, high, same⟩
    refine ⟨Int64.ofInt n, ?_⟩
    rwa [Int64.toInt_ofInt_of_le low high]

/-! ## Equality of normal forms -/

/-- Two values are of one type, with one payload: the same boolean, integer or number, the same
characters, or the same object. -/
@[mk_iff]
inductive SamePayload : Value → Value → Prop
  | bool {b c : Bool} (same : b = c) : SamePayload (bool b) (bool c)
  | int {i j : Int64} (same : i = j) : SamePayload (int i) (int j)
  | float {x y : Binary64} {r : EReal} (first : x.number? = some r) (second : y.number? = some r) :
    SamePayload (float x) (float y)
  | text {s s' : Text} (same : s.content = s'.content) : SamePayload (text s) (text s')
  | table {ref ref' : Ref} (same : ref = ref') : SamePayload (table ref) (table ref')
  | function {f g : Function} (same : f.ref = g.ref) : SamePayload (function f) (function g)
  | userdata {ref ref' : Ref} (same : ref = ref') : SamePayload (userdata ref) (userdata ref')
  | thread {ref ref' : Ref} (same : ref = ref') : SamePayload (thread ref) (thread ref')

/-- What can be a key spells one. -/
theorem exists_toKey? (valid : a.keyDefect? = none) : ∃ k, a.toKey? = some k := by
  rw [← Option.ne_none_iff_exists', Ne, toKey?_eq_none_iff, valid]
  exact Bool.false_ne_true

/-- What can be a key is equal to what spells the same key. -/
theorem rawEqual_iff_toKey? (valid : a.keyDefect? = none) :
    a.rawEqual b = true ↔ a.toKey? = b.toKey? := by
  obtain ⟨k, named⟩ := exists_toKey? valid
  rw [rawEqual_iff named, named, eq_comm]

/-- A float that can be a key has units. -/
theorem units?_of_valid (valid : (float x).keyDefect? = none) :
    (float x).units? = some x.units := by
  cases number : x.isNaN with
  | true => simp [keyDefect?, number] at valid
  | false => exact units?_float.mpr ⟨number, rfl⟩

theorem float_rawEqual_iff (first : (float x).keyDefect? = none)
    (second : (float y).keyDefect? = none) :
    (float x).rawEqual (float y) = true ↔ (float x).SamePayload (float y) := by
  rw [rawEqual_iff_number? (units?_of_valid first) (units?_of_valid second)]
  have counted : (float x).number? = some (Binary64.ofUnits x.units) := by
    rw [number?_eq, units?_of_valid first]
    rfl
  constructor
  · exact fun same => .float counted (same.symm.trans counted)
  · rintro ⟨⟩
    rename_i own other
    exact own.trans other.symm

/-- In normal form a float has no number of an integer, so numbers of two types are never equal. -/
theorem rawEqual_iff_of_normal (normal : a.IsNormal) (normal' : b.IsNormal)
    (valid : a.keyDefect? = none) (valid' : b.keyDefect? = none) :
    a.rawEqual b = true ↔ a.SamePayload b := by
  cases a with
  | nil => cases valid
  | int i =>
    cases b with
    | float y => simp [rawEqual, samePayload_iff, fractional_of_normal normal']
    | _ => simp [rawEqual, samePayload_iff] <;> exact eq_comm
  | float x =>
    cases b with
    | float y => exact float_rawEqual_iff valid valid'
    | int j => simp [rawEqual, samePayload_iff, fractional_of_normal normal]
    | _ => simp [rawEqual, samePayload_iff]
  | _ => cases b <;> simp [rawEqual, samePayload_iff] <;> exact eq_comm

/-- Values that can be keys are equal just if their normal forms have one type and payload. -/
theorem rawEqual_iff_samePayload (valid : a.keyDefect? = none) (valid' : b.keyDefect? = none) :
    a.rawEqual b = true ↔ a.normalize.SamePayload b.normalize := by
  have first : a.normalize.keyDefect? = none := a.keyDefect?_normalize.trans valid
  have second : b.normalize.keyDefect? = none := b.keyDefect?_normalize.trans valid'
  calc a.rawEqual b = true
      ↔ a.toKey? = b.toKey? := rawEqual_iff_toKey? valid
    _ ↔ a.normalize.toKey? = b.normalize.toKey? := by rw [toKey?_normalize, toKey?_normalize]
    _ ↔ a.normalize.rawEqual b.normalize = true := (rawEqual_iff_toKey? first).symm
    _ ↔ a.normalize.SamePayload b.normalize :=
      rawEqual_iff_of_normal a.isNormal_normalize b.isNormal_normalize first second

/-- On what can be a key, primitive equality is an equivalence. -/
theorem rawEqual_equivalence :
    Equivalence fun a b : { v : Value // v.keyDefect? = none } => a.1.rawEqual b.1 = true where
  refl a := (rawEqual_iff_toKey? a.2).mpr rfl
  symm {a b} same := (rawEqual_iff_toKey? b.2).mpr ((rawEqual_iff_toKey? a.2).mp same).symm
  trans {a b _} same next := (rawEqual_iff_toKey? a.2).mpr
    (((rawEqual_iff_toKey? a.2).mp same).trans ((rawEqual_iff_toKey? b.2).mp next))

variable [Hashing]

/-- Normal forms of equal keys have one hash. -/
theorem keyHash_normalize_of_rawEqual (valid : a.keyDefect? = none)
    (same : a.rawEqual b = true) : a.normalize.keyHash = b.normalize.keyHash := by
  obtain ⟨k, named⟩ := exists_toKey? valid
  rw [keyHash_eq a.isNormal_normalize (a.toKey?_normalize.trans named),
    keyHash_eq b.isNormal_normalize (b.toKey?_normalize.trans ((rawEqual_iff named).mp same))]

/-- Primitive equality is an equivalence on what can be a key. It holds just if the normal forms
have one type and payload, and then they have one hash and, for every number of buckets, one bucket
of them. A normal form is its own normal form, and differs from the value only where a float is a
64-bit integer. -/
theorem equality_normalForm_bucket_agree :
    (Equivalence fun a b : { v : Value // v.keyDefect? = none } => a.1.rawEqual b.1 = true) ∧
    (∀ a b : Value, a.keyDefect? = none → b.keyDefect? = none →
      (a.rawEqual b = true ↔ a.normalize.SamePayload b.normalize) ∧
      (a.rawEqual b = true → a.normalize.keyHash = b.normalize.keyHash ∧
        ∀ mask, a.normalize.keyHash.bucket mask = b.normalize.keyHash.bucket mask ∧
          a.normalize.keyHash.bucket mask ≤ mask)) ∧
    (∀ v : Value, v.normalize.normalize = v.normalize) ∧
    (∀ x : Binary64, (∃ i, (float x).normalize = int i) ↔
      ∃ n : ℤ, -2 ^ 63 ≤ n ∧ n < 2 ^ 63 ∧ x.number? = some ((n : ℝ) : EReal)) ∧
    (∀ v : Value, v.normalize = v ∨ ∃ x i, v = float x ∧ v.normalize = int i ∧
      x.number? = some ((i.toInt : ℝ) : EReal)) := by
  refine ⟨rawEqual_equivalence, fun a b valid valid' => ⟨rawEqual_iff_samePayload valid valid',
    fun same => ?_⟩, normalize_normalize, fun _ => exists_normalize_eq_int_iff, fun v => ?_⟩
  · have hashed := keyHash_normalize_of_rawEqual valid same
    exact ⟨hashed, fun mask => ⟨by rw [hashed], KeyHash.bucket_le _ mask⟩⟩
  · cases v with
    | float x =>
      cases integral : x.toInt64? with
      | none => exact .inl (by rw [normalize, integral])
      | some i =>
        exact .inr ⟨x, i, rfl, by rw [normalize, integral],
          toInt64?_eq_some_iff_number?.mp integral⟩
    | _ => exact .inl rfl

omit [Hashing] in
/-- The integer 2 and the float 2.0 are one key with one bucket, minus zero is an integer, and a
float that is `2 ^ 63` is none. -/
theorem two_and_its_float_agree :
    let two := float ⟨0x4000000000000000⟩
    let minusZero : Binary64 := ⟨0x8000000000000000⟩
    ((int 2).rawEqual two = true ∧ (int 2).normalize.SamePayload two.normalize) ∧
    (∀ mask, (@keyHash .uniform (int 2).normalize).bucket mask =
      (@keyHash .uniform two.normalize).bucket mask) ∧
    (∃ n : ℤ, -2 ^ 63 ≤ n ∧ n < 2 ^ 63 ∧ minusZero.number? = some ((n : ℝ) : EReal)) ∧
    ¬ ∃ n : ℤ, -2 ^ 63 ≤ n ∧ n < 2 ^ 63 ∧
      Binary64.pastIntegers.number? = some ((n : ℝ) : EReal) := by
  intro two minusZero
  obtain ⟨-, keys, -, integers, -⟩ := @equality_normalForm_bucket_agree .uniform
  have valid : two.keyDefect? = none := by decide +kernel
  have equal : (int 2).rawEqual two = true := by decide +kernel
  have zero : (float minusZero).normalize = int 0 := by decide +kernel
  have past : (float .pastIntegers).normalize = float .pastIntegers := by decide +kernel
  obtain ⟨payload, bucket⟩ := keys (int 2) two rfl valid
  refine ⟨⟨equal, payload.mp equal⟩, fun mask => ((bucket equal).2 mask).1,
    (integers minusZero).mp ⟨0, zero⟩, fun integral => ?_⟩
  obtain ⟨i, other⟩ := (integers .pastIntegers).mpr integral
  cases past.symm.trans other

end Value

end HybridTable
