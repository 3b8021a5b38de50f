/-!
Double-precision numbers, computed exactly.

A finite number is a whole count of the least positive one, `2 ^ -1074`, so order, equality,
integrality and rounding are questions about integers. Infinity decodes by the same rule to
`2 ^ 1024`, one step past the largest finite number, and so takes its place in the order without a
case of its own.
-/

namespace HybridTable

/-- The nearest integer to `n / d`; of two equally near ones, the even one. -/
def roundHalfEven (n d : Nat) : Nat :=
  let below := n / d
  let twice := 2 * (n % d)
  if twice < d || (twice == d && below % 2 == 0) then below else below + 1

/-- A double-precision number, given by its interchange encoding. -/
structure Binary64 where
  /-- Sign, eleven exponent bits and fifty-two fraction bits, from the top. -/
  bits : UInt64
  deriving DecidableEq, Inhabited

namespace Binary64

/-- The encoding of positive infinity; larger magnitudes are not numbers. -/
def infinityBits : Nat := 0x7ff0000000000000

/-- How many of the least positive number make one. -/
def unitsPerOne : Nat := Nat.pow 2 1074

/-- The number of encodings of a binade, the numbers from one power of two up to the next. -/
def binadeSize : Nat := 0x10000000000000

/-- The encoding without its sign bit. -/
def magnitudeBits (x : Binary64) : Nat := (x.bits &&& 0x7fffffffffffffff).toNat

/-- Whether the sign bit is set, which also minus zero and some non-numbers have. -/
def isNegative (x : Binary64) : Bool := x.bits >>> 63 == 1

/-- Whether the encoding is that of no number at all. -/
def isNaN (x : Binary64) : Bool := infinityBits < x.magnitudeBits

/-- Whether the encoding is an infinity of either sign. -/
def isInfinite (x : Binary64) : Bool := x.magnitudeBits == infinityBits

/-- Whether the encoding is an ordinary number. -/
def isFinite (x : Binary64) : Bool := x.magnitudeBits < infinityBits

/-- The units that a magnitude stands for: the fraction alone in the lowest binade, and from the
next one on the fraction with its leading bit, doubled with each exponent. -/
def unitsOfBits (magnitude : Nat) : Nat :=
  let exponent := magnitude / binadeSize
  let fraction := magnitude % binadeSize
  if exponent = 0 then fraction else (binadeSize + fraction) * Nat.pow 2 (exponent - 1)

/-- The size of a number in units, its sign left aside. -/
def unitCount (x : Binary64) : Nat := unitsOfBits x.magnitudeBits

/-- The signed size of a number in units. -/
def units (x : Binary64) : Int := if x.isNegative then -(x.unitCount : Int) else x.unitCount

/-- Numeric equality: no non-number equals anything, and the two zeros are equal. -/
def equal (x y : Binary64) : Bool := !x.isNaN && !y.isNaN && x.units == y.units

/-- Numeric order: a non-number is neither below nor above anything. -/
def less (x y : Binary64) : Bool := !x.isNaN && !y.isNaN && decide (x.units < y.units)

/-- Numeric order or equality. -/
def atMost (x y : Binary64) : Bool := !x.isNaN && !y.isNaN && decide (x.units ≤ y.units)

/-- The greatest integer that is not above a finite number. -/
def floor (x : Binary64) : Int := x.units / unitsPerOne

/-- The least integer that is not below a finite number. -/
def ceil (x : Binary64) : Int := -(-x.units / unitsPerOne)

/-- `-2 ^ 63`, the least 64-bit integer. -/
def leastInteger : Binary64 := ⟨0xc3e0000000000000⟩

/-- `2 ^ 63`, the first integer past the 64-bit ones. -/
def pastIntegers : Binary64 := ⟨0x43e0000000000000⟩

/-- The 64-bit integer nearest to an integer. -/
def clampInt64 (i : Int) : Int64 :=
  Int64.ofInt (max Int64.minValue.toInt (min i Int64.maxValue.toInt))

/-- Whether an integer is below a number. A number among the integers is rounded up to one, as the
integer would not always keep its value as a number. -/
def intLess (i : Int64) (x : Binary64) : Bool :=
  if x.isNaN then false
  else if pastIntegers.atMost x then true
  else if leastInteger.less x then decide (i < clampInt64 x.ceil)
  else false

/-- Whether a number is below an integer. A number among the integers is rounded down to one. -/
def lessInt (x : Binary64) (i : Int64) : Bool :=
  if x.isNaN then false
  else if pastIntegers.atMost x then false
  else if leastInteger.atMost x then decide (clampInt64 x.floor < i)
  else true

/-- The integer that a number is, if it is one. -/
def toInt? (x : Binary64) : Option Int :=
  if x.isFinite && x.unitCount % unitsPerOne == 0 then some (x.units / unitsPerOne) else none

/-- The 64-bit integer that a number is, if it is one. -/
def toInt64? (x : Binary64) : Option Int64 :=
  match x.toInt? with
  | some i =>
    if Int64.minValue.toInt ≤ i ∧ i ≤ Int64.maxValue.toInt then some (Int64.ofInt i) else none
  | none => none

/-- The encoding of the magnitude nearest to `n / d` units, ties to even; from halfway past the
largest finite number on, infinity. Rounding up to the next binade carries into the exponent. -/
def nearestBits (n d : Nat) : Nat :=
  let doublings := (n / d).log2 - 52
  min infinityBits (doublings * binadeSize + roundHalfEven n (d * Nat.pow 2 doublings))

/-- The number with a given sign and magnitude encoding. -/
def ofSignAndBits (negative : Bool) (magnitude : Nat) : Binary64 :=
  ⟨UInt64.ofNat (if negative then 0x8000000000000000 + magnitude else magnitude)⟩

/-- Zero of either sign. -/
def zero (negative : Bool) : Binary64 := ofSignAndBits negative 0

/-- The number nearest to an integer. -/
def ofInt (i : Int) : Binary64 :=
  ofSignAndBits (decide (i < 0)) (nearestBits (i.natAbs * unitsPerOne) 1)

/-- The number nearest to the sum of two finite numbers that are not both zero. -/
def add (x y : Binary64) : Binary64 :=
  let sum := x.units + y.units
  ofSignAndBits (decide (sum < 0)) (nearestBits sum.natAbs 1)

/-- The number nearest to the product of two finite numbers. -/
def mul (x y : Binary64) : Binary64 :=
  ofSignAndBits (x.isNegative != y.isNegative) (nearestBits (x.unitCount * y.unitCount) unitsPerOne)

/-- The number nearest to the quotient of a finite number by a finite one that is not zero. -/
def div (x y : Binary64) : Binary64 :=
  ofSignAndBits (x.isNegative != y.isNegative) (nearestBits (x.unitCount * unitsPerOne) y.unitCount)

/-- The number with the other sign. -/
def neg (x : Binary64) : Binary64 := ⟨x.bits ^^^ 0x8000000000000000⟩

end Binary64

end HybridTable
