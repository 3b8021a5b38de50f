import HybridTable.Number.Binary64

/-!
Decimal text of double-precision numbers.

Which digits are written and how they are laid out are separate questions. The digits are either a
fixed number of significant ones, correctly rounded, or the fewest that single the number out among
all doubles. A `NumberLayout` then decides where the point goes and when an exponent is written.
-/

namespace HybridTable

/-- A decimal `significand * 10 ^ exponent`. -/
structure Decimal where
  /-- The digits, read as one integer. -/
  significand : Nat
  /-- The power of ten of the last digit. -/
  exponent : Int
  deriving DecidableEq, Repr

/-- The number of decimal digits of a natural number; zero has none. -/
def digitCount (n : Nat) : Nat :=
  if n = 0 then 0 else digitCount (n / 10) + 1
decreasing_by omega

namespace Decimal

/-- The power of ten of the leading digit. -/
def leading (d : Decimal) : Int := d.exponent + digitCount d.significand - 1

/-- Moves a power of ten into the exponent while the last digit is zero. -/
def trim (d : Decimal) : Decimal :=
  if d.significand ≠ 0 ∧ d.significand % 10 = 0 then trim ⟨d.significand / 10, d.exponent + 1⟩
  else d
termination_by d.significand
decreasing_by omega

/-- The power of ten of the leading digit of the positive quotient `n / d`. -/
def leadingOf (n d : Nat) : Int :=
  if d ≤ n then (digitCount (n / d) : Int) - 1 else -(digitCount ((d - 1) / n) : Int)

/-- The numerator and denominator of `n / d` counted in steps of `10 ^ exponent`. -/
def scale (n d : Nat) (exponent : Int) : Nat × Nat :=
  if exponent < 0 then (n * Nat.pow 10 (-exponent).toNat, d) else (n, d * Nat.pow 10 exponent.toNat)

/-- The positive quotient `n / d` to `count` significant digits, ties to even. Rounding up to the
next power of ten leaves one digit more, a zero. -/
def significant (count n d : Nat) : Decimal :=
  let exponent := leadingOf n d + 1 - count
  let (n', d') := scale n d exponent
  ⟨roundHalfEven n' d', exponent⟩

/-- The bounds, in half units, between which every real rounds to the magnitude `bits`, and whether
the bounds themselves do. -/
def readingInterval (bits : Nat) : Nat × Nat × Bool :=
  let own := Binary64.unitsOfBits bits
  (Binary64.unitsOfBits (bits - 1) + own, own + Binary64.unitsOfBits (bits + 1), bits % 2 == 0)

/-- Whether a decimal lies in the reading interval of a magnitude. -/
def readsAs (bits : Nat) (d : Decimal) : Bool :=
  let (low, high, closed) := readingInterval bits
  let twice := 2 * d.significand * Binary64.unitsPerOne
  let (value, step) :=
    if d.exponent < 0 then (twice, Nat.pow 10 (-d.exponent).toNat)
    else (twice * Nat.pow 10 d.exponent.toNat, 1)
  if closed then low * step ≤ value && value ≤ high * step
  else low * step < value && value < high * step

/-- The decimal with `count` significant digits that reads back as the magnitude `bits`, if there
is one; of the two neighbours on that grid, the nearer. -/
def withDigits? (bits count : Nat) : Option Decimal :=
  let units := Binary64.unitsOfBits bits
  let exponent := leadingOf units Binary64.unitsPerOne + 1 - count
  let (n, d) := scale units Binary64.unitsPerOne exponent
  let nearer := roundHalfEven n d
  let farther := if nearer = n / d then nearer + 1 else n / d
  if readsAs bits ⟨nearer, exponent⟩ then some ⟨nearer, exponent⟩
  else if readsAs bits ⟨farther, exponent⟩ then some ⟨farther, exponent⟩
  else none

/-- The shortest decimal that reads back as the magnitude `bits`. Seventeen digits always do. -/
def shortest (bits : Nat) : Decimal :=
  let found := (List.range 17).findSome? fun fewer => withDigits? bits (fewer + 1)
  (found.getD (significant 17 (Binary64.unitsOfBits bits) Binary64.unitsPerOne)).trim

end Decimal

/-- Where the decimal text of a number has its point and when it has an exponent. -/
structure NumberLayout where
  /-- The least power of ten of a leading digit that is written without an exponent. -/
  leastPlain : Int
  /-- The greatest power of ten of a leading digit that is written without an exponent. -/
  greatestPlain : Int
  /-- The least number of digits of an exponent. -/
  exponentDigits : Nat

namespace NumberLayout

/-- The digits of a positive integer. -/
def digits (n : Nat) : List Char := Nat.toDigits 10 n

/-- Text without an exponent; an integer gets a zero after the point. -/
def plain (d : Decimal) : List Char :=
  let ds := digits d.significand
  if 0 ≤ d.exponent then ds ++ List.replicate d.exponent.toNat '0' ++ ['.', '0']
  else if 0 ≤ d.leading then
    ds.take (d.leading.toNat + 1) ++ '.' :: ds.drop (d.leading.toNat + 1)
  else '0' :: '.' :: List.replicate (-d.leading - 1).toNat '0' ++ ds

/-- Text with an exponent: one digit before the point, and no point when no digit follows. -/
def scientific (width : Nat) (d : Decimal) : List Char :=
  let exponent := digits d.leading.natAbs
  let mantissa := match digits d.significand with
    | first :: [] => [first]
    | first :: rest => first :: '.' :: rest
    | [] => []
  mantissa ++ 'e' :: (if d.leading < 0 then '-' else '+') ::
    List.replicate (width - exponent.length) '0' ++ exponent

/-- The text of a positive decimal that does not end in a zero digit. -/
def write (layout : NumberLayout) (d : Decimal) : List Char :=
  if layout.leastPlain ≤ d.leading ∧ d.leading ≤ layout.greatestPlain then plain d
  else scientific layout.exponentDigits d

/-- The text of a finite number whose digits are chosen from its magnitude by `select`. -/
def writeFinite (layout : NumberLayout) (select : Nat → Decimal) (x : Binary64) : String :=
  let magnitude :=
    if x.magnitudeBits = 0 then ['0', '.', '0'] else layout.write (select x.magnitudeBits)
  String.ofList (if x.isNegative then '-' :: magnitude else magnitude)

end NumberLayout

end HybridTable
