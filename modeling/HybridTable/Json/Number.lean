import HybridTable.Json.Basic

/-!
Reading JSON numbers.

An integer that fits is read as such. Every other number is a significand of at most 64 bits times a
power of ten: digits that do not fit any more are dropped, the significand is rounded to double
precision, and so is the one multiplication or division by the power of ten. A number that would
become infinite is refused.
-/

namespace HybridTable.Json

/-- The digits and signs of a written number. -/
structure NumberText where
  /-- Whether it has a minus sign. -/
  negative : Bool
  /-- The digits before the point. -/
  whole : List Nat
  /-- The digits after the point. -/
  fraction : List Nat
  /-- The sign and the digits of the exponent, if it has one. -/
  exponent : Option (Bool × List Nat)

/-- The greatest significand. -/
def maxSignificand : Nat := 0xffffffffffffffff

/-- The greatest exponent that is read as a number. -/
def maxExponent : Nat := 0x7fffffff

/-- The greatest power of ten that is a double. -/
def maxPower : Nat := 308

/-- Appends digits to a significand as long as it fits, and returns those that are left over. -/
def absorb : Nat → List Nat → Nat × List Nat
  | significand, [] => (significand, [])
  | significand, digit :: rest =>
    if significand * 10 + digit ≤ maxSignificand then absorb (significand * 10 + digit) rest
    else (significand, digit :: rest)

/-- A power of ten, rounded. -/
def powerOfTen (n : Nat) : Binary64 := .ofInt (Nat.pow 10 n)

/-- A number times a power of ten, unless that is infinite. An exponent below the range of powers is
worked off in steps, which soon leaves zero. -/
def scaled (x : Binary64) (exponent : Int) : Option Binary64 :=
  if exponent < -(maxPower : Int) then
    if x.magnitudeBits = 0 then some x
    else scaled (x.div (powerOfTen maxPower)) (exponent + maxPower)
  else if exponent < 0 then some (x.div (powerOfTen exponent.natAbs))
  else if exponent ≤ maxPower then
    let y := x.mul (powerOfTen exponent.natAbs)
    if y.isInfinite then none else some y
  else if x.magnitudeBits = 0 then some x
  else none
termination_by (-exponent).toNat
decreasing_by simp only [maxPower] at *; omega

/-- The float of a given sign, significand and power of ten. -/
def floatOf (negative : Bool) (significand : Nat) (exponent : Int) : Option Json :=
  (scaled (.ofInt significand) exponent).map fun x => .float (if negative then x.neg else x)

/-- The integer that a sign and a significand stand for, if it fits. Minus zero does not. -/
def integerOf? (negative : Bool) (significand : Nat) : Option Int64 :=
  if negative then
    if 0 < significand ∧ significand ≤ 0x8000000000000000 then some (Int64.ofInt (-significand))
    else none
  else if significand < 0x8000000000000000 then some (Int64.ofNat significand)
  else none

/-- The number that a text stands for. -/
def NumberText.read (t : NumberText) : Option Json :=
  let (whole, dropped) := absorb 0 t.whole
  let (significand, ignored) := absorb whole t.fraction
  let places : Int := t.fraction.length - ignored.length
  let exponent : Int := dropped.length - places
  match t.exponent with
  | some (negative, digits) =>
    let size := digits.foldl (fun n digit => n * 10 + digit) 0
    if size ≤ maxExponent then
      floatOf t.negative significand (if negative then exponent - size else exponent + size)
    else if significand ≠ 0 ∧ !negative then none
    else some (.float (.zero t.negative))
  | none =>
    match t.fraction, dropped, integerOf? t.negative whole with
    | [], [], some i => some (.int i)
    | _, _, _ => floatOf t.negative significand exponent

end HybridTable.Json
