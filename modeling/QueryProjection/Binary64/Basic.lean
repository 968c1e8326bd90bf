/-!
# Binary floating point numbers of 64 bits

A number is its bit pattern: a sign, eleven bits of exponent and fifty-two bits of fraction.  The
library never adds two such numbers, so this file holds only what it does need, computed exactly
with integers:

* `Binary64.significand` and `Binary64.scale` read a finite number as `± significand · 2 ^ scale`;
* `Binary64.ofRatio` rounds a quotient of naturals to the nearest number, a tie to the one with an
  even significand, and `Binary64.ofInt` does the same for an integer;
* `Binary64.totalCompare` is the order of the bit patterns, in which `-0.0` comes before `0.0` and
  the NaNs come at the two ends;
* `Binary64.sameNumber` is numeric equality, in which the two zeros are equal and a NaN differs
  from everything.
-/

namespace QueryProjection

/-- A binary floating point number of 64 bits, as its bit pattern. -/
structure Binary64 where
  /-- Sign, exponent and fraction, from the most significant bit down. -/
  bits : UInt64
deriving DecidableEq, Repr

namespace Binary64

/-! ## Reading the bit pattern -/

def negative (x : Binary64) : Bool :=
  Nat.pow 2 63 ≤ x.bits.toNat

def magnitude (x : Binary64) : Nat :=
  x.bits.toNat % Nat.pow 2 63

/-- The magnitude of the infinities.  Every larger magnitude is a NaN. -/
def infinityMagnitude : Nat :=
  2047 * Nat.pow 2 52

def isNaN (x : Binary64) : Bool :=
  infinityMagnitude < x.magnitude

def isInfinite (x : Binary64) : Bool :=
  x.magnitude == infinityMagnitude

def isFinite (x : Binary64) : Bool :=
  x.magnitude < infinityMagnitude

def isZero (x : Binary64) : Bool :=
  x.magnitude == 0

/-- The whole number that a finite number is a multiple of a power of two of. -/
def significand (x : Binary64) : Nat :=
  if x.magnitude / Nat.pow 2 52 = 0 then x.magnitude
  else x.magnitude % Nat.pow 2 52 + Nat.pow 2 52

/-- The exponent of that power of two. -/
def scale (x : Binary64) : Int :=
  max 1 ((x.magnitude / Nat.pow 2 52 : Nat) : Int) - 1075

/-- The absolute value of a finite number as a quotient of naturals. -/
def ratio (x : Binary64) : Nat × Nat :=
  if 0 ≤ x.scale then (x.significand * Nat.pow 2 x.scale.toNat, 1)
  else (x.significand, Nat.pow 2 (-x.scale).toNat)

/-! ## Building numbers -/

def ofMagnitude (negative : Bool) (magnitude : Nat) : Binary64 :=
  ⟨UInt64.ofNat (if negative then Nat.pow 2 63 + magnitude else magnitude)⟩

def zero (negative : Bool) : Binary64 :=
  ofMagnitude negative 0

def infinity (negative : Bool) : Binary64 :=
  ofMagnitude negative infinityMagnitude

def nan : Binary64 :=
  ofMagnitude false (infinityMagnitude + Nat.pow 2 51)

/-- The quotient rounded to the nearest natural, a tie to the even one. -/
def roundDiv (num den : Nat) : Nat :=
  let q := num / den
  let r := num % den
  if den < 2 * r ∨ (2 * r = den ∧ q % 2 = 1) then q + 1 else q

/-- The quotient `num / den` in units of `2 ^ e`, as a quotient of naturals. -/
def inUnits (num den : Nat) (e : Int) : Nat × Nat :=
  if 0 ≤ e then (num, den * Nat.pow 2 e.toNat) else (num * Nat.pow 2 (-e).toNat, den)

/-- The exponent of the unit that a positive quotient is rounded to: the quotient has 53 binary
digits in it, or fewer if the unit is already the smallest one. -/
def unitExponent (num den : Nat) : Int :=
  let e : Int := (Nat.log2 num : Int) - Nat.log2 den - 52
  let (n, d) := inUnits num den e
  max (-1074) (if n / d < Nat.pow 2 52 then e - 1 else e)

/-- The quotient `num / den` rounded to the nearest number, a tie to the one with an even
significand.  A quotient beyond the largest number becomes an infinity. -/
def ofRatio (negative : Bool) (num den : Nat) : Binary64 :=
  if num = 0 then zero negative
  else
    let e := unitExponent num den
    let (n, d) := inUnits num den e
    ofMagnitude negative (min infinityMagnitude ((e + 1074).toNat * Nat.pow 2 52 + roundDiv n d))

/-- The integer rounded to the nearest number, a tie to the one with an even significand. -/
def ofInt (i : Int) : Binary64 :=
  ofRatio (i < 0) i.natAbs 1

def mul (x y : Binary64) : Binary64 :=
  let (a, b) := x.ratio
  let (c, d) := y.ratio
  ofRatio (x.negative != y.negative) (a * c) (b * d)

/-- The quotient of finite numbers by one that is not zero, rounded. -/
def div (x y : Binary64) : Binary64 :=
  let (a, b) := x.ratio
  let (c, d) := y.ratio
  ofRatio (x.negative != y.negative) (a * d) (b * c)

def neg (x : Binary64) : Binary64 :=
  ofMagnitude (!x.negative) x.magnitude

/-! ## Order and equality -/

/-- The place of a number in the order of the bit patterns. -/
def orderKey (x : Binary64) : Int :=
  if x.negative then -(x.magnitude : Int) - 1 else x.magnitude

/-- The order of the bit patterns: negative NaNs, then the numbers with `-0.0` before `0.0`, then
the other NaNs. -/
def totalCompare (x y : Binary64) : Ordering :=
  compare x.orderKey y.orderKey

/-- Numeric equality: the two zeros are equal, and a NaN differs from everything. -/
def sameNumber (x y : Binary64) : Bool :=
  !x.isNaN && !y.isNaN && (x.bits == y.bits || (x.isZero && y.isZero))

end Binary64
end QueryProjection
