import QueryProjection.Binary64.Basic

/-!
# The fewest digits that read back

A floating point number is written with the fewest decimal digits from which it can be read back,
and among those with the digits nearest to it.

* `Binary64.Shortest.accepts` says which decimals read back as a number: those between the two
  midpoints to its neighbours, and the midpoints themselves if its significand is even;
* `Binary64.Shortest.digits` finds the digits, trying one digit, then two, and so on;
* `Binary64.Layout` says how digits and exponent are laid out, and `Binary64.Layout.write` does it.
-/

namespace QueryProjection
namespace Binary64

/-- Which of two equally near decimals is written. -/
inductive Tie where
  | up
  | even
deriving DecidableEq, Repr

/-- The decimal `digits · 10 ^ exponent`. -/
structure Decimal where
  digits : Nat
  exponent : Int
deriving DecidableEq, Repr

namespace Shortest

/-- A positive quotient `num / den` in units of `10 ^ e`, as a quotient of naturals. -/
def inTens (num den : Nat) (e : Int) : Nat × Nat :=
  if 0 ≤ e then (num, den * Nat.pow 10 e.toNat) else (num * Nat.pow 10 (-e).toNat, den)

def width (n : Nat) : Nat :=
  (Nat.toDigits 10 n).length

/-- The exponent of the leading decimal digit of a positive quotient. -/
def leadingExponent (num den : Nat) : Int :=
  if den ≤ num then (width (num / den) : Int) - 1
  else
    let w := width (den / num)
    if den ≤ num * Nat.pow 10 (w - 1) then -((w - 1 : Nat) : Int) else -(w : Int)

/-- The midpoints to the two neighbours of a positive finite number, and the number itself, in
quarters of its unit.  Below a power of two the neighbours lie twice as close. -/
def bounds (x : Binary64) : Nat × Nat × Nat :=
  let m := x.significand
  let below := if m = Nat.pow 2 52 ∧ -1074 < x.scale then 1 else 2
  (4 * m - below, 4 * m, 4 * m + 2)

/-- Whether the decimal `d · 10 ^ e` reads back as `x`. -/
def accepts (x : Binary64) (d : Nat) (e : Int) : Bool :=
  let (low, _, high) := bounds x
  let (dn, dd) := if 0 ≤ e then (d * Nat.pow 10 e.toNat, 1) else (d, Nat.pow 10 (-e).toNat)
  let (un, ud) := inUnits dn dd (x.scale - 2)
  if x.significand % 2 = 0 then low * ud ≤ un && un ≤ high * ud
  else low * ud < un && un < high * ud

/-- The decimal of `count` digits that is nearest to `x` among those that read back as `x`, if there
is one. -/
def candidate (tie : Tie) (x : Binary64) (count : Nat) : Option Decimal :=
  let (num, den) := x.ratio
  let e := leadingExponent num den - ((count : Int) - 1)
  let (n, d) := inTens num den e
  let low := n / d
  match accepts x low e, accepts x (low + 1) e with
  | true, true =>
    let r := n % d
    let upper := d < 2 * r || (2 * r == d && (tie == .up || low % 2 == 1))
    some ⟨if upper then low + 1 else low, e⟩
  | true, false => some ⟨low, e⟩
  | false, true => some ⟨low + 1, e⟩
  | false, false => none

/-- The first candidate found, with `fuel` digit counts left to try. -/
def search (tie : Tie) (x : Binary64) : (fuel count : Nat) → Decimal
  | 0, _ => ⟨x.significand, 0⟩
  | fuel + 1, count =>
    match candidate tie x count with
    | some found => found
    | none => search tie x fuel (count + 1)

/-- The digits of a decimal without the zeros at its end, and the exponent of the first digit. -/
def strip (d : Decimal) : List Char × Int :=
  let ds := Nat.toDigits 10 d.digits
  ((ds.reverse.dropWhile (· == '0')).reverse, d.exponent + ((ds.length : Int) - 1))

/-- The fewest digits that read back as a finite number that is not zero, and the exponent of the
first of them.  Seventeen digits always suffice. -/
def digits (tie : Tie) (x : Binary64) : List Char × Int :=
  strip (search tie x 17 1)

end Shortest

/-! ## Layout -/

/-- The decisions of a number format that go beyond the digits. -/
structure Layout where
  tie : Tie
  /-- The range of exponents of the first digit that are written without an exponent; none if all
  are. -/
  positional : Option (Int × Int)
  plus : Bool
deriving DecidableEq, Repr

namespace Layout

/-- Digits with the point at its place, and at least one digit on either side of it. -/
def point (ds : List Char) (e : Int) : List Char :=
  if e < 0 then '0' :: '.' :: (List.replicate ((-e).toNat - 1) '0' ++ ds)
  else
    let k := e.toNat + 1
    if ds.length ≤ k then ds ++ List.replicate (k - ds.length) '0' ++ ['.', '0']
    else ds.take k ++ '.' :: ds.drop k

/-- One digit before the point, and the exponent written out. -/
def scientific (plus : Bool) (ds : List Char) (e : Int) : List Char :=
  let mantissa :=
    match ds with
    | [] => ['0']
    | [d] => [d]
    | d :: rest => d :: '.' :: rest
  let sign := if e < 0 then ['-'] else if plus then ['+'] else []
  mantissa ++ 'e' :: (sign ++ Nat.toDigits 10 e.natAbs)

def writeFinite (l : Layout) (x : Binary64) : List Char :=
  if x.isZero then ['0', '.', '0']
  else
    let (ds, e) := Shortest.digits l.tie x
    match l.positional with
    | none => point ds e
    | some (low, high) => if low ≤ e && e ≤ high then point ds e else scientific l.plus ds e

/-- A number as text; the numbers that are not finite are `NaN`, `inf` and `-inf`. -/
def write (l : Layout) (x : Binary64) : String :=
  if x.isNaN then "NaN"
  else
    let body := if x.isInfinite then ['i', 'n', 'f'] else l.writeFinite x
    String.ofList (if x.negative then '-' :: body else body)

end Layout
end Binary64
end QueryProjection
