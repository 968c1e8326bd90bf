import QueryProjection.Binary64.Basic

/-!
# Decimal literals

A decimal literal is a sign, digits, a fraction and an exponent.  `NumberLiteral.scan` reads one off
the front of a text.  Two ways of turning it into a number are here:

* `NumberLiteral.nearest` rounds the exact value once;
* `NumberLiteral.scaled` keeps as many leading digits as fit a 64-bit word, rounds those, and then
  multiplies or divides by a power of ten and rounds again.  It has no value for a literal whose
  result is too large.  For literals of up to fifteen digits with a small exponent the two agree.
-/

namespace QueryProjection

def digitValue (c : Char) : Nat :=
  c.toNat - '0'.toNat

def digitsValue (digits : List Char) : Nat :=
  digits.foldl (fun n c => 10 * n + digitValue c) 0

structure NumberLiteral where
  negative : Bool
  whole : List Char
  /-- The digits after the point; none if there is no point. -/
  fraction : List Char
  /-- The exponent's sign (`true` for minus) and digits. -/
  exponent : Option (Bool × List Char)
deriving DecidableEq, Repr

namespace NumberLiteral

/-! ## Reading a literal -/

/-- `0`, or digits that start with another one. -/
def scanWhole : List Char → Option (List Char × List Char)
  | [] => none
  | c :: rest =>
    if c == '0' then some (['0'], rest)
    else if c.isDigit then some (c :: rest.takeWhile Char.isDigit, rest.dropWhile Char.isDigit)
    else none

/-- A point and at least one digit, or nothing. -/
def scanFraction (text : List Char) : List Char × List Char :=
  match text with
  | '.' :: rest =>
    match rest.takeWhile Char.isDigit with
    | [] => ([], text)
    | digits => (digits, rest.dropWhile Char.isDigit)
  | _ => ([], text)

def scanExponentDigits (minus : Bool) (rest : List Char) :
    Option ((Bool × List Char) × List Char) :=
  match rest.takeWhile Char.isDigit with
  | [] => none
  | digits => some ((minus, digits), rest.dropWhile Char.isDigit)

/-- `e` or `E`, a sign if there is one, and at least one digit; or nothing. -/
def scanExponent (text : List Char) : Option (Bool × List Char) × List Char :=
  let found :=
    match text with
    | 'e' :: '-' :: rest | 'E' :: '-' :: rest => scanExponentDigits true rest
    | 'e' :: '+' :: rest | 'E' :: '+' :: rest => scanExponentDigits false rest
    | 'e' :: rest | 'E' :: rest => scanExponentDigits false rest
    | _ => none
  match found with
  | some (exponent, rest) => (some exponent, rest)
  | none => (none, text)

/-- The literal at the front of a text, and what follows it. -/
def scan (text : List Char) : Option (NumberLiteral × List Char) :=
  let (negative, unsigned) :=
    match text with
    | '-' :: rest => (true, rest)
    | _ => (false, text)
  match scanWhole unsigned with
  | none => none
  | some (whole, rest) =>
    let (fraction, rest) := scanFraction rest
    let (exponent, rest) := scanExponent rest
    some (⟨negative, whole, fraction, exponent⟩, rest)

def isWhole (l : NumberLiteral) : Bool :=
  l.fraction.isEmpty && l.exponent.isNone

def exponentValue (l : NumberLiteral) : Int :=
  match l.exponent with
  | none => 0
  | some (minus, digits) => if minus then -(digitsValue digits : Int) else digitsValue digits

/-! ## One rounding -/

/-- The number nearest to the literal's value.  Beyond four hundred decimal places on either side
the answer is the infinity or the zero of the literal's sign whatever the digits are, so no larger
power of ten is formed. -/
def nearest (l : NumberLiteral) : Binary64 :=
  let digits := l.whole ++ l.fraction
  let n := digitsValue digits
  let e := l.exponentValue - l.fraction.length
  if n = 0 then .zero l.negative
  else if 400 < e then .infinity l.negative
  else if e < -400 - digits.length then .zero l.negative
  else if 0 ≤ e then .ofRatio l.negative (n * Nat.pow 10 e.toNat) 1
  else .ofRatio l.negative n (Nat.pow 10 (-e).toNat)

/-! ## Leading digits, then a scale -/

def wordMax : Nat :=
  Nat.pow 2 64 - 1

/-- The longest run of leading digits that, appended to `n`, still fits a 64-bit word, as the
number it spells, and the digits that are left over. -/
def absorb (n : Nat) : List Char → Nat × List Char
  | [] => (n, [])
  | c :: rest =>
    let next := 10 * n + digitValue c
    if wordMax < next then (n, c :: rest) else absorb next rest

/-- Dividing by `10 ^ k` in steps of `10 ^ 308`, the largest power of ten that is a number. -/
def divPowerOfTen (x : Binary64) (k : Nat) : Binary64 :=
  if k ≤ 308 then x.div (.ofRatio false (Nat.pow 10 k) 1)
  else if x.isZero then x
  else divPowerOfTen (x.div (.ofRatio false (Nat.pow 10 308) 1)) (k - 308)
termination_by k

/-- `n · 10 ^ e` with `n` rounded first and the product or quotient rounded after it; none if the
result is too large. -/
def scaleByTen (negative : Bool) (n : Nat) (e : Int) : Option Binary64 :=
  let x := Binary64.ofRatio negative n 1
  if e < 0 then some (divPowerOfTen x (-e).toNat)
  else if 308 < e then if n = 0 then some x else none
  else
    let y := x.mul (.ofRatio false (Nat.pow 10 e.toNat) 1)
    if y.isInfinite then none else some y

/-- The number for the literal, none if it is too large: the leading digits that fit a 64-bit word
are rounded, and so is their multiple by the power of ten that the other digits and the exponent
call for. -/
def scaled (l : NumberLiteral) : Option Binary64 :=
  let (n, dropped) := absorb 0 l.whole
  let (n, left) := absorb n l.fraction
  let e : Int := dropped.length - ((l.fraction.length - left.length : Nat) : Int)
  let written := l.exponentValue
  if Nat.pow 2 31 ≤ written.natAbs then
    if n ≠ 0 ∧ 0 < written then none else some (.zero l.negative)
  else scaleByTen l.negative n (e + written)

end NumberLiteral
end QueryProjection
