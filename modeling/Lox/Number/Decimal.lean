import Lox.Number.Dyadic

/-!
# The shortest decimal that reads back

Every positive finite float owns the interval of reals that round to it. The
shortest decimal of the float is found on grids of one, two, and up to
seventeen significant digits: on the first grid that has a point inside the
interval, the point nearest to the value is taken. All comparisons are between
natural numbers, so nothing here is approximate. When two grid points are
equally near, the choice is left to the caller.
-/

namespace Lox

/-- A decimal fraction `coefficient * 10 ^ exponent`. -/
structure Decimal where
  /-- The significant digits read as one integer. -/
  coefficient : Nat
  /-- The power of ten that scales the coefficient. -/
  exponent : Int
  deriving DecidableEq, Repr

/-- Which of two equally near decimals is written. -/
inductive Tie where
  /-- The larger one. -/
  | up
  /-- The one whose last digit is even. -/
  | even
  deriving DecidableEq, Repr

/-- How many decimal digits a natural number has; zero has one. -/
def digitCount (n : Nat) : Nat := (Nat.toDigits 10 n).length

/-- The reals that round to one float: all reals between `low` and `high` in
units of `2 ^ exponent`, around `middle`. -/
structure Rounding where
  /-- Lower end of the interval. -/
  low : Nat
  /-- The value of the float itself. -/
  middle : Nat
  /-- Upper end of the interval. -/
  high : Nat
  /-- The power of two that the three numbers are multiplied by. -/
  exponent : Int
  /-- Whether the two ends belong to the interval. -/
  closed : Bool
  deriving DecidableEq, Repr

namespace Rounding

/-- The interval of a nonzero dyadic. The gap below a power of two is half the
gap above it, except at the bottom of the exponent range; the ends round to
the float exactly when its significand is even. -/
def ofDyadic (d : Dyadic) : Rounding :=
  { low := if d.mantissa = Nat.pow 2 52 ∧ -1074 < d.exponent then 4 * d.mantissa - 1
      else 4 * d.mantissa - 2
    middle := 4 * d.mantissa
    high := 4 * d.mantissa + 2
    exponent := d.exponent - 2
    closed := d.mantissa % 2 = 0 }

/-- One point `n` of the interval's own scale, on a scale shared with the grid
of step `10 ^ step`. -/
def ofBinary (r : Rounding) (step : Int) (n : Nat) : Nat :=
  n * Nat.pow 2 r.exponent.toNat * Nat.pow 10 (-step).toNat

/-- The grid point `n * 10 ^ step` on the scale of `ofBinary`. -/
def ofGrid (r : Rounding) (step : Int) (n : Nat) : Nat :=
  n * Nat.pow 10 step.toNat * Nat.pow 2 (-r.exponent).toNat

/-- Whether the grid point `n * 10 ^ step` rounds to the float. -/
def contains (r : Rounding) (step : Int) (n : Nat) : Bool :=
  let point := r.ofGrid step n
  if r.closed then r.ofBinary step r.low ≤ point && point ≤ r.ofBinary step r.high
  else r.ofBinary step r.low < point && point < r.ofBinary step r.high

/-- The grid point below the value, or on it. -/
def below (r : Rounding) (step : Int) : Nat :=
  r.ofBinary step r.middle / r.ofGrid step 1

/-- Whether the value is nearer to the grid point above it than to `below`. -/
def nearerAbove (r : Rounding) (tie : Tie) (step : Int) : Bool :=
  let remainder := r.ofBinary step r.middle % r.ofGrid step 1
  match compare (2 * remainder) (r.ofGrid step 1) with
  | .lt => false
  | .gt => true
  | .eq => match tie with
    | .up => true
    | .even => r.below step % 2 = 1

/-- The point of one grid that is written, if the grid has a point inside. -/
def onGrid? (r : Rounding) (tie : Tie) (step : Int) : Option Nat :=
  let n := r.below step
  match r.contains step n, r.contains step (n + 1) with
  | true, true => some (if r.nearerAbove tie step then n + 1 else n)
  | true, false => some n
  | false, true => some (n + 1)
  | false, false => none

/-- The first hit on at most `tries` grids, each ten times finer than the one
before. -/
def firstHit (r : Rounding) (tie : Tie) : Nat → Int → Decimal
  | 0, step => ⟨r.below step, step⟩
  | tries + 1, step =>
    match r.onGrid? tie step with
    | some n => ⟨n, step⟩
    | none => firstHit r tie tries (step - 1)

end Rounding

/-- The exponent of the leading decimal digit of a nonzero dyadic: the `k` with
`10 ^ k ≤ value < 10 ^ (k + 1)`. -/
def Dyadic.leadingExponent (d : Dyadic) : Int :=
  if d.denominator ≤ d.numerator then
    (digitCount (d.numerator / d.denominator) : Int) - 1
  else
    -(digitCount ((d.denominator - 1) / d.numerator) : Int)

namespace Decimal

/-- The digits of the coefficient, most significant first. -/
def digits (d : Decimal) : List Char := Nat.toDigits 10 d.coefficient

/-- The exponent of the leading digit. -/
def leadingExponent (d : Decimal) : Int := d.exponent + d.digits.length - 1

/-- At most `n` zeros at the end of the coefficient moved to the exponent. -/
def dropZeros : Nat → Decimal → Decimal
  | 0, d => d
  | n + 1, d =>
    if d.coefficient ≠ 0 ∧ d.coefficient % 10 = 0 then
      dropZeros n ⟨d.coefficient / 10, d.exponent + 1⟩
    else d

/-- The decimal of fewest digits that rounds to the given dyadic, and of those
the nearest. Zero is written with the single digit zero. -/
def shortest (tie : Tie) (d : Dyadic) : Decimal :=
  if d.mantissa = 0 then ⟨0, 0⟩
  else dropZeros 17 ((Rounding.ofDyadic d).firstHit tie 17 d.leadingExponent)

end Decimal

end Lox
