/-!
# Binary floating-point numbers as exact dyadic fractions

A number of the language is a 64-bit binary float. Its bits are read here as a
sign and an exact magnitude `mantissa * 2 ^ exponent`, so that every question
about its decimal text is a question about natural numbers. Only the reading
of bits is defined; arithmetic stays with `Float`.
-/

namespace Lox

/-- The magnitude of a finite float, as `mantissa * 2 ^ exponent`. -/
structure Dyadic where
  /-- The integer significand, below `2 ^ 53`. -/
  mantissa : Nat
  /-- The power of two that scales the significand. -/
  exponent : Int
  deriving DecidableEq, Repr

/-- What a float denotes, its sign left aside. -/
inductive Magnitude where
  /-- Not a number. -/
  | nan
  /-- Larger than every finite number. -/
  | infinite
  /-- An exact dyadic fraction, possibly zero. -/
  | finite (value : Dyadic)
  deriving DecidableEq, Repr

/-- The sign bit: `true` for negative numbers and for negative zero. -/
def signBit (x : Float) : Bool := Nat.pow 2 63 ≤ x.toBits.toNat

/-- The magnitude that the exponent and fraction bits of a float denote. -/
def magnitude (x : Float) : Magnitude :=
  let exponentField : Nat := x.toBits.toNat / Nat.pow 2 52 % Nat.pow 2 11
  let fraction : Nat := x.toBits.toNat % Nat.pow 2 52
  if exponentField = 2047 then
    if fraction = 0 then .infinite else .nan
  else if exponentField = 0 then
    .finite ⟨fraction, -1074⟩
  else
    .finite ⟨Nat.pow 2 52 + fraction, (exponentField : Int) - 1075⟩

namespace Dyadic

/-- The numerator of the value over `denominator`. -/
def numerator (d : Dyadic) : Nat := d.mantissa * Nat.pow 2 d.exponent.toNat

/-- The power of two under the value; one when the exponent is not negative. -/
def denominator (d : Dyadic) : Nat := Nat.pow 2 (-d.exponent).toNat

/-- The value as a natural number, when it is one. -/
def whole? (d : Dyadic) : Option Nat :=
  if d.numerator % d.denominator = 0 then some (d.numerator / d.denominator) else none

end Dyadic

end Lox
