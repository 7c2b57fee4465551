import Lox.Number.Decimal

/-!
# Number texts

A number is written from its shortest decimal, positionally or with a power of
ten. Where the one notation ends and the other begins, whether a whole number
keeps a point, and how the special values are spelled are the fields of a
`NumberFormat`; the outputs that show numbers each own one such record.
-/

namespace Lox

/-- The decisions that one output makes about its number texts. -/
structure NumberFormat where
  /-- Which of two equally near decimals is written. -/
  tie : Tie
  /-- The leading exponents that are written positionally; `none` for all. -/
  positional : Option (Int × Int)
  /-- Whether a whole number in positional notation ends in `.0`. -/
  wholePoint : Bool
  /-- Whether a one-digit number before a power of ten ends in `.0`. -/
  mantissaPoint : Bool
  /-- The least number of digits of the power of ten. -/
  exponentWidth : Nat
  /-- The text of not-a-number. -/
  nan : String
  /-- The text of infinity, its sign left aside. -/
  infinity : String

/-- A run of zeros. -/
def zeros (n : Nat) : List Char := List.replicate n '0'

namespace Decimal

/-- Positional notation: the digits with the point in its place, padded with
zeros where the digits do not reach it. -/
def positionalText (wholePoint : Bool) (d : Decimal) : List Char :=
  if 0 ≤ d.exponent then
    d.digits ++ zeros d.exponent.toNat ++ (if wholePoint then ['.', '0'] else [])
  else
    let places := (-d.exponent).toNat
    if places < d.digits.length then
      d.digits.take (d.digits.length - places) ++ '.' :: d.digits.drop (d.digits.length - places)
    else
      '0' :: '.' :: (zeros (places - d.digits.length) ++ d.digits)

/-- The leading digit, a point, and the other digits. -/
def mantissaText (mantissaPoint : Bool) (d : Decimal) : List Char :=
  match d.digits with
  | [] => []
  | [digit] => digit :: (if mantissaPoint then ['.', '0'] else [])
  | digit :: rest => digit :: '.' :: rest

/-- The power of ten, with its sign and at least `width` digits. -/
def exponentText (width : Nat) (exponent : Int) : List Char :=
  let digits := Nat.toDigits 10 exponent.natAbs
  'e' :: (if exponent < 0 then '-' else '+') :: (zeros (width - digits.length) ++ digits)

end Decimal

namespace NumberFormat

/-- Whether a decimal is written positionally. -/
def isPositional (format : NumberFormat) (d : Decimal) : Bool :=
  match format.positional with
  | none => true
  | some (least, greatest) => least ≤ d.leadingExponent && d.leadingExponent ≤ greatest

/-- The text of a decimal. -/
def decimalText (format : NumberFormat) (d : Decimal) : List Char :=
  if format.isPositional d then d.positionalText format.wholePoint
  else d.mantissaText format.mantissaPoint ++
    Decimal.exponentText format.exponentWidth d.leadingExponent

/-- The minus sign of a number with its sign bit set. -/
def sign (x : Float) : List Char := if signBit x then ['-'] else []

/-- The text of a number. -/
def text (format : NumberFormat) (x : Float) : String :=
  match magnitude x with
  | .nan => format.nan
  | .infinite => String.ofList (sign x) ++ format.infinity
  | .finite d => String.ofList (sign x ++ format.decimalText (Decimal.shortest format.tie d))

/-- Every digit of a whole number up to the point, one zero after it, and
`none` for a number with a fraction. -/
def wholeText? (x : Float) : Option String :=
  match magnitude x with
  | .finite d => d.whole?.map fun n =>
      String.ofList (sign x ++ Nat.toDigits 10 n ++ ['.', '0'])
  | _ => none

/-- Shortest digits in positional notation whatever the magnitude. -/
def plain : NumberFormat where
  tie := .up
  positional := none
  wholePoint := false
  mantissaPoint := false
  exponentWidth := 1
  nan := "NaN"
  infinity := "inf"

end NumberFormat

end Lox
