import Disassembly.BinaryFloat.Basic
import Disassembly.Numeral

/-!
# Floating-point numbers in general decimal notation

The general notation has six significant digits, rounded half to even from the
exact value, without trailing zeros.  It is positional from ten to the power of
minus four up to six digits before the point, and scientific outside that
range, with a signed exponent of at least two digits.
-/

namespace Disassembly

namespace BinaryFormat

def tenTo (power : Nat) : Nat :=
  Nat.pow 10 power

/-- The number of significant digits. -/
def precision : Nat := 6

/-- The quotient of two numbers, rounded to the nearest integer and half to even. -/
def roundedQuotient (numerator denominator : Nat) : Nat :=
  let quotient := numerator / denominator
  let twice := 2 * (numerator % denominator)
  if twice > denominator ∨ (twice = denominator ∧ quotient % 2 = 1) then quotient + 1
  else quotient

/-- Ten to this power times any positive number of a format is above one. -/
def scale : Nat := 400

/-- The power of ten of the first digit of a positive quotient. -/
def leadingPower (numerator denominator : Nat) : Int :=
  ((Nat.toDigits 10 (numerator * tenTo scale / denominator)).length : Int) - 1 - scale

/-- The significant digits of a positive quotient as one number, and the power of the first one. -/
def significant (numerator denominator : Nat) : Nat × Int :=
  let power := leadingPower numerator denominator
  let shift : Int := precision - 1 - power
  let digits := roundedQuotient (numerator * tenTo shift.toNat) (denominator * tenTo (-shift).toNat)
  if digits = tenTo precision then (tenTo (precision - 1), power + 1) else (digits, power)

def withoutTrailingZeros (digits : List Char) : List Char :=
  (digits.reverse.dropWhile (· = '0')).reverse

/-- Digits before the point and, if any is left, a point and the digits after it. -/
def pointed (whole places : List Char) : String :=
  match withoutTrailingZeros places with
  | [] => String.ofList whole
  | kept => String.ofList (whole ++ '.' :: kept)

/-- A signed exponent of at least two digits. -/
def exponentText (power : Int) : String :=
  let digits := Numeral.decimal power.natAbs
  (if power < 0 then "e-" else "e+") ++ (if power.natAbs < 10 then "0" ++ digits else digits)

/-- The notation of a positive quotient. -/
def positiveText (numerator denominator : Nat) : String :=
  let (value, power) := significant numerator denominator
  let digits := Nat.toDigits 10 value
  if power < -4 ∨ (precision : Int) ≤ power then
    pointed (digits.take 1) (digits.drop 1) ++ exponentText power
  else if power < 0 then
    pointed ['0'] (List.replicate (power.natAbs - 1) '0' ++ digits)
  else
    pointed (digits.take (power.toNat + 1)) (digits.drop (power.toNat + 1))

/-- A bit pattern of the format in general notation. -/
def generalText (format : BinaryFormat) (bits : Nat) : String :=
  (if format.isNegative bits then "-" else "") ++
    if format.isNaN bits then "nan"
    else if format.isInfinite bits then "inf"
    else if format.isZero bits then "0"
    else positiveText (format.magnitude bits).1 (format.magnitude bits).2

end BinaryFormat

end Disassembly
