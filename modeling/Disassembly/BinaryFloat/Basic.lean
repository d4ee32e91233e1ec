/-!
# Binary floating-point numbers

A number of a binary interchange format is kept as its bit pattern: a sign, a
biased exponent and a fraction.  Two patterns are the same number if neither is
a NaN and they are equal or both a zero.
-/

namespace Disassembly

/-- The widths of the two lower parts of a bit pattern. -/
structure BinaryFormat where
  exponentBits : Nat
  fractionBits : Nat
deriving DecidableEq, Repr

namespace BinaryFormat

def binary32 : BinaryFormat := ⟨8, 23⟩
def binary64 : BinaryFormat := ⟨11, 52⟩

variable (format : BinaryFormat)

/-- The number of different fractions. -/
def fractionCount : Nat :=
  1 <<< format.fractionBits

/-- The number of different exponents. -/
def exponentCount : Nat :=
  1 <<< format.exponentBits

def isNegative (bits : Nat) : Bool :=
  bits / (format.exponentCount * format.fractionCount) % 2 = 1

def exponent (bits : Nat) : Nat :=
  bits / format.fractionCount % format.exponentCount

def fraction (bits : Nat) : Nat :=
  bits % format.fractionCount

/-- The exponent of the infinities and of the NaNs. -/
def topExponent : Nat :=
  format.exponentCount - 1

def isNaN (bits : Nat) : Bool :=
  format.exponent bits = format.topExponent && format.fraction bits ≠ 0

def isInfinite (bits : Nat) : Bool :=
  format.exponent bits = format.topExponent && format.fraction bits = 0

def isZero (bits : Nat) : Bool :=
  format.exponent bits = 0 && format.fraction bits = 0

def sameNumber (first second : Nat) : Bool :=
  !format.isNaN first && !format.isNaN second &&
    (first = second || (format.isZero first && format.isZero second))

/-- The exponent for which the significand is the number itself. -/
def unitExponent : Nat :=
  format.exponentCount / 2 - 1 + format.fractionBits

/-- The absolute value of a finite pattern as a numerator and a denominator. -/
def magnitude (bits : Nat) : Nat × Nat :=
  let exponent := max (format.exponent bits) 1
  let significand :=
    if format.exponent bits = 0 then format.fraction bits
    else format.fractionCount + format.fraction bits
  (significand <<< (exponent - format.unitExponent), 1 <<< (format.unitExponent - exponent))

end BinaryFormat

end Disassembly
