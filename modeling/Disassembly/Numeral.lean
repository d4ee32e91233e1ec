/-!
# Numerals

Numbers are written in decimal, bytes as two upper-case hexadecimal digits
behind `0x`, byte positions in bare lower-case hexadecimal.  Numbers are read
in decimal, or in hexadecimal of either case behind `0x` or `0X`; there is no
sign, any number of leading zeros is allowed, and a bound on the value is the
reader's only other rule.
-/

namespace Disassembly

namespace Numeral

def decimal (value : Nat) : String :=
  String.ofList (Nat.toDigits 10 value)

def signedDecimal (value : Int) : String :=
  if value < 0 then "-" ++ decimal value.natAbs else decimal value.natAbs

/-- The digit of a value below sixteen, in upper case. -/
def upperDigit (value : Nat) : Char :=
  if value < 10 then Char.ofNat (48 + value) else Char.ofNat (55 + value)

/-- A byte as `0x` and two digits. -/
def hexByte (byte : UInt8) : String :=
  String.ofList ['0', 'x', upperDigit (byte.toNat / 16), upperDigit (byte.toNat % 16)]

def hexPosition (position : Nat) : String :=
  String.ofList (Nat.toDigits 16 position)

/-- The value of a digit of either case in a base up to sixteen. -/
def digit? (base : Nat) (c : Char) : Option Nat :=
  let value :=
    if '0' ≤ c ∧ c ≤ '9' then c.toNat - 48
    else if 'a' ≤ c ∧ c ≤ 'f' then c.toNat - 87
    else if 'A' ≤ c ∧ c ≤ 'F' then c.toNat - 55
    else base
  if value < base then some value else none

/-- A run of digits, at least one. -/
def digits? (base : Nat) (cs : List Char) : Option Nat :=
  if cs.isEmpty then none
  else cs.foldlM (fun value c => (digit? base c).map (value * base + ·)) 0

def read? (cs : List Char) : Option Nat :=
  match cs with
  | '0' :: 'x' :: digit :: more => digits? 16 (digit :: more)
  | '0' :: 'X' :: digit :: more => digits? 16 (digit :: more)
  | _ => digits? 10 cs

/-- A numeral whose value is at most `bound`. -/
def readAtMost? (bound : Nat) (text : String) : Option Nat :=
  (read? text.toList).filter (· ≤ bound)

def byte? (text : String) : Option UInt8 :=
  (readAtMost? 0xFF text).map UInt8.ofNat

end Numeral

end Disassembly
