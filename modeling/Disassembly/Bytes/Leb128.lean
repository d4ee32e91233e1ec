import Disassembly.Bytes.Reader

/-!
# LEB128 integers

An integer is written in groups of seven bits, the lowest group first, one
group to a byte.  All bytes but the last have their high bit set.  In the signed
form the highest bit of the last group is the sign.

Writing produces the shortest form.  Reading takes any form of up to as many
groups as the width of the integer fills, and drops the bits above the width.
-/

namespace Disassembly

namespace Leb128

/-- The number of groups that an integer of a width may have. -/
def maxGroups (width : Nat) : Nat :=
  (width + 6) / 7

/-- Whether more groups follow a byte. -/
def continues (byte : UInt8) : Bool :=
  128 ≤ byte.toNat

/-- Reads up to `count` groups from a shift on, on top of the bits read before.  Words are
shifted by `shiftLeft`. -/
def readGroups {σ : Type} [ByteSource σ] (width : Nat) (signed : Bool)
    (shiftLeft : BitVec width → Nat → Reader σ (BitVec width)) :
    Nat → Nat → BitVec width → Reader σ (BitVec width)
  | 0, _, _ => Reader.failHere (.overlongInteger width)
  | count + 1, shift, value => do
    let byte ← Reader.nextByte
    let bits ← shiftLeft (BitVec.ofNat width (byte.toNat % 128)) shift
    let value := value ||| bits
    if continues byte then
      readGroups width signed shiftLeft count (shift + 7) value
    else if signed ∧ shift + 7 < width ∧ 64 ≤ byte.toNat % 128 then
      return value ||| (← shiftLeft (BitVec.allOnes width) (shift + 7))
    else
      return value

/-- The shift of a word, which never fails. -/
def shiftWord {σ : Type} {width : Nat} (bits : BitVec width) (amount : Nat) :
    Reader σ (BitVec width) :=
  return bits <<< amount

def readBits {σ : Type} [ByteSource σ] (width : Nat) (signed : Bool) :
    Reader σ (BitVec width) :=
  readGroups width signed shiftWord (maxGroups width) 0 0

/-- The shortest unsigned form of a number. -/
def writeUnsigned (value : Nat) : List UInt8 :=
  if value < 128 then [UInt8.ofNat value]
  else UInt8.ofNat (value % 128 + 128) :: writeUnsigned (value / 128)
termination_by value

/-- The shortest signed form of a number. -/
def writeSigned (value : Int) : List UInt8 :=
  if -64 ≤ value ∧ value < 64 then [UInt8.ofNat (value % 128).toNat]
  else UInt8.ofNat ((value % 128).toNat + 128) :: writeSigned (value / 128)
termination_by value.natAbs
decreasing_by omega

end Leb128

namespace Reader

variable {σ : Type} [ByteSource σ]

def u32 : Reader σ UInt32 :=
  return UInt32.ofBitVec (← Leb128.readBits 32 false)

def u64 : Reader σ UInt64 :=
  return UInt64.ofBitVec (← Leb128.readBits 64 false)

def i32 : Reader σ Int32 :=
  return Int32.ofBitVec (← Leb128.readBits 32 true)

def i64 : Reader σ Int64 :=
  return Int64.ofBitVec (← Leb128.readBits 64 true)

end Reader

end Disassembly
