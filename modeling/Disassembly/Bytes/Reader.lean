import Disassembly.Bytes.Source

/-!
# Reading bytes

What is read from any source of bytes, out of single bytes and runs of them.  A
failure leaves the source at the place that was reached.
-/

namespace Disassembly

namespace Reader

variable {σ α : Type} [ByteSource σ]

def position : Reader σ Nat :=
  return ByteSource.position (← get)

/-- Fails at the place that is reached. -/
def failHere (fault : DecodeFault) : Reader σ α := do
  throw ⟨← position, fault⟩

def nextByte : Reader σ UInt8 :=
  ByteSource.nextByte

/-- The next `count` bytes. -/
def nextBytes (count : Nat) : Reader σ (List UInt8) :=
  ByteSource.nextBytes count

/-- The same reader a number of times. -/
def repeated (reader : Reader σ α) : Nat → Reader σ (List α)
  | 0 => return []
  | count + 1 => do
    let first ← reader
    let more ← repeated reader count
    return first :: more

/-- The number that bytes stand for, the lowest byte first. -/
def littleEndianValue (bytes : List UInt8) : Nat :=
  bytes.foldr (fun byte value => byte.toNat + 256 * value) 0

def littleEndian32 : Reader σ UInt32 := do
  return UInt32.ofNat (littleEndianValue (← nextBytes 4))

def littleEndian64 : Reader σ UInt64 := do
  return UInt64.ofNat (littleEndianValue (← nextBytes 8))

end Reader

end Disassembly
