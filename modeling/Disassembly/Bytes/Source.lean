import Disassembly.DecodeError

/-!
# Sources of bytes

A source hands out bytes, one or several at a time, and counts them.  It does not
wait for bytes that are not there.  It fails, and stays usable.
-/

namespace Disassembly

/-- A computation that consumes bytes of a source and may fail. -/
abbrev Reader (σ α : Type) := ExceptT DecodeError (StateM σ) α

/-- What bytes are read from. -/
class ByteSource (σ : Type) where
  nextByte : Reader σ UInt8
  nextBytes : Nat → Reader σ (List UInt8)
  /-- The number of bytes that were handed out. -/
  position : σ → Nat
  /-- The number of bytes that are left, which bounds the work of a decoder. -/
  remaining : σ → Nat

end Disassembly
