import Disassembly.Bytes.Leb128

/-!
# Buffers

A buffer grows at its end, by single bytes and by LEB128 integers.  It is read by
iterators, from any offset up to its end.  An iterator that is asked for more
bytes than are left stays where it is.
-/

namespace Disassembly

/-- A place within stored bytes. -/
structure BufferIterator where
  bytes : Array UInt8
  offset : Nat
  inside : offset ≤ bytes.size
deriving DecidableEq, Repr

namespace BufferIterator

/-- The iterator over no bytes. -/
def empty : BufferIterator :=
  ⟨#[], 0, Nat.le_refl 0⟩

def position (iterator : BufferIterator) : Nat :=
  iterator.offset

def remaining (iterator : BufferIterator) : Nat :=
  iterator.bytes.size - iterator.offset

def hasNext (iterator : BufferIterator) (count : Nat) : Bool :=
  count ≤ iterator.remaining

theorem next_inside {iterator : BufferIterator} {count : Nat}
    (hnext : iterator.hasNext count) : iterator.offset + count ≤ iterator.bytes.size := by
  have hcount : count ≤ iterator.bytes.size - iterator.offset := of_decide_eq_true hnext
  have hinside := iterator.inside
  omega

/-- The error of asking for more bytes than are left. -/
def shortage (iterator : BufferIterator) (count : Nat) : DecodeError :=
  ⟨iterator.position, .endOfInput count⟩

/-- The byte at the place of an iterator. -/
def current (iterator : BufferIterator) (hnext : iterator.hasNext 1) : UInt8 :=
  have hinside := next_inside hnext
  iterator.bytes[iterator.offset]

/-- The next byte, which is not consumed. -/
def peek : Reader BufferIterator UInt8 := fun iterator =>
  if hnext : iterator.hasNext 1 then
    (.ok (iterator.current hnext), iterator)
  else
    (.error (iterator.shortage 1), iterator)

def nextByte : Reader BufferIterator UInt8 := fun iterator =>
  if hnext : iterator.hasNext 1 then
    (.ok (iterator.current hnext),
      { iterator with offset := iterator.offset + 1, inside := next_inside hnext })
  else
    (.error (iterator.shortage 1), iterator)

def nextBytes (count : Nat) : Reader BufferIterator (List UInt8) := fun iterator =>
  if hnext : iterator.hasNext count then
    (.ok (iterator.bytes.extract iterator.offset (iterator.offset + count)).toList,
      { iterator with offset := iterator.offset + count, inside := next_inside hnext })
  else
    (.error (iterator.shortage count), iterator)

instance : ByteSource BufferIterator where
  nextByte := nextByte
  nextBytes := nextBytes
  position := position
  remaining := remaining

end BufferIterator

structure Buffer where
  bytes : List UInt8
deriving DecidableEq, Repr

/-- An offset behind the end of a buffer. -/
inductive OffsetError where
  | beyondEnd
deriving DecidableEq, Repr

def OffsetError.message : OffsetError → String
  | beyondEnd => "Offset lies beyond the end of the buffer"

namespace Buffer

def empty : Buffer := ⟨[]⟩

def size (buffer : Buffer) : Nat :=
  buffer.bytes.length

def append (buffer : Buffer) (bytes : List UInt8) : Buffer :=
  ⟨buffer.bytes ++ bytes⟩

def appendByte (buffer : Buffer) (byte : UInt8) : Buffer :=
  buffer.append [byte]

def appendU32 (buffer : Buffer) (value : UInt32) : Buffer :=
  buffer.append (Leb128.writeUnsigned value.toNat)

def appendI64 (buffer : Buffer) (value : Int64) : Buffer :=
  buffer.append (Leb128.writeSigned value.toInt)

/-- The iterator at an offset, which counts positions from the start of the buffer. -/
def iterator (buffer : Buffer) (offset : Nat) : Except OffsetError BufferIterator :=
  if hinside : offset ≤ buffer.size then
    .ok ⟨buffer.bytes.toArray, offset, by simpa [size] using hinside⟩
  else .error .beyondEnd

end Buffer

end Disassembly
