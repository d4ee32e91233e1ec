import Disassembly.Bytes.Source

/-!
# Streams of bytes

A stream in memory hands out its bytes until there are none left.  It keeps two
flags.  One is set when the end is met, the other when less was handed out than was
asked for, and with either of them set nothing is handed out any more.

A stream says by its count how many bytes the last request took, and a source over
it adds these counts up.  When several bytes are asked for at once and too few are
left, the stream has handed out what it had.
-/

namespace Disassembly

structure InputStream where
  left : List UInt8
  atEnd : Bool
  failed : Bool
  /-- How many bytes the last request has taken. -/
  lastCount : Nat
deriving DecidableEq, Repr

namespace InputStream

/-- A stream over bytes, from the first one on. -/
def ofBytes (bytes : List UInt8) : InputStream :=
  ⟨bytes, false, false, 0⟩

def isGood (stream : InputStream) : Bool :=
  !stream.atEnd && !stream.failed

/-- The bytes that the stream still hands out. -/
def ahead (stream : InputStream) : List UInt8 :=
  if stream.isGood then stream.left else []

/-- One byte, if there is one. -/
def get (stream : InputStream) : Option UInt8 × InputStream :=
  if stream.isGood then
    match stream.left with
    | [] => (none, { stream with atEnd := true, failed := true, lastCount := 0 })
    | byte :: left => (some byte, { stream with left, lastCount := 1 })
  else
    (none, { stream with failed := true, lastCount := 0 })

/-- Up to `count` bytes. -/
def read (stream : InputStream) (count : Nat) : List UInt8 × InputStream :=
  if stream.isGood then
    let bytes := stream.left.take count
    let short := bytes.length != count
    (bytes, { stream with
      left := stream.left.drop count
      atEnd := short
      failed := short
      lastCount := bytes.length })
  else
    ([], { stream with failed := true, lastCount := 0 })

end InputStream

/-- A source over a stream. -/
structure StreamSource where
  stream : InputStream
  consumed : Nat
deriving DecidableEq, Repr

namespace StreamSource

/-- The source over a stream of bytes of which none was handed out. -/
def ofBytes (bytes : List UInt8) : StreamSource :=
  ⟨.ofBytes bytes, 0⟩

def position (source : StreamSource) : Nat :=
  source.consumed

def remaining (source : StreamSource) : Nat :=
  source.stream.ahead.length

def nextByte : Reader StreamSource UInt8 := fun source =>
  match source.stream.get with
  | (none, stream) => (.error ⟨source.consumed, .endOfInput 1⟩, { source with stream })
  | (some byte, stream) => (.ok byte, ⟨stream, source.consumed + 1⟩)

/-- The next `count` bytes.  Those that the stream has handed out count as consumed also
where they are too few. -/
def nextBytes (count : Nat) : Reader StreamSource (List UInt8) := fun source =>
  let (bytes, stream) := source.stream.read count
  let after : StreamSource := ⟨stream, source.consumed + stream.lastCount⟩
  if stream.lastCount < count then (.error ⟨source.consumed, .endOfInput count⟩, after)
  else (.ok bytes, after)

instance : ByteSource StreamSource where
  nextByte := nextByte
  nextBytes := nextBytes
  position := position
  remaining := remaining

end StreamSource

end Disassembly
