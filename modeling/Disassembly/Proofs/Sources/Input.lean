import Disassembly.Decoder.Basic

/-!
# Inputs

A source amounts to a position and the bytes after it.  Sources that keep their bytes
and sources that stream them differ in one point: when several bytes are asked for at
once and too few are left, the kept bytes stay where they are, and the stream has
handed out what it had.  The error names the place where the bytes were asked for in
both cases.

An input has just that as its state, and it is itself a source.  What decoders do is
shown for inputs.  The sources that programs use follow the inputs that they amount to.
-/

namespace Disassembly

/-- What becomes of the bytes that are left when more are asked for. -/
inductive ShortRead where
  | keeps
  | drains
deriving DecidableEq, Repr

structure Input where
  shortRead : ShortRead
  position : Nat
  rest : List UInt8
deriving DecidableEq, Repr

namespace Input

def remaining (input : Input) : Nat :=
  input.rest.length

/-- The input after `count` more bytes, or after all that are left. -/
def advance (input : Input) (count : Nat) : Input :=
  { input with
    position := input.position + min count input.rest.length
    rest := input.rest.drop count }

/-- The error of asking for more bytes than are left. -/
def shortage (input : Input) (count : Nat) : DecodeError :=
  ⟨input.position, .endOfInput count⟩

def nextByte : Reader Input UInt8 := fun input =>
  match input.rest with
  | [] => (.error (input.shortage 1), input)
  | byte :: rest => (.ok byte, { input with position := input.position + 1, rest := rest })

def nextBytes (count : Nat) : Reader Input (List UInt8) := fun input =>
  if count ≤ input.rest.length then
    (.ok (input.rest.take count), input.advance count)
  else
    (.error (input.shortage count),
      match input.shortRead with
      | .keeps => input
      | .drains => input.advance count)

instance : ByteSource Input where
  nextByte := nextByte
  nextBytes := nextBytes
  position := position
  remaining := remaining

@[simp] theorem byteSource_position (input : Input) :
    ByteSource.position input = input.position :=
  rfl

@[simp] theorem byteSource_remaining (input : Input) :
    ByteSource.remaining input = input.remaining :=
  rfl

end Input

namespace Reader

theorem nextByte_nil {input : Input} (hrest : input.rest = []) :
    nextByte input = (.error (input.shortage 1), input) := by
  change Input.nextByte input = _
  simp [Input.nextByte, hrest]

theorem nextByte_cons {input : Input} {byte : UInt8} {rest : List UInt8}
    (hrest : input.rest = byte :: rest) :
    nextByte input = (.ok byte, { input with position := input.position + 1, rest := rest }) := by
  change Input.nextByte input = _
  simp [Input.nextByte, hrest]

theorem nextBytes_input (count : Nat) (input : Input) :
    nextBytes count input =
      if count ≤ input.rest.length then
        (.ok (input.rest.take count), input.advance count)
      else
        (.error (input.shortage count),
          match input.shortRead with
          | .keeps => input
          | .drains => input.advance count) :=
  rfl

end Reader

theorem Decoder.decodeOne_input (decoder : Decoder) (input : Input) :
    decoder.decodeOne input =
      decoder.run (decoder.instruction
        (fun depth => decoder.block input.remaining depth []) 0) input :=
  rfl

end Disassembly
