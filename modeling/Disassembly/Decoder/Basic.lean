import Disassembly.Bytes.Leb128
import Disassembly.Decoder.Event
import Disassembly.Table.Basic

/-!
# Decoding instructions

A decoder reads instructions by an opcode table.  A single instruction is read
together with the blocks inside it, and a block is read up to the instruction
that closes it.  A block inside another one is one level deeper, and there is a
limit on the levels.

Blocks and instructions contain each other.  The recursion runs on a budget of
instructions.  Since an instruction takes at least one byte, a budget of as many
instructions as there are bytes is never exceeded before the input ends.
-/

namespace Disassembly

variable {σ : Type} [ByteSource σ]

namespace Reader

/-- Reads a byte that has to stand for a type. -/
def typeByte {α : Type} (role : TypeRole)
    (ofByte : UInt8 → Except InternalFault (Option α)) : Reader σ α := do
  let start ← position
  let byte ← nextByte
  match ofByte byte with
  | .ok (some type) => return type
  | .ok none => throw ⟨start, .invalidType byte role⟩
  | .error fault => failHere (.internal fault)

def blockType : Reader σ BlockType :=
  typeByte .block BlockType.ofByte

def referenceType : Reader σ ValueType :=
  typeByte .reference fun byte =>
    (ValueType.ofByte byte).map fun type? => type?.filter ValueType.isReference

def valueType : Reader σ ValueType :=
  typeByte .value ValueType.ofByte

/-- A count and that many value types. -/
def valueTypes : Reader σ (List ValueType) := do
  let count ← u32
  repeated valueType count.toNat

/-- A count, that many labels, and the default label, which comes last. -/
def branchLabels : Reader σ (List UInt32) := do
  let count ← u32
  repeated u32 (count.toNat + 1)

/-- The entry of a table whose opcode comes next. -/
def entry (table : Table) : Reader σ Entry := do
  let start ← position
  let lead ← nextByte
  match table.slot? lead with
  | none => throw ⟨start, .unknownOpcode lead⟩
  | some (.single entry) => return entry
  | some .extended =>
    let secondStart ← position
    let second ← nextByte
    match table.extended? lead second with
    | some entry => return entry
    | none => throw ⟨secondStart, .unknownSecondary lead second⟩

end Reader

/-- The input of a decoder, and what it has told so far. -/
structure Session (σ : Type) where
  input : σ
  events : Array Event

/-- A computation of a decoder. -/
abbrev Decoding (σ α : Type) := ExceptT DecodeError (StateM (Session σ)) α

/-- A reader as part of a decoder's work. -/
def Decoding.read {α : Type} (reader : Reader σ α) : Decoding σ α := fun session =>
  match reader session.input with
  | (result, input) => (result, { session with input := input })

open Decoding (read)

/-- The limit on nested blocks where no other one is given. -/
def defaultDepthLimit : Nat := 1024

/-- A table, the number of levels that blocks may be nested, and whether anyone watches. -/
structure Decoder where
  table : Table
  depthLimit : Nat := defaultDepthLimit
  watched : Bool := false

namespace Decoder

/-- Reads the second arm of a conditional, which is there only if the first one was closed by
`else`. -/
def secondArm (block : Nat → Decoding σ Block) (depth : Nat) (first : Block) :
    Decoding σ (List Instruction) := do
  if first.closedByElse then
    let second ← block (depth + 1)
    if second.closedByElse then read (Reader.failHere .secondElse)
    else return second.instructions
  else return []

variable (decoder : Decoder)

/-- Tells an event to whoever watches. -/
def tell (event : Event) : Decoding σ Unit :=
  if decoder.watched then
    modify fun session => { session with events := session.events.push event }
  else return ()

/-- Reads a block one level deeper, if the limit allows it. -/
def nestedBlock (block : Nat → Decoding σ Block) (depth : Nat) : Decoding σ Block :=
  if depth < decoder.depthLimit then block (depth + 1)
  else read (Reader.failHere (.nestingTooDeep decoder.depthLimit))

/-- Reads one field, where `block` reads a block at a depth. -/
def field (block : Nat → Decoding σ Block) (depth : Nat) : Field → Decoding σ Operand
  | .u32 => return .u32 (← read Reader.u32)
  | .i32 => return .i32 (← read Reader.i32)
  | .i64 => return .i64 (← read Reader.i64)
  | .f32 => return .f32 (← read Reader.littleEndian32)
  | .f64 => return .f64 (← read Reader.littleEndian64)
  | .index space => return .index space (← read Reader.u32).toUInt64
  | .blockType => return .blockType (← read Reader.blockType)
  | .referenceType => return .valueType (← read Reader.referenceType)
  | .valueTypes => return .valueTypes (← read Reader.valueTypes)
  | .instructions => return .instructions (← decoder.nestedBlock block depth).instructions
  | .unknown _ => read (Reader.failHere (.internal .unknownField))

/-- Reads the operands of a layout. -/
def operands (block : Nat → Decoding σ Block) (depth : Nat) : Layout → Decoding σ (List Operand)
  | .inOrder fields => fields.mapM (decoder.field block depth)
  | .special .conditional => do
    let type ← read Reader.blockType
    let first ← decoder.nestedBlock block depth
    let second ← secondArm block depth first
    return [.blockType type, .instructions first.instructions, .instructions second]
  | .special .branchTable => return [.labels (← read Reader.branchLabels)]
  | .unknown _ => read (Reader.failHere (.internal .unknownRule))

/-- Reads an instruction at a depth. -/
def instruction (block : Nat → Decoding σ Block) (depth : Nat) : Decoding σ Instruction := do
  let entry ← read (Reader.entry decoder.table)
  let operands ← decoder.operands block depth entry.layout
  let instruction := Instruction.mk entry.type operands
  decoder.tell (.instruction depth instruction)
  return instruction

/-- Reads the rest of a block at a depth, where `earlier` holds its first instructions reversed. -/
def block : Nat → Nat → List Instruction → Decoding σ Block
  | 0, _, _ => read (Reader.failHere (.endOfInput 1))
  | budget + 1, depth, earlier => do
    let instruction ← decoder.instruction (fun inner => block budget inner []) depth
    if instruction.isTerminator then
      let block : Block := ⟨earlier.reverse, instruction.type = .otherwise⟩
      decoder.tell (.block depth block)
      return block
    else
      block budget depth (instruction :: earlier)

/-- Tells an error, unless it is a fault of the decoder itself. -/
def tellFailure (error : DecodeError) : Decoding σ Unit :=
  if error.fault.isInternal then return () else decoder.tell (.failed error)

/-- Tells the start of a computation and, if it fails, its error. -/
def reported {α : Type} (work : Decoding σ α) : Decoding σ α := do
  decoder.tell (.started (← read Reader.position))
  tryCatch work fun error => do
    decoder.tellFailure error
    throw error

end Decoder

/-- What a decoder has done with an input. -/
structure Outcome (σ α : Type) where
  result : Except DecodeError α
  input : σ
  events : List Event

/-- The outcome with its result changed. -/
def Outcome.map {α β : Type} (f : α → β) (outcome : Outcome σ α) : Outcome σ β :=
  ⟨outcome.result.map f, outcome.input, outcome.events⟩

namespace Decoder

variable (decoder : Decoder)

def run {α : Type} (work : Decoding σ α) (input : σ) : Outcome σ α :=
  match decoder.reported work ⟨input, #[]⟩ with
  | (result, session) => ⟨result, session.input, session.events.toList⟩

/-- Decodes one instruction with the blocks inside it. -/
def decodeOne (input : σ) : Outcome σ Instruction :=
  let budget := ByteSource.remaining input
  decoder.run (decoder.instruction (fun depth => decoder.block budget depth []) 0) input

/-- Decodes a block up to the instruction that closes it. -/
def decodeBlock (input : σ) : Outcome σ Block :=
  decoder.run (decoder.block (ByteSource.remaining input) 0 []) input

end Decoder

end Disassembly
