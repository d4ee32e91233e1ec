import Disassembly.Bytes.Buffer
import Disassembly.Proofs.Conformance.Shape

/-!
# Writing instruction trees

A tree is written into a buffer in the way in which a table reads it: the opcode
of the type, then the operands in order.  Every sequence is followed by the
opcode that ends blocks.  Only the first arm of a conditional with a second arm
is followed by the opcode of `else`.

The writer uses nothing but what a buffer offers.  Integers of 32 bits are
written as integers of 64 bits.  The count in front of the labels leaves out the
default label.
-/

namespace Disassembly

namespace Buffer

def appendBytes (buffer : Buffer) (bytes : List UInt8) : Buffer :=
  bytes.foldl appendByte buffer

/-- Appends the opcode of a type, if the table has one. -/
def appendOpcode (table : Table) (buffer : Buffer) (type : InstructionType) :
    Buffer :=
  match table.entryOf? type with
  | some entry => buffer.appendBytes entry.opcode.bytes
  | none => buffer

end Buffer

def BlockType.byte : BlockType → UInt8
  | none => emptyByte
  | some result => result.byte

open Buffer (appendOpcode)

mutual

/-- Writes an instruction with the blocks inside it. -/
def Instruction.encode (table : Table) (buffer : Buffer) : Instruction → Buffer
  | .mk type operands =>
    if type = .conditional then
      match operands with
      | [result, body, arm] =>
        let opened := Operand.encode table (appendOpcode table buffer type) result
        let first := Operand.encodeBody table opened body
        appendOpcode table (Operand.encodeElse table first arm) .blockEnd
      | _ => buffer
    else Operand.encodeAll table (appendOpcode table buffer type) operands
  termination_by structural instruction => instruction

def Operand.encode (table : Table) (buffer : Buffer) : Operand → Buffer
  | .u32 value => buffer.appendU32 value
  | .i32 value => buffer.appendI64 value.toInt64
  | .i64 value => buffer.appendI64 value
  | .f32 bits => buffer.appendBytes (littleEndianBytes 4 bits.toNat)
  | .f64 bits => buffer.appendBytes (littleEndianBytes 8 bits.toNat)
  | .index _ value => buffer.appendU32 value.toUInt32
  | .blockType type => buffer.appendByte type.byte
  | .valueType type => buffer.appendByte type.byte
  | .valueTypes types =>
    (buffer.appendU32 (UInt32.ofNat types.length)).appendBytes
      (types.map ValueType.byte)
  | .labels targets =>
    targets.foldl Buffer.appendU32
      (buffer.appendU32 (UInt32.ofNat (targets.length - 1)))
  | .instructions body =>
    appendOpcode table (Instruction.encodeAll table buffer body) .blockEnd
  termination_by structural operand => operand

def Operand.encodeBody (table : Table) (buffer : Buffer) : Operand → Buffer
  | .instructions body => Instruction.encodeAll table buffer body
  | _ => buffer
  termination_by structural operand => operand

/-- Writes the second arm of a conditional, unless it is empty. -/
def Operand.encodeElse (table : Table) (buffer : Buffer) : Operand → Buffer
  | .instructions arm =>
    if arm.isEmpty then buffer
    else Instruction.encodeAll table (appendOpcode table buffer .otherwise) arm
  | _ => buffer
  termination_by structural operand => operand

def Operand.encodeAll (table : Table) (buffer : Buffer) : List Operand → Buffer
  | [] => buffer
  | operand :: more =>
    Operand.encodeAll table (Operand.encode table buffer operand) more
  termination_by structural operands => operands

def Instruction.encodeAll (table : Table) (buffer : Buffer) :
    List Instruction → Buffer
  | [] => buffer
  | instruction :: more =>
    Instruction.encodeAll table (Instruction.encode table buffer instruction) more
  termination_by structural instructions => instructions

end

end Disassembly
