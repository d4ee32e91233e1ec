import Disassembly.Field
import Disassembly.InstructionType
import Disassembly.ValueType

/-!
# Instructions

An instruction is a type with a list of operands.  An operand may hold a
sequence of instructions again, so that instructions form trees.  Nothing ties
the operands to the type here: trees that come out of a decoder fit their
table, trees put together by hand need not.
-/

namespace Disassembly

mutual

/-- One operand.  Floating-point numbers are kept as bit patterns. -/
inductive Operand where
  | u32 (value : UInt32)
  | i32 (value : Int32)
  | i64 (value : Int64)
  | f32 (bits : UInt32)
  | f64 (bits : UInt64)
  | index (space : IndexSpace) (value : UInt64)
  | blockType (type : BlockType)
  | valueType (type : ValueType)
  | valueTypes (types : List ValueType)
  | labels (targets : List UInt32)
  | instructions (body : List Instruction)

/-- An instruction tree. -/
inductive Instruction where
  | mk (type : InstructionType) (operands : List Operand)

end

/-- The kinds of operands. -/
inductive OperandKind where
  | u32
  | i32
  | i64
  | f32
  | f64
  | index
  | blockType
  | valueType
  | valueTypes
  | labels
  | instructions
deriving DecidableEq, Repr

def Operand.kind : Operand → OperandKind
  | .u32 _ => .u32
  | .i32 _ => .i32
  | .i64 _ => .i64
  | .f32 _ => .f32
  | .f64 _ => .f64
  | .index _ _ => .index
  | .blockType _ => .blockType
  | .valueType _ => .valueType
  | .valueTypes _ => .valueTypes
  | .labels _ => .labels
  | .instructions _ => .instructions

namespace Instruction

def type : Instruction → InstructionType
  | mk type _ => type

def operands : Instruction → List Operand
  | mk _ operands => operands

def name (instruction : Instruction) : String :=
  instruction.type.name

def operandCount (instruction : Instruction) : Nat :=
  instruction.operands.length

def isTerminator (instruction : Instruction) : Bool :=
  instruction.type.isTerminator

end Instruction

end Disassembly
