import Disassembly.BinaryFloat.Basic
import Disassembly.Instruction.Basic

/-!
# Equality of instructions

Two trees are equal if they have the same shape and equal operands, where
floating-point operands are compared as numbers: a NaN is not equal to itself,
and the two zeros are equal.
-/

namespace Disassembly

mutual

/-- Equality of instruction trees. -/
def Instruction.equal : Instruction → Instruction → Bool
  | .mk type operands, .mk otherType otherOperands =>
    type = otherType && Operand.equalLists operands otherOperands
  termination_by structural instruction => instruction

def Operand.equal : Operand → Operand → Bool
  | .u32 value, .u32 other => value = other
  | .i32 value, .i32 other => value = other
  | .i64 value, .i64 other => value = other
  | .f32 bits, .f32 other => BinaryFormat.binary32.sameNumber bits.toNat other.toNat
  | .f64 bits, .f64 other => BinaryFormat.binary64.sameNumber bits.toNat other.toNat
  | .index space value, .index otherSpace other => space = otherSpace && value = other
  | .blockType type, .blockType other => type = other
  | .valueType type, .valueType other => type = other
  | .valueTypes types, .valueTypes others => types = others
  | .labels targets, .labels others => targets = others
  | .instructions body, .instructions other => Instruction.equalLists body other
  | _, _ => false
  termination_by structural operand => operand

def Operand.equalLists : List Operand → List Operand → Bool
  | [], [] => true
  | operand :: more, other :: others => operand.equal other && Operand.equalLists more others
  | _, _ => false
  termination_by structural operands => operands

def Instruction.equalLists : List Instruction → List Instruction → Bool
  | [], [] => true
  | instruction :: more, other :: others =>
    instruction.equal other && Instruction.equalLists more others
  | _, _ => false
  termination_by structural instructions => instructions

end

instance : BEq Instruction := ⟨Instruction.equal⟩

end Disassembly
