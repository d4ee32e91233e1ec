import Disassembly.Instruction.Basic

/-!
# Access to operands

An operand is asked for by its position, and a caller that knows the layout of
an instruction type asks for it by its meaning.  Both can fail: the type of the
instruction is checked first, then the position, then the kind of the operand.
-/

namespace Disassembly

/-- Why an operand cannot be had. -/
inductive AccessError where
  /-- There are not that many operands. -/
  | missingOperand
  /-- There are not that many index operands. -/
  | missingIndex
  /-- A branch table without labels. -/
  | missingDefaultLabel
  /-- The operand at the position is of another kind. -/
  | otherKind
  /-- The accessor does not apply to instructions of this type. -/
  | otherInstruction
deriving DecidableEq, Repr

/-- The wording of an error, where it has one. -/
def AccessError.message? : AccessError → Option String
  | missingOperand => none
  | missingIndex => some "Instruction has no index operand at the requested position"
  | missingDefaultLabel => some "Branch table instruction has no default label"
  | otherKind => none
  | otherInstruction => none

namespace Instruction

variable (instruction : Instruction)

def operandAt (position : Nat) : Except AccessError Operand :=
  match instruction.operands[position]? with
  | some operand => .ok operand
  | none => .error .missingOperand

/-- The operand at a position, which has to be of the given kind. -/
def operandOfKind (kind : OperandKind) (position : Nat) : Except AccessError Operand := do
  let operand ← instruction.operandAt position
  if operand.kind = kind then return operand else throw .otherKind

/-- The index operands, in order. -/
def indices : List (IndexSpace × UInt64) :=
  instruction.operands.filterMap fun
    | .index space value => some (space, value)
    | _ => none

def indexAt (count : Nat) : Except AccessError (IndexSpace × UInt64) :=
  match instruction.indices[count]? with
  | some index => .ok index
  | none => .error .missingIndex

/-- Refuses an accessor on instructions that it does not apply to. -/
def demand (applies : Bool) : Except AccessError Unit :=
  if applies then .ok () else .error .otherInstruction

def u32At (position : Nat) : Except AccessError UInt32 := do
  match ← instruction.operandAt position with
  | .u32 value => return value
  | _ => throw .otherKind

def instructionsAt (position : Nat) : Except AccessError (List Instruction) := do
  match ← instruction.operandAt position with
  | .instructions body => return body
  | _ => throw .otherKind

def labelsAt (position : Nat) : Except AccessError (List UInt32) := do
  match ← instruction.operandAt position with
  | .labels targets => return targets
  | _ => throw .otherKind

def blockType : Except AccessError BlockType := do
  demand instruction.type.isBlock
  match ← instruction.operandAt 0 with
  | .blockType type => return type
  | _ => throw .otherKind

def body : Except AccessError (List Instruction) := do
  demand instruction.type.isBlock
  instruction.instructionsAt 1

/-- The body of the second arm of a conditional. -/
def elseBody : Except AccessError (List Instruction) := do
  demand (instruction.type = .conditional)
  instruction.instructionsAt 2

def branchLabels : Except AccessError (List UInt32) := do
  demand (instruction.type = .branchTable)
  instruction.labelsAt 0

/-- The default label is the last one. -/
def defaultLabel : Except AccessError UInt32 := do
  match (← instruction.branchLabels).getLast? with
  | some label => return label
  | none => throw .missingDefaultLabel

def memoryAlignment : Except AccessError UInt32 := do
  demand instruction.type.isMemoryAccess
  instruction.u32At 0

def memoryOffset : Except AccessError UInt32 := do
  demand instruction.type.isMemoryAccess
  instruction.u32At 1

def selectedTypes : Except AccessError (List ValueType) := do
  demand (instruction.type = .typedSelect)
  match ← instruction.operandAt 0 with
  | .valueTypes types => return types
  | _ => throw .otherKind

def referenceType : Except AccessError ValueType := do
  demand (instruction.type = .nullReference)
  match ← instruction.operandAt 0 with
  | .valueType type => return type
  | _ => throw .otherKind

end Instruction

end Disassembly
