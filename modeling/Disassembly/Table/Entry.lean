import Disassembly.Field
import Disassembly.InstructionType
import Disassembly.Numeral

/-!
# Entries of an opcode table

An opcode is one byte, or a lead byte and a second one.  An entry gives an
opcode its instruction type and the layout of the operands.
-/

namespace Disassembly

structure Opcode where
  lead : UInt8
  second? : Option UInt8
deriving DecidableEq, Repr

namespace Opcode

def single (byte : UInt8) : Opcode := ⟨byte, none⟩

def extended (lead second : UInt8) : Opcode := ⟨lead, some second⟩

/-- The bytes that encode the opcode. -/
def bytes (opcode : Opcode) : List UInt8 :=
  opcode.lead :: opcode.second?.toList

def text (opcode : Opcode) : String :=
  String.intercalate " " (opcode.bytes.map Numeral.hexByte)

theorem eq_single {opcode : Opcode} (hsecond : opcode.second? = none) :
    opcode = single opcode.lead := by
  rw [single, ← hsecond]

theorem eq_extended {opcode : Opcode} {second : UInt8} (hsecond : opcode.second? = some second) :
    opcode = extended opcode.lead second := by
  rw [extended, ← hsecond]

end Opcode

structure Entry where
  opcode : Opcode
  type : InstructionType
  layout : Layout
deriving DecidableEq, Repr

/-- An entry in the form in which tables are read. -/
def Entry.text (entry : Entry) : String :=
  String.intercalate " " (entry.opcode.text :: entry.type.name :: entry.layout.names)

/-- The layout that the operands of an instruction type are bound to, where there is one. -/
def InstructionType.requiredLayout? (type : InstructionType) : Option Layout :=
  if type = conditional then some (.special .conditional)
  else if type = branchTable then some (.special .branchTable)
  else if type = block ∨ type = loop then some (.inOrder [.blockType, .instructions])
  else none

/-- The only instruction type that a directive applies to. -/
def Directive.subject : Directive → InstructionType
  | conditional => .conditional
  | branchTable => .branchTable

end Disassembly
