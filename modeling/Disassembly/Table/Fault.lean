import Disassembly.Table.Entry
import Disassembly.Text

/-!
# Faults of opcode tables

A table is refused for a fault of one row, for a conflict of a row with an
earlier one, or as a whole.  The error names the source of the table and the
line; line zero stands for the table as a whole.  Lines are counted in words of
32 bits.
-/

namespace Disassembly

inductive TableFault where
  | expectedOpcode (word : String)
  | missingName
  | unknownInstruction (name : String)
  | unknownDirective (word : String)
  | mixedDirective (word : String)
  | unknownField (word : String)
  | strayDirective (directive : Directive)
  | requiresLayout (type : InstructionType) (layout : Layout)
  | mappedTwice (type : InstructionType)
  | opcodeTaken (opcode : Opcode) (owner : InstructionType)
  | usedAsLead (lead : UInt8)
  | leadTaken (lead : UInt8) (owner : InstructionType)
  | missingEnd
  | unreadable
  | unopened
deriving DecidableEq, Repr

namespace TableFault

def quoted (text : String) : String :=
  "'" ++ text ++ "'"

def text : TableFault → String
  | expectedOpcode word => "Expected opcode byte but found " ++ quoted word
  | missingName => "Missing instruction name"
  | unknownInstruction name => "Unknown instruction " ++ quoted name
  | unknownDirective word => "Unknown decoding directive " ++ quoted word
  | mixedDirective word =>
    "Decoding directive " ++ quoted word ++ " cannot be combined with other fields"
  | unknownField word => "Unknown field kind " ++ quoted word
  | strayDirective .conditional =>
    "Conditional decoding is only supported for " ++ quoted InstructionType.conditional.name
  | strayDirective .branchTable =>
    "Branch table decoding is only supported for " ++ quoted InstructionType.branchTable.name
  | requiresLayout type (.special directive) =>
    "Instruction " ++ quoted type.name ++ " requires the " ++ quoted directive.name ++ " directive"
  | requiresLayout type layout =>
    "Instruction " ++ quoted type.name ++ " requires the fields " ++
      quoted (String.intercalate " " layout.names)
  | mappedTwice type => "Instruction " ++ quoted type.name ++ " is mapped more than once"
  | opcodeTaken opcode owner =>
    "Opcode " ++ opcode.text ++ " is already mapped to " ++ quoted owner.name
  | usedAsLead lead =>
    "Opcode " ++ Numeral.hexByte lead ++ " is already used as prefix of extended opcodes"
  | leadTaken lead owner =>
    "Opcode " ++ Numeral.hexByte lead ++ " is already mapped to " ++ quoted owner.name ++
      " and cannot be used as prefix"
  | missingEnd =>
    "Table does not map the " ++ quoted InstructionType.blockEnd.name ++ " instruction"
  | unreadable => "Could not read table source"
  | unopened => "Could not open opcode table file"

end TableFault

structure TableError where
  source : String
  line : UInt32
  fault : TableFault
deriving DecidableEq, Repr

namespace TableError

/-- The short message, which ends before a NUL character. -/
def message (error : TableError) : String :=
  Text.beforeNul error.fault.text

/-- The whole message with its source and, unless it is zero, its line. -/
def report (error : TableError) : String :=
  "Opcode table error in " ++ TableFault.quoted error.source ++
    (if error.line = 0 then "" else " line " ++ Numeral.decimal error.line.toNat) ++
    ": " ++ error.fault.text

end TableError

end Disassembly
