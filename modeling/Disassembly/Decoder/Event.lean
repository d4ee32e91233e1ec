import Disassembly.DecodeError
import Disassembly.Instruction.Basic

/-!
# Progress of a decoder

A decoder that is watched tells when it starts, each instruction and each block
that it completes, and its failure.  The log renders what it tells; instructions
and blocks can be left out of the log, a failure is always in it.
-/

namespace Disassembly

/-- The instructions of a block without the one that closes it. -/
structure Block where
  instructions : List Instruction
  closedByElse : Bool

/-- The name of the instruction that closes a block. -/
def Block.terminator (block : Block) : String :=
  if block.closedByElse then InstructionType.otherwise.name else InstructionType.blockEnd.name

inductive Event where
  | started (position : Nat)
  | instruction (depth : Nat) (item : Instruction)
  | block (depth : Nat) (content : Block)
  | failed (error : DecodeError)

/-- What a log shows besides failures. -/
structure LogStyle where
  instructions : Bool := false
  blocks : Bool := true
deriving DecidableEq, Repr

namespace Event

/-- The line of an event, without the conditions under which it is shown. -/
def line : Event → String
  | started position => "-> Start decoding @" ++ Numeral.hexPosition position
  | instruction depth item =>
    "  - [" ++ Numeral.decimal depth ++ "] " ++ item.name ++
      if item.operandCount = 0 then ""
      else " (" ++ Numeral.decimal item.operandCount ++ " operands)"
  | block depth content =>
    "-> Decoded block at depth " ++ Numeral.decimal depth ++ " containing " ++
      Numeral.decimal content.instructions.length ++ " instructions terminated by '" ++
      content.terminator ++ "'"
  | failed error => "-> Decoding failed: " ++ error.report

def isShown (style : LogStyle) : Event → Bool
  | started _ => style.blocks
  | instruction _ _ => style.instructions
  | block _ _ => style.blocks
  | failed _ => true

end Event

/-- The log of a list of events. -/
def LogStyle.render (style : LogStyle) (events : List Event) : String :=
  String.join ((events.filter (Event.isShown style)).map fun event => event.line ++ "\n")

end Disassembly
