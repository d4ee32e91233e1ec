import Disassembly.BinaryFloat.General
import Disassembly.Instruction.Access

/-!
# Printed instructions

An instruction is printed on a line of its own: the mnemonic and the operands.
A block has its type on the first line and its body below, indented by one
level, and is closed by a line of its own; the second arm of a conditional is
printed only if it holds an instruction.  A branch table shows its default label
first.

A tree whose operands do not fit its types may have no complete print.  The
print then stops at the first missing or unfit operand, and what was written up
to there is kept.
-/

namespace Disassembly

/-- A text in pieces, and the fault at which it breaks off. -/
structure Printout where
  pieces : List String
  fault? : Option AccessError
deriving DecidableEq, Repr

namespace Printout

def text (printout : Printout) : String :=
  String.join printout.pieces

def write (text : String) : Printout :=
  ⟨[text], none⟩

def stop (fault : AccessError) : Printout :=
  ⟨[], some fault⟩

/-- Nothing is written after a fault. -/
def append (first second : Printout) : Printout :=
  match first.fault? with
  | none => ⟨first.pieces ++ second.pieces, second.fault?⟩
  | some _ => first

instance : Append Printout := ⟨append⟩

theorem append_assoc (first second third : Printout) :
    first ++ second ++ third = first ++ (second ++ third) := by
  change append (append first second) third = append first (append second third)
  cases hfirst : first.fault? with
  | some fault => simp [append, hfirst]
  | none => cases hsecond : second.fault? <;> simp [append, hfirst, hsecond]

theorem fault?_append (first second : Printout) :
    (first ++ second).fault? = first.fault?.or second.fault? := by
  change (append first second).fault? = _
  cases hfirst : first.fault? <;> simp [append, hfirst]

end Printout

open Printout (write stop)

namespace Operand

/-- The text of an operand other than a sequence of instructions. -/
def plainText : Operand → String
  | u32 value => " " ++ Numeral.decimal value.toNat
  | i32 value => " " ++ Numeral.signedDecimal value.toInt
  | i64 value => " " ++ Numeral.signedDecimal value.toInt
  | f32 bits => " " ++ BinaryFormat.binary32.generalText bits.toNat
  | f64 bits => " " ++ BinaryFormat.binary64.generalText bits.toNat
  | index _ value => " " ++ Numeral.decimal value.toNat
  | blockType type => " " ++ type.name
  | valueType type => " " ++ type.name
  | valueTypes types => " [" ++ String.join (types.map fun type => " " ++ type.name) ++ " ]"
  | labels targets =>
    " [" ++ String.join (targets.map fun label => " " ++ Numeral.decimal label.toNat) ++ " ]"
  | instructions _ => ""

end Operand

namespace Instruction

def indentation (indent : Nat) : String :=
  String.join (List.replicate indent "  ")

/-- The line of a branch table after its indentation. -/
def branchTableLine (targets : List UInt32) : Printout :=
  write (InstructionType.branchTable.name ++ " default: ") ++
    match targets.getLast? with
    | none => stop .missingDefaultLabel
    | some label => write (Numeral.decimal label.toNat ++
        (Operand.labels targets.dropLast).plainText ++ "\n")

mutual

/-- The print of an instruction at an indentation. -/
def print (indent : Nat) : Instruction → Printout
  | .mk type operands =>
    write (indentation indent) ++
      if type = .branchTable then
        match operands with
        | [] => stop .missingOperand
        | .labels targets :: _ => branchTableLine targets
        | _ :: _ => stop .otherKind
      else if type.isBlock then
        write type.name ++
          match operands with
          | [] => stop .missingOperand
          | [first] => printOperand indent first ++ stop .missingOperand
          | first :: second :: more =>
            printOperand indent first ++ printOperand indent second ++
              (if type = .conditional then printElse indent more else write "") ++
              write (indentation indent ++ InstructionType.blockEnd.name ++ "\n")
      else
        write type.name ++ printOperands indent operands ++ write "\n"
  termination_by structural instruction => instruction

/-- The second arm of a conditional, from the operands after the first arm. -/
def printElse (indent : Nat) : List Operand → Printout
  | [] => stop .missingOperand
  | .instructions body :: _ =>
    if body.isEmpty then write ""
    else
      write (indentation indent ++ InstructionType.otherwise.name ++ "\n") ++
        printList (indent + 1) body
  | _ :: _ => stop .otherKind
  termination_by structural operands => operands

def printOperand (indent : Nat) : Operand → Printout
  | .instructions body => write "\n" ++ printList (indent + 1) body
  | operand => write operand.plainText
  termination_by structural operand => operand

def printOperands (indent : Nat) : List Operand → Printout
  | [] => write ""
  | operand :: more => printOperand indent operand ++ printOperands indent more
  termination_by structural operands => operands

def printList (indent : Nat) : List Instruction → Printout
  | [] => write ""
  | instruction :: more => print indent instruction ++ printList indent more
  termination_by structural instructions => instructions

end

end Instruction

end Disassembly
