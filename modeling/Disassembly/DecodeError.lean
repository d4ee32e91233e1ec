import Disassembly.Numeral

/-!
# Decoding errors

A decoding error says where the input went wrong and why.  The position counts
bytes from the start of the input.  At the end of the input it is the place
where the missing bytes should begin, for an unknown opcode or type it is the
place of the offending byte, and otherwise the place where reading stopped.

Besides what the bytes can be to blame for there are faults of the decoder itself.
They are no decoding errors to whoever watches, and no finished table leads to them.
-/

namespace Disassembly

/-- What a decoder cannot go on with, whatever the bytes are. -/
inductive InternalFault where
  | unknownRule
  | unknownField
  /-- An assertion: a number stands for no type. -/
  | typeOutOfRange
deriving DecidableEq, Repr

/-- The wording of a fault, where it has one. -/
def InternalFault.message? : InternalFault → Option String
  | unknownRule => some "Could not decode instruction with unknown decoding rule"
  | unknownField => some "Could not decode field of unknown kind"
  | typeOutOfRange => none

/-- What a type byte was read for. -/
inductive TypeRole where
  | block
  | reference
  | value
deriving DecidableEq, Repr

namespace TypeRole

def description : TypeRole → String
  | block => "block type"
  | reference => "reference type"
  | value => "value type"

end TypeRole

/-- Why bytes cannot be decoded. -/
inductive DecodeFault where
  | endOfInput (requested : Nat)
  | unknownOpcode (opcode : UInt8)
  | unknownSecondary (lead opcode : UInt8)
  | invalidType (byte : UInt8) (role : TypeRole)
  | overlongInteger (width : Nat)
  | nestingTooDeep (limit : Nat)
  | secondElse
  | internal (fault : InternalFault)
deriving DecidableEq, Repr

namespace DecodeFault

def isInternal : DecodeFault → Bool
  | internal _ => true
  | _ => false

def message : DecodeFault → String
  | endOfInput requested =>
    "Unexpected end of input while reading " ++ Numeral.decimal requested ++ " byte(s)"
  | unknownOpcode opcode => "Unsupported opcode " ++ Numeral.hexByte opcode
  | unknownSecondary lead opcode =>
    "Unsupported secondary opcode " ++ Numeral.hexByte opcode ++
      " after prefix " ++ Numeral.hexByte lead
  | invalidType byte role =>
    "Invalid type byte " ++ Numeral.hexByte byte ++ ", expected " ++ role.description
  | overlongInteger width =>
    "LEB128 encoding exceeds the maximum length of a " ++ Numeral.decimal width ++ "bit integer"
  | nestingTooDeep limit =>
    "Block nesting exceeds the limit of " ++ Numeral.decimal limit ++ " levels"
  | secondElse => "Conditional instruction has more than one 'else' arm"
  | internal fault => fault.message?.getD ""

end DecodeFault

structure DecodeError where
  position : Nat
  fault : DecodeFault
deriving DecidableEq, Repr

namespace DecodeError

def message (error : DecodeError) : String :=
  error.fault.message

/-- The message together with the position. -/
def report (error : DecodeError) : String :=
  "Decoding error @" ++ Numeral.hexPosition error.position ++ ": " ++ error.message

end DecodeError

end Disassembly
