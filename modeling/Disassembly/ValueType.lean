import Disassembly.DecodeError

/-!
# Value types

A value type is written as one byte.  Seven bytes stand for a type; operands
that are put together by hand may carry any other byte, which has no name.
The type of a block is a value type or nothing, and has a byte of its own for
the second case.
-/

namespace Disassembly

/-- A value type, known by the byte that stands for it. -/
structure ValueType where
  byte : UInt8
deriving DecidableEq, Repr

namespace ValueType

def i32 : ValueType := ⟨0x7F⟩
def i64 : ValueType := ⟨0x7E⟩
def f32 : ValueType := ⟨0x7D⟩
def f64 : ValueType := ⟨0x7C⟩
def v128 : ValueType := ⟨0x7B⟩
def funcRef : ValueType := ⟨0x70⟩
def externRef : ValueType := ⟨0x6F⟩

/-- The name of a type, where the byte stands for one. -/
def name? (type : ValueType) : Option String :=
  match type.byte.toNat with
  | 0x7F => some "I32"
  | 0x7E => some "I64"
  | 0x7D => some "F32"
  | 0x7C => some "F64"
  | 0x7B => some "V128"
  | 0x70 => some "FuncRef"
  | 0x6F => some "ExternRef"
  | _ => none

def name (type : ValueType) : String :=
  type.name?.getD "<unknown val type>"

def isValid (type : ValueType) : Bool :=
  type.name?.isSome

def isReference (type : ValueType) : Bool :=
  type = funcRef || type = externRef

/-- The type with a number, of which there are 128. -/
def ofNumber (number : Nat) : Except InternalFault ValueType :=
  if number < 128 then .ok ⟨UInt8.ofNat number⟩ else .error .typeOutOfRange

/-- The type that a byte is read as.  Only the seven bytes with a name are. -/
def ofByte (byte : UInt8) : Except InternalFault (Option ValueType) :=
  if 128 ≤ byte.toNat then .ok none
  else do
    let type ← ofNumber byte.toNat
    return if type.isValid then some type else none

end ValueType

/-- The type of a block: its result type, or nothing for a block without one. -/
abbrev BlockType := Option ValueType

namespace BlockType

/-- The byte of a block type without a result. -/
def emptyByte : UInt8 := 0x40

def ofByte (byte : UInt8) : Except InternalFault (Option BlockType) :=
  if byte = emptyByte then .ok (some none)
  else (ValueType.ofByte byte).map fun type? => type?.map some

def name (type : BlockType) : String :=
  match type with
  | none => "None"
  | some result => result.name

end BlockType

end Disassembly
