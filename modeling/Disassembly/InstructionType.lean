/-!
# Instruction types

The instruction types are numbered.  Each number below `mnemonics.length` has a
mnemonic of its own; the numbers above are the types that no table can name and
that only a hand-built instruction can have.
-/

namespace Disassembly

/-- An instruction type, known by its number. -/
structure InstructionType where
  code : UInt32
deriving DecidableEq, Repr

namespace InstructionType

/-- The mnemonics in the order of the numbers. -/
def mnemonics : List String := [
  "unreachable", "nop", "block", "loop", "if", "else", "end", "br", "br_if", "br_table",
  "return", "call", "call_indirect", "drop", "select", "select_t", "local.get", "local.set",
  "local.tee", "global.get", "global.set", "ref.null", "ref.is_null", "ref.func", "table.get",
  "table.set", "table.init", "elem.drop", "table.copy", "table.grow", "table.size",
  "table.fill", "i32.load", "i64.load", "f32.load", "f64.load", "i32.load8_s", "i32.load8_u",
  "i32.load16_s", "i32.load16_u", "i64.load8_s", "i64.load8_u", "i64.load16_s", "i64.load16_u",
  "i64.load32_s", "i64.load32_u", "i32.store", "i64.store", "f32.store", "f64.store",
  "i32.store8", "i32.store16", "i64.store8", "i64.store16", "i64.store32", "memory.size",
  "memory.grow", "memory.init", "data.drop", "memory.copy", "memory.fill", "i32.const",
  "i64.const", "f32.const", "f64.const", "i32.eqz", "i32.eq", "i32.ne", "i32.lt_s", "i32.lt_u",
  "i32.gt_s", "i32.gt_u", "i32.le_s", "i32.le_u", "i32.ge_s", "i32.ge_u", "i64.eqz", "i64.eq",
  "i64.ne", "i64.lt_s", "i64.lt_u", "i64.gt_s", "i64.gt_u", "i64.le_s", "i64.le_u", "i64.ge_s",
  "i64.ge_u", "f32.eq", "f32.ne", "f32.lt", "f32.gt", "f32.le", "f32.ge", "f64.eq", "f64.ne",
  "f64.lt", "f64.gt", "f64.le", "f64.ge", "i32.clz", "i32.ctz", "i32.popcnt", "i32.add",
  "i32.sub", "i32.mul", "i32.div_s", "i32.div_u", "i32.rem_s", "i32.rem_u", "i32.and",
  "i32.or", "i32.xor", "i32.shl", "i32.shr_s", "i32.shr_u", "i32.rotl", "i32.rotr", "i64.clz",
  "i64.ctz", "i64.popcnt", "i64.add", "i64.sub", "i64.mul", "i64.div_s", "i64.div_u",
  "i64.rem_s", "i64.rem_u", "i64.and", "i64.or", "i64.xor", "i64.shl", "i64.shr_s",
  "i64.shr_u", "i64.rotl", "i64.rotr", "f32.abs", "f32.neg", "f32.ceil", "f32.floor",
  "f32.trunc", "f32.nearest", "f32.sqrt", "f32.add", "f32.sub", "f32.mul", "f32.div",
  "f32.min", "f32.max", "f32.copysign", "f64.abs", "f64.neg", "f64.ceil", "f64.floor",
  "f64.trunc", "f64.nearest", "f64.sqrt", "f64.add", "f64.sub", "f64.mul", "f64.div",
  "f64.min", "f64.max", "f64.copysign", "i32.wrap_i64", "i32.trunc_f32_s", "i32.trunc_f32_u",
  "i32.trunc_f64_s", "i32.trunc_f64_u", "i64.extend_i32_s", "i64.extend_i32_u",
  "i64.trunc_f32_s", "i64.trunc_f32_u", "i64.trunc_f64_s", "i64.trunc_f64_u",
  "f32.convert_i32_s", "f32.convert_i32_u", "f32.convert_i64_s", "f32.convert_i64_u",
  "f32.demote_f64", "f64.convert_i32_s", "f64.convert_i32_u", "f64.convert_i64_s",
  "f64.convert_i64_u", "f64.promote_f32", "i32.reinterpret_f32", "i64.reinterpret_f64",
  "f32.reinterpret_i32", "f64.reinterpret_i64", "i32.extend8_s", "i32.extend16_s",
  "i64.extend8_s", "i64.extend16_s", "i64.extend32_s", "i32.trunc_sat_f32_s",
  "i32.trunc_sat_f32_u", "i32.trunc_sat_f64_s", "i32.trunc_sat_f64_u", "i64.trunc_sat_f32_s",
  "i64.trunc_sat_f32_u", "i64.trunc_sat_f64_s", "i64.trunc_sat_f64_u"]

/-- The type with a given number, provided that the number has a mnemonic.  A number of any
size is compared before it becomes a code, so that no large number stands for a small one. -/
def ofNumber? (number : Nat) : Option InstructionType :=
  if number < mnemonics.length then some ⟨UInt32.ofNat number⟩ else none

def name (type : InstructionType) : String :=
  mnemonics[type.code.toNat]?.getD "<unknown instruction type>"

/-- The type that has the given mnemonic. -/
def ofName? (name : String) : Option InstructionType :=
  (mnemonics.findIdx? (· == name)).map fun index => ⟨UInt32.ofNat index⟩

/-!
The types with rules of their own: the three that hold blocks, the two that
close a block, the branch table, the typed selection, the null reference, and
the run of loads and stores.
-/

def block : InstructionType := ⟨2⟩
def loop : InstructionType := ⟨3⟩
def conditional : InstructionType := ⟨4⟩
def otherwise : InstructionType := ⟨5⟩
def blockEnd : InstructionType := ⟨6⟩
def branchTable : InstructionType := ⟨9⟩
def typedSelect : InstructionType := ⟨15⟩
def nullReference : InstructionType := ⟨21⟩
def firstMemoryAccess : InstructionType := ⟨32⟩
def lastMemoryAccess : InstructionType := ⟨54⟩

def isBlock (type : InstructionType) : Bool :=
  type = block || type = loop || type = conditional

/-- A terminator closes the block that it stands in. -/
def isTerminator (type : InstructionType) : Bool :=
  type = otherwise || type = blockEnd

theorem isTerminator_iff {type : InstructionType} :
    type.isTerminator ↔ type = otherwise ∨ type = blockEnd := by
  simp [isTerminator]

def isMemoryAccess (type : InstructionType) : Bool :=
  firstMemoryAccess.code ≤ type.code && type.code ≤ lastMemoryAccess.code

end InstructionType

end Disassembly
