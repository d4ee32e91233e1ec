import Disassembly.Table.Basic

/-!
# The standard table

The rows that are in force where no other table is given.
-/

namespace Disassembly

namespace Row

def single (lead : UInt8) (name fields : String) : Row :=
  ⟨.single lead, name, fields⟩

def extended (lead second : UInt8) (name fields : String) : Row :=
  ⟨.extended lead second, name, fields⟩

/-- The rows of the standard table. -/
def standard : List Row := [
  single 0x00 "unreachable" "",
  single 0x01 "nop" "",
  single 0x02 "block" "blocktype instr*",
  single 0x03 "loop" "blocktype instr*",
  single 0x04 "if" "%conditional",
  single 0x05 "else" "",
  single 0x0B "end" "",
  single 0x0C "br" "labelidx",
  single 0x0D "br_if" "labelidx",
  single 0x0E "br_table" "%branchtable",
  single 0x0F "return" "",
  single 0x10 "call" "funcidx",
  single 0x11 "call_indirect" "typeidx tableidx",
  single 0x1A "drop" "",
  single 0x1B "select" "",
  single 0x1C "select_t" "valtype*",
  single 0x20 "local.get" "localidx",
  single 0x21 "local.set" "localidx",
  single 0x22 "local.tee" "localidx",
  single 0x23 "global.get" "globalidx",
  single 0x24 "global.set" "globalidx",
  single 0x25 "table.get" "tableidx",
  single 0x26 "table.set" "tableidx",
  single 0x28 "i32.load" "u32 u32",
  single 0x29 "i64.load" "u32 u32",
  single 0x2A "f32.load" "u32 u32",
  single 0x2B "f64.load" "u32 u32",
  single 0x2C "i32.load8_s" "u32 u32",
  single 0x2D "i32.load8_u" "u32 u32",
  single 0x2E "i32.load16_s" "u32 u32",
  single 0x2F "i32.load16_u" "u32 u32",
  single 0x30 "i64.load8_s" "u32 u32",
  single 0x31 "i64.load8_u" "u32 u32",
  single 0x32 "i64.load16_s" "u32 u32",
  single 0x33 "i64.load16_u" "u32 u32",
  single 0x34 "i64.load32_s" "u32 u32",
  single 0x35 "i64.load32_u" "u32 u32",
  single 0x36 "i32.store" "u32 u32",
  single 0x37 "i64.store" "u32 u32",
  single 0x38 "f32.store" "u32 u32",
  single 0x39 "f64.store" "u32 u32",
  single 0x3A "i32.store8" "u32 u32",
  single 0x3B "i32.store16" "u32 u32",
  single 0x3C "i64.store8" "u32 u32",
  single 0x3D "i64.store16" "u32 u32",
  single 0x3E "i64.store32" "u32 u32",
  single 0x3F "memory.size" "memidx",
  single 0x40 "memory.grow" "memidx",
  single 0x41 "i32.const" "i32",
  single 0x42 "i64.const" "i64",
  single 0x43 "f32.const" "f32",
  single 0x44 "f64.const" "f64",
  single 0x45 "i32.eqz" "",
  single 0x46 "i32.eq" "",
  single 0x47 "i32.ne" "",
  single 0x48 "i32.lt_s" "",
  single 0x49 "i32.lt_u" "",
  single 0x4A "i32.gt_s" "",
  single 0x4B "i32.gt_u" "",
  single 0x4C "i32.le_s" "",
  single 0x4D "i32.le_u" "",
  single 0x4E "i32.ge_s" "",
  single 0x4F "i32.ge_u" "",
  single 0x50 "i64.eqz" "",
  single 0x51 "i64.eq" "",
  single 0x52 "i64.ne" "",
  single 0x53 "i64.lt_s" "",
  single 0x54 "i64.lt_u" "",
  single 0x55 "i64.gt_s" "",
  single 0x56 "i64.gt_u" "",
  single 0x57 "i64.le_s" "",
  single 0x58 "i64.le_u" "",
  single 0x59 "i64.ge_s" "",
  single 0x5A "i64.ge_u" "",
  single 0x5B "f32.eq" "",
  single 0x5C "f32.ne" "",
  single 0x5D "f32.lt" "",
  single 0x5E "f32.gt" "",
  single 0x5F "f32.le" "",
  single 0x60 "f32.ge" "",
  single 0x61 "f64.eq" "",
  single 0x62 "f64.ne" "",
  single 0x63 "f64.lt" "",
  single 0x64 "f64.gt" "",
  single 0x65 "f64.le" "",
  single 0x66 "f64.ge" "",
  single 0x67 "i32.clz" "",
  single 0x68 "i32.ctz" "",
  single 0x69 "i32.popcnt" "",
  single 0x6A "i32.add" "",
  single 0x6B "i32.sub" "",
  single 0x6C "i32.mul" "",
  single 0x6D "i32.div_s" "",
  single 0x6E "i32.div_u" "",
  single 0x6F "i32.rem_s" "",
  single 0x70 "i32.rem_u" "",
  single 0x71 "i32.and" "",
  single 0x72 "i32.or" "",
  single 0x73 "i32.xor" "",
  single 0x74 "i32.shl" "",
  single 0x75 "i32.shr_s" "",
  single 0x76 "i32.shr_u" "",
  single 0x77 "i32.rotl" "",
  single 0x78 "i32.rotr" "",
  single 0x79 "i64.clz" "",
  single 0x7A "i64.ctz" "",
  single 0x7B "i64.popcnt" "",
  single 0x7C "i64.add" "",
  single 0x7D "i64.sub" "",
  single 0x7E "i64.mul" "",
  single 0x7F "i64.div_s" "",
  single 0x80 "i64.div_u" "",
  single 0x81 "i64.rem_s" "",
  single 0x82 "i64.rem_u" "",
  single 0x83 "i64.and" "",
  single 0x84 "i64.or" "",
  single 0x85 "i64.xor" "",
  single 0x86 "i64.shl" "",
  single 0x87 "i64.shr_s" "",
  single 0x88 "i64.shr_u" "",
  single 0x89 "i64.rotl" "",
  single 0x8A "i64.rotr" "",
  single 0x8B "f32.abs" "",
  single 0x8C "f32.neg" "",
  single 0x8D "f32.ceil" "",
  single 0x8E "f32.floor" "",
  single 0x8F "f32.trunc" "",
  single 0x90 "f32.nearest" "",
  single 0x91 "f32.sqrt" "",
  single 0x92 "f32.add" "",
  single 0x93 "f32.sub" "",
  single 0x94 "f32.mul" "",
  single 0x95 "f32.div" "",
  single 0x96 "f32.min" "",
  single 0x97 "f32.max" "",
  single 0x98 "f32.copysign" "",
  single 0x99 "f64.abs" "",
  single 0x9A "f64.neg" "",
  single 0x9B "f64.ceil" "",
  single 0x9C "f64.floor" "",
  single 0x9D "f64.trunc" "",
  single 0x9E "f64.nearest" "",
  single 0x9F "f64.sqrt" "",
  single 0xA0 "f64.add" "",
  single 0xA1 "f64.sub" "",
  single 0xA2 "f64.mul" "",
  single 0xA3 "f64.div" "",
  single 0xA4 "f64.min" "",
  single 0xA5 "f64.max" "",
  single 0xA6 "f64.copysign" "",
  single 0xA7 "i32.wrap_i64" "",
  single 0xA8 "i32.trunc_f32_s" "",
  single 0xA9 "i32.trunc_f32_u" "",
  single 0xAA "i32.trunc_f64_s" "",
  single 0xAB "i32.trunc_f64_u" "",
  single 0xAC "i64.extend_i32_s" "",
  single 0xAD "i64.extend_i32_u" "",
  single 0xAE "i64.trunc_f32_s" "",
  single 0xAF "i64.trunc_f32_u" "",
  single 0xB0 "i64.trunc_f64_s" "",
  single 0xB1 "i64.trunc_f64_u" "",
  single 0xB2 "f32.convert_i32_s" "",
  single 0xB3 "f32.convert_i32_u" "",
  single 0xB4 "f32.convert_i64_s" "",
  single 0xB5 "f32.convert_i64_u" "",
  single 0xB6 "f32.demote_f64" "",
  single 0xB7 "f64.convert_i32_s" "",
  single 0xB8 "f64.convert_i32_u" "",
  single 0xB9 "f64.convert_i64_s" "",
  single 0xBA "f64.convert_i64_u" "",
  single 0xBB "f64.promote_f32" "",
  single 0xBC "i32.reinterpret_f32" "",
  single 0xBD "i64.reinterpret_f64" "",
  single 0xBE "f32.reinterpret_i32" "",
  single 0xBF "f64.reinterpret_i64" "",
  single 0xC0 "i32.extend8_s" "",
  single 0xC1 "i32.extend16_s" "",
  single 0xC2 "i64.extend8_s" "",
  single 0xC3 "i64.extend16_s" "",
  single 0xC4 "i64.extend32_s" "",
  single 0xD0 "ref.null" "reftype",
  single 0xD1 "ref.is_null" "",
  single 0xD2 "ref.func" "funcidx",
  extended 0xFC 0x00 "i32.trunc_sat_f32_s" "",
  extended 0xFC 0x01 "i32.trunc_sat_f32_u" "",
  extended 0xFC 0x02 "i32.trunc_sat_f64_s" "",
  extended 0xFC 0x03 "i32.trunc_sat_f64_u" "",
  extended 0xFC 0x04 "i64.trunc_sat_f32_s" "",
  extended 0xFC 0x05 "i64.trunc_sat_f32_u" "",
  extended 0xFC 0x06 "i64.trunc_sat_f64_s" "",
  extended 0xFC 0x07 "i64.trunc_sat_f64_u" "",
  extended 0xFC 0x08 "memory.init" "dataidx memidx",
  extended 0xFC 0x09 "data.drop" "dataidx",
  extended 0xFC 0x0A "memory.copy" "memidx memidx",
  extended 0xFC 0x0B "memory.fill" "memidx",
  extended 0xFC 0x0C "table.init" "elemidx tableidx",
  extended 0xFC 0x0D "elem.drop" "elemidx",
  extended 0xFC 0x0E "table.copy" "tableidx tableidx",
  extended 0xFC 0x0F "table.grow" "tableidx",
  extended 0xFC 0x10 "table.size" "tableidx",
  extended 0xFC 0x11 "table.fill" "tableidx"
]

end Row

namespace Table

/-- A table that was built, or one without entries. -/
def orEmpty : Except TableError Table → Table
  | .ok table => table
  | .error error => empty error.source

/-- The table of the standard rows. -/
def standard : Table :=
  orEmpty (ofRows "<builtin>" Row.standard)

end Table

end Disassembly
