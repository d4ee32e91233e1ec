import Disassembly.Proofs.Leb128.Form

/-!
# The grammar of a table

A table is a grammar of byte strings.  An instruction is the opcode of an entry
and the operands that the layout of the entry asks for.  Operands are read field
by field, or by one of the two directives.  A block is a sequence of
instructions of which only the last one is a terminator.  The terminator itself
is not part of the block: the block keeps only whether it was `else`.

Blocks inside instructions are one level deeper than the instruction, and no
level is beyond the limit.  Nothing here mentions a budget, an input or a
position.
-/

namespace Disassembly

def ValueType.all : List ValueType :=
  [i32, i64, f32, f64, v128, funcRef, externRef]

/-- The bytes of a number in a fixed width, the lowest byte first. -/
def littleEndianBytes : Nat → Nat → List UInt8
  | 0, _ => []
  | count + 1, value =>
    UInt8.ofNat (value % 256) :: littleEndianBytes count (value / 256)

theorem Opcode.bytes_ne_nil (opcode : Opcode) : opcode.bytes ≠ [] := by
  simp [Opcode.bytes]

namespace Grammar

open Leb128

/-- The encodings of a field that holds no instructions. -/
inductive Scalar : Field → List UInt8 → Operand → Prop
  | u32 {bytes : List UInt8} (hbytes : Form 5 bytes) :
      Scalar .u32 bytes (.u32 (UInt32.ofNat (groupSum bytes)))
  | i32 {bytes : List UInt8} (hbytes : Form 5 bytes) :
      Scalar .i32 bytes (.i32 (Int32.ofInt (signedSum bytes)))
  | i64 {bytes : List UInt8} (hbytes : Form 10 bytes) :
      Scalar .i64 bytes (.i64 (Int64.ofInt (signedSum bytes)))
  | f32 (bits : UInt32) :
      Scalar .f32 (littleEndianBytes 4 bits.toNat) (.f32 bits)
  | f64 (bits : UInt64) :
      Scalar .f64 (littleEndianBytes 8 bits.toNat) (.f64 bits)
  | index (space : IndexSpace) {bytes : List UInt8} (hbytes : Form 5 bytes) :
      Scalar (.index space) bytes
        (.index space (UInt32.ofNat (groupSum bytes)).toUInt64)
  | noResult : Scalar .blockType [0x40] (.blockType none)
  | result {type : ValueType} (htype : type ∈ ValueType.all) :
      Scalar .blockType [type.byte] (.blockType (some type))
  | referenceType {type : ValueType}
      (htype : type = .funcRef ∨ type = .externRef) :
      Scalar .referenceType [type.byte] (.valueType type)
  | valueTypes {count : List UInt8} {types : List ValueType}
      (hcount : Form 5 count)
      (hlength : types.length = groupSum count % 2 ^ 32)
      (htypes : ∀ type ∈ types, type ∈ ValueType.all) :
      Scalar .valueTypes (count ++ types.map ValueType.byte)
        (.valueTypes types)

/-- A count and one more label than it says, the last one being the default. -/
inductive Labels : List UInt8 → List UInt32 → Prop
  | intro {count : List UInt8} {pieces : List (List UInt8)}
      (hcount : Form 5 count)
      (hlength : pieces.length = groupSum count % 2 ^ 32 + 1)
      (hpieces : ∀ piece ∈ pieces, Form 5 piece) :
      Labels (count ++ pieces.flatten)
        (pieces.map fun piece => UInt32.ofNat (groupSum piece))

/-- What a stretch of bytes is read as. -/
inductive Phrase where
  | instruction (item : Instruction)
  | operands (layout : Layout) (values : List Operand)
  | field (field : Field) (value : Operand)
  | block (content : Block)

/-- The phrases of a table and a limit on levels, at a level. -/
inductive Derives (table : Table) (limit : Nat) :
    Nat → List UInt8 → Phrase → Prop
  | instruction {level : Nat} {entry : Entry} {bytes : List UInt8}
      {values : List Operand} (hentry : entry ∈ table.entries)
      (hvalues : Derives table limit level bytes
        (.operands entry.layout values)) :
      Derives table limit level (entry.opcode.bytes ++ bytes)
        (.instruction ⟨entry.type, values⟩)
  | noFields {level : Nat} :
      Derives table limit level [] (.operands (.inOrder []) [])
  | nextField {level : Nat} {field : Field} {fields : List Field}
      {first second : List UInt8} {value : Operand} {values : List Operand}
      (hvalue : Derives table limit level first (.field field value))
      (hvalues : Derives table limit level second
        (.operands (.inOrder fields) values)) :
      Derives table limit level (first ++ second)
        (.operands (.inOrder (field :: fields)) (value :: values))
  | oneArm {level : Nat} {type : BlockType} {head body : List UInt8}
      {first : List Instruction}
      (htype : Scalar .blockType head (.blockType type))
      (hlevel : level + 1 ≤ limit)
      (hfirst : Derives table limit (level + 1) body (.block ⟨first, false⟩)) :
      Derives table limit level (head ++ body)
        (.operands (.special .conditional)
          [.blockType type, .instructions first, .instructions []])
  | twoArms {level : Nat} {type : BlockType} {head body other : List UInt8}
      {first second : List Instruction}
      (htype : Scalar .blockType head (.blockType type))
      (hlevel : level + 1 ≤ limit)
      (hfirst : Derives table limit (level + 1) body (.block ⟨first, true⟩))
      (hsecond : Derives table limit (level + 1) other
        (.block ⟨second, false⟩)) :
      Derives table limit level (head ++ (body ++ other))
        (.operands (.special .conditional)
          [.blockType type, .instructions first, .instructions second])
  | branchTable {level : Nat} {bytes : List UInt8} {targets : List UInt32}
      (htargets : Labels bytes targets) :
      Derives table limit level bytes
        (.operands (.special .branchTable) [.labels targets])
  | scalar {level : Nat} {field : Field} {bytes : List UInt8} {value : Operand}
      (hvalue : Scalar field bytes value) :
      Derives table limit level bytes (.field field value)
  | nested {level : Nat} {bytes : List UInt8} {content : Block}
      (hlevel : level + 1 ≤ limit)
      (hcontent : Derives table limit (level + 1) bytes (.block content)) :
      Derives table limit level bytes
        (.field .instructions (.instructions content.instructions))
  | close {level : Nat} {bytes : List UInt8} {item : Instruction}
      (hitem : Derives table limit level bytes (.instruction item))
      (hterminator : item.isTerminator) :
      Derives table limit level bytes
        (.block ⟨[], item.type = .otherwise⟩)
  | next {level : Nat} {first second : List UInt8} {item : Instruction}
      {content : Block}
      (hitem : Derives table limit level first (.instruction item))
      (hinner : ¬ item.isTerminator)
      (hcontent : Derives table limit level second (.block content)) :
      Derives table limit level (first ++ second)
        (.block ⟨item :: content.instructions, content.closedByElse⟩)

/-! ## Derivations of a phrase -/

variable {table : Table} {limit level : Nat} {bytes : List UInt8}

theorem derives_instruction_iff {item : Instruction} :
    Derives table limit level bytes (.instruction item) ↔
      ∃ entry ∈ table.entries, ∃ rest values,
        Derives table limit level rest (.operands entry.layout values) ∧
          item = ⟨entry.type, values⟩ ∧ bytes = entry.opcode.bytes ++ rest := by
  constructor
  · intro hitem
    cases hitem with
    | instruction hentry hvalues =>
        exact ⟨_, hentry, _, _, hvalues, rfl, rfl⟩
  · rintro ⟨entry, hentry, rest, values, hvalues, rfl, rfl⟩
    exact .instruction hentry hvalues

theorem derives_scalar_iff {field : Field} {value : Operand}
    (hfield : field ≠ .instructions) :
    Derives table limit level bytes (.field field value) ↔
      Scalar field bytes value := by
  constructor
  · intro hvalue
    cases hvalue with
    | scalar hscalar => exact hscalar
    | nested => exact absurd rfl hfield
  · exact .scalar

theorem derives_nested_iff {value : Operand} :
    Derives table limit level bytes (.field .instructions value) ↔
      ∃ content : Block, (level + 1 ≤ limit ∧
        Derives table limit (level + 1) bytes (.block content)) ∧
          value = .instructions content.instructions := by
  constructor
  · intro hvalue
    cases hvalue with
    | scalar hscalar => cases hscalar
    | nested hlevel hcontent => exact ⟨_, ⟨hlevel, hcontent⟩, rfl⟩
  · rintro ⟨content, ⟨hlevel, hcontent⟩, rfl⟩
    exact .nested hlevel hcontent

theorem derives_noFields_iff {values : List Operand} :
    Derives table limit level bytes (.operands (.inOrder []) values) ↔
      bytes = [] ∧ values = [] := by
  constructor
  · intro hvalues
    cases hvalues
    exact ⟨rfl, rfl⟩
  · rintro ⟨rfl, rfl⟩
    exact .noFields

theorem derives_nextField_iff {field : Field} {fields : List Field}
    {values : List Operand} :
    Derives table limit level bytes (.operands (.inOrder (field :: fields)) values) ↔
      ∃ value first second, Derives table limit level first (.field field value) ∧
        (∃ more, Derives table limit level second (.operands (.inOrder fields) more) ∧
          values = value :: more) ∧ bytes = first ++ second := by
  constructor
  · intro hvalues
    cases hvalues with
    | nextField hvalue hmore =>
        exact ⟨_, _, _, hvalue, ⟨_, hmore, rfl⟩, rfl⟩
  · rintro ⟨value, first, second, hvalue, ⟨more, hmore, rfl⟩, rfl⟩
    exact .nextField hvalue hmore

def SecondArm (table : Table) (limit level : Nat) (first : Block)
    (bytes : List UInt8) (second : List Instruction) : Prop :=
  if first.closedByElse then
    Derives table limit (level + 1) bytes (.block ⟨second, false⟩)
  else bytes = [] ∧ second = []

theorem derives_conditional_iff {values : List Operand} :
    Derives table limit level bytes (.operands (.special .conditional) values) ↔
      ∃ type head rest, Scalar .blockType head (.blockType type) ∧
        (∃ first body other, (level + 1 ≤ limit ∧
            Derives table limit (level + 1) body (.block first)) ∧
          (∃ second, SecondArm table limit level first other second ∧
            values = [.blockType type, .instructions first.instructions,
              .instructions second]) ∧ rest = body ++ other) ∧
        bytes = head ++ rest := by
  constructor
  · intro hvalues
    cases hvalues with
    | oneArm htype hlevel hfirst =>
        exact ⟨_, _, _, htype, ⟨_, _, [], ⟨hlevel, hfirst⟩,
          ⟨[], ⟨rfl, rfl⟩, rfl⟩, (List.append_nil _).symm⟩, rfl⟩
    | twoArms htype hlevel hfirst hsecond =>
        exact ⟨_, _, _, htype, ⟨_, _, _, ⟨hlevel, hfirst⟩,
          ⟨_, hsecond, rfl⟩, rfl⟩, rfl⟩
  · rintro ⟨type, head, rest, htype, ⟨⟨first, closedByElse⟩, body, other,
      ⟨hlevel, hfirst⟩, ⟨second, hsecond, rfl⟩, rfl⟩, rfl⟩
    cases closedByElse with
    | true => exact .twoArms htype hlevel hfirst hsecond
    | false =>
        obtain ⟨rfl, rfl⟩ := hsecond
        rw [List.append_nil]
        exact .oneArm htype hlevel hfirst

theorem derives_branchTable_iff {values : List Operand} :
    Derives table limit level bytes (.operands (.special .branchTable) values) ↔
      ∃ targets, Labels bytes targets ∧ values = [.labels targets] := by
  constructor
  · intro hvalues
    cases hvalues with
    | branchTable htargets => exact ⟨_, htargets, rfl⟩
  · rintro ⟨targets, htargets, rfl⟩
    exact .branchTable htargets

theorem derives_block_iff {content : Block} :
    Derives table limit level bytes (.block content) ↔
      ∃ item first second, Derives table limit level first (.instruction item) ∧
        (if item.isTerminator then
          second = [] ∧ content = ⟨[], item.type = .otherwise⟩
        else ∃ tail : Block, Derives table limit level second (.block tail) ∧
          content = ⟨item :: tail.instructions, tail.closedByElse⟩) ∧
        bytes = first ++ second := by
  constructor
  · intro hcontent
    cases hcontent with
    | close hitem hterminator =>
        exact ⟨_, _, [], hitem, by rw [if_pos hterminator]; exact ⟨rfl, rfl⟩,
          (List.append_nil _).symm⟩
    | next hitem hinner htail =>
        exact ⟨_, _, _, hitem, by rw [if_neg hinner]; exact ⟨_, htail, rfl⟩, rfl⟩
  · rintro ⟨item, first, second, hitem, hrest, rfl⟩
    split at hrest
    next hterminator =>
      obtain ⟨rfl, rfl⟩ := hrest
      rw [List.append_nil]
      exact .close hitem hterminator
    next hinner =>
      obtain ⟨tail, htail, rfl⟩ := hrest
      exact .next hitem hinner htail

theorem Derives.instruction_length_pos {item : Instruction}
    (hitem : Derives table limit level bytes (.instruction item)) :
    0 < bytes.length := by
  cases hitem with
  | instruction =>
      rw [List.length_append]
      exact Nat.add_pos_left (List.length_pos_iff.mpr (Opcode.bytes_ne_nil _)) _

theorem Derives.block_length_pos {content : Block}
    (hcontent : Derives table limit level bytes (.block content)) :
    0 < bytes.length := by
  cases hcontent with
  | close hitem => exact hitem.instruction_length_pos
  | next hitem =>
      rw [List.length_append]
      exact Nat.add_pos_left hitem.instruction_length_pos _

end Grammar

end Disassembly
