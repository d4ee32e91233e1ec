import Disassembly.Instruction.Printer
import Disassembly.Proofs.Conformance.Decoded
import Disassembly.Proofs.Failure
import Disassembly.Proofs.Table.Rows

/-!
# Access to conforming trees

An instruction of a conforming tree can be printed, and the operands that its
type is bound to can be asked for.  Three accessors rely on layouts that a table
may choose freely.  They succeed where the table has the layout of the standard
table.

Decoders therefore fail only in the ways that their errors describe, and
whatever they return can be printed and asked for its operands.
-/

namespace Disassembly

open ViewedSource (toInput)

/-! ## Complete prints -/

namespace Printout

theorem fault?_write (text : String) : (write text).fault? = none :=
  rfl

theorem fault?_append_eq_none_iff {first second : Printout} :
    (first ++ second).fault? = none ↔
      first.fault? = none ∧ second.fault? = none := by
  rw [fault?_append, Option.or_eq_none_iff]

end Printout

open Printout

namespace Instruction

variable {table : Table} {item : Instruction}

/-- The print of an instruction breaks off nowhere. -/
def Printable (item : Instruction) : Prop :=
  ∀ indent, (item.print indent).fault? = none

theorem fault?_printList
    {body : List Instruction} (hbody : ∀ child ∈ body, child.Printable)
    (indent : Nat) : (printList indent body).fault? = none := by
  induction body with
  | nil => rfl
  | cons child body ih =>
      simp only [printList]
      rw [fault?_append_eq_none_iff]
      exact ⟨hbody child List.mem_cons_self indent,
        ih fun other hother => hbody other (List.mem_cons_of_mem _ hother)⟩

theorem fault?_printOperand
    {operand : Operand}
    (hoperand : ∀ body, .instructions body = operand →
      ∀ child ∈ body, child.Printable)
    (indent : Nat) : (printOperand indent operand).fault? = none := by
  cases operand with
  | instructions body =>
      simp only [printOperand]
      rw [fault?_append_eq_none_iff]
      exact ⟨fault?_write _, fault?_printList (hoperand body rfl) (indent + 1)⟩
  | _ => simp only [printOperand, fault?_write]

theorem fault?_printOperands
    {operands : List Operand}
    (hoperands : ∀ body, .instructions body ∈ operands →
      ∀ child ∈ body, child.Printable)
    (indent : Nat) : (printOperands indent operands).fault? = none := by
  induction operands with
  | nil => rfl
  | cons operand operands ih =>
      simp only [printOperands]
      rw [fault?_append_eq_none_iff]
      constructor
      · apply fault?_printOperand
        intro body hbody
        exact hoperands body (hbody ▸ List.mem_cons_self)
      · exact ih fun body hbody => hoperands body (List.mem_cons_of_mem _ hbody)

theorem fault?_printElse
    {body : List Instruction} (hbody : ∀ child ∈ body, child.Printable)
    (indent : Nat) : (printElse indent [.instructions body]).fault? = none := by
  simp only [printElse]
  split
  next => rfl
  next =>
    rw [fault?_append_eq_none_iff]
    exact ⟨fault?_write _, fault?_printList hbody (indent + 1)⟩

theorem fault?_print_branchTable
    {targets : List UInt32} (htargets : targets ≠ []) (indent : Nat) :
    (print indent ⟨.branchTable, [.labels targets]⟩).fault? = none := by
  simp only [print, branchTableLine, List.getLast?_eq_some_getLast htargets,
    if_true]
  rfl

theorem fault?_print_block
    {type : InstructionType} (htype : type.isBlock) {first second : Operand}
    {more : List Operand} {indent : Nat}
    (hfirst : (printOperand indent first).fault? = none)
    (hsecond : (printOperand indent second).fault? = none)
    (helse : type = .conditional → (printElse indent more).fault? = none) :
    (print indent ⟨type, first :: second :: more⟩).fault? = none := by
  have hbranch : type ≠ .branchTable := by
    rintro rfl
    cases htype
  simp only [print, if_neg hbranch, if_pos htype]
  simp only [fault?_append_eq_none_iff, fault?_write, hfirst, hsecond, and_true,
    true_and]
  split
  next hconditional => exact helse hconditional
  next => rfl

theorem print_plain
    {type : InstructionType} (hbranch : type ≠ .branchTable)
    (hblock : ¬ type.isBlock) {operands : List Operand} {indent : Nat} :
    print indent ⟨type, operands⟩ =
      write (indentation indent) ++
        (write type.name ++ printOperands indent operands ++ write "\n") := by
  unfold print
  rw [if_neg hbranch, if_neg hblock]

theorem isBlock_iff {type : InstructionType} :
    type.isBlock ↔ (type = .block ∨ type = .loop) ∨ type = .conditional := by
  simp [InstructionType.isBlock]

theorem Shaped.printable
    (hitem : item.Shaped table)
    (hchildren : ∀ body, .instructions body ∈ item.operands →
      ∀ child ∈ body, child.Printable) : item.Printable := by
  rcases item with ⟨type, operands⟩
  intro indent
  have hoperand :
      ∀ operand ∈ operands, (printOperand indent operand).fault? = none := by
    intro operand hmem
    apply fault?_printOperand
    intro body hbody
    exact hchildren body (hbody ▸ hmem)
  by_cases hbranch : type = .branchTable
  · obtain ⟨targets, htargets, hoperands⟩ := hitem.branchTable hbranch
    obtain rfl : operands = [.labels targets] := hoperands
    rw [hbranch]
    exact fault?_print_branchTable htargets indent
  · by_cases hblock : type.isBlock
    · rcases isBlock_iff.mp hblock with hplain | hconditional
      · obtain ⟨result, body, hoperands⟩ := hitem.block hplain
        obtain rfl : operands = [.blockType result, .instructions body] := hoperands
        refine fault?_print_block hblock (hoperand _ (by simp))
          (hoperand _ (by simp)) ?_
        rintro rfl
        rcases hplain with hplain | hplain <;> cases hplain
      · obtain ⟨result, body, arm, hoperands⟩ := hitem.conditional hconditional
        obtain rfl :
            operands = [.blockType result, .instructions body, .instructions arm] :=
          hoperands
        refine fault?_print_block hblock (hoperand _ (by simp))
          (hoperand _ (by simp)) fun _ => ?_
        exact fault?_printElse (hchildren arm (by simp [Instruction.operands])) indent
    · rw [print_plain hbranch hblock]
      simp only [fault?_append_eq_none_iff, fault?_write, and_true, true_and]
      exact fault?_printOperands hchildren indent

theorem Conforms.printable
    {levels : Nat} (hitem : item.Conforms table levels) : item.Printable := by
  refine Throughout.induction (motive := fun _ inner => inner.Printable) ?_ hitem
  intro levels inner hshaped hchildren
  apply hshaped.printable
  intro body hbody
  obtain ⟨_, _, hprintable⟩ := hchildren body hbody
  exact hprintable

/-! ## Accessors -/

theorem demand_eq_ok {applies : Bool} (happlies : applies) :
    demand applies = .ok () :=
  if_pos happlies

theorem blockType_eq_ok
    (hblock : item.type.isBlock) {type : BlockType} {more : List Operand}
    (hoperands : item.operands = .blockType type :: more) :
    item.blockType = .ok type := by
  unfold blockType operandAt
  rw [demand_eq_ok hblock, hoperands]
  rfl

theorem instructionsAt_eq_ok
    {position : Nat} {body : List Instruction}
    (hoperand : item.operands[position]? = some (.instructions body)) :
    item.instructionsAt position = .ok body := by
  unfold instructionsAt operandAt
  rw [hoperand]
  rfl

theorem u32At_eq_ok
    {position : Nat} {value : UInt32}
    (hoperand : item.operands[position]? = some (.u32 value)) :
    item.u32At position = .ok value := by
  unfold u32At operandAt
  rw [hoperand]
  rfl

theorem body_eq_ok
    (hblock : item.type.isBlock) {body : List Instruction}
    (hoperand : item.operands[1]? = some (.instructions body)) :
    item.body = .ok body := by
  unfold Instruction.body
  rw [demand_eq_ok hblock]
  exact instructionsAt_eq_ok hoperand

theorem elseBody_eq_ok
    (htype : item.type = .conditional) {body : List Instruction}
    (hoperand : item.operands[2]? = some (.instructions body)) :
    item.elseBody = .ok body := by
  unfold elseBody
  rw [demand_eq_ok (decide_eq_true htype)]
  exact instructionsAt_eq_ok hoperand

theorem branchLabels_eq_ok
    (htype : item.type = .branchTable) {targets : List UInt32}
    (hoperands : item.operands = [.labels targets]) :
    item.branchLabels = .ok targets := by
  unfold branchLabels labelsAt operandAt
  rw [demand_eq_ok (decide_eq_true htype), hoperands]
  rfl

theorem defaultLabel_eq_ok
    (htype : item.type = .branchTable) {targets : List UInt32}
    (htargets : targets ≠ []) (hoperands : item.operands = [.labels targets]) :
    item.defaultLabel = .ok (targets.getLast htargets) := by
  unfold defaultLabel
  rw [branchLabels_eq_ok htype hoperands]
  simp only [bind, Except.bind, List.getLast?_eq_some_getLast htargets]
  rfl

end Instruction

/-- A type has the layout of the standard table. -/
def Table.LaidOutAsStandard (table : Table) (type : InstructionType) : Prop :=
  ∃ entry usual, table.entryOf? type = some entry ∧
    Table.standard.entryOf? type = some usual ∧ entry.layout = usual.layout

namespace Instruction

variable {table : Table} {item : Instruction}

/-- The print and the accessors that apply to an instruction succeed. -/
structure Accessible (table : Table) (item : Instruction) : Prop where
  printable : item.Printable
  block : item.type.isBlock →
    (∃ type, item.blockType = .ok type) ∧ ∃ body, item.body = .ok body
  conditional : item.type = .conditional → ∃ body, item.elseBody = .ok body
  branchTable : item.type = .branchTable →
    (∃ targets, item.branchLabels = .ok targets) ∧
      ∃ label, item.defaultLabel = .ok label
  memoryAccess : item.type.isMemoryAccess → table.LaidOutAsStandard item.type →
    (∃ alignment, item.memoryAlignment = .ok alignment) ∧
      ∃ offset, item.memoryOffset = .ok offset
  typedSelect : item.type = .typedSelect → table.LaidOutAsStandard item.type →
    ∃ types, item.selectedTypes = .ok types
  nullReference : item.type = .nullReference →
    table.LaidOutAsStandard item.type → ∃ type, item.referenceType = .ok type

theorem Shaped.fits_standard
    (hitem : item.Shaped table) (hlayout : table.LaidOutAsStandard item.type) :
    ∃ usual, Table.standard.entryOf? item.type = some usual ∧
      usual.layout.Fits item.operands := by
  obtain ⟨entry, usual, hentry, husual, hsame⟩ := hlayout
  obtain ⟨found, hfound, hfits⟩ := hitem.fits
  obtain rfl : entry = found := Option.some.inj (hentry.symm.trans hfound)
  rw [hsame] at hfits
  exact ⟨usual, husual, hfits⟩

theorem Shaped.memoryAccess
    (hitem : item.Shaped table) (htype : item.type.isMemoryAccess)
    (hlayout : table.LaidOutAsStandard item.type) :
    (∃ alignment, item.memoryAlignment = .ok alignment) ∧
      ∃ offset, item.memoryOffset = .ok offset := by
  obtain ⟨usual, husual, hfits⟩ := hitem.fits_standard hlayout
  rw [Table.standard_layout_of_isMemoryAccess htype husual] at hfits
  generalize hoperands : item.operands = operands at hfits
  rcases hfits with ⟨_ | ⟨⟨alignment⟩, _ | ⟨⟨offset⟩, _ | _⟩⟩⟩
  unfold memoryAlignment memoryOffset
  rw [demand_eq_ok htype]
  exact ⟨⟨alignment, u32At_eq_ok (by rw [hoperands]; rfl)⟩,
    ⟨offset, u32At_eq_ok (by rw [hoperands]; rfl)⟩⟩

theorem Shaped.typedSelect
    (hitem : item.Shaped table) (htype : item.type = .typedSelect)
    (hlayout : table.LaidOutAsStandard item.type) :
    ∃ types, item.selectedTypes = .ok types := by
  obtain ⟨usual, husual, hfits⟩ := hitem.fits_standard hlayout
  rw [htype] at husual
  rw [Table.standard_layout_typedSelect husual] at hfits
  generalize hoperands : item.operands = operands at hfits
  rcases hfits with ⟨_ | ⟨hfirst, _ | _⟩⟩
  cases hfirst
  unfold selectedTypes operandAt
  rw [demand_eq_ok (decide_eq_true htype), hoperands]
  exact ⟨_, rfl⟩

theorem Shaped.nullReference
    (hitem : item.Shaped table) (htype : item.type = .nullReference)
    (hlayout : table.LaidOutAsStandard item.type) :
    ∃ type, item.referenceType = .ok type := by
  obtain ⟨usual, husual, hfits⟩ := hitem.fits_standard hlayout
  rw [htype] at husual
  rw [Table.standard_layout_nullReference husual] at hfits
  generalize hoperands : item.operands = operands at hfits
  rcases hfits with ⟨_ | ⟨hfirst, _ | _⟩⟩
  cases hfirst
  unfold referenceType operandAt
  rw [demand_eq_ok (decide_eq_true htype), hoperands]
  exact ⟨_, rfl⟩

theorem Shaped.block_access
    (hitem : item.Shaped table) (hblock : item.type.isBlock) :
    (∃ type, item.blockType = .ok type) ∧ ∃ body, item.body = .ok body := by
  rcases isBlock_iff.mp hblock with hplain | hconditional
  · obtain ⟨type, body, hoperands⟩ := hitem.block hplain
    exact ⟨⟨type, blockType_eq_ok hblock hoperands⟩,
      ⟨body, body_eq_ok hblock (by rw [hoperands]; rfl)⟩⟩
  · obtain ⟨type, body, arm, hoperands⟩ := hitem.conditional hconditional
    exact ⟨⟨type, blockType_eq_ok hblock hoperands⟩,
      ⟨body, body_eq_ok hblock (by rw [hoperands]; rfl)⟩⟩

theorem Shaped.accessible
    (hitem : item.Shaped table) (hprintable : item.Printable) :
    item.Accessible table := by
  refine ⟨hprintable, hitem.block_access, ?_, ?_, hitem.memoryAccess,
    hitem.typedSelect, hitem.nullReference⟩
  · intro htype
    obtain ⟨_, _, arm, hoperands⟩ := hitem.conditional htype
    exact ⟨arm, elseBody_eq_ok htype (by rw [hoperands]; rfl)⟩
  · intro htype
    obtain ⟨targets, htargets, hoperands⟩ := hitem.branchTable htype
    exact ⟨⟨targets, branchLabels_eq_ok htype hoperands⟩,
      ⟨_, defaultLabel_eq_ok htype htargets hoperands⟩⟩

theorem Conforms.accessible_within
    {levels depth : Nat} (htree : item.Conforms table levels)
    {inner : Instruction} (hinner : item.Within depth inner) :
    inner.Accessible table := by
  obtain ⟨_, hconforms⟩ := Throughout.within htree hinner
  exact hconforms.root.accessible (Conforms.printable hconforms)

end Instruction

/-! ## Safety of decoding -/

/-- A decoder with an accepted table fails only as its input justifies, and never by a
fault of its own.  Every instruction of a tree that it returns can be printed and asked
for its operands. -/
theorem decoding_is_safe
    {σ : Type} [ViewedSource σ]
    (decoder : Decoder) (htable : decoder.table.Accepted) (source : σ) :
    (∀ error, (decoder.decodeOne source).result = .error error →
      Failure decoder.table decoder.depthLimit (toInput source) error
        (decoder.decodeOne source).viewed.input) ∧
    (∀ item, (decoder.decodeOne source).result = .ok item →
      ∀ depth inner, item.Within depth inner →
        inner.Accessible decoder.table) ∧
    (∀ error, (decoder.decodeBlock source).result = .error error →
      Failure decoder.table decoder.depthLimit (toInput source) error
        (decoder.decodeBlock source).viewed.input) ∧
    ∀ content, (decoder.decodeBlock source).result = .ok content →
      ∀ item ∈ content.instructions, ∀ depth inner, item.Within depth inner →
        inner.Accessible decoder.table := by
  have hcoherent := htable.wellFormed.toCoherent
  rw [decoder.result_decodeOne, decoder.result_decodeBlock, decoder.viewed_decodeOne,
    decoder.viewed_decodeBlock]
  refine ⟨?_, ?_, ?_, ?_⟩
  · intro error herror
    exact Decoder.decodeOne_eq_error hcoherent herror
  · intro item hitem depth inner hinner
    have hconforms := Decoder.decodeOne_conforms hcoherent hitem
    exact hconforms.accessible_within hinner
  · intro error herror
    exact Decoder.decodeBlock_eq_error hcoherent herror
  · intro content hcontent item hmem depth inner hinner
    have hconforms := Decoder.decodeBlock_conforms hcoherent hcontent
    exact (hconforms item hmem).2.accessible_within hinner

/-- A block that lies too deep, and one with a branch table that does not. -/
theorem nested_blocks_are_safe :
    let decoder : Decoder := ⟨Table.sample, 1, false⟩
    let source : StreamSource := .ofBytes [0x02, 0x40, 0x02, 0x40, 0x0B, 0x0B]
    Table.sample.Accepted ∧
      Failure Table.sample 1 source.toInput ⟨4, .nestingTooDeep 1⟩
        (decoder.decodeOne source).viewed.input ∧
      Instruction.Accessible Table.sample
        ⟨.block, [.blockType none,
          .instructions [⟨.branchTable, [.labels [7]]⟩]]⟩ := by
  intro decoder source
  refine ⟨Table.accepted_sample, ?_, ?_⟩
  · exact (decoding_is_safe decoder Table.accepted_sample source).1 _ (by cbv)
  · exact (decoding_is_safe decoder Table.accepted_sample
      (StreamSource.ofBytes [0x02, 0x40, 0x0E, 0x00, 0x07, 0x0B])).2.1 _ (by cbv) 0 _
      (.root _)

end Disassembly
