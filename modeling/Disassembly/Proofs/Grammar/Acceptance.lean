import Disassembly.Proofs.Sources.Views
import Disassembly.Bytes.Buffer
import Disassembly.Proofs.Grammar.Scalars
import Disassembly.Proofs.Table.Invariant

/-!
# What decoders accept

A decoder accepts exactly the phrases of its table.  The proof goes through the
decoder from the inside out: opcodes, fields, operands, instructions and blocks.
Each part recognizes its phrases as soon as the blocks inside it are recognized.

A block is recognized on inputs that are not longer than the budget.  Every
instruction has at least one byte of its own, so that what is left for the
blocks inside it and for the instructions behind it is shorter.
-/

namespace Disassembly

open Decoding (Recognizes read recognizes_read recognizes_pure recognizes_failHere
  tell_eq_ok tellFailure_eq_ok)
open Grammar

/-! ## Opcodes -/

namespace Reader

/-- The entry of an opcode of two bytes whose first one was read. -/
def secondEntry (table : Table) (lead : UInt8) : Reader Input Entry := do
  let start ← position
  let second ← nextByte
  match table.extended? lead second with
  | some found => return found
  | none => throw ⟨start, .unknownSecondary lead second⟩

theorem recognizes_secondEntry
    {table : Table} (htable : table.Coherent) (lead : UInt8) :
    (secondEntry table lead).Recognizes fun bytes found =>
      found ∈ table.entries ∧
        ∃ second, found.opcode = .extended lead second ∧ bytes = [second] := by
  refine Recognizes.position_then fun start =>
    (recognizes_nextByte.bind fun second =>
      recognizes_lookup (table.extended? lead second) ?_ ?_).congr ?_
  · intro found hfound
    rw [hfound]
  · intro hnone
    rw [hnone]
    exact fun input => ⟨⟨start, .unknownSecondary lead second⟩, rfl⟩
  · intro bytes found
    simp only [htable.extended?_eq_some_iff]
    constructor
    · rintro ⟨second, first, rest, rfl, ⟨rfl, hmem, hopcode⟩, rfl⟩
      exact ⟨hmem, second, hopcode, rfl⟩
    · rintro ⟨hmem, second, hopcode, rfl⟩
      exact ⟨second, [second], [], rfl, ⟨rfl, hmem, hopcode⟩, rfl⟩

theorem recognizes_slot
    {table : Table} (htable : table.Coherent) (start : Nat) (lead : UInt8) :
    Recognizes
      (match table.slot? lead with
        | none => throw ⟨start, .unknownOpcode lead⟩
        | some (.single found) => return found
        | some .extended => secondEntry table lead)
      fun bytes found => found ∈ table.entries ∧ found.opcode.lead = lead ∧
        bytes = found.opcode.second?.toList := by
  cases hslot : table.slot? lead with
  | none =>
      have hnone := Table.slot?_eq_none_iff.mp hslot
      intro input found after
      constructor
      · intro hread
        cases hread
      · rintro ⟨bytes, ⟨hmem, hlead, _⟩, _⟩
        exact absurd hlead (hnone found hmem)
  | some slot =>
      cases slot with
      | single owner =>
          obtain ⟨howner, hopcode⟩ := htable.slot?_eq_single_iff.mp hslot
          refine (recognizes_pure owner).congr ?_
          intro bytes found
          constructor
          · rintro ⟨rfl, rfl⟩
            rw [hopcode]
            exact ⟨howner, rfl, rfl⟩
          · rintro ⟨hmem, hlead, rfl⟩
            have heq : owner = found := by
              apply htable.eq_of_single howner hmem
              · rw [hopcode, hlead]
                rfl
              · rw [hopcode]
                rfl
            rw [← heq, hopcode]
            exact ⟨rfl, rfl⟩
      | extended =>
          obtain ⟨owner, howner, hlead, hlonger⟩ :=
            htable.slot?_eq_extended_iff.mp hslot
          refine (recognizes_secondEntry htable lead).congr ?_
          intro bytes found
          constructor
          · rintro ⟨hmem, second, hopcode, rfl⟩
            rw [hopcode]
            exact ⟨hmem, rfl, rfl⟩
          · rintro ⟨hmem, hfound, rfl⟩
            refine ⟨hmem, ?_⟩
            rcases hopcode : found.opcode with ⟨byte, second?⟩
            rw [hopcode] at hfound
            obtain rfl : byte = lead := hfound
            cases second? with
            | none =>
                have heq : found = owner := by
                  apply htable.eq_of_single hmem howner
                  · rw [hopcode, hlead]
                  · rw [hopcode]
                exact absurd (by rw [← heq, hopcode]) hlonger
            | some second => exact ⟨second, rfl, rfl⟩

theorem recognizes_entry {table : Table} (htable : table.Coherent) :
    (entry table).Recognizes fun bytes found =>
      found ∈ table.entries ∧ bytes = found.opcode.bytes := by
  refine Recognizes.position_then fun start =>
    (recognizes_nextByte.bind (recognizes_slot htable start)).congr ?_
  intro bytes found
  constructor
  · rintro ⟨lead, first, second, rfl, ⟨hmem, rfl, rfl⟩, rfl⟩
    exact ⟨hmem, rfl⟩
  · rintro ⟨hmem, rfl⟩
    exact ⟨_, _, _, rfl, ⟨hmem, rfl, rfl⟩, rfl⟩

end Reader

namespace Decoder

/-! ## Operands -/

section Operands

variable {decoder : Decoder} {block : Nat → Decoding Input Block} {bound : Nat}

/-- A way to read blocks that serves a decoder on inputs of bounded length. -/
def ReadsBlocks (decoder : Decoder) (block : Nat → Decoding Input Block)
    (bound : Nat) : Prop :=
  ∀ level, Recognizes bound (block level) fun bytes content =>
    Derives decoder.table decoder.depthLimit level bytes (.block content)

theorem ReadsBlocks.nestedBlock
    (hblock : decoder.ReadsBlocks block bound) (level : Nat) :
    Recognizes bound (decoder.nestedBlock block level) fun bytes content =>
      level + 1 ≤ decoder.depthLimit ∧
        Derives decoder.table decoder.depthLimit (level + 1) bytes
          (.block content) := by
  unfold Decoder.nestedBlock
  split
  next hlevel =>
    refine (hblock (level + 1)).congr ?_
    intro bytes content
    exact (and_iff_right hlevel).symm
  next hlevel =>
    refine (recognizes_failHere bound _).congr ?_
    intro bytes content
    rw [iff_false_left not_false]
    exact fun hboth => hlevel hboth.1

theorem ReadsBlocks.secondArm
    (hblock : decoder.ReadsBlocks block bound) (level : Nat) (first : Block) :
    Recognizes bound (secondArm block level first)
      (SecondArm decoder.table decoder.depthLimit level first) := by
  unfold Decoder.secondArm SecondArm
  cases first.closedByElse with
  | false => exact recognizes_pure bound []
  | true =>
      have hclosed (second : Block) :
          Recognizes bound
            (if second.closedByElse then read (Reader.failHere .secondElse)
            else return second.instructions)
            fun bytes body => bytes = [] ∧ second = ⟨body, false⟩ := by
        rcases second with ⟨items, closedByElse⟩
        cases closedByElse with
        | true =>
            refine (recognizes_failHere bound _).congr ?_
            simp
        | false =>
            refine (recognizes_pure bound items).congr ?_
            simp [eq_comm]
      refine ((hblock (level + 1)).bind hclosed).congr ?_
      intro bytes body
      constructor
      · rintro ⟨second, arm, rest, harm, ⟨rfl, rfl⟩, rfl⟩
        rw [List.append_nil]
        exact harm
      · intro harm
        exact ⟨_, bytes, [], harm, ⟨rfl, rfl⟩, (List.append_nil _).symm⟩

theorem ReadsBlocks.field
    (hblock : decoder.ReadsBlocks block bound) (level : Nat) (field : Field) :
    Recognizes bound (decoder.field block level field) fun bytes value =>
      Derives decoder.table decoder.depthLimit level bytes
        (.field field value) := by
  by_cases hfield : field = .instructions
  · subst hfield
    refine ((hblock.nestedBlock level).map fun content =>
      Operand.instructions content.instructions).congr ?_
    exact fun bytes value => derives_nested_iff.symm
  · refine (decoder.recognizes_scalar block level bound hfield).congr ?_
    exact fun bytes value => (derives_scalar_iff hfield).symm

theorem ReadsBlocks.fields
    (hblock : decoder.ReadsBlocks block bound) (level : Nat)
    (fields : List Field) :
    Recognizes bound (fields.mapM (decoder.field block level))
      fun bytes values => Derives decoder.table decoder.depthLimit level bytes
        (.operands (.inOrder fields) values) := by
  induction fields with
  | nil =>
      rw [List.mapM_nil]
      refine (recognizes_pure bound []).congr ?_
      exact fun bytes values => derives_noFields_iff.symm
  | cons field fields ih =>
      rw [List.mapM_cons]
      refine ((hblock.field level field).bind fun value =>
        ih.map (value :: ·)).congr ?_
      exact fun bytes values => derives_nextField_iff.symm

theorem ReadsBlocks.operands
    (hblock : decoder.ReadsBlocks block bound) (level : Nat)
    (layout : Layout) :
    Recognizes bound (decoder.operands block level layout) fun bytes values =>
      Derives decoder.table decoder.depthLimit level bytes
        (.operands layout values) := by
  cases layout with
  | inOrder fields => exact hblock.fields level fields
  | special directive =>
      cases directive with
      | conditional =>
          refine ((recognizes_read Reader.recognizes_blockType bound).bind
            fun type => (hblock.nestedBlock level).bind fun first =>
              (hblock.secondArm level first).map fun second =>
                [Operand.blockType type, .instructions first.instructions,
                  .instructions second]).congr ?_
          exact fun bytes values => derives_conditional_iff.symm
      | branchTable =>
          refine ((recognizes_read Reader.recognizes_branchLabels bound).map
            fun targets => [Operand.labels targets]).congr ?_
          exact fun bytes values => derives_branchTable_iff.symm
  | unknown rule =>
      refine (recognizes_failHere bound _).congr fun bytes values => iff_of_false id ?_
      intro hvalues
      cases hvalues

theorem ReadsBlocks.instruction
    (hblock : decoder.ReadsBlocks block bound) (htable : decoder.table.Coherent)
    (level : Nat) :
    Recognizes (bound + 1) (decoder.instruction block level) fun bytes item =>
      Derives decoder.table decoder.depthLimit level bytes
        (.instruction item) := by
  have hrest (entry : Entry) :
      Recognizes bound
        (do
          let operands ← decoder.operands block level entry.layout
          let item := Instruction.mk entry.type operands
          decoder.tell (.instruction level item)
          return item)
        fun bytes item => ∃ values,
          Derives decoder.table decoder.depthLimit level bytes
            (.operands entry.layout values) ∧ item = ⟨entry.type, values⟩ := by
    refine ((hblock.operands level entry.layout).bind fun values =>
      (recognizes_pure bound (Instruction.mk entry.type values)).tell_then
        decoder (.instruction level ⟨entry.type, values⟩)).congr ?_
    intro bytes item
    constructor
    · rintro ⟨values, first, second, hvalues, ⟨rfl, rfl⟩, rfl⟩
      exact ⟨values, by rwa [List.append_nil], rfl⟩
    · rintro ⟨values, hvalues, rfl⟩
      exact ⟨values, bytes, [], hvalues, ⟨rfl, rfl⟩, (List.append_nil _).symm⟩
  refine ((recognizes_read (Reader.recognizes_entry htable) (bound + 1)).bind_within
    ?_ hrest).congr ?_
  -- the opcode takes a byte, so the blocks inside have less left than the whole
  · rintro bytes entry ⟨_, rfl⟩
    have hopcode := List.length_pos_iff.mpr entry.opcode.bytes_ne_nil
    omega
  · intro bytes item
    rw [derives_instruction_iff]
    constructor
    · rintro ⟨entry, _, rest, ⟨hentry, rfl⟩, ⟨values, hvalues, rfl⟩, rfl⟩
      exact ⟨entry, hentry, rest, values, hvalues, rfl, rfl⟩
    · rintro ⟨entry, hentry, rest, values, hvalues, rfl, rfl⟩
      exact ⟨entry, _, rest, ⟨hentry, rfl⟩, ⟨values, hvalues, rfl⟩, rfl⟩

end Operands

/-! ## Blocks -/

variable {decoder : Decoder}

theorem recognizes_block
    (htable : decoder.table.Coherent) (budget level : Nat)
    (earlier : List Instruction) :
    Recognizes budget (decoder.block budget level earlier) fun bytes content =>
      ∃ tail : Block, Derives decoder.table decoder.depthLimit level bytes
          (.block tail) ∧
        content = ⟨earlier.reverse ++ tail.instructions, tail.closedByElse⟩ := by
  -- Every instruction uses up one of the budget and at least one byte, so that
  -- a budget of as many instructions as there are bytes does not run out.
  induction budget generalizing level earlier with
  | zero =>
      refine (recognizes_failHere 0 _).congr_within ?_
      rintro bytes content hlength
      rw [iff_false_left not_false]
      rintro ⟨tail, htail, _⟩
      have hpos := htail.block_length_pos
      omega
  | succ budget ih =>
      have hblocks :
          decoder.ReadsBlocks (fun inner => decoder.block budget inner [])
            budget := by
        intro inner
        refine (ih inner []).congr ?_
        intro bytes content
        simp
      have hrest (item : Instruction) :
          Recognizes budget
            (if item.isTerminator then do
              let content : Block := ⟨earlier.reverse, item.type = .otherwise⟩
              decoder.tell (.block level content)
              return content
            else decoder.block budget level (item :: earlier))
            fun bytes content => ∃ tail : Block,
              (if item.isTerminator then
                bytes = [] ∧ tail = ⟨[], item.type = .otherwise⟩
              else ∃ more : Block,
                Derives decoder.table decoder.depthLimit level bytes
                  (.block more) ∧
                tail = ⟨item :: more.instructions, more.closedByElse⟩) ∧
              content =
                ⟨earlier.reverse ++ tail.instructions, tail.closedByElse⟩ := by
        split
        next hterminator =>
          refine ((recognizes_pure budget _).tell_then decoder _).congr ?_
          intro bytes content
          simp
        next hinner =>
          refine (ih level (item :: earlier)).congr ?_
          intro bytes content
          simp
      refine ((hblocks.instruction htable level).bind_within ?_ hrest).congr ?_
      · intro bytes item hitem
        have hpos := hitem.instruction_length_pos
        omega
      · intro bytes content
        constructor
        · rintro ⟨item, first, second, hitem, ⟨tail, htail, rfl⟩, rfl⟩
          exact ⟨tail, derives_block_iff.mpr
            ⟨item, first, second, hitem, htail, rfl⟩, rfl⟩
        · rintro ⟨tail, hcontent, rfl⟩
          obtain ⟨item, first, second, hitem, htail, rfl⟩ :=
            derives_block_iff.mp hcontent
          exact ⟨item, first, second, hitem, ⟨tail, htail, rfl⟩, rfl⟩

theorem readsBlocks
    (htable : decoder.table.Coherent) (budget : Nat) :
    decoder.ReadsBlocks (fun level => decoder.block budget level []) budget := by
  intro level
  refine (recognizes_block htable budget level []).congr ?_
  intro bytes content
  simp

/-! ## Whole runs -/

/-- A run ends like its work, which starts with some events told already. -/
theorem run_eq_work
    {α : Type} (decoder : Decoder) (work : Decoding Input α) (input : Input) :
    ∃ told events, decoder.run work input =
      ⟨(work ⟨input, told⟩).1, (work ⟨input, told⟩).2.input, events⟩ := by
  obtain ⟨told, htold⟩ :=
    tell_eq_ok decoder (.started input.position) ⟨input, #[]⟩
  have hreported :
      ∃ events, decoder.reported work ⟨input, #[]⟩ =
        ((work ⟨input, told⟩).1, ⟨(work ⟨input, told⟩).2.input, events⟩) := by
    have hread : read Reader.position ⟨input, #[]⟩ =
        (.ok input.position, ⟨input, #[]⟩) := rfl
    simp only [reported, bind_apply, hread, htold, tryCatch_apply]
    rcases work ⟨input, told⟩ with ⟨result, middle⟩
    cases result with
    | ok value => exact ⟨middle.events, rfl⟩
    | error error =>
        obtain ⟨more, hmore⟩ := tellFailure_eq_ok decoder error middle
        simp only [hmore]
        exact ⟨more, rfl⟩
  obtain ⟨events, hevents⟩ := hreported
  refine ⟨told, events.toList, ?_⟩
  unfold run
  rw [hevents]

theorem run_eq_ok_iff
    {α : Type} {work : Decoding Input α} {form : List UInt8 → α → Prop}
    {input : Input} {bound : Nat} (hwork : Recognizes bound work form)
    (hbound : input.remaining ≤ bound) {value : α} {after : Input} :
    (decoder.run work input).result = .ok value ∧
        (decoder.run work input).input = after ↔
      ∃ bytes, form bytes value ∧ input.Consumed bytes after := by
  obtain ⟨told, events, hrun⟩ := decoder.run_eq_work work input
  rw [hrun, ← hwork ⟨input, told⟩ hbound]
  rcases work ⟨input, told⟩ with ⟨result, middle, told⟩
  simp

theorem decodeOne_eq_ok_iff
    (htable : decoder.table.Coherent) {input after : Input} {item : Instruction} :
    (decoder.decodeOne input).result = .ok item ∧
        (decoder.decodeOne input).input = after ↔
      ∃ bytes, Derives decoder.table decoder.depthLimit 0 bytes
        (.instruction item) ∧ input.Consumed bytes after :=
  run_eq_ok_iff ((readsBlocks htable input.remaining).instruction htable 0)
    (Nat.le_succ _)

theorem decodeBlock_eq_ok_iff
    (htable : decoder.table.Coherent) {input after : Input} {content : Block} :
    (decoder.decodeBlock input).result = .ok content ∧
        (decoder.decodeBlock input).input = after ↔
      ∃ bytes, Derives decoder.table decoder.depthLimit 0 bytes
        (.block content) ∧ input.Consumed bytes after :=
  run_eq_ok_iff (readsBlocks htable input.remaining 0) le_rfl

end Decoder

/-! ## Buffers -/

namespace Buffer

/-- The bytes of a buffer from one offset up to another one. -/
def slice (buffer : Buffer) (start stop : Nat) : List UInt8 :=
  buffer.bytes.extract start stop

/-- What is consumed from a buffer is the slice up to where the input stops. -/
theorem exists_consumed_iff
    {buffer : Buffer} {start stop : Nat} {form : List UInt8 → Prop} :
    (start ≤ buffer.size ∧
      ∃ after : Input, (∃ bytes, form bytes ∧
        Input.Consumed ⟨.keeps, start, buffer.bytes.drop start⟩ bytes after) ∧
        after.position = stop) ↔
      start ≤ stop ∧ stop ≤ buffer.size ∧ form (buffer.slice start stop) := by
  unfold slice size
  rw [List.extract_eq_take_drop]
  constructor
  · rintro ⟨hstart, after, ⟨bytes, hform, hbytes⟩, rfl⟩
    have hposition : after.position = start + bytes.length := hbytes.position
    have hrest : buffer.bytes.drop start = bytes ++ after.rest := hbytes.rest
    have hlength := congrArg List.length hrest
    rw [List.length_drop, List.length_append] at hlength
    rw [hrest, hposition, Nat.add_sub_cancel_left, List.take_left]
    exact ⟨by omega, by omega, hform⟩
  · rintro ⟨hstop, hsize, hform⟩
    refine ⟨hstop.trans hsize, _, ⟨_, hform,
      Input.consumed_of_rest (List.take_append_drop (stop - start) _).symm⟩, ?_⟩
    rw [List.length_take, List.length_drop]
    simp only
    omega

theorem exists_outcome_iff
    {α : Type} {decode : Input → Outcome Input α}
    {iterate : BufferIterator → Outcome BufferIterator α} {value : α}
    {form : List UInt8 → Prop}
    (hdecode : ∀ {input after : Input},
      (decode input).result = .ok value ∧ (decode input).input = after ↔
        ∃ bytes, form bytes ∧ input.Consumed bytes after)
    (hagree : BufferIterator.Agree iterate decode) {buffer : Buffer} {start stop : Nat} :
    (∃ iterator, buffer.iterator start = .ok iterator ∧
      (iterate iterator).result = .ok value ∧
      (iterate iterator).input.position = stop) ↔
      start ≤ stop ∧ stop ≤ buffer.size ∧ form (buffer.slice start stop) := by
  rw [exists_iterate_iff hagree, ← exists_consumed_iff]
  simp only [← hdecode]
  simp

end Buffer

/-! ## Acceptance -/

/-- Decoding from one offset of a buffer to another one succeeds exactly if the
slice between them is a phrase of the table. -/
theorem decodes_iff_derives
    (decoder : Decoder) (htable : decoder.table.Accepted) (buffer : Buffer)
    (start stop : Nat) :
    (∀ item,
      (∃ iterator, buffer.iterator start = .ok iterator ∧
        (decoder.decodeOne iterator).result = .ok item ∧
        (decoder.decodeOne iterator).input.position = stop) ↔
      start ≤ stop ∧ stop ≤ buffer.size ∧
        Derives decoder.table decoder.depthLimit 0 (buffer.slice start stop)
          (.instruction item)) ∧
    ∀ content,
      (∃ iterator, buffer.iterator start = .ok iterator ∧
        (decoder.decodeBlock iterator).result = .ok content ∧
        (decoder.decodeBlock iterator).input.position = stop) ↔
      start ≤ stop ∧ stop ≤ buffer.size ∧
        Derives decoder.table decoder.depthLimit 0 (buffer.slice start stop)
          (.block content) := by
  have hcoherent := htable.wellFormed.toCoherent
  constructor
  · intro item
    exact Buffer.exists_outcome_iff (Decoder.decodeOne_eq_ok_iff hcoherent)
      (BufferIterator.agree_decodeOne decoder)
  · intro content
    exact Buffer.exists_outcome_iff (Decoder.decodeBlock_eq_ok_iff hcoherent)
      (BufferIterator.agree_decodeBlock decoder)

/-- Both arms of a conditional in the middle of a buffer. -/
theorem decodes_arms :
    Table.sample.Accepted ∧
      Derives Table.sample 1 0 [0x04, 0x40, 0x05, 0x41, 0x7F, 0x0B]
        (.instruction ⟨.conditional, [.blockType none, .instructions [],
          .instructions [⟨⟨61⟩, [.i32 (-1)]⟩]]⟩) := by
  refine ⟨Table.accepted_sample, ?_⟩
  have hderives :=
    ((decodes_iff_derives ⟨Table.sample, 1, false⟩ Table.accepted_sample
      ⟨[0xFF, 0x04, 0x40, 0x05, 0x41, 0x7F, 0x0B, 0x0B]⟩ 1 7).1
        ⟨.conditional, [.blockType none, .instructions [],
          .instructions [⟨⟨61⟩, [.i32 (-1)]⟩]]⟩).mp
      ⟨_, rfl, by cbv, by cbv⟩
  exact hderives.2.2

end Disassembly
