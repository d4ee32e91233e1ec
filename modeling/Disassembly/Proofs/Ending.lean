import Disassembly.Proofs.Delimiting

/-!
# Tables that end blocks

A block ends with a terminator.  A terminator that holds a block of its own ends
nothing before that block has ended, so that under a table without any other
terminator no bytes at all are a block.  One terminator that holds no block is
enough for a block under every limit, since every other field can be encoded.

A table is accepted as soon as it maps the instruction that ends blocks,
whatever the fields of this instruction are.  There is thus an accepted table
under which no block ever ends.
-/

namespace Disassembly

/-- Some terminator of the table holds no block. -/
def Table.EndsBlocks (table : Table) : Prop :=
  ∃ entry ∈ table.entries, entry.type.isTerminator ∧
    .instructions ∉ entry.layout.fields

instance (table : Table) : Decidable table.EndsBlocks := by
  unfold Table.EndsBlocks
  infer_instance

namespace Grammar

variable {table : Table} {limit level : Nat} {bytes : List UInt8}

/-! ## Blocks need a terminator without blocks -/

/-- A phrase that is a terminator or holds a block. -/
def Phrase.NeedsEnd : Phrase → Prop
  | .instruction item => item.isTerminator
  | .operands layout _ => .instructions ∈ layout.fields
  | .field kind _ => kind = .instructions
  | .block _ => True

theorem Derives.endsBlocks {phrase : Phrase}
    (hphrase : Derives table limit level bytes phrase) (hneeds : phrase.NeedsEnd) :
    table.EndsBlocks := by
  induction hphrase with
  | @instruction _ entry _ _ hentry _ ih =>
      -- A terminator that holds a block needs another one inside that block.
      by_cases hflat : .instructions ∈ entry.layout.fields
      · exact ih hflat
      · exact ⟨entry, hentry, hneeds, hflat⟩
  | noFields => cases hneeds
  | nextField _ _ hfirst hmore =>
      rcases List.mem_cons.mp hneeds with hfield | hfields
      · exact hfirst hfield.symm
      · exact hmore hfields
  | oneArm => cases hneeds
  | twoArms => cases hneeds
  | branchTable => cases hneeds
  | scalar hvalue =>
      cases hneeds
      cases hvalue
  | nested _ _ ih => exact ih trivial
  | close _ hterminator ih => exact ih hterminator
  | next _ _ _ _ ih => exact ih trivial

/-! ## A terminator without blocks is enough -/

theorem form_zero {most : Nat} (hmost : 1 ≤ most) : Leb128.Form most [0] :=
  ⟨.last (by decide), hmost⟩

theorem exists_scalar {field : Field} (hknown : field ∈ Field.all)
    (hfield : field ≠ .instructions) : ∃ bytes value, Scalar field bytes value := by
  cases field with
  | u32 => exact ⟨_, _, .u32 (form_zero (by decide))⟩
  | i32 => exact ⟨_, _, .i32 (form_zero (by decide))⟩
  | i64 => exact ⟨_, _, .i64 (form_zero (by decide))⟩
  | f32 => exact ⟨_, _, .f32 0⟩
  | f64 => exact ⟨_, _, .f64 0⟩
  | index space => exact ⟨_, _, .index space (form_zero (by decide))⟩
  | blockType => exact ⟨_, _, .noResult⟩
  | referenceType => exact ⟨_, _, .referenceType (.inl rfl)⟩
  | valueTypes =>
      exact ⟨_, _, @Scalar.valueTypes [0] [] (form_zero (by decide)) rfl (by simp)⟩
  | instructions => exact absurd rfl hfield
  | unknown kind => exact absurd hknown (Field.unknown_notMem_all kind)

theorem exists_operands (table : Table) (limit level : Nat) {fields : List Field}
    (hknown : ∀ field ∈ fields, field ∈ Field.all) (hfields : .instructions ∉ fields) :
    ∃ bytes values, Derives table limit level bytes (.operands (.inOrder fields) values) := by
  induction fields with
  | nil => exact ⟨_, _, .noFields⟩
  | cons field fields ih =>
      rw [List.mem_cons, not_or] at hfields
      obtain ⟨hfirst, hmore⟩ := List.forall_mem_cons.mp hknown
      obtain ⟨first, value, hvalue⟩ := exists_scalar hfirst (Ne.symm hfields.1)
      obtain ⟨second, values, hvalues⟩ := ih hmore hfields.2
      exact ⟨_, _, .nextField (.scalar hvalue) hvalues⟩

theorem exists_block (htable : table.Coherent) (hends : table.EndsBlocks)
    (limit level : Nat) :
    ∃ bytes content, Derives table limit level bytes (.block content) := by
  obtain ⟨entry, hentry, hterminator, hflat⟩ := hends
  obtain ⟨fields, hlayout⟩ := htable.exists_fields_of_isTerminator hentry hterminator
  have hknown := htable.known entry hentry
  rw [hlayout] at hknown hflat
  obtain ⟨bytes, values, hvalues⟩ := exists_operands table limit level hknown hflat
  rw [← hlayout] at hvalues
  exact ⟨_, _, .close (.instruction hentry hvalues) hterminator⟩

end Grammar

/-! ## Decoding whole buffers -/

variable {decoder : Decoder}

theorem Buffer.slice_whole (buffer : Buffer) : buffer.slice 0 buffer.size = buffer.bytes := by
  simp [Buffer.slice, Buffer.size]

theorem Decoder.endsBlocks_of_decodes
    (htable : decoder.table.Accepted) {buffer : Buffer} {content : Block} {stop : Nat}
    (hdecodes : buffer.Decodes decoder.decodeBlock 0 (.ok content) stop) :
    decoder.table.EndsBlocks := by
  have hderives :=
    ((decodes_iff_derives decoder htable buffer 0 stop).2 content).mp hdecodes
  exact hderives.2.2.endsBlocks trivial

theorem Decoder.exists_decodes
    (htable : decoder.table.Accepted) (hends : decoder.table.EndsBlocks) :
    ∃ buffer content,
      Buffer.Decodes buffer decoder.decodeBlock 0 (.ok content) buffer.size := by
  obtain ⟨bytes, content, hcontent⟩ :=
    Grammar.exists_block htable.wellFormed.toCoherent hends decoder.depthLimit 0
  refine ⟨⟨bytes⟩, content, ?_⟩
  apply ((decodes_iff_derives decoder htable ⟨bytes⟩ 0 _).2 content).mpr
  refine ⟨Nat.zero_le _, le_rfl, ?_⟩
  rw [Buffer.slice_whole]
  exact hcontent

/-- Some bytes are a block exactly if the table has a terminator without blocks, under
every limit. -/
theorem some_block_ends_iff
    (decoder : Decoder) (htable : decoder.table.Accepted) :
    (∃ buffer content,
      Buffer.Decodes buffer decoder.decodeBlock 0 (.ok content) buffer.size) ↔
      decoder.table.EndsBlocks := by
  constructor
  · rintro ⟨buffer, content, hdecodes⟩
    exact Decoder.endsBlocks_of_decodes htable hdecodes
  · exact Decoder.exists_decodes htable

theorem sample_blocks_end :
    Table.sample.Accepted ∧ ∃ buffer content, Buffer.Decodes buffer
      (Decoder.decodeBlock { table := Table.sample }) 0 (.ok content) buffer.size :=
  ⟨Table.accepted_sample,
    (some_block_ends_iff { table := Table.sample } Table.accepted_sample).mpr (by decide)⟩

/-- The table of a row whose instruction ends blocks and holds one itself. -/
def Table.endless : Table :=
  ⟨"table", [⟨.single 0x0B, .blockEnd, .inOrder [.instructions]⟩]⟩

/-- An accepted table under which no bytes are a block. -/
theorem endless_blocks :
    Table.ofRows "table" [⟨.single 0x0B, "end", "instr*"⟩] = .ok Table.endless ∧
      ¬ ∃ buffer content, Buffer.Decodes buffer
        (Decoder.decodeBlock { table := Table.endless }) 0 (.ok content) buffer.size := by
  have hrows : Table.ofRows "table" [⟨.single 0x0B, "end", "instr*"⟩] =
      .ok Table.endless := rfl
  refine ⟨hrows, ?_⟩
  rintro ⟨buffer, content, hdecodes⟩
  have hends := Decoder.endsBlocks_of_decodes (.inl ⟨_, _, hrows⟩) hdecodes
  revert hends
  decide

end Disassembly
