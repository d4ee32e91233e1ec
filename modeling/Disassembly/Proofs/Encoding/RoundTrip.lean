import Disassembly.Proofs.Conformance.Decoded
import Disassembly.Proofs.Encoding.Writer
import Disassembly.Proofs.Leb128.Writers

/-!
# Decoding undoes encoding

What is written for a tree is a phrase of the table that stands for the tree.
Since a decoder accepts every phrase, it reads the tree back, whatever stands
before and behind the bytes that were written.

The trees conform to the table, their counts fit into 32 bits, and the table
maps `else` if a second arm asks for it.  The terminators have no operands, or
else nothing could be written for them.
-/

namespace Disassembly

open Grammar Leb128

/-! ## Buffers -/

namespace Buffer

variable (buffer : Buffer)

theorem append_nil : buffer.append [] = buffer := by
  simp [append]

theorem append_append (first second : List UInt8) :
    (buffer.append first).append second = buffer.append (first ++ second) := by
  simp [append]

theorem appendBytes_eq (bytes : List UInt8) :
    buffer.appendBytes bytes = buffer.append bytes := by
  unfold appendBytes
  induction bytes generalizing buffer with
  | nil => exact buffer.append_nil.symm
  | cons byte bytes ih =>
      rw [List.foldl_cons, ih, appendByte, append_append]
      rfl

theorem foldl_appendU32_eq (values : List UInt32) :
    values.foldl appendU32 buffer =
      buffer.append
        (values.map fun value => writeUnsigned value.toNat).flatten := by
  induction values generalizing buffer with
  | nil => exact buffer.append_nil.symm
  | cons value values ih =>
      rw [List.foldl_cons, ih, appendU32, append_append]
      rfl

theorem appendOpcode_eq
    {table : Table} {type : InstructionType} {entry : Entry}
    (hentry : table.entryOf? type = some entry) :
    appendOpcode table buffer type = buffer.append entry.opcode.bytes := by
  unfold appendOpcode
  rw [hentry]
  exact buffer.appendBytes_eq _

theorem slice_append (bytes after : List UInt8) :
    ((buffer.append bytes).append after).slice buffer.size
      (buffer.append bytes).size = bytes := by
  simp [slice, append, size, List.extract_eq_take_drop]

end Buffer

/-! ## Trees that can be written -/

/-- The length of a vector that an operand holds fits into its count. -/
def Operand.CountFits : Operand → Prop
  | .valueTypes types => types.length < 2 ^ 32
  | .labels targets => targets.length ≤ 2 ^ 32
  | _ => True

/-- What is needed of an instruction to write it. -/
structure Instruction.Encodable (table : Table) (item : Instruction) : Prop where
  shaped : item.Shaped table
  counts : ∀ operand ∈ item.operands, operand.CountFits
  elseMapped : item.type = .conditional → ∀ result body arm,
    item.operands = [result, body, .instructions arm] → arm ≠ [] →
      ∃ entry, table.entryOf? .otherwise = some entry

/-- The terminators of a table have no operands. -/
def Table.PlainTerminators (table : Table) : Prop :=
  ∀ type entry, type.isTerminator → table.entryOf? type = some entry →
    entry.layout = .inOrder []

/-! ## Scalars -/

theorem Grammar.scalar_encoded
    {table : Table} {field : Field} {operand : Operand}
    (hfits : field.Fits operand) (hcount : operand.CountFits)
    (hfield : field ≠ .instructions) (buffer : Buffer) :
    ∃ bytes, Scalar field bytes operand ∧
      operand.encode table buffer = buffer.append bytes := by
  cases hfits with
  | u32 value =>
      have hscalar := Scalar.u32 (form_u32 value)
      rw [groupSum_writeUnsigned, UInt32.ofNat_toNat] at hscalar
      exact ⟨_, hscalar, rfl⟩
  | i32 value =>
      have hscalar := Scalar.i32 (form_i32 value)
      rw [signedSum_writeSigned, Int32.ofInt_toInt] at hscalar
      refine ⟨_, hscalar, ?_⟩
      simp only [Operand.encode, Buffer.appendI64, Int32.toInt_toInt64]
  | i64 value =>
      have hscalar := Scalar.i64 (form_i64 value)
      rw [signedSum_writeSigned, Int64.ofInt_toInt] at hscalar
      exact ⟨_, hscalar, rfl⟩
  | f32 bits => exact ⟨_, .f32 bits, buffer.appendBytes_eq _⟩
  | f64 bits => exact ⟨_, .f64 bits, buffer.appendBytes_eq _⟩
  | index space hvalue =>
      rename_i value
      have hscalar := Scalar.index space (form_u32 value.toUInt32)
      have hsame : value.toUInt32.toUInt64 = value := by
        apply UInt64.toNat_inj.mp
        rw [UInt32.toNat_toUInt64, UInt64.toNat_toUInt32]
        exact Nat.mod_eq_of_lt hvalue
      rw [groupSum_writeUnsigned, UInt32.ofNat_toNat, hsame] at hscalar
      exact ⟨_, hscalar, rfl⟩
  | blockType htype =>
      rename_i type
      refine ⟨[type.byte], ?_, rfl⟩
      cases type with
      | none => exact .noResult
      | some result => exact .result (htype result rfl)
  | referenceType htype => exact ⟨_, .referenceType htype, rfl⟩
  | valueTypes htypes =>
      rename_i types
      refine ⟨_, .valueTypes (form_u32 (UInt32.ofNat types.length)) ?_ htypes, ?_⟩
      · have hlength : types.length < 2 ^ 32 := hcount
        rw [groupSum_writeUnsigned, UInt32.toNat_ofNat_of_lt' hlength,
          Nat.mod_eq_of_lt hlength]
      · simp only [Operand.encode, Buffer.appendBytes_eq, Buffer.appendU32,
          Buffer.append_append]
  | instructions => exact absurd rfl hfield

theorem Grammar.labels_encoded
    {table : Table} {targets : List UInt32} (htargets : targets ≠ [])
    (hcount : targets.length ≤ 2 ^ 32) (buffer : Buffer) :
    ∃ bytes, Labels bytes targets ∧
      (Operand.labels targets).encode table buffer = buffer.append bytes := by
  have hpositive := List.length_pos_iff.mpr htargets
  have hfits : targets.length - 1 < 2 ^ 32 := by omega
  have hlabels :
      Labels
        (writeUnsigned (UInt32.ofNat (targets.length - 1)).toNat ++
          (targets.map fun target => writeUnsigned target.toNat).flatten)
        ((targets.map fun target => writeUnsigned target.toNat).map fun piece =>
          UInt32.ofNat (groupSum piece)) := by
    refine .intro (form_u32 _) ?_ ?_
    · rw [groupSum_writeUnsigned, UInt32.toNat_ofNat_of_lt' hfits,
        Nat.mod_eq_of_lt hfits, List.length_map]
      omega
    · intro piece hpiece
      obtain ⟨target, _, rfl⟩ := List.mem_map.mp hpiece
      exact form_u32 target
  have hsame :
      ((targets.map fun target => writeUnsigned target.toNat).map fun piece =>
        UInt32.ofNat (groupSum piece)) = targets := by
    simp [groupSum_writeUnsigned, Function.comp_def]
  rw [hsame] at hlabels
  refine ⟨_, hlabels, ?_⟩
  simp only [Operand.encode, Buffer.foldl_appendU32_eq, Buffer.appendU32,
    Buffer.append_append]

/-! ## Sequences and instructions -/

section Trees

variable {table : Table} {limit level : Nat}

/-- Whatever the buffer holds, an instruction is written as a phrase for it. -/
def Instruction.Written
    (table : Table) (limit level : Nat) (item : Instruction) : Prop :=
  ∀ buffer, ∃ bytes, Derives table limit level bytes (.instruction item) ∧
    item.encode table buffer = buffer.append bytes

def Instruction.AllWritten
    (table : Table) (limit level : Nat) (body : List Instruction) : Prop :=
  ∀ item ∈ body, ¬ item.isTerminator ∧ item.Written table limit level

theorem Grammar.terminator_derives
    (htable : table.Coherent) (hplain : table.PlainTerminators)
    {type : InstructionType} (htype : type.isTerminator) {entry : Entry}
    (hentry : table.entryOf? type = some entry) :
    Derives table limit level entry.opcode.bytes
      (.block ⟨[], type = .otherwise⟩) := by
  obtain ⟨hmem, rfl⟩ := htable.entryOf?_eq_some_iff.mp hentry
  have hlayout := hplain _ entry htype hentry
  have hitem :
      Derives table limit level (entry.opcode.bytes ++ [])
        (.instruction ⟨entry.type, []⟩) := by
    apply Derives.instruction hmem
    rw [hlayout]
    exact .noFields
  rw [List.append_nil] at hitem
  exact .close hitem htype

theorem Grammar.block_written
    (htable : table.Coherent) (hplain : table.PlainTerminators)
    {type : InstructionType} (htype : type.isTerminator) {entry : Entry}
    (hentry : table.entryOf? type = some entry) {body : List Instruction}
    (hbody : Instruction.AllWritten table limit level body) (buffer : Buffer) :
    ∃ bytes, Derives table limit level bytes
        (.block ⟨body, type = .otherwise⟩) ∧
      Buffer.appendOpcode table (Instruction.encodeAll table buffer body) type =
        buffer.append bytes := by
  induction body generalizing buffer with
  | nil =>
      refine ⟨entry.opcode.bytes,
        terminator_derives htable hplain htype hentry, ?_⟩
      rw [Instruction.encodeAll]
      exact buffer.appendOpcode_eq hentry
  | cons item body ih =>
      obtain ⟨hinner, hwritten⟩ := hbody item List.mem_cons_self
      obtain ⟨first, hfirst, hitem⟩ := hwritten buffer
      obtain ⟨second, hsecond, hrest⟩ :=
        ih (fun other hother => hbody other (List.mem_cons_of_mem _ hother))
          (buffer.append first)
      refine ⟨first ++ second, .next hfirst hinner hsecond, ?_⟩
      rw [Instruction.encodeAll, hitem, hrest, Buffer.append_append]

theorem Grammar.field_written
    (htable : table.Coherent) (hplain : table.PlainTerminators)
    {close : Entry} (hclose : table.entryOf? .blockEnd = some close)
    {field : Field} {operand : Operand}
    (hfits : field.Fits operand) (hcount : operand.CountFits)
    (hsequences : ∀ body, .instructions body = operand → level + 1 ≤ limit ∧
      Instruction.AllWritten table limit (level + 1) body)
    (buffer : Buffer) :
    ∃ bytes, Derives table limit level bytes (.field field operand) ∧
      operand.encode table buffer = buffer.append bytes := by
  by_cases hfield : field = .instructions
  · subst hfield
    cases hfits with
    | instructions body =>
        obtain ⟨hlevel, hbody⟩ := hsequences body rfl
        obtain ⟨bytes, hbytes, hwritten⟩ :=
          block_written htable hplain rfl hclose hbody buffer
        refine ⟨bytes, .nested hlevel hbytes, ?_⟩
        rw [Operand.encode]
        exact hwritten
  · obtain ⟨bytes, hscalar, hwritten⟩ := scalar_encoded hfits hcount hfield buffer
    exact ⟨bytes, .scalar hscalar, hwritten⟩

def SequencesWritten
    (table : Table) (limit level : Nat) (operands : List Operand) : Prop :=
  ∀ body, .instructions body ∈ operands →
    level + 1 ≤ limit ∧ Instruction.AllWritten table limit (level + 1) body

theorem Grammar.fields_written
    (htable : table.Coherent) (hplain : table.PlainTerminators)
    {close : Entry} (hclose : table.entryOf? .blockEnd = some close)
    {fields : List Field} {operands : List Operand}
    (hfits : List.Forall₂ Field.Fits fields operands)
    (hcounts : ∀ operand ∈ operands, operand.CountFits)
    (hsequences : SequencesWritten table limit level operands)
    (buffer : Buffer) :
    ∃ bytes, Derives table limit level bytes
        (.operands (.inOrder fields) operands) ∧
      Operand.encodeAll table buffer operands = buffer.append bytes := by
  induction hfits generalizing buffer with
  | nil => exact ⟨[], .noFields, by rw [Operand.encodeAll, buffer.append_nil]⟩
  | cons hfirst _ ih =>
      obtain ⟨first, hfirstDerives, hfirstWritten⟩ :=
        field_written htable hplain hclose hfirst
          (hcounts _ List.mem_cons_self)
          (fun body hbody => hsequences body (hbody ▸ List.mem_cons_self)) buffer
      obtain ⟨second, hsecondDerives, hsecondWritten⟩ :=
        ih (fun operand hmem => hcounts operand (List.mem_cons_of_mem _ hmem))
          (fun body hbody => hsequences body (List.mem_cons_of_mem _ hbody))
          (buffer.append first)
      refine ⟨first ++ second, .nextField hfirstDerives hsecondDerives, ?_⟩
      rw [Operand.encodeAll, hfirstWritten, hsecondWritten, Buffer.append_append]

/-- An empty second arm leaves no trace.  Any other one stands between `else` and
the end. -/
theorem Grammar.conditional_written
    (htable : table.Coherent) (hplain : table.PlainTerminators)
    {close : Entry} (hclose : table.entryOf? .blockEnd = some close)
    {result : BlockType} (hresult : Field.blockType.Fits (.blockType result))
    {body arm : List Instruction} (hlevel : level + 1 ≤ limit)
    (hbody : Instruction.AllWritten table limit (level + 1) body)
    (harm : Instruction.AllWritten table limit (level + 1) arm)
    (helse : arm ≠ [] → ∃ entry, table.entryOf? .otherwise = some entry)
    (buffer : Buffer) :
    ∃ bytes, Derives table limit level bytes
        (.operands (.special .conditional)
          [.blockType result, .instructions body, .instructions arm]) ∧
      Buffer.appendOpcode table
        (Operand.encodeElse table
          (Operand.encodeBody table
            (Operand.encode table buffer (.blockType result))
            (.instructions body)) (.instructions arm)) .blockEnd =
        buffer.append bytes := by
  obtain ⟨head, hhead, hopened⟩ :
      ∃ head, Scalar .blockType head (.blockType result) ∧
        Operand.encode table buffer (.blockType result) = buffer.append head :=
    scalar_encoded hresult trivial (by decide) buffer
  rw [hopened, Operand.encodeBody, Operand.encodeElse]
  by_cases hempty : arm = []
  · subst hempty
    obtain ⟨first, hfirst, hwritten⟩ :=
      block_written htable hplain rfl hclose hbody (buffer.append head)
    refine ⟨head ++ first, .oneArm hhead hlevel hfirst, ?_⟩
    rw [← Buffer.append_append]
    exact hwritten
  · obtain ⟨entry, hentry⟩ := helse hempty
    obtain ⟨first, hfirst, hfirstWritten⟩ :=
      block_written htable hplain rfl hentry hbody (buffer.append head)
    obtain ⟨second, hsecond, hsecondWritten⟩ :=
      block_written htable hplain rfl hclose harm
        ((buffer.append head).append first)
    refine ⟨head ++ (first ++ second), .twoArms hhead hlevel hfirst hsecond, ?_⟩
    rw [if_neg (by simpa using hempty), hfirstWritten, hsecondWritten,
      Buffer.append_append, Buffer.append_append]

theorem Instruction.encode_of_ne
    {type : InstructionType} (htype : type ≠ .conditional)
    (operands : List Operand) (buffer : Buffer) :
    Instruction.encode table buffer ⟨type, operands⟩ =
      Operand.encodeAll table (Buffer.appendOpcode table buffer type) operands := by
  unfold Instruction.encode
  rw [if_neg htype]

theorem Instruction.encode_conditional
    {type : InstructionType} (htype : type = .conditional)
    (result body arm : Operand) (buffer : Buffer) :
    Instruction.encode table buffer ⟨type, [result, body, arm]⟩ =
      Buffer.appendOpcode table
        (Operand.encodeElse table
          (Operand.encodeBody table
            (Operand.encode table (Buffer.appendOpcode table buffer type) result)
            body) arm) .blockEnd := by
  unfold Instruction.encode
  rw [if_pos htype]

theorem Instruction.Encodable.written
    (htable : table.WellFormed) (hplain : table.PlainTerminators)
    {item : Instruction} (hitem : item.Encodable table)
    (hsequences : SequencesWritten table limit level item.operands) :
    item.Written table limit level := by
  have hcoherent := htable.toCoherent
  obtain ⟨close, hcloseMem, hcloseType⟩ := htable.endMapped
  have hclose : table.entryOf? .blockEnd = some close :=
    hcoherent.entryOf?_eq_some_iff.mpr ⟨hcloseMem, hcloseType⟩
  obtain ⟨entry, hentry, hfits⟩ := hitem.shaped.fits
  rcases item with ⟨type, operands⟩
  obtain ⟨hmem, htype⟩ := hcoherent.entryOf?_eq_some_iff.mp hentry
  obtain rfl : entry.type = type := htype
  have hsuited := Entry.misfit?_eq_none_iff.mp (hcoherent.suited entry hmem)
  intro buffer
  have hopcode := buffer.appendOpcode_eq hentry
  suffices hoperands :
      ∃ bytes, Derives table limit level bytes
          (.operands entry.layout operands) ∧
        Instruction.encode table buffer ⟨entry.type, operands⟩ =
          (buffer.append entry.opcode.bytes).append bytes by
    obtain ⟨bytes, hbytes, hwritten⟩ := hoperands
    rw [Buffer.append_append] at hwritten
    exact ⟨entry.opcode.bytes ++ bytes, .instruction hmem hbytes, hwritten⟩
  rw [← hopcode]
  -- The writer asks for the type and the grammar for the layout.  That the entry
  -- is suited makes both agree on what is a conditional.
  generalize hlayout : entry.layout = layout at hfits hsuited
  cases hfits with
  | inOrder hfields =>
      have hother : entry.type ≠ .conditional := by
        intro hconditional
        have hrequired := hsuited.2 _ (by rw [hconditional]; rfl)
        cases hrequired
      rw [encode_of_ne hother]
      exact fields_written hcoherent hplain hclose hfields hitem.counts hsequences _
  | conditional hresult body arm =>
      have hconditional : .conditional = entry.type := hsuited.1 _ rfl
      obtain ⟨hlevel, hbody⟩ := hsequences body (by simp [operands])
      obtain ⟨_, harm⟩ := hsequences arm (by simp [operands])
      have helse := hitem.elseMapped hconditional.symm _ _ arm rfl
      rw [encode_conditional hconditional.symm]
      exact conditional_written hcoherent hplain hclose hresult hlevel hbody harm
        helse _
  | branchTable htargets =>
      have hbranch : .branchTable = entry.type := hsuited.1 _ rfl
      have hother : entry.type ≠ .conditional := by
        rw [← hbranch]
        decide
      obtain ⟨bytes, hlabels, hwritten⟩ :=
        labels_encoded htargets (hitem.counts _ List.mem_cons_self)
          (Buffer.appendOpcode table buffer entry.type)
      refine ⟨bytes, .branchTable hlabels, ?_⟩
      rw [encode_of_ne hother, Operand.encodeAll, Operand.encodeAll]
      exact hwritten

theorem Instruction.Throughout.written
    (htable : table.WellFormed) (hplain : table.PlainTerminators)
    {levels : Nat} {item : Instruction}
    (hitem : item.Throughout (Encodable table) levels)
    (hlevels : level + levels ≤ limit) : item.Written table limit level := by
  -- going down the tree, the level grows as the levels below it get fewer
  refine hitem.induction
    (motive := fun levels inner => ∀ level, level + levels ≤ limit →
      inner.Written table limit level) ?_ level hlevels
  intro levels inner hinner hchildren level hlevels
  apply hinner.written htable hplain
  intro body hbody
  obtain ⟨fewer, rfl, hfewer⟩ := hchildren body hbody
  refine ⟨by omega, ?_⟩
  intro child hchild
  exact ⟨hinner.shaped.closed body hbody child hchild,
    hfewer child hchild (level + 1) (by omega)⟩

end Trees

/-! ## Round trips -/

namespace Buffer

/-- A form is found again between what stood in the buffer and what follows. -/
theorem exists_outcome_of_written
    {α : Type} {decode : Input → Outcome Input α}
    {iterate : BufferIterator → Outcome BufferIterator α} {value : α}
    {form : List UInt8 → Prop}
    (hdecode : ∀ {input after : Input},
      (decode input).result = .ok value ∧ (decode input).input = after ↔
        ∃ bytes, form bytes ∧ input.Consumed bytes after)
    (hagree : BufferIterator.Agree iterate decode)
    {before written : Buffer} (after : List UInt8)
    (hwritten : ∃ bytes, form bytes ∧ written = before.append bytes) :
    ∃ iterator, (written.append after).iterator before.size = .ok iterator ∧
      (iterate iterator).result = .ok value ∧
      (iterate iterator).input.position = written.size := by
  obtain ⟨bytes, hbytes, rfl⟩ := hwritten
  apply (exists_outcome_iff hdecode hagree).mpr
  rw [slice_append]
  refine ⟨?_, ?_, hbytes⟩
  · simp [size, append]
  · simp [size, append]

end Buffer

/-- A tree that was written is read back, and so is a sequence with a terminator
behind it.  The decoder stops behind what was written. -/
theorem decode_encode
    (decoder : Decoder) (htable : decoder.table.Accepted)
    (hplain : decoder.table.PlainTerminators)
    (before : Buffer) (after : List UInt8) :
    (∀ item : Instruction,
      item.Throughout (Instruction.Encodable decoder.table) decoder.depthLimit →
      ∃ iterator,
        ((item.encode decoder.table before).append after).iterator before.size =
          .ok iterator ∧
        (decoder.decodeOne iterator).result = .ok item ∧
        (decoder.decodeOne iterator).input.position =
          (item.encode decoder.table before).size) ∧
    ∀ body type entry, type.isTerminator →
      decoder.table.entryOf? type = some entry →
      (∀ item ∈ body, ¬ item.isTerminator ∧
        item.Throughout (Instruction.Encodable decoder.table)
          decoder.depthLimit) →
      ∃ iterator,
        (((Instruction.encodeAll decoder.table before body).appendOpcode
          decoder.table type).append after).iterator before.size = .ok iterator ∧
        (decoder.decodeBlock iterator).result =
          .ok ⟨body, type = .otherwise⟩ ∧
        (decoder.decodeBlock iterator).input.position =
          ((Instruction.encodeAll decoder.table before body).appendOpcode
            decoder.table type).size := by
  have hwellFormed := htable.wellFormed
  have hcoherent := hwellFormed.toCoherent
  constructor
  · intro item hitem
    have hwritten : item.Written decoder.table decoder.depthLimit 0 :=
      hitem.written hwellFormed hplain (Nat.zero_add _).le
    exact Buffer.exists_outcome_of_written
      (Decoder.decodeOne_eq_ok_iff hcoherent)
      (BufferIterator.agree_decodeOne decoder) after (hwritten before)
  · intro body type entry htype hentry hbody
    have hwritten :
        Instruction.AllWritten decoder.table decoder.depthLimit 0 body := by
      intro item hitem
      obtain ⟨hinner, htree⟩ := hbody item hitem
      exact ⟨hinner, htree.written hwellFormed hplain (Nat.zero_add _).le⟩
    exact Buffer.exists_outcome_of_written
      (Decoder.decodeBlock_eq_ok_iff hcoherent)
      (BufferIterator.agree_decodeBlock decoder) after
      (block_written hcoherent hplain htype hentry hwritten before)

/-- A conditional with a second arm, between two bytes that belong to nothing. -/
theorem decode_encode_second_arm :
    let tree : Instruction := ⟨.conditional, [.blockType (some .f32),
      .instructions [], .instructions [⟨⟨61⟩, [.i32 (-1)]⟩]]⟩
    ∃ iterator,
      ((tree.encode Table.sample ⟨[0xAA]⟩).append [0xBB]).iterator 1 =
        .ok iterator ∧
      (Decoder.decodeOne ⟨Table.sample, 1, false⟩ iterator).result = .ok tree ∧
      (Decoder.decodeOne ⟨Table.sample, 1, false⟩ iterator).input.position =
        (tree.encode Table.sample ⟨[0xAA]⟩).size := by
  intro tree
  have hcoherent := Table.accepted_sample.wellFormed.toCoherent
  have hplain : Table.sample.PlainTerminators := by
    intro type entry htype hentry
    have hcases : type = .otherwise ∨ type = .blockEnd := by
      simpa [InstructionType.isTerminator] using htype
    rcases hcases with rfl | rfl <;> cases hentry <;> rfl
  have hconstant :
      (⟨.single 0x41, ⟨61⟩, .inOrder [.i32]⟩ : Entry) ∈ Table.sample.entries := by
    simp [Table.sample]
  have hconditional :
      (⟨.single 0x04, .conditional, .special .conditional⟩ : Entry) ∈
        Table.sample.entries := by
    simp [Table.sample]
  have hleaf :
      Instruction.Throughout (Instruction.Encodable Table.sample) 0
        ⟨⟨61⟩, [.i32 (-1)]⟩ := by
    refine .of_children ⟨hcoherent.shaped hconstant
      (.inOrder (.cons (.i32 _) .nil)) (by simp), ?_, ?_⟩ ?_
    · simp [Instruction.operands, Operand.CountFits]
    · intro htype
      cases htype
    · simp [Instruction.operands]
  have htree : tree.Throughout (Instruction.Encodable Table.sample) 1 := by
    have hresult : Field.blockType.Fits (.blockType (some .f32)) :=
      .blockType (by simp [ValueType.all])
    refine .of_children ⟨hcoherent.shaped hconditional
      (.conditional hresult _ _) ?_, ?_, ?_⟩ ?_
    · simp [Instruction.isTerminator, Instruction.type,
        InstructionType.isTerminator, InstructionType.otherwise,
        InstructionType.blockEnd]
    · simp [tree, Instruction.operands, Operand.CountFits]
    · intro _ _ _ _ _ _
      exact ⟨_, rfl⟩
    · intro body hbody
      refine ⟨0, rfl, ?_⟩
      intro child hchild
      have hbodies : body = [] ∨ body = [⟨⟨61⟩, [.i32 (-1)]⟩] := by
        simpa [tree, Instruction.operands] using hbody
      rcases hbodies with rfl | rfl
      · cases hchild
      · rw [List.mem_singleton.mp hchild]
        exact hleaf
  exact (decode_encode ⟨Table.sample, 1, false⟩ Table.accepted_sample hplain
    ⟨[0xAA]⟩ [0xBB]).1 tree htree

end Disassembly
