import Disassembly.Proofs.Accuracy
import Disassembly.Proofs.Appending
import Disassembly.Proofs.Table.Describing

/-!
# Encoding what was decoded

A tree has many encodings.  Integers may have groups that add nothing to them or bits
above their width, a block may be closed by `else`, and an empty second arm may be
there or not.  Whatever the decoder has read, the tree can be written again and is
then read as the same tree.

What is written is hardly ever longer than what was read.  The writer closes every
sequence by `end`, so that a sequence that was closed by `else` gets longer where the
opcode of `else` is the shorter one.  This aside, every part of a tree is written in
the fewest bytes, and the second arm of a conditional, which is closed by `end` in any
encoding, pays for the end of a conditional that is written without it.
-/

namespace Disassembly

open Grammar Leb128

/-! ## Decoded trees can be written -/

namespace Grammar

variable {table : Table} {limit level : Nat} {bytes : List UInt8}

/-- An instruction in a sequence that a phrase holds. -/
def Phrase.Holds : Phrase → Instruction → Prop
  | .instruction item, child => ∃ body, .instructions body ∈ item.operands ∧ child ∈ body
  | .operands _ values, child => ∃ body, .instructions body ∈ values ∧ child ∈ body
  | .field _ value, child => ∃ body, .instructions body = value ∧ child ∈ body
  | .block content, child => child ∈ content.instructions

theorem Derives.exists_of_holds
    {phrase : Phrase} (hphrase : Derives table limit level bytes phrase)
    {child : Instruction} (hchild : phrase.Holds child) :
    ∃ deeper piece, Derives table limit deeper piece (.instruction child) := by
  induction hphrase with
  | instruction _ _ ih => exact ih hchild
  | noFields =>
      obtain ⟨body, hbody, _⟩ := hchild
      cases hbody
  | nextField _ _ hfirst hmore =>
      obtain ⟨body, hbody, hchild⟩ := hchild
      rcases List.mem_cons.mp hbody with hbody | hbody
      · exact hfirst ⟨body, hbody, hchild⟩
      · exact hmore ⟨body, hbody, hchild⟩
  | @oneArm _ _ _ _ first _ _ _ hfirst =>
      obtain ⟨body, hbody, hchild⟩ := hchild
      have hbodies : body = first ∨ body = [] := by simpa using hbody
      rcases hbodies with rfl | rfl
      · exact hfirst hchild
      · cases hchild
  | @twoArms _ _ _ _ _ first second _ _ _ _ hfirst hsecond =>
      obtain ⟨body, hbody, hchild⟩ := hchild
      have hbodies : body = first ∨ body = second := by simpa using hbody
      rcases hbodies with rfl | rfl
      · exact hfirst hchild
      · exact hsecond hchild
  | branchTable =>
      obtain ⟨body, hbody, _⟩ := hchild
      simp at hbody
  | scalar hvalue =>
      obtain ⟨body, rfl, _⟩ := hchild
      cases hvalue
  | nested _ _ ih =>
      obtain ⟨body, hbody, hchild⟩ := hchild
      cases hbody
      exact ih hchild
  | close => cases hchild
  | next hitem _ _ _ hcontent =>
      rcases List.mem_cons.mp hchild with rfl | hchild
      · exact ⟨_, _, hitem⟩
      · exact hcontent hchild

/-- Every instruction inside a tree was read from a piece of the bytes. -/
theorem Derives.exists_within
    {item inner : Instruction} (hitem : Derives table limit level bytes (.instruction item))
    {depth : Nat} (hinner : item.Within depth inner) :
    ∃ deeper piece, Derives table limit deeper piece (.instruction inner) := by
  induction hinner generalizing level bytes with
  | root => exact ⟨_, _, hitem⟩
  | nested hbody hchild _ ih =>
      obtain ⟨_, _, hchild⟩ := hitem.exists_of_holds ⟨_, hbody, hchild⟩
      exact ih hchild

/-- The operands that a phrase consists of. -/
def Phrase.values : Phrase → List Operand
  | .instruction item => item.operands
  | .operands _ values => values
  | .field _ value => [value]
  | .block _ => []

theorem Scalar.countFits {field : Field} {value : Operand}
    (hvalue : Scalar field bytes value) : value.CountFits := by
  cases hvalue with
  | valueTypes _ hlength _ =>
      change List.length _ < 2 ^ 32
      rw [hlength]
      exact Nat.mod_lt _ (by decide)
  | _ => exact trivial

theorem Labels.countFits {targets : List UInt32} (htargets : Labels bytes targets) :
    (Operand.labels targets).CountFits := by
  cases htargets with
  | intro _ hlength _ =>
      change List.length _ ≤ 2 ^ 32
      rw [List.length_map, hlength]
      exact Nat.mod_lt _ (by decide)

theorem Derives.countFits
    {phrase : Phrase} (hphrase : Derives table limit level bytes phrase) :
    ∀ value ∈ phrase.values, value.CountFits := by
  induction hphrase with
  | instruction _ _ ih => exact ih
  | nextField _ _ hfirst hmore =>
      rw [Phrase.values, List.forall_mem_cons]
      exact ⟨hfirst _ List.mem_cons_self, hmore⟩
  | oneArm | twoArms => simp [Phrase.values, Operand.CountFits]
  | branchTable htargets => simpa [Phrase.values] using htargets.countFits
  | scalar hvalue => simpa [Phrase.values] using hvalue.countFits
  | nested => simp [Phrase.values, Operand.CountFits]
  | noFields | close | next => simp [Phrase.values]

theorem Derives.elseMapped
    (htable : table.Coherent) {item : Instruction}
    (hitem : Derives table limit level bytes (.instruction item))
    (htype : item.type = .conditional) {result body : Operand} {arm : List Instruction}
    (hoperands : item.operands = [result, body, .instructions arm]) (harm : arm ≠ []) :
    ∃ entry, table.entryOf? .otherwise = some entry := by
  obtain ⟨entry, hentry, rest, values, hvalues, rfl, rfl⟩ :=
    derives_instruction_iff.mp hitem
  have hlayout : entry.layout = .special .conditional :=
    htable.layout_eq_of_required hentry (by rw [show entry.type = _ from htype]; rfl)
  rw [hlayout] at hvalues
  obtain rfl : values = _ := hoperands
  cases hvalues with
  | oneArm => exact absurd rfl harm
  | twoArms _ _ hfirst _ =>
      obtain ⟨otherwise, hmem, hother, _⟩ := hfirst.exists_else rfl
      exact ⟨otherwise, htable.entryOf?_eq_some_iff.mpr ⟨hmem, hother⟩⟩

theorem Derives.encodable
    (htable : table.Coherent) {item : Instruction}
    (hitem : Derives table limit level bytes (.instruction item)) :
    item.Encodable table where
  shaped := Instruction.Throughout.root (hitem.conforms htable)
  counts := hitem.countFits
  elseMapped := fun htype _ _ _ hoperands harm =>
    hitem.elseMapped htable htype hoperands harm

theorem Derives.throughout_encodable
    (htable : table.Coherent) {item : Instruction}
    (hitem : Derives table limit level bytes (.instruction item)) :
    item.Throughout (Instruction.Encodable table) (limit - level) := by
  intro depth inner hinner
  obtain ⟨hdepth, _, hsequences⟩ := hitem.conforms htable depth inner hinner
  obtain ⟨_, _, hderived⟩ := hitem.exists_within hinner
  exact ⟨hdepth, hderived.encodable htable, hsequences⟩

end Grammar

/-! ## Lengths -/

mutual

/-- The sequences of a tree at all depths, apart from the arms of conditionals. -/
def Instruction.sequencesOutsideArms : Instruction → Nat
  | .mk type operands =>
    Operand.sequencesOfAll (if type = .conditional then 0 else 1) operands
  termination_by structural instruction => instruction

/-- The sequences in an operand, where the operand itself counts as `own`. -/
def Operand.sequences (own : Nat) : Operand → Nat
  | .instructions body => Instruction.sequencesOfAll body + own
  | _ => 0
  termination_by structural operand => operand

def Operand.sequencesOfAll (own : Nat) : List Operand → Nat
  | [] => 0
  | operand :: more => Operand.sequences own operand + Operand.sequencesOfAll own more
  termination_by structural operands => operands

def Instruction.sequencesOfAll : List Instruction → Nat
  | [] => 0
  | instruction :: more =>
    Instruction.sequencesOutsideArms instruction + Instruction.sequencesOfAll more
  termination_by structural instructions => instructions

end

namespace Table

/-- The length of the opcode of a type, if the table has one. -/
def opcodeLength (table : Table) (type : InstructionType) : Nat :=
  ((table.entryOf? type).map fun entry => entry.opcode.bytes.length).getD 0

/-- The bytes by which the opcode of `else` is shorter than that of `end`. -/
def elseSaving (table : Table) : Nat :=
  if (table.entryOf? .otherwise).isSome then
    table.opcodeLength .blockEnd - table.opcodeLength .otherwise
  else 0

theorem Coherent.opcodeLength_eq
    {table : Table} (htable : table.Coherent) {entry : Entry}
    (hentry : entry ∈ table.entries) :
    table.opcodeLength entry.type = entry.opcode.bytes.length := by
  unfold opcodeLength
  rw [htable.entryOf?_eq_some_iff.mpr ⟨hentry, rfl⟩]
  rfl

end Table

namespace Buffer

variable (buffer : Buffer)

theorem size_appendBytes (bytes : List UInt8) :
    (buffer.appendBytes bytes).size = buffer.size + bytes.length := by
  rw [appendBytes_eq, size_append]

theorem size_appendU32_le {value : UInt32} {bytes : List UInt8} (hbytes : bytes ≠ [])
    (hvalue : value.toNat = groupSum bytes % 2 ^ 32) :
    (buffer.appendU32 value).size ≤ buffer.size + bytes.length := by
  rw [appendU32, size_append, hvalue]
  exact Nat.add_le_add_left (length_writeUnsigned_groupSum_le hbytes _) _

theorem size_appendI64_le {value : Int64} {bytes : List UInt8} (hbytes : bytes ≠ [])
    {modulus : Nat} (hmodulus : 0 < modulus)
    (hvalue : value.toInt = (signedSum bytes).bmod modulus) :
    (buffer.appendI64 value).size ≤ buffer.size + bytes.length := by
  rw [appendI64, size_append, hvalue]
  exact Nat.add_le_add_left (length_writeSigned_signedSum_le hbytes hmodulus) _

theorem size_foldl_appendU32_le {pieces : List (List UInt8)}
    (hpieces : ∀ piece ∈ pieces, Form 5 piece) :
    ((pieces.map fun piece => UInt32.ofNat (groupSum piece)).foldl appendU32 buffer).size ≤
      buffer.size + pieces.flatten.length := by
  induction pieces generalizing buffer with
  | nil => exact Nat.le_refl _
  | cons piece pieces ih =>
      rw [List.forall_mem_cons] at hpieces
      have hfirst : (buffer.appendU32 (UInt32.ofNat (groupSum piece))).size ≤
          buffer.size + piece.length :=
        buffer.size_appendU32_le hpieces.1.terminated.ne_nil UInt32.toNat_ofNat'
      have hmore := ih (buffer.appendU32 (UInt32.ofNat (groupSum piece))) hpieces.2
      rw [List.map_cons, List.foldl_cons, List.flatten_cons, List.length_append]
      omega

theorem size_appendOpcode (table : Table) (type : InstructionType) :
    (appendOpcode table buffer type).size = buffer.size + table.opcodeLength type := by
  unfold appendOpcode Table.opcodeLength
  cases table.entryOf? type with
  | none => rfl
  | some entry => exact buffer.size_appendBytes _

end Buffer

namespace Grammar

variable {table : Table} {limit level : Nat} {bytes : List UInt8}

/-- Writes what a phrase stands for. -/
def Phrase.encode (table : Table) (buffer : Buffer) : Phrase → Buffer
  | .instruction item => item.encode table buffer
  | .operands (.special .conditional) [result, body, arm] =>
    Buffer.appendOpcode table
      (Operand.encodeElse table
        (Operand.encodeBody table (Operand.encode table buffer result) body) arm) .blockEnd
  | .operands _ values => Operand.encodeAll table buffer values
  | .field _ value => value.encode table buffer
  | .block content =>
    Buffer.appendOpcode table (Instruction.encodeAll table buffer content.instructions)
      (if content.closedByElse then .otherwise else .blockEnd)

/-- The sequences in what a phrase stands for. -/
def Phrase.sequences : Phrase → Nat
  | .instruction item => item.sequencesOutsideArms
  | .operands layout values =>
    Operand.sequencesOfAll (if layout = .special .conditional then 0 else 1) values
  | .field _ value => value.sequences 1
  | .block content => Instruction.sequencesOfAll content.instructions

/-- What a phrase stands for is written in no more bytes than the phrase has, apart from
what `else` saves at the sequences. -/
def Phrase.WrittenWithin (table : Table) (length : Nat) (phrase : Phrase) : Prop :=
  ∀ buffer, (phrase.encode table buffer).size ≤
    buffer.size + length + table.elseSaving * phrase.sequences

theorem Scalar.size_encode_le {field : Field} {value : Operand}
    (hvalue : Scalar field bytes value) (table : Table) (buffer : Buffer) :
    (value.encode table buffer).size ≤ buffer.size + bytes.length := by
  cases hvalue with
  | u32 hbytes =>
      exact buffer.size_appendU32_le hbytes.terminated.ne_nil UInt32.toNat_ofNat'
  | i32 hbytes =>
      refine buffer.size_appendI64_le hbytes.terminated.ne_nil
        (show 0 < 2 ^ 32 by decide) ?_
      rw [Int32.toInt_toInt64, Int32.toInt_ofInt]
      rfl
  | i64 hbytes =>
      exact buffer.size_appendI64_le hbytes.terminated.ne_nil (by decide)
        Int64.toInt_ofInt
  | f32 | f64 => exact (buffer.size_appendBytes _).le
  | index space hbytes =>
      refine buffer.size_appendU32_le hbytes.terminated.ne_nil ?_
      rw [UInt32.toUInt32_toUInt64, UInt32.toNat_ofNat']
  | noResult | result | referenceType => exact (buffer.size_append _).le
  | valueTypes hcount hlength htypes =>
      rename_i count types
      have hlow : (UInt32.ofNat types.length).toNat = groupSum count % 2 ^ 32 := by
        rw [UInt32.toNat_ofNat', hlength, Nat.mod_mod]
      have hfirst := buffer.size_appendU32_le hcount.terminated.ne_nil hlow
      rw [Operand.encode, Buffer.size_appendBytes, List.length_append]
      omega

theorem Labels.size_encode_le {targets : List UInt32}
    (htargets : Labels bytes targets) (table : Table) (buffer : Buffer) :
    ((Operand.labels targets).encode table buffer).size ≤ buffer.size + bytes.length := by
  cases htargets with
  | @intro count pieces hcount hlength hpieces =>
      have hlow : (UInt32.ofNat ((pieces.map fun piece =>
          UInt32.ofNat (groupSum piece)).length - 1)).toNat = groupSum count % 2 ^ 32 := by
        rw [UInt32.toNat_ofNat', List.length_map, hlength, Nat.add_sub_cancel, Nat.mod_mod]
      have hfirst := buffer.size_appendU32_le hcount.terminated.ne_nil hlow
      rw [Operand.encode, List.length_append]
      refine (Buffer.size_foldl_appendU32_le _ hpieces).trans ?_
      omega

theorem Derives.encode_eq
    (htable : table.Coherent) {entry : Entry} (hentry : entry ∈ table.entries)
    {values : List Operand}
    (hvalues : Derives table limit level bytes (.operands entry.layout values))
    (buffer : Buffer) :
    Instruction.encode table buffer ⟨entry.type, values⟩ =
      (Phrase.operands entry.layout values).encode table
        (Buffer.appendOpcode table buffer entry.type) := by
  have hbound := Entry.misfit?_eq_none_iff_bound.mp (htable.suited entry hentry)
  by_cases htype : entry.type = .conditional
  · rw [hbound.conditional.mpr htype] at hvalues ⊢
    obtain ⟨_, _, _, _, ⟨_, _, _, _, ⟨_, _, rfl⟩, _⟩, _⟩ :=
      derives_conditional_iff.mp hvalues
    rw [Instruction.encode_conditional htype, Phrase.encode]
  · rw [Instruction.encode_of_ne htype, Phrase.encode]
    intro _ _ _ hlayout _
    exact htype (hbound.conditional.mp hlayout)

theorem Derives.writtenWithin_instruction
    (htable : table.Coherent) {entry : Entry} (hentry : entry ∈ table.entries)
    {values : List Operand}
    (hvalues : Derives table limit level bytes (.operands entry.layout values))
    (hwritten : (Phrase.operands entry.layout values).WrittenWithin table bytes.length) :
    (Phrase.instruction ⟨entry.type, values⟩).WrittenWithin table
      (entry.opcode.bytes ++ bytes).length := by
  intro buffer
  have hbound := Entry.misfit?_eq_none_iff_bound.mp (htable.suited entry hentry)
  have hoperands := hwritten (Buffer.appendOpcode table buffer entry.type)
  rw [← hvalues.encode_eq htable hentry, Buffer.size_appendOpcode,
    htable.opcodeLength_eq hentry] at hoperands
  simp only [Phrase.encode, Phrase.sequences, Instruction.sequencesOutsideArms,
    hbound.conditional, List.length_append] at hoperands ⊢
  omega

/-- A sequence is closed by `end`, whatever it was closed by before. -/
theorem Phrase.WrittenWithin.nested
    {content : Block} (hclosed : content.closedByElse → (table.entryOf? .otherwise).isSome)
    {length : Nat} (hcontent : (Phrase.block content).WrittenWithin table length) :
    (Phrase.field .instructions (.instructions content.instructions)).WrittenWithin table
      length := by
  intro buffer
  have hbuffer := hcontent buffer
  simp only [Phrase.encode, Phrase.sequences, Operand.encode, Operand.sequences,
    Buffer.size_appendOpcode, Nat.mul_add, Nat.mul_one] at hbuffer ⊢
  cases helse : content.closedByElse with
  | false =>
      simp only [helse, Bool.false_eq_true, if_false] at hbuffer
      omega
  | true =>
      have hsaving : table.elseSaving =
          table.opcodeLength .blockEnd - table.opcodeLength .otherwise :=
        if_pos (hclosed helse)
      simp only [helse, if_true] at hbuffer
      omega

/-- Without a second arm, a conditional is closed as before. -/
theorem Phrase.WrittenWithin.oneArm
    {type : BlockType} {head : List UInt8} (htype : Scalar .blockType head (.blockType type))
    {first : List Instruction} {length : Nat}
    (hfirst : (Phrase.block ⟨first, false⟩).WrittenWithin table length) :
    (Phrase.operands (.special .conditional)
      [.blockType type, .instructions first, .instructions []]).WrittenWithin table
        (head.length + length) := by
  intro buffer
  have hhead := htype.size_encode_le table buffer
  have hbody := hfirst (Operand.encode table buffer (.blockType type))
  simp only [Phrase.encode, Phrase.sequences, Operand.sequencesOfAll, Operand.sequences,
    Operand.encodeBody, Operand.encodeElse, Instruction.sequencesOfAll, List.isEmpty_nil,
    Bool.false_eq_true, if_true, if_false, Nat.zero_add, Nat.add_zero] at hbody ⊢
  omega

/-- An empty second arm has an `end` of its own, which is long enough for the end of
the conditional. -/
theorem Phrase.WrittenWithin.twoArms
    {type : BlockType} {head : List UInt8} (htype : Scalar .blockType head (.blockType type))
    {first second : List Instruction} {length other : Nat}
    (hfirst : (Phrase.block ⟨first, true⟩).WrittenWithin table length)
    (hsecond : (Phrase.block ⟨second, false⟩).WrittenWithin table other) :
    (Phrase.operands (.special .conditional)
      [.blockType type, .instructions first, .instructions second]).WrittenWithin table
        (head.length + (length + other)) := by
  intro buffer
  have hhead := htype.size_encode_le table buffer
  let opened := Operand.encode table buffer (.blockType type)
  let body := Instruction.encodeAll table opened first
  have hbody := hfirst opened
  cases second with
  | nil =>
      have harm := hsecond body
      simp only [Phrase.encode, Phrase.sequences, Operand.sequencesOfAll, Operand.sequences,
        Operand.encodeBody, Operand.encodeElse, Instruction.encodeAll,
        Instruction.sequencesOfAll, List.isEmpty_nil, Buffer.size_appendOpcode,
        Bool.false_eq_true, if_true, if_false, Nat.zero_add, Nat.add_zero, Nat.mul_zero,
        opened, body] at hbody harm ⊢
      omega
  | cons item more =>
      have harm := hsecond (Buffer.appendOpcode table body .otherwise)
      simp only [Phrase.encode, Phrase.sequences, Operand.sequencesOfAll, Operand.sequences,
        Operand.encodeBody, Operand.encodeElse, List.isEmpty_cons, Buffer.size_appendOpcode,
        Bool.false_eq_true, if_true, if_false, Nat.zero_add, Nat.add_zero, Nat.mul_add,
        opened, body] at hbody harm ⊢
      omega

theorem Derives.writtenWithin_close
    (htable : table.Coherent) {item : Instruction}
    (hitem : Derives table limit level bytes (.instruction item))
    (hterminator : item.isTerminator) :
    (Phrase.block ⟨[], item.type = .otherwise⟩).WrittenWithin table bytes.length := by
  intro buffer
  obtain ⟨entry, hentry, rest, values, _, rfl, rfl⟩ := derives_instruction_iff.mp hitem
  have htype : (if decide (entry.type = .otherwise) then .otherwise else .blockEnd) =
      entry.type := by
    rcases InstructionType.isTerminator_iff.mp hterminator with htype | htype <;>
      rw [show entry.type = _ from htype] <;> rfl
  change (Buffer.appendOpcode table buffer
    (if decide (entry.type = .otherwise) then .otherwise else .blockEnd)).size ≤ _
  rw [htype, Buffer.size_appendOpcode, htable.opcodeLength_eq hentry, List.length_append]
  omega

theorem Derives.writtenWithin
    (htable : table.Coherent) {phrase : Phrase}
    (hphrase : Derives table limit level bytes phrase) :
    phrase.WrittenWithin table bytes.length := by
  induction hphrase with
  | instruction hentry hvalues ih => exact hvalues.writtenWithin_instruction htable hentry ih
  | noFields => exact fun buffer => Nat.le_add_right _ _
  | @nextField _ _ _ _ _ value _ _ _ hfirst hmore =>
      intro buffer
      have hvalue := hfirst buffer
      have hvalues := hmore (value.encode table buffer)
      simp only [Phrase.encode, Phrase.sequences, Operand.encodeAll, Operand.sequencesOfAll,
        List.length_append, Nat.mul_add, reduceCtorEq, if_false] at hvalue hvalues ⊢
      omega
  | oneArm htype _ _ hfirst =>
      rw [List.length_append]
      exact hfirst.oneArm htype
  | twoArms htype _ _ _ hfirst hsecond =>
      rw [List.length_append, List.length_append]
      exact hfirst.twoArms htype hsecond
  | branchTable htargets =>
      intro buffer
      exact (htargets.size_encode_le table buffer).trans (Nat.le_add_right _ _)
  | scalar hvalue =>
      intro buffer
      exact (hvalue.size_encode_le table buffer).trans (Nat.le_add_right _ _)
  | nested _ hcontent ih =>
      apply ih.nested
      intro hclosed
      obtain ⟨otherwise, hmem, htype, _⟩ := hcontent.exists_else hclosed
      rw [htable.entryOf?_eq_some_iff.mpr ⟨hmem, htype⟩]
      rfl
  | close hitem hterminator => exact hitem.writtenWithin_close htable hterminator
  | @next _ _ _ item content _ _ _ hitem hcontent =>
      intro buffer
      have hfirst := hitem buffer
      have hmore := hcontent (item.encode table buffer)
      simp only [Phrase.encode, Phrase.sequences, Instruction.encodeAll,
        Instruction.sequencesOfAll, List.length_append, Nat.mul_add] at hfirst hmore ⊢
      omega

end Grammar

/-! ## Writing decoded trees -/

/-- What is written for a tree is no longer than the bytes that were read as the tree,
apart from what `else` saves. -/
theorem Decoder.size_encode_le
    {decoder : Decoder} (htable : decoder.table.Coherent) {input : Input}
    {item : Instruction} (hitem : (decoder.decodeOne input).result = .ok item)
    (before : Buffer) :
    (item.encode decoder.table before).size + input.position ≤
      before.size + (decoder.decodeOne input).input.position +
        decoder.table.elseSaving * item.sequencesOutsideArms := by
  obtain ⟨bytes, hderives, hbytes⟩ := (decodeOne_eq_ok_iff htable).mp ⟨hitem, rfl⟩
  have hwritten : (item.encode decoder.table before).size ≤
      before.size + bytes.length +
        decoder.table.elseSaving * item.sequencesOutsideArms :=
    hderives.writtenWithin htable before
  rw [hbytes.position]
  omega

/-- Any tree that was decoded can be written, and is then read again.  What is written
is longer than bytes that are read as the tree by no more than `else` saves at its
sequences, apart from the arms of conditionals.  Where this is nothing, no bytes that
are read as the tree are fewer. -/
theorem decoded_trees_are_normalized
    {σ τ : Type} [ViewedSource σ] [ViewedSource τ]
    (decoder : Decoder) (htable : decoder.table.Accepted)
    (hplain : decoder.table.PlainTerminators) {source : σ} {item : Instruction}
    (hitem : (decoder.decodeOne source).result = .ok item) :
    (∀ (before : Buffer) (after : List UInt8), ∃ reread,
      ((item.encode decoder.table before).append after).iterator before.size =
        .ok reread ∧
      (decoder.decodeOne reread).result = .ok item ∧
      (decoder.decodeOne reread).input.position =
        (item.encode decoder.table before).size) ∧
    (∀ before : Buffer,
      (item.encode decoder.table before).size + ByteSource.position source ≤
        before.size + ByteSource.position (decoder.decodeOne source).input +
          decoder.table.elseSaving * item.sequencesOutsideArms) ∧
    (decoder.table.elseSaving * item.sequencesOutsideArms = 0 →
      ∀ other : τ, (decoder.decodeOne other).result = .ok item →
        (item.encode decoder.table .empty).size + ByteSource.position other ≤
          ByteSource.position (decoder.decodeOne other).input) := by
  simp only [Decoder.position_decodeOne]
  simp only [ViewedSource.position_eq]
  rw [decoder.result_decodeOne] at hitem
  have hwellFormed := htable.wellFormed
  have hcoherent := hwellFormed.toCoherent
  refine ⟨?_, Decoder.size_encode_le hcoherent hitem, ?_⟩
  · intro before after
    obtain ⟨_, hderives, _⟩ :=
      (Decoder.decodeOne_eq_ok_iff hcoherent).mp ⟨hitem, rfl⟩
    have hwritten : item.Written decoder.table decoder.depthLimit 0 :=
      (hderives.throughout_encodable hcoherent).written hwellFormed hplain
        (Nat.zero_add _).le
    exact Buffer.exists_outcome_of_written (Decoder.decodeOne_eq_ok_iff hcoherent)
      (BufferIterator.agree_decodeOne decoder) after (hwritten before)
  · intro hsaving other hother
    rw [decoder.result_decodeOne] at hother
    have hlength := Decoder.size_encode_le hcoherent hother .empty
    have hempty : Buffer.empty.size = 0 := rfl
    rwa [hsaving, hempty, Nat.add_zero, Nat.zero_add] at hlength

theorem Table.plainTerminators_of_entries {table : Table}
    (hentries : ∀ entry ∈ table.entries, entry.type.isTerminator →
      entry.layout = .inOrder []) : table.PlainTerminators := by
  intro type entry htype hentry
  obtain rfl : entry.type = type := by simpa using List.find?_some hentry
  exact hentries entry (List.mem_of_find?_eq_some hentry) htype

/-- Eight bytes of a conditional with an empty second arm and a constant of three bytes,
which can be written in five. -/
theorem overlong_conditional_is_normalized :
    let tree : Instruction := ⟨.conditional, [.blockType none,
      .instructions [⟨⟨61⟩, [.i32 1]⟩], .instructions []]⟩
    let decoder : Decoder := ⟨Table.sample, 1, false⟩
    let source : StreamSource := .ofBytes [0x04, 0x40, 0x41, 0x81, 0x80, 0x00, 0x05, 0x0B]
    Table.sample.Accepted ∧ Table.sample.PlainTerminators ∧
      (decoder.decodeOne source).result = .ok tree ∧
      (∃ reread, ((tree.encode Table.sample .empty).append []).iterator 0 = .ok reread ∧
        (decoder.decodeOne reread).result = .ok tree) ∧
      (tree.encode Table.sample .empty).size ≤ 8 := by
  intro tree decoder source
  have hplain : Table.sample.PlainTerminators :=
    Table.plainTerminators_of_entries (by decide)
  have hitem : (decoder.decodeOne source).result = .ok tree := by cbv
  obtain ⟨hrestored, _, hshortest⟩ :=
    decoded_trees_are_normalized (τ := StreamSource) decoder Table.accepted_sample hplain hitem
  obtain ⟨reread, hreread, hresult, _⟩ := hrestored .empty []
  exact ⟨Table.accepted_sample, hplain, hitem, ⟨reread, hreread, hresult⟩,
    hshortest (by decide) source hitem⟩

/-- A table in which `else` has a shorter opcode than `end`. -/
def Table.shortElse : Table := ⟨"table", [
  ⟨.extended 0x0B 0x00, .blockEnd, .inOrder []⟩,
  ⟨.single 0x05, .otherwise, .inOrder []⟩,
  ⟨.single 0x02, .block, .inOrder [.blockType, .instructions]⟩]⟩

/-- A block that is closed by `else` in three bytes and by `end` in four. -/
theorem shorter_when_closed_by_else :
    let tree : Instruction := ⟨.block, [.blockType none, .instructions []]⟩
    let outcome :=
      Decoder.decodeOne ⟨Table.shortElse, 1, false⟩ (StreamSource.ofBytes [0x02, 0x40, 0x05])
    Table.shortElse.Accepted ∧ Table.shortElse.PlainTerminators ∧ ¬ tree.isTerminator ∧
      outcome.result = .ok tree ∧
      (tree.encode Table.shortElse .empty).bytes = [0x02, 0x40, 0x0B, 0x00] ∧
      ¬ (tree.encode Table.shortElse .empty).size ≤ outcome.input.position := by
  intro tree outcome
  have hrows : Table.ofRows "table" [⟨.extended 0x0B 0x00, "end", ""⟩,
      ⟨.single 0x05, "else", ""⟩, ⟨.single 0x02, "block", "blocktype instr*"⟩] =
      .ok Table.shortElse := rfl
  have hposition : outcome.input.position = 3 := by cbv
  have hbytes : (tree.encode Table.shortElse .empty).bytes = [0x02, 0x40, 0x0B, 0x00] := by
    cbv
  refine ⟨.inl ⟨_, _, hrows⟩, Table.plainTerminators_of_entries (by decide), by decide,
    by cbv, hbytes, ?_⟩
  rw [Buffer.size, hbytes, hposition]
  decide

end Disassembly
