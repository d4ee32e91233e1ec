import Disassembly.Decoder.Basic
import Disassembly.Proofs.Table.Lookup

/-!
# Tables with the same lookups

Two tables are equivalent if every byte, and every byte behind a lead byte, is
looked up in them with the same outcome.  Decoders ask a table for nothing else,
and so does the listing of its entries by opcode.  Coherent tables are
equivalent exactly if they have the same entries, in whatever order these were
inserted.
-/

namespace Disassembly

namespace Table

variable {table first second : Table}

/-- The tables answer alike to every byte and to every byte behind a lead byte. -/
structure SameLookups (first second : Table) : Prop where
  slot? : ∀ lead, first.slot? lead = second.slot? lead
  extended? : ∀ lead next, first.extended? lead next = second.extended? lead next

/-! ## Entries -/

theorem SameLookups.lookup?_eq (hsame : first.SameLookups second) (opcode : Opcode) :
    first.lookup? opcode = second.lookup? opcode := by
  unfold lookup?
  rw [hsame.slot?]
  split
  · rfl
  · rw [hsame.extended?]

theorem SameLookups.mem_iff
    (hsame : first.SameLookups second) (hfirst : first.Coherent)
    (hsecond : second.Coherent) (entry : Entry) :
    entry ∈ first.entries ↔ entry ∈ second.entries := by
  have hfound {table : Table} (htable : table.Coherent) :
      table.lookup? entry.opcode = some entry ↔ entry ∈ table.entries := by
    simp [htable.lookup?_eq_some_iff]
  rw [← hfound hfirst, ← hfound hsecond, hsame.lookup?_eq]

theorem Coherent.sameLookups
    (hfirst : first.Coherent) (hsecond : second.Coherent)
    (hmem : ∀ entry, entry ∈ first.entries ↔ entry ∈ second.entries) :
    first.SameLookups second := by
  constructor
  · intro lead
    apply Option.ext
    intro slot
    cases slot with
    | single entry =>
        rw [hfirst.slot?_eq_single_iff, hsecond.slot?_eq_single_iff, hmem]
    | extended =>
        rw [hfirst.slot?_eq_extended_iff, hsecond.slot?_eq_extended_iff]
        simp only [hmem]
  · intro lead next
    apply Option.ext
    intro entry
    rw [hfirst.extended?_eq_some_iff, hsecond.extended?_eq_some_iff, hmem]

theorem Coherent.entryOf?_eq
    (hfirst : first.Coherent) (hsecond : second.Coherent)
    (hmem : ∀ entry, entry ∈ first.entries ↔ entry ∈ second.entries)
    (type : InstructionType) : first.entryOf? type = second.entryOf? type := by
  apply Option.ext
  intro entry
  rw [hfirst.entryOf?_eq_some_iff, hsecond.entryOf?_eq_some_iff, hmem]

/-! ## The entries in the order of their opcodes -/

theorem mem_allBytes (byte : UInt8) : byte ∈ allBytes := by
  have hbyte : byte.toNat < 256 := byte.toNat_lt
  exact List.mem_map.mpr
    ⟨byte.toNat, List.mem_range.mpr hbyte, UInt8.ofNat_toNat⟩

theorem nodup_allBytes : allBytes.Nodup := by
  refine List.Nodup.map_on ?_ List.nodup_range
  intro first hfirst second hsecond hsame
  rw [List.mem_range] at hfirst hsecond
  have hcode := congrArg UInt8.toNat hsame
  rwa [UInt8.toNat_ofNat_of_lt' hfirst, UInt8.toNat_ofNat_of_lt' hsecond] at hcode

theorem secondBytes_eq (lead : UInt8) :
    table.secondBytes lead =
      allBytes.filter fun next => (table.extended? lead next).isSome := by
  simp only [secondBytes, extended?]
  congr 1
  funext next
  rw [Bool.eq_iff_iff]
  simp

/-- The entries whose opcodes start with a byte, in order. -/
def orderedAt (table : Table) (lead : UInt8) : List Entry :=
  match table.slot? lead with
  | none => []
  | some (.single entry) => [entry]
  | some .extended => (table.secondBytes lead).filterMap (table.extended? lead)

theorem ordered_eq : table.ordered = allBytes.flatMap table.orderedAt := rfl

theorem SameLookups.ordered_eq (hsame : first.SameLookups second) :
    first.ordered = second.ordered := by
  have hnext (lead : UInt8) : first.extended? lead = second.extended? lead :=
    funext (hsame.extended? lead)
  simp only [ordered, secondBytes_eq, hsame.slot?, hnext]

theorem SameLookups.text_eq (hsame : first.SameLookups second) :
    first.text = second.text := by
  rw [text, text, hsame.ordered_eq]

theorem Coherent.mem_orderedAt_iff
    (htable : table.Coherent) {lead : UInt8} {entry : Entry} :
    entry ∈ table.orderedAt lead ↔
      entry ∈ table.entries ∧ entry.opcode.lead = lead := by
  unfold orderedAt
  cases hslot : table.slot? lead with
  | none =>
      have hnone := slot?_eq_none_iff.mp hslot
      simp only [List.not_mem_nil, false_iff, not_and]
      exact hnone entry
  | some slot =>
      cases slot with
      | single owner =>
          obtain ⟨howner, hopcode⟩ := htable.slot?_eq_single_iff.mp hslot
          have hlead : owner.opcode.lead = lead := by rw [hopcode]; rfl
          rw [List.mem_singleton]
          constructor
          · rintro rfl
            exact ⟨howner, hlead⟩
          · rintro ⟨hentry, hsame⟩
            refine (htable.eq_of_single howner hentry (hlead.trans hsame.symm) ?_).symm
            rw [hopcode]
            rfl
      | extended =>
          simp only [secondBytes_eq, List.mem_filterMap, List.mem_filter]
          constructor
          · rintro ⟨next, _, hfound⟩
            obtain ⟨hentry, hopcode⟩ := htable.extended?_eq_some_iff.mp hfound
            exact ⟨hentry, by rw [hopcode]; rfl⟩
          · rintro ⟨hentry, rfl⟩
            obtain ⟨next, hfound⟩ := htable.exists_extended?_of_mem hentry hslot
            exact ⟨next, ⟨mem_allBytes next, by rw [hfound]; rfl⟩, hfound⟩

theorem Coherent.nodup_orderedAt (htable : table.Coherent) (lead : UInt8) :
    (table.orderedAt lead).Nodup := by
  unfold orderedAt
  split
  next => exact List.nodup_nil
  next entry _ => exact List.nodup_singleton entry
  next =>
    rw [secondBytes_eq]
    refine List.Nodup.filterMap ?_ (nodup_allBytes.filter _)
    intro next other entry hnext hother
    have hopcode := (htable.extended?_eq_some_iff.mp hnext).2
    have hopcode' := (htable.extended?_eq_some_iff.mp hother).2
    simpa [Opcode.extended] using hopcode.symm.trans hopcode'

/-- The listing by opcode has every entry once. -/
theorem Coherent.ordered_perm (htable : table.Coherent) :
    table.ordered.Perm table.entries := by
  have hnodup : table.ordered.Nodup := by
    rw [Table.ordered_eq, List.nodup_flatMap]
    refine ⟨fun lead _ => htable.nodup_orderedAt lead, ?_⟩
    refine nodup_allBytes.imp ?_
    intro lead other hne entry hentry hother
    rw [htable.mem_orderedAt_iff] at hentry hother
    exact hne (hentry.2.symm.trans hother.2)
  rw [List.perm_ext_iff_of_nodup hnodup htable.nodup_entries]
  intro entry
  simp [Table.ordered_eq, htable.mem_orderedAt_iff, mem_allBytes]

end Table

/-! ## Decoders -/

section Decoders

variable {σ : Type} [ByteSource σ]

theorem Reader.entry_eq
    {first second : Table} (hsame : first.SameLookups second) :
    (Reader.entry first : Reader σ Entry) = Reader.entry second := by
  simp only [Reader.entry, hsame.slot?, hsame.extended?]

namespace Decoder

/-- The decoders differ in their tables at most, and not in what these answer. -/
structure Alike (first second : Decoder) : Prop where
  table : first.table.SameLookups second.table
  depthLimit : first.depthLimit = second.depthLimit
  watched : first.watched = second.watched

variable {first second : Decoder}

omit [ByteSource σ] in
theorem Alike.tell_eq (halike : first.Alike second) :
    (first.tell : Event → Decoding σ Unit) = second.tell := by
  funext event
  rw [tell, tell, halike.watched]

omit [ByteSource σ] in
theorem Alike.tellFailure_eq (halike : first.Alike second) :
    (first.tellFailure : DecodeError → Decoding σ Unit) = second.tellFailure := by
  funext error
  rw [tellFailure, tellFailure, halike.tell_eq]

theorem Alike.nestedBlock_eq (halike : first.Alike second) :
    (first.nestedBlock : (Nat → Decoding σ Block) → _) = second.nestedBlock := by
  funext block depth
  rw [nestedBlock, nestedBlock, halike.depthLimit]

theorem Alike.field_eq (halike : first.Alike second) :
    (first.field : (Nat → Decoding σ Block) → _) = second.field := by
  funext block depth field
  cases field <;> simp only [Decoder.field, halike.nestedBlock_eq]

theorem Alike.operands_eq (halike : first.Alike second) :
    (first.operands : (Nat → Decoding σ Block) → _) = second.operands := by
  funext block depth layout
  cases layout with
  | inOrder fields => simp only [operands, halike.field_eq]
  | special directive =>
      cases directive with
      | conditional => simp only [operands, halike.nestedBlock_eq]
      | branchTable => rfl
  | unknown rule => rfl

theorem Alike.instruction_eq (halike : first.Alike second) :
    (first.instruction : (Nat → Decoding σ Block) → _) = second.instruction := by
  funext block depth
  simp only [instruction, Reader.entry_eq halike.table, halike.operands_eq,
    halike.tell_eq]

theorem Alike.block_eq (halike : first.Alike second) :
    (first.block : Nat → Nat → List Instruction → Decoding σ Block) = second.block := by
  funext budget
  induction budget with
  | zero => rfl
  | succ budget ih =>
      funext depth earlier
      simp only [Decoder.block, ih, halike.instruction_eq, halike.tell_eq]

theorem Alike.run_eq
    {α : Type} (halike : first.Alike second) (work : Decoding σ α) (input : σ) :
    first.run work input = second.run work input := by
  simp only [run, reported, halike.tell_eq, halike.tellFailure_eq]

theorem Alike.decodeOne_eq (halike : first.Alike second) (input : σ) :
    first.decodeOne input = second.decodeOne input := by
  simp only [decodeOne, halike.instruction_eq, halike.block_eq, halike.run_eq]

theorem Alike.decodeBlock_eq (halike : first.Alike second) (input : σ) :
    first.decodeBlock input = second.decodeBlock input := by
  simp only [decodeBlock, halike.block_eq, halike.run_eq]

end Decoder

end Decoders

end Disassembly
