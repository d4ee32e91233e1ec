import Disassembly.Proofs.Table.Lookup

/-!
# Legal lists of rows

A row is legal by itself if its words are known and suit its instruction, and
two rows clash if they share the instruction or the opcode, or if one of them
would make an opcode out of the lead byte of the other one.  A table is built
from exactly the lists of legal rows that do not clash and that map the end of
blocks.  Otherwise the first row is blamed that is illegal or clashes with an
earlier one, and the table as a whole only if there is no such row.

The rows behind the first faulty one are never read.  What is built up to there
is coherent, so that the refusal of the next row is a matter of this row and of
the rows before it.
-/

namespace Disassembly

theorem Opcode.apart_iff {first second : Opcode} :
    first.Apart second ↔ ¬ (first = second ∨ first.lead = second.lead ∧
      first.second?.isSome ≠ second.second?.isSome) := by
  rcases first with ⟨firstLead, firstSecond⟩
  rcases second with ⟨secondLead, secondSecond⟩
  cases firstSecond <;> cases secondSecond <;> simp [Apart]

namespace Row

/-! ## Single rows -/

/-- What is asked of a row by itself. -/
structure Legal (row : Row) : Prop where
  known : row.name ∈ InstructionType.mnemonics
  worded : (∀ word ∈ row.words, ∃ field ∈ Field.all, field.name = word) ∨
    ∃ directive : Directive, row.words = [directive.name]
  conditional : row.words = [Directive.conditional.name] ↔
    row.name = InstructionType.conditional.name
  branchTable : row.words = [Directive.branchTable.name] ↔
    row.name = InstructionType.branchTable.name
  block : row.name = InstructionType.block.name ∨
      row.name = InstructionType.loop.name →
    row.words = [Field.blockType.name, Field.instructions.name]

variable {row other : Row} {entry : Entry}

theorem Describes.name_eq_iff
    (hrow : row.Describes entry) (type : InstructionType)
    (htype : InstructionType.ofName? type.name = some type) :
    row.name = type.name ↔ entry.type = type := by
  constructor
  · intro hname
    have hfound := hrow.type
    rw [hname, htype] at hfound
    exact (Option.some.inj hfound).symm
  · intro hsame
    rw [← hsame]
    exact hrow.name.symm

theorem Describes.words_eq_iff
    (hrow : row.Describes entry) (layout : Layout) (hlayout : layout.Known) :
    row.words = layout.names ↔ entry.layout = layout := by
  rw [← hrow.layout]
  exact ⟨Layout.names_injOn hrow.known hlayout, congrArg Layout.names⟩

theorem Describes.worded (hrow : row.Describes entry) :
    (∀ word ∈ row.words, ∃ field ∈ Field.all, field.name = word) ∨
      ∃ directive : Directive, row.words = [directive.name] := by
  have hknown := hrow.known
  rw [← hrow.layout]
  cases hlayout : entry.layout with
  | inOrder fields =>
      rw [hlayout] at hknown
      left
      intro word hword
      obtain ⟨field, hfield, hname⟩ := List.mem_map.mp hword
      exact ⟨field, hknown field hfield, hname⟩
  | special directive => exact .inr ⟨directive, rfl⟩
  | unknown rule =>
      rw [hlayout] at hknown
      exact hknown.elim

theorem Describes.legal_iff (hrow : row.Describes entry) :
    row.Legal ↔ entry.Bound := by
  have hconditional := hrow.name_eq_iff .conditional (by decide)
  have hbranchTable := hrow.name_eq_iff .branchTable (by decide)
  have hblock := hrow.name_eq_iff .block (by decide)
  have hloop := hrow.name_eq_iff .loop (by decide)
  have hfirst := hrow.words_eq_iff (.special .conditional) trivial
  have hsecond := hrow.words_eq_iff (.special .branchTable) trivial
  have hblockFields : (Layout.inOrder [.blockType, .instructions]).Known := by
    unfold Layout.Known
    decide
  have hfields := hrow.words_eq_iff _ hblockFields
  constructor
  · intro hlegal
    refine ⟨?_, ?_, ?_⟩
    · rw [← hfirst, ← hconditional]
      exact hlegal.conditional
    · rw [← hsecond, ← hbranchTable]
      exact hlegal.branchTable
    · rw [← hblock, ← hloop, ← hfields]
      exact hlegal.block
  · intro hbound
    refine ⟨?_, hrow.worded, ?_, ?_, ?_⟩
    · rw [← InstructionType.ofName?_isSome_iff, hrow.type]
      rfl
    · rw [hconditional, ← hbound.conditional]
      exact hfirst
    · rw [hbranchTable, ← hbound.branchTable]
      exact hsecond
    · rw [hblock, hloop]
      exact fun htype => hfields.mpr (hbound.block htype)

theorem Legal.exists_describes (hrow : row.Legal) : ∃ entry, row.Describes entry := by
  obtain ⟨type, htype⟩ := Option.isSome_iff_exists.mp
    (InstructionType.ofName?_isSome_iff.mpr hrow.known)
  have hlayout : ∃ layout : Layout, layout.Known ∧ layout.names = row.words := by
    rcases hrow.worded with hfields | ⟨directive, hdirective⟩
    · obtain ⟨fields, hknown, hnames⟩ := Field.exists_fields_of_words hfields
      exact ⟨.inOrder fields, hknown, hnames⟩
    · exact ⟨.special directive, trivial, hdirective.symm⟩
  obtain ⟨layout, hknown, hnames⟩ := hlayout
  exact ⟨⟨row.opcode, type, layout⟩, rfl, htype, hknown, hnames⟩

theorem legal_iff_exists_ofRow :
    row.Legal ↔ ∃ entry, Entry.ofRow row = .ok entry := by
  simp only [Entry.ofRow_eq_ok_iff]
  constructor
  · intro hlegal
    obtain ⟨entry, hrow⟩ := hlegal.exists_describes
    exact ⟨entry, hrow, hrow.legal_iff.mp hlegal⟩
  · rintro ⟨entry, hrow, hbound⟩
    exact hrow.legal_iff.mpr hbound

/-! ## Pairs of rows -/

/-- No table holds both rows. -/
def Clashes (first second : Row) : Prop :=
  first.name = second.name ∨ first.opcode = second.opcode ∨
    first.opcode.lead = second.opcode.lead ∧
      first.opcode.second?.isSome ≠ second.opcode.second?.isSome

theorem Describes.apart_iff
    {otherEntry : Entry} (hother : other.Describes otherEntry)
    (hrow : row.Describes entry) :
    otherEntry.Apart entry ↔ ¬ other.Clashes row := by
  have htype : InstructionType.ofName? entry.type.name = some entry.type := by
    rw [hrow.name]
    exact hrow.type
  have hname : other.name = row.name ↔ otherEntry.type = entry.type := by
    rw [← hrow.name]
    exact hother.name_eq_iff entry.type htype
  unfold Entry.Apart Clashes
  rw [Opcode.apart_iff, hother.opcode, hrow.opcode, hname, ← not_or]

end Row

/-! ## Lists of rows -/

namespace Row

/-- The row at an index is illegal by itself or clashes with an earlier one. -/
def FaultyAt (rows : List Row) (index : Nat) : Prop :=
  ∃ row, rows[index]? = some row ∧
    (¬ row.Legal ∨ ∃ earlier ∈ rows.take index, earlier.Clashes row)

/-- Legal rows that do not clash. -/
structure Compatible (rows : List Row) : Prop where
  legal : ∀ row ∈ rows, row.Legal
  apart : rows.Pairwise fun first second => ¬ first.Clashes second

theorem compatible_append_singleton_iff {rows : List Row} {row : Row} :
    Compatible (rows ++ [row]) ↔
      Compatible rows ∧ row.Legal ∧ ∀ earlier ∈ rows, ¬ earlier.Clashes row := by
  constructor
  · rintro ⟨hlegal, hapart⟩
    rw [List.pairwise_append] at hapart
    refine ⟨⟨fun other hother => hlegal other (by simp [hother]), hapart.1⟩,
      hlegal row (by simp), ?_⟩
    intro earlier hearlier
    exact hapart.2.2 earlier hearlier row (by simp)
  · rintro ⟨⟨hlegal, hapart⟩, hrow, hclash⟩
    constructor
    · simpa [or_imp, forall_and] using ⟨hlegal, hrow⟩
    · simpa [List.pairwise_append] using ⟨hapart, hclash⟩

theorem compatible_iff_not_faultyAt {rows : List Row} :
    Compatible rows ↔ ∀ index, ¬ FaultyAt rows index := by
  constructor
  · rintro ⟨hlegal, hapart⟩ index ⟨row, hrow, hfault⟩
    obtain ⟨hindex, rfl⟩ := List.getElem?_eq_some_iff.mp hrow
    rcases hfault with hillegal | ⟨earlier, hearlier, hclash⟩
    · exact hillegal (hlegal _ (List.getElem_mem hindex))
    · obtain ⟨before, hbefore, rfl⟩ := List.getElem_of_mem hearlier
      rw [List.length_take] at hbefore
      rw [List.getElem_take] at hclash
      have hless : before < index := by omega
      exact List.pairwise_iff_getElem.mp hapart before index (by omega) hindex
        hless hclash
  · intro hfaultless
    constructor
    · intro row hrow
      obtain ⟨index, hindex⟩ := List.getElem?_of_mem hrow
      by_contra hillegal
      exact hfaultless index ⟨row, hindex, .inl hillegal⟩
    · rw [List.pairwise_iff_getElem]
      intro before index hbefore hindex hless hclash
      have hearlier : rows[before] ∈ rows.take index :=
        List.mem_take_iff_getElem.mpr ⟨before, by omega, rfl⟩
      exact hfaultless index ⟨rows[index], List.getElem?_eq_getElem hindex,
        .inr ⟨_, hearlier, hclash⟩⟩

/-- In front of the first faulty row there is nothing to blame. -/
theorem compatible_take {rows : List Row} {index : Nat}
    (hearlier : ∀ earlier < index, ¬ FaultyAt rows earlier) :
    Compatible (rows.take index) := by
  rw [compatible_iff_not_faultyAt]
  rintro earlier ⟨row, hrow, hfault⟩
  have hless : earlier < index := by
    have hlength := (List.getElem?_eq_some_iff.mp hrow).1
    rw [List.length_take] at hlength
    omega
  rw [List.getElem?_take_of_lt hless] at hrow
  rw [List.take_take, min_eq_left hless.le] at hfault
  exact hearlier earlier hless ⟨row, hrow, hfault⟩

/-- There are no more rows that do not clash than there are instructions. -/
theorem Compatible.length_le {rows : List Row} (hrows : Compatible rows) :
    rows.length ≤ InstructionType.mnemonics.length := by
  have hdistinct : (rows.map Row.name).Nodup := by
    rw [List.Nodup, List.pairwise_map]
    exact hrows.apart.imp fun hapart hname => hapart (.inl hname)
  have hknown : rows.map Row.name ⊆ InstructionType.mnemonics := by
    intro name hname
    obtain ⟨row, hrow, rfl⟩ := List.mem_map.mp hname
    exact (hrows.legal row hrow).known
  simpa using (hdistinct.subperm hknown).length_le

/-- A row behind rows that do not clash comes early enough for its number to be a word. -/
theorem Compatible.toNat_ofNat {rows : List Row} (hrows : Compatible rows) :
    (UInt32.ofNat (rows.length + 1)).toNat = rows.length + 1 := by
  have hsmall : InstructionType.mnemonics.length < 2 ^ 32 - 1 := by decide +kernel
  have hlength := hrows.length_le
  exact UInt32.toNat_ofNat_of_lt' (show rows.length + 1 < 2 ^ 32 by omega)

theorem toNat_ofNat_of_first {rows : List Row} {index : Nat} (hfaulty : FaultyAt rows index)
    (hearlier : ∀ earlier < index, ¬ FaultyAt rows earlier) :
    (UInt32.ofNat (index + 1)).toNat = index + 1 := by
  obtain ⟨row, hrow, -⟩ := hfaulty
  have hindex := (List.getElem?_eq_some_iff.mp hrow).1
  have hnumber := (compatible_take hearlier).toNat_ofNat
  rwa [List.length_take_of_le hindex.le] at hnumber

end Row

namespace Table

variable {table grown : Table} {source : String} {rows : List Row} {row : Row}

/-- A table whose entries are described by the rows that it was built from. -/
structure BuiltFrom (table : Table) (source : String) (rows : List Row) : Prop where
  coherent : table.Coherent
  source : table.source = source
  described : List.Forall₂ Row.Describes rows table.entries

theorem builtFrom_empty (source : String) : (empty source).BuiltFrom source [] :=
  ⟨coherent_empty source, rfl, .nil⟩

/-- A row is inserted exactly if it is legal and clashes with none of the rows before. -/
theorem BuiltFrom.exists_insertRow_iff (htable : table.BuiltFrom source rows) :
    (∃ grown, table.insertRow row = .ok grown) ↔
      row.Legal ∧ ∀ earlier ∈ rows, ¬ earlier.Clashes row := by
  simp only [insertRow_eq_ok_iff]
  constructor
  · rintro ⟨grown, entry, hentry, hfree, _⟩
    refine ⟨Row.legal_iff_exists_ofRow.mpr ⟨entry, hentry⟩, ?_⟩
    intro earlier hearlier
    obtain ⟨other, hmem, hother⟩ :=
      exists_of_forall₂_of_mem htable.described hearlier
    have hrow := (Entry.ofRow_eq_ok_iff.mp hentry).1
    have hapart := htable.coherent.conflict?_eq_none_iff.mp hfree other hmem
    exact (hother.apart_iff hrow).mp hapart
  · rintro ⟨hlegal, hclash⟩
    obtain ⟨entry, hentry⟩ := Row.legal_iff_exists_ofRow.mp hlegal
    have hrow := (Entry.ofRow_eq_ok_iff.mp hentry).1
    have hfree : table.conflict? entry = none := by
      rw [htable.coherent.conflict?_eq_none_iff]
      intro other hmem
      obtain ⟨earlier, hearlier, hother⟩ :=
        exists_of_forall₂_of_mem htable.described.flip hmem
      exact (hother.apart_iff hrow).mpr (hclash earlier hearlier)
    exact ⟨_, entry, hentry, hfree, rfl⟩

theorem BuiltFrom.insertRow
    (htable : table.BuiltFrom source rows)
    (hrow : table.insertRow row = .ok grown) :
    grown.BuiltFrom source (rows ++ [row]) := by
  have hcoherent := htable.coherent.insertRow hrow
  obtain ⟨entry, hentry, _, rfl⟩ := insertRow_eq_ok_iff.mp hrow
  have hdescribes := (Entry.ofRow_eq_ok_iff.mp hentry).1
  refine ⟨hcoherent, htable.source, ?_⟩
  exact List.rel_append htable.described (.cons hdescribes .nil)

theorem foldlM_insertRow_append_singleton :
    (rows ++ [row]).foldlM insertRow table = .ok grown ↔
      ∃ middle, rows.foldlM insertRow table = .ok middle ∧
        middle.insertRow row = .ok grown := by
  rw [List.foldlM_append, except_bind_eq_ok_iff]
  simp

theorem builtFrom_of_foldlM
    (hrows : rows.foldlM insertRow (empty source) = .ok table) :
    table.BuiltFrom source rows := by
  induction rows using List.reverseRecOn generalizing table with
  | nil =>
      cases hrows
      exact builtFrom_empty source
  | append_singleton rows row ih =>
      obtain ⟨middle, hmiddle, hrow⟩ :=
        foldlM_insertRow_append_singleton.mp hrows
      exact (ih hmiddle).insertRow hrow

theorem builtFrom_of_ofRows (hrows : ofRows source rows = .ok table) :
    table.BuiltFrom source rows :=
  builtFrom_of_foldlM (ofRows_eq_ok_iff.mp hrows).1

theorem exists_foldlM_insertRow_iff (source : String) :
    (∃ table, rows.foldlM insertRow (empty source) = .ok table) ↔
      Row.Compatible rows := by
  induction rows using List.reverseRecOn with
  | nil =>
      constructor
      · exact fun _ => ⟨by simp, List.Pairwise.nil⟩
      · exact fun _ => ⟨empty source, rfl⟩
  | append_singleton rows row ih =>
      rw [Row.compatible_append_singleton_iff, ← ih]
      simp only [foldlM_insertRow_append_singleton]
      constructor
      · rintro ⟨grown, middle, hmiddle, hrow⟩
        have hbuilt := builtFrom_of_foldlM hmiddle
        exact ⟨⟨middle, hmiddle⟩, hbuilt.exists_insertRow_iff.mp ⟨grown, hrow⟩⟩
      · rintro ⟨⟨middle, hmiddle⟩, hfits⟩
        have hbuilt := builtFrom_of_foldlM hmiddle
        obtain ⟨grown, hrow⟩ := hbuilt.exists_insertRow_iff.mpr hfits
        exact ⟨grown, middle, hmiddle, hrow⟩

theorem BuiltFrom.endMapped_iff (htable : table.BuiltFrom source rows) :
    (table.entryOf? .blockEnd).isSome ↔
      ∃ row ∈ rows, row.name = InstructionType.blockEnd.name := by
  have hend {row : Row} {entry : Entry} (hrow : row.Describes entry) :=
    hrow.name_eq_iff .blockEnd (by decide)
  constructor
  · intro hfound
    obtain ⟨entry, hentry⟩ := Option.isSome_iff_exists.mp hfound
    obtain ⟨hmem, htype⟩ := htable.coherent.entryOf?_eq_some_iff.mp hentry
    obtain ⟨row, hrow, hdescribes⟩ :=
      exists_of_forall₂_of_mem htable.described.flip hmem
    exact ⟨row, hrow, (hend hdescribes).mpr htype⟩
  · rintro ⟨row, hrow, hname⟩
    obtain ⟨entry, hmem, hdescribes⟩ :=
      exists_of_forall₂_of_mem htable.described hrow
    have htype := (hend hdescribes).mp hname
    rw [htable.coherent.entryOf?_eq_some_iff.mpr ⟨hmem, htype⟩]
    rfl

theorem BuiltFrom.mem_entries_iff
    (htable : table.BuiltFrom source rows) {entry : Entry} :
    entry ∈ table.entries ↔ ∃ row ∈ rows, row.Describes entry := by
  constructor
  · intro hmem
    exact exists_of_forall₂_of_mem htable.described.flip hmem
  · rintro ⟨row, hrow, hdescribes⟩
    obtain ⟨other, hmem, hother⟩ :=
      exists_of_forall₂_of_mem htable.described hrow
    rw [hdescribes.unique hother]
    exact hmem

theorem BuiltFrom.lookup?_eq_some_iff
    (htable : table.BuiltFrom source rows) {opcode : Opcode} {entry : Entry} :
    table.lookup? opcode = some entry ↔
      entry.opcode = opcode ∧ ∃ row ∈ rows, row.Describes entry := by
  rw [htable.coherent.lookup?_eq_some_iff, and_comm, htable.mem_entries_iff]

end Table

/-! ## Acceptance and blame -/

namespace Row

/-- The lists of rows that make a table. -/
structure AllLegal (rows : List Row) : Prop extends Compatible rows where
  endMapped : ∃ row ∈ rows, row.name = InstructionType.blockEnd.name

/-- The line that a refusal names: that of the first faulty row, or none. -/
inductive Blamed (rows : List Row) : Nat → Prop
  | row {index : Nat} (hfaulty : FaultyAt rows index)
      (hfirst : ∀ earlier < index, ¬ FaultyAt rows earlier) :
      Blamed rows (index + 1)
  | whole (hrows : ∀ index, ¬ FaultyAt rows index)
      (hend : ∀ row ∈ rows, row.name ≠ InstructionType.blockEnd.name) :
      Blamed rows 0

theorem exists_first_faulty {rows : List Row} {index : Nat}
    (hfaulty : FaultyAt rows index) :
    ∃ first, FaultyAt rows first ∧ ∀ earlier < first, ¬ FaultyAt rows earlier := by
  classical
  have hexists : ∃ index, FaultyAt rows index := ⟨index, hfaulty⟩
  exact ⟨Nat.find hexists, Nat.find_spec hexists,
    fun _ hearlier => Nat.find_min hexists hearlier⟩

end Row

namespace Table

variable {table : Table} {source : String} {rows : List Row}

theorem exists_ofRows_iff :
    (∃ table, ofRows source rows = .ok table) ↔ Row.AllLegal rows := by
  simp only [ofRows_eq_ok_iff]
  constructor
  · rintro ⟨table, hrows, hend⟩
    have hbuilt := builtFrom_of_foldlM hrows
    have hcompatible := (exists_foldlM_insertRow_iff source).mp ⟨table, hrows⟩
    exact ⟨hcompatible, hbuilt.endMapped_iff.mp hend⟩
  · rintro ⟨hcompatible, hend⟩
    obtain ⟨table, hrows⟩ := (exists_foldlM_insertRow_iff source).mpr hcompatible
    have hbuilt := builtFrom_of_foldlM hrows
    exact ⟨table, hrows, hbuilt.endMapped_iff.mpr hend⟩

theorem ofRows_eq_error_of_faultyAt {index : Nat}
    (hfaulty : Row.FaultyAt rows index)
    (hfirst : ∀ earlier < index, ¬ Row.FaultyAt rows earlier) :
    ∃ fault, ofRows source rows = .error ⟨source, UInt32.ofNat (index + 1), fault⟩ := by
  obtain ⟨row, hrow, hfault⟩ := hfaulty
  obtain ⟨hindex, rfl⟩ := List.getElem?_eq_some_iff.mp hrow
  obtain ⟨middle, hmiddle⟩ :=
    (exists_foldlM_insertRow_iff source).mpr (Row.compatible_take hfirst)
  have hbuilt := builtFrom_of_foldlM hmiddle
  have hrefused : ¬ ∃ grown, middle.insertRow rows[index] = .ok grown := by
    rw [hbuilt.exists_insertRow_iff]
    rintro ⟨hlegal, hclash⟩
    rcases hfault with hillegal | ⟨earlier, hearlier, hclashes⟩
    · exact hillegal hlegal
    · exact hclash earlier hearlier hclashes
  cases hinsert : middle.insertRow rows[index] with
  | ok grown => exact absurd ⟨grown, hinsert⟩ hrefused
  | error fault =>
      have hsplit :
          rows.take index ++ rows[index] :: rows.drop (index + 1) = rows := by
        rw [← List.drop_eq_getElem_cons hindex, List.take_append_drop]
      have hblamed :=
        calc
          addAll insertRow (empty source) (numbered 1 rows)
          _ = addAll insertRow (empty source)
                (numbered 1 (rows.take index ++ rows[index] :: rows.drop (index + 1))) := by
            rw [hsplit]
          _ = .error ⟨middle.source, 1 + UInt32.ofNat (rows.take index).length, fault⟩ :=
            addAll_eq_error hmiddle hinsert
          _ = .error ⟨source, UInt32.ofNat (index + 1), fault⟩ := by
            rw [hbuilt.source, List.length_take_of_le hindex.le, UInt32.ofNat_add,
              UInt32.add_comm]
            rfl
      refine ⟨fault, ?_⟩
      unfold ofRows
      rw [hblamed]
      rfl

theorem ofRows_eq_error_of_missing_end
    (hcompatible : Row.Compatible rows)
    (hend : ∀ row ∈ rows, row.name ≠ InstructionType.blockEnd.name) :
    ofRows source rows = .error ⟨source, 0, .missingEnd⟩ := by
  obtain ⟨table, hrows⟩ := (exists_foldlM_insertRow_iff source).mpr hcompatible
  have hbuilt := builtFrom_of_foldlM hrows
  have hmissing : ¬ (table.entryOf? .blockEnd).isSome := by
    rw [hbuilt.endMapped_iff]
    rintro ⟨row, hrow, hname⟩
    exact hend row hrow hname
  have hfinish : table.finish = .error ⟨source, 0, .missingEnd⟩ := by
    unfold finish
    rw [if_neg hmissing, hbuilt.source]
  unfold ofRows
  rw [addAll_eq_ok_iff.mpr hrows]
  exact hfinish

theorem ofRows_blames {error : TableError}
    (herror : ofRows source rows = .error error) :
    error.source = source ∧ Row.Blamed rows error.line.toNat ∧
      (error.line = 0 → error.fault = .missingEnd) := by
  by_cases hfaulty : ∃ index, Row.FaultyAt rows index
  · obtain ⟨index, hindex⟩ := hfaulty
    obtain ⟨first, hfirst, hearlier⟩ := Row.exists_first_faulty hindex
    have hblamed : ∃ fault, ofRows source rows =
        .error ⟨source, UInt32.ofNat (first + 1), fault⟩ :=
      ofRows_eq_error_of_faultyAt hfirst hearlier
    obtain ⟨fault, hblamed⟩ := hblamed
    have hnumber := Row.toNat_ofNat_of_first hfirst hearlier
    rw [herror, Except.error.injEq] at hblamed
    subst hblamed
    refine ⟨rfl, ?_, fun hline => ?_⟩
    · rw [hnumber]
      exact .row hfirst hearlier
    · have hzero := congrArg UInt32.toNat hline
      rw [hnumber] at hzero
      exact absurd hzero (Nat.succ_ne_zero first)
  · have hfaultless := not_exists.mp hfaulty
    have hcompatible := Row.compatible_iff_not_faultyAt.mpr hfaultless
    have hend : ∀ row ∈ rows, row.name ≠ InstructionType.blockEnd.name := by
      intro row hrow hname
      have htable : ∃ table, ofRows source rows = .ok table :=
        exists_ofRows_iff.mpr ⟨hcompatible, row, hrow, hname⟩
      simp [herror] at htable
    have hblamed : ofRows source rows = .error ⟨source, 0, .missingEnd⟩ :=
      ofRows_eq_error_of_missing_end hcompatible hend
    rw [herror, Except.error.injEq] at hblamed
    subst hblamed
    exact ⟨rfl, .whole hfaultless hend, fun _ => rfl⟩

/-- A table is built from exactly the legal lists of rows, and then it holds the
entries that these rows describe.  Otherwise the first faulty row is blamed, or
no row at all if only the end of blocks is missing. -/
theorem built_exactly_from_legal_rows (source : String) (rows : List Row) :
    ((∃ table, ofRows source rows = .ok table) ↔ Row.AllLegal rows) ∧
    (∀ table, ofRows source rows = .ok table →
      List.Forall₂ Row.Describes rows table.entries ∧
      ∀ opcode entry, table.lookup? opcode = some entry ↔
        entry.opcode = opcode ∧ ∃ row ∈ rows, row.Describes entry) ∧
    ∀ error, ofRows source rows = .error error →
      error.source = source ∧ Row.Blamed rows error.line.toNat ∧
        (error.line = 0 → error.fault = .missingEnd) := by
  refine ⟨exists_ofRows_iff, ?_, fun error => ofRows_blames⟩
  intro table hrows
  have hbuilt := builtFrom_of_foldlM (ofRows_eq_ok_iff.mp hrows).1
  exact ⟨hbuilt.described, fun _ _ => hbuilt.lookup?_eq_some_iff⟩

/-- The rows of the sample, and rows of which the second one clashes with the first
one and the third one is illegal. -/
theorem sample_rows_and_faulty_rows :
    let faulty : List Row := [⟨.single 0x0B, "end", ""⟩,
      ⟨.extended 0x0B 0x00, "nop", ""⟩, ⟨.single 0x01, "block", ""⟩]
    (ofRows "sample" Row.sample = .ok sample ∧ Row.AllLegal Row.sample ∧
      List.Forall₂ Row.Describes Row.sample sample.entries) ∧
    ofRows "faulty" faulty = .error ⟨"faulty", 2, .leadTaken 0x0B .blockEnd⟩ ∧
      Row.Blamed faulty 2 := by
  intro faulty
  have hsample : ofRows "sample" Row.sample = .ok sample := rfl
  have hfaulty :
      ofRows "faulty" faulty = .error ⟨"faulty", 2, .leadTaken 0x0B .blockEnd⟩ :=
    rfl
  obtain ⟨hlegal, hheld, _⟩ := built_exactly_from_legal_rows "sample" Row.sample
  obtain ⟨_, _, hblamed⟩ := built_exactly_from_legal_rows "faulty" faulty
  exact ⟨⟨hsample, hlegal.mp ⟨sample, hsample⟩, (hheld sample hsample).1⟩,
    hfaulty, (hblamed _ hfaulty).2.1⟩

end Table

end Disassembly
