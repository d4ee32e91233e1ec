import Disassembly.Proofs.Table.Building
import Disassembly.Table.Standard

/-!
# Entries of a table that was built from rows

A table that was built from rows lists the entries of its rows in their order.
An entry that is looked up by its type is therefore the entry of the row with
that type.

For the standard table this gives the layouts of loads and stores, of the typed
selection and of the null reference.  They are read off single rows, without
building the table.
-/

namespace Disassembly

namespace Table

variable {table grown : Table}

theorem foldlM_insertRow_entries
    {rows : List Row} (hrows : rows.foldlM insertRow table = .ok grown) :
    ∃ entries, List.Forall₂ (fun row entry => Entry.ofRow row = .ok entry)
        rows entries ∧
      grown.entries = table.entries ++ entries := by
  induction rows generalizing table with
  | nil =>
      cases hrows
      exact ⟨[], .nil, (List.append_nil _).symm⟩
  | cons row rows ih =>
      rw [List.foldlM_cons, except_bind_eq_ok_iff] at hrows
      obtain ⟨next, hrow, hmore⟩ := hrows
      obtain ⟨entry, hentry, _, rfl⟩ := insertRow_eq_ok_iff.mp hrow
      obtain ⟨entries, hentries, hgrown⟩ := ih hmore
      refine ⟨entry :: entries, .cons hentry hentries, ?_⟩
      rw [hgrown, List.append_assoc]
      rfl

theorem ofRows_entries
    {source : String} {rows : List Row} (hrows : ofRows source rows = .ok table) :
    List.Forall₂ (fun row entry => Entry.ofRow row = .ok entry) rows
      table.entries := by
  obtain ⟨entries, hentries, htable⟩ :=
    foldlM_insertRow_entries (ofRows_eq_ok_iff.mp hrows).1
  rw [htable]
  exact hentries

theorem exists_of_forall₂_of_mem
    {α β : Type} {holds : α → β → Prop} {xs : List α} {ys : List β}
    (hboth : List.Forall₂ holds xs ys) {x : α} (hmem : x ∈ xs) :
    ∃ y ∈ ys, holds x y := by
  induction hboth with
  | nil => cases hmem
  | cons hfirst _ ih =>
      rcases List.mem_cons.mp hmem with rfl | hmem
      · exact ⟨_, List.mem_cons_self, hfirst⟩
      · obtain ⟨y, hy, hholds⟩ := ih hmem
        exact ⟨y, List.mem_cons_of_mem _ hy, hholds⟩

/-! ## The standard table -/

theorem entryOf?_eq_of_row
    {source : String} {rows : List Row} (hrows : ofRows source rows = .ok table)
    {row : Row} {entry found : Entry} (hrow : row ∈ rows)
    (hentry : Entry.ofRow row = .ok entry)
    (hfound : table.entryOf? entry.type = some found) : found = entry := by
  have hcoherent := (wellFormed_of_ofRows hrows).toCoherent
  obtain ⟨listed, hlisted, hsame⟩ :=
    exists_of_forall₂_of_mem (ofRows_entries hrows) hrow
  obtain rfl : entry = listed := by
    rw [hentry] at hsame
    exact Except.ok.inj hsame
  obtain ⟨hmem, htype⟩ := hcoherent.entryOf?_eq_some_iff.mp hfound
  exact hcoherent.eq_of_type_eq hmem hlisted htype

theorem standard_entryOf?_eq
    {row : Row} {entry usual : Entry} (hrow : row ∈ Row.standard)
    (hentry : Entry.ofRow row = .ok entry)
    (husual : standard.entryOf? entry.type = some usual) : usual = entry := by
  unfold standard at husual
  generalize hbuilt : ofRows "<builtin>" Row.standard = built at husual
  cases built with
  | error error => cases husual
  | ok table => exact entryOf?_eq_of_row hbuilt hrow hentry husual

theorem standard_layout_of_row
    {index : Nat} {entry usual : Entry}
    (hrow : (Row.standard[index]?).map Entry.ofRow = some (.ok entry))
    (husual : standard.entryOf? entry.type = some usual) :
    usual.layout = entry.layout := by
  obtain ⟨row, hfound, hentry⟩ := Option.map_eq_some_iff.mp hrow
  rw [standard_entryOf?_eq (List.mem_of_getElem? hfound) hentry husual]

theorem exists_offset_of_isMemoryAccess
    {type : InstructionType} (htype : type.isMemoryAccess) :
    ∃ offset < 23, type = ⟨UInt32.ofNat (32 + offset)⟩ := by
  have hbounds : 32 ≤ type.code.toNat ∧ type.code.toNat ≤ 54 := by
    simpa [InstructionType.isMemoryAccess, UInt32.le_iff_toNat_le,
      InstructionType.firstMemoryAccess, InstructionType.lastMemoryAccess]
      using htype
  refine ⟨type.code.toNat - 32, by omega, ?_⟩
  rw [Nat.add_sub_cancel' hbounds.1, UInt32.ofNat_toNat]

theorem standard_layout_of_isMemoryAccess
    {type : InstructionType} {usual : Entry} (htype : type.isMemoryAccess)
    (husual : standard.entryOf? type = some usual) :
    usual.layout = .inOrder [.u32, .u32] := by
  have hrows :
      ∀ offset < 23, (Row.standard[23 + offset]?).map Entry.ofRow =
        some (.ok ⟨.single (UInt8.ofNat (0x28 + offset)),
          ⟨UInt32.ofNat (32 + offset)⟩, .inOrder [.u32, .u32]⟩) := by
    decide +kernel
  obtain ⟨offset, hoffset, rfl⟩ := exists_offset_of_isMemoryAccess htype
  exact standard_layout_of_row (hrows offset hoffset) husual

theorem standard_layout_typedSelect
    {usual : Entry} (husual : standard.entryOf? .typedSelect = some usual) :
    usual.layout = .inOrder [.valueTypes] := by
  have hrow :
      (Row.standard[15]?).map Entry.ofRow =
        some (.ok ⟨.single 0x1C, .typedSelect, .inOrder [.valueTypes]⟩) := by
    decide +kernel
  exact standard_layout_of_row hrow husual

theorem standard_layout_nullReference
    {usual : Entry} (husual : standard.entryOf? .nullReference = some usual) :
    usual.layout = .inOrder [.referenceType] := by
  have hrow :
      (Row.standard[180]?).map Entry.ofRow =
        some (.ok ⟨.single 0xD0, .nullReference, .inOrder [.referenceType]⟩) := by
    decide +kernel
  exact standard_layout_of_row hrow husual

end Table

end Disassembly
