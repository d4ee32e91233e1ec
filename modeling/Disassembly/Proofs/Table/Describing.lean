import Disassembly.Proofs.Table.Building

/-!
# Rows describe entries

A row describes an entry in words: its opcode, the name of its instruction, and
the names of its fields or of its directive.  A row is read exactly as the entry
that it describes, provided that the layout suits the instruction.
-/

namespace Disassembly

/-! ## Names of instructions -/

namespace InstructionType

theorem ofName?_isSome_iff {name : String} :
    (ofName? name).isSome ↔ name ∈ mnemonics := by
  simp [ofName?]

theorem name_of_ofName? {name : String} {type : InstructionType}
    (hfound : ofName? name = some type) : type.name = name := by
  obtain ⟨index, hindex, rfl⟩ := Option.map_eq_some_iff.mp hfound
  obtain ⟨hbound, hsame, _⟩ := List.findIdx?_eq_some_iff_getElem.mp hindex
  have hsmall : mnemonics.length < 2 ^ 32 := by decide +kernel
  have hcode : (UInt32.ofNat index).toNat = index :=
    UInt32.toNat_ofNat_of_lt' (hbound.trans hsmall)
  have hmnemonic : mnemonics[index]? = some name := by
    rw [List.getElem?_eq_getElem hbound]
    simpa using hsame
  simp [InstructionType.name, hcode, hmnemonic]

end InstructionType

/-! ## Bound layouts -/

/-- What the validation of a row promises about the layout of its entry. -/
structure Entry.Bound (entry : Entry) : Prop where
  conditional : entry.layout = .special .conditional ↔ entry.type = .conditional
  branchTable : entry.layout = .special .branchTable ↔ entry.type = .branchTable
  block : entry.type = .block ∨ entry.type = .loop →
    entry.layout = .inOrder [.blockType, .instructions]

theorem Entry.misfit?_eq_none_iff_bound {entry : Entry} :
    entry.misfit? = none ↔ entry.Bound := by
  rw [misfit?_eq_none_iff]
  constructor
  · rintro ⟨hsubject, hrequired⟩
    refine ⟨⟨?_, ?_⟩, ⟨?_, ?_⟩, ?_⟩
    · intro hlayout
      exact (hsubject _ hlayout).symm
    · intro htype
      exact hrequired _ (by rw [htype]; rfl)
    · intro hlayout
      exact (hsubject _ hlayout).symm
    · intro htype
      exact hrequired _ (by rw [htype]; rfl)
    · rintro (htype | htype)
      · exact hrequired _ (by rw [htype]; rfl)
      · exact hrequired _ (by rw [htype]; rfl)
  · intro hbound
    constructor
    · intro directive hlayout
      cases directive with
      | conditional => exact (hbound.conditional.mp hlayout).symm
      | branchTable => exact (hbound.branchTable.mp hlayout).symm
    · intro layout hlayout
      unfold InstructionType.requiredLayout? at hlayout
      split at hlayout
      next htype =>
        cases hlayout
        exact hbound.conditional.mpr htype
      split at hlayout
      next htype =>
        cases hlayout
        exact hbound.branchTable.mpr htype
      split at hlayout
      next htype =>
        cases hlayout
        exact hbound.block htype
      next => cases hlayout

/-! ## Rows -/

namespace Row

/-- The words for the layout. -/
def words (row : Row) : List String :=
  Text.words row.fields

/-- An entry that the words of a row stand for. -/
structure Describes (row : Row) (entry : Entry) : Prop where
  opcode : entry.opcode = row.opcode
  type : InstructionType.ofName? row.name = some entry.type
  known : entry.layout.Known
  layout : entry.layout.names = row.words

variable {row : Row} {entry : Entry}

theorem Describes.name (hrow : row.Describes entry) : entry.type.name = row.name :=
  InstructionType.name_of_ofName? hrow.type

theorem Describes.unique {other : Entry} (hrow : row.Describes entry)
    (hother : row.Describes other) : entry = other := by
  have hopcode := hrow.opcode.trans hother.opcode.symm
  have htype := Option.some.inj (hrow.type.symm.trans hother.type)
  have hlayout := Layout.names_injOn hrow.known hother.known
    (hrow.layout.trans hother.layout.symm)
  cases entry
  cases other
  simp_all

end Row

/-- Reading a row finds the entry that it describes, unless its layout is bound to
be another one. -/
theorem Entry.ofRow_eq_ok_iff {row : Row} {entry : Entry} :
    Entry.ofRow row = .ok entry ↔ row.Describes entry ∧ entry.Bound := by
  rw [← misfit?_eq_none_iff_bound]
  unfold ofRow
  cases htype : InstructionType.ofName? row.name with
  | none =>
      constructor
      · intro hrow
        cases hrow
      · rintro ⟨hrow, _⟩
        rw [hrow.type] at htype
        cases htype
  | some type =>
      simp only [except_bind_eq_ok_iff, Layout.ofWords_eq_ok_iff]
      constructor
      · rintro ⟨layout, ⟨hknown, hnames⟩, hread⟩
        split at hread
        next => cases hread
        next hsuited =>
          cases hread
          exact ⟨⟨rfl, htype, hknown, hnames⟩, hsuited⟩
      · rintro ⟨hrow, hsuited⟩
        have htyped : type = entry.type :=
          Option.some.inj (htype.symm.trans hrow.type)
        have hentry : (⟨row.opcode, type, entry.layout⟩ : Entry) = entry := by
          rw [htyped, ← hrow.opcode]
        refine ⟨entry.layout, ⟨hrow.known, hrow.layout⟩, ?_⟩
        rw [hentry, hsuited]
        rfl

end Disassembly
