import Disassembly.Proofs.Table.Describing
import Disassembly.Proofs.Table.Rows
import Mathlib.Data.Set.Card

/-!
# Lookups of a table agree

The entries of a finished table are found in two ways: by the bytes of their
opcode, where a second byte is asked for only behind a lead byte of longer
opcodes, and by their instruction type.  Both ways lead to the same entries, each
of which is found under the opcode that it carries, and there are as many of
them as rows were inserted.
-/

namespace Disassembly

namespace Table

variable {table : Table}

/-! ## Opcodes -/

/-- The entry that is found by the bytes of an opcode. -/
def lookup? (table : Table) (opcode : Opcode) : Option Entry :=
  match opcode.second? with
  | none =>
    match table.slot? opcode.lead with
    | some (.single entry) => some entry
    | _ => none
  | some second =>
    if table.slot? opcode.lead = some .extended then
      table.extended? opcode.lead second
    else none

theorem Coherent.slot?_eq_extended_of_extended?
    (htable : table.Coherent) {lead second : UInt8} {entry : Entry}
    (hfound : table.extended? lead second = some entry) :
    table.slot? lead = some .extended := by
  obtain ⟨hentry, hopcode⟩ := htable.extended?_eq_some_iff.mp hfound
  refine htable.slot?_eq_extended_iff.mpr ⟨entry, hentry, ?_⟩
  simp [hopcode, Opcode.extended]

/-- Behind a lead byte of longer opcodes, every entry has a second byte. -/
theorem Coherent.exists_extended?_of_mem
    (htable : table.Coherent) {entry : Entry} (hentry : entry ∈ table.entries)
    (hslot : table.slot? entry.opcode.lead = some .extended) :
    ∃ second, table.extended? entry.opcode.lead second = some entry := by
  obtain ⟨owner, howner, hlead, hlong⟩ := htable.slot?_eq_extended_iff.mp hslot
  cases hsecond : entry.opcode.second? with
  | none =>
      have hsame : entry = owner :=
        htable.eq_of_single hentry howner hlead.symm hsecond
      rw [hsame] at hsecond
      exact absurd hsecond hlong
  | some second =>
      exact ⟨second, htable.extended?_eq_some_iff.mpr ⟨hentry, Opcode.eq_extended hsecond⟩⟩

theorem Coherent.lookup?_eq_some_iff
    (htable : table.Coherent) {opcode : Opcode} {entry : Entry} :
    table.lookup? opcode = some entry ↔
      entry ∈ table.entries ∧ entry.opcode = opcode := by
  rcases opcode with ⟨lead, second?⟩
  cases second? with
  | none =>
      have hsingle :
          table.lookup? ⟨lead, none⟩ = some entry ↔
            table.slot? lead = some (.single entry) := by
        simp only [lookup?]
        split <;> simp_all
      rw [hsingle]
      exact htable.slot?_eq_single_iff
  | some second =>
      have hextended :
          table.lookup? ⟨lead, some second⟩ = some entry ↔
            table.extended? lead second = some entry := by
        simp only [lookup?]
        constructor
        · intro hfound
          split at hfound
          next => exact hfound
          next => cases hfound
        · intro hfound
          rw [if_pos (htable.slot?_eq_extended_of_extended? hfound)]
          exact hfound
      rw [hextended]
      exact htable.extended?_eq_some_iff

theorem Coherent.nodup_entries (htable : table.Coherent) :
    table.entries.Nodup := by
  refine htable.apart.imp ?_
  intro first second hapart heq
  exact hapart.1 (congrArg Entry.type heq)

/-- The entries that lookups reach. -/
def reachable (table : Table) : Set Entry :=
  {entry | ∃ opcode, table.lookup? opcode = some entry}

theorem Coherent.reachable_eq (htable : table.Coherent) :
    table.reachable = ↑table.entries.toFinset := by
  ext entry
  simp [reachable, htable.lookup?_eq_some_iff]

theorem Coherent.ncard_reachable (htable : table.Coherent) :
    table.reachable.ncard = table.size := by
  rw [htable.reachable_eq, Set.ncard_coe_finset,
    List.toFinset_card_of_nodup htable.nodup_entries]
  rfl

/-! ## Consistency -/

/-- Every way to look up an entry of the table gives the same answer. -/
structure Consistent (table : Table) : Prop where
  single : ∀ lead entry, table.slot? lead = some (.single entry) →
    entry.opcode = .single lead ∧ table.entryOf? entry.type = some entry
  extended : ∀ lead second entry, table.extended? lead second = some entry →
    entry.opcode = .extended lead second ∧
      table.entryOf? entry.type = some entry
  typed : ∀ type entry, table.entryOf? type = some entry →
    entry.type = type ∧ table.lookup? entry.opcode = some entry
  apart : ∀ lead entry, table.slot? lead = some (.single entry) →
    ∀ second, table.extended? lead second = none
  continued : ∀ lead, table.slot? lead = some .extended ↔
    ∃ second entry, table.extended? lead second = some entry
  counted : table.reachable.ncard = table.size
  endMapped : ∃ entry, table.entryOf? .blockEnd = some entry
  bound : ∀ entry ∈ table.reachable,
    entry.Bound ∧ (entry.layout.directive?.isSome → entry.layout.fields = [])

theorem WellFormed.consistent (htable : table.WellFormed) : table.Consistent := by
  have hcoherent := htable.toCoherent
  constructor
  · intro lead entry hslot
    obtain ⟨hentry, hopcode⟩ := hcoherent.slot?_eq_single_iff.mp hslot
    exact ⟨hopcode, hcoherent.entryOf?_eq_some_iff.mpr ⟨hentry, rfl⟩⟩
  · intro lead second entry hfound
    obtain ⟨hentry, hopcode⟩ := hcoherent.extended?_eq_some_iff.mp hfound
    exact ⟨hopcode, hcoherent.entryOf?_eq_some_iff.mpr ⟨hentry, rfl⟩⟩
  · intro type entry hfound
    obtain ⟨hentry, htype⟩ := hcoherent.entryOf?_eq_some_iff.mp hfound
    exact ⟨htype, hcoherent.lookup?_eq_some_iff.mpr ⟨hentry, rfl⟩⟩
  · intro lead entry hslot second
    cases hfound : table.extended? lead second with
    | none => rfl
    | some other =>
        have hextended := hcoherent.slot?_eq_extended_of_extended? hfound
        rw [hslot] at hextended
        cases hextended
  · intro lead
    constructor
    · intro hslot
      obtain ⟨entry, hentry, rfl, _⟩ := hcoherent.slot?_eq_extended_iff.mp hslot
      obtain ⟨second, hfound⟩ := hcoherent.exists_extended?_of_mem hentry hslot
      exact ⟨second, entry, hfound⟩
    · rintro ⟨second, entry, hfound⟩
      exact hcoherent.slot?_eq_extended_of_extended? hfound
  · exact hcoherent.ncard_reachable
  · obtain ⟨entry, hentry, htype⟩ := htable.endMapped
    exact ⟨entry, hcoherent.entryOf?_eq_some_iff.mpr ⟨hentry, htype⟩⟩
  · rintro entry ⟨opcode, hfound⟩
    obtain ⟨hentry, _⟩ := hcoherent.lookup?_eq_some_iff.mp hfound
    have hbound := Entry.misfit?_eq_none_iff_bound.mp
      (hcoherent.suited entry hentry)
    refine ⟨hbound, ?_⟩
    cases entry.layout with
    | inOrder fields => simp [Layout.directive?]
    | special directive => simp [Layout.fields]
    | unknown rule => simp [Layout.fields]

theorem size_eq_of_ofRows
    {source : String} {rows : List Row} (hrows : ofRows source rows = .ok table) :
    table.size = rows.length :=
  (ofRows_entries hrows).length_eq.symm

/-- The lookups of a finished table agree, and they reach one entry for each row
that the table was built from. -/
theorem built_tables_are_consistent (source : String) (table : Table) :
    (∀ rows, ofRows source rows = .ok table →
      table.Consistent ∧ table.size = rows.length) ∧
    ∀ text, ofText source text = .ok table →
      table.Consistent ∧ table.size = (Row.ofText text).length := by
  constructor
  · intro rows hrows
    exact ⟨(wellFormed_of_ofRows hrows).consistent, size_eq_of_ofRows hrows⟩
  · intro text htext
    have hrows := (ofText_eq_ok_iff.mp htext).2
    exact ⟨(wellFormed_of_ofText htext).consistent, size_eq_of_ofRows hrows⟩

end Table

end Disassembly
