import Disassembly.Proofs.Recognition
import Disassembly.Proofs.Table.Equivalence
import Disassembly.Proofs.Table.StoredEntries

/-!
# Containers that stay in step

A stored table represents a list of entries if each of its maps answers as the
list does.  Inserting an entry into the containers and into the list has the same
outcome, and the containers represent the list again.  A refused entry leaves the
containers as they were: the only map that is added before the last check is an
empty one, in which every second byte is free.

Every stored table that is built represents the table that is built from the same
rows.  What is known of the lookups of that table then holds of the containers.
-/

namespace Disassembly

namespace Table

variable {table : Table} {entry : Entry} {lead second : UInt8} {type : InstructionType}

/-! ## Lookups behind an insertion -/

theorem entriesAt_append (table : Table) (entry : Entry) (lead : UInt8) :
    (Table.mk table.source (table.entries ++ [entry])).entriesAt lead =
      table.entriesAt lead ++ if entry.opcode.lead = lead then [entry] else [] := by
  unfold entriesAt
  rw [List.filter_append]
  by_cases hlead : entry.opcode.lead = lead <;> simp [hlead]

theorem slot?_append (table : Table) (entry : Entry) (lead : UInt8) :
    (Table.mk table.source (table.entries ++ [entry])).slot? lead =
      (table.slot? lead).or (if entry.opcode.lead = lead then
        some (if entry.opcode.second? = none then .single entry else .extended) else none) := by
  unfold slot?
  rw [entriesAt_append]
  cases table.entriesAt lead with
  | nil => by_cases hlead : entry.opcode.lead = lead <;> simp [hlead, apply_ite]
  | cons owner group => by_cases hsingle : owner.opcode.second? = none <;> simp [hsingle]

theorem extended?_append (table : Table) (entry : Entry) (lead second : UInt8) :
    (Table.mk table.source (table.entries ++ [entry])).extended? lead second =
      (table.extended? lead second).or
        (if entry.opcode = .extended lead second then some entry else none) := by
  have hopcode : entry.opcode = .extended lead second ↔
      entry.opcode.lead = lead ∧ entry.opcode.second? = some second := by
    obtain ⟨⟨entryLead, entrySecond⟩, type, layout⟩ := entry
    simp [Opcode.extended]
  unfold extended?
  rw [entriesAt_append, List.find?_append]
  congr 1
  by_cases hlead : entry.opcode.lead = lead
  · simp [hopcode, hlead, List.find?_singleton]
  · simp [hopcode, hlead]

theorem extended?_of_vacant (hslot : table.slot? lead = none) :
    table.extended? lead second = none := by
  have hvacant := slot?_eq_none_iff.mp hslot
  have hgroup : table.entriesAt lead = [] := by
    rw [List.eq_nil_iff_forall_not_mem]
    intro entry hentry
    obtain ⟨hmem, hlead⟩ := mem_entriesAt_iff.mp hentry
    exact hvacant entry hmem hlead
  rw [extended?, hgroup, List.find?_nil]

theorem entryOf?_append (table : Table) (entry : Entry) (type : InstructionType) :
    (Table.mk table.source (table.entries ++ [entry])).entryOf? type =
      (table.entryOf? type).or (if entry.type = type then some entry else none) := by
  unfold entryOf?
  rw [List.find?_append]
  congr 1
  simp [List.find?_singleton]

end Table

namespace Containers

variable {containers after : Containers} {table grown : Table} {source text : String}

/-! ## Insertions -/

section Insertions

variable {entry owner : StoredEntry} {entries : SecondaryMap} {second : UInt8}

/-- The containers with an entry in the primary map, the reverse map and the counter. -/
def register (containers : Containers) (entry : StoredEntry)
    (primary : FiniteMap UInt8 PrimarySlot) : Containers :=
  { containers with
    primary := primary
    opcodes := containers.opcodes.emplace entry.type.code (entry.lead, entry.second?)
    count := containers.count + 1 }

theorem get_apply (containers : Containers) :
    (get : Building Containers) containers = (.ok containers, containers) := rfl

theorem modify_apply (f : Containers → Containers) (containers : Containers) :
    (modify f : Building Unit) containers = (.ok (), f containers) := rfl

theorem throw_apply {α : Type} (fault : TableFault) (containers : Containers) :
    (throw fault : Building α) containers = (.error fault, containers) := rfl

theorem insertEntry_of_taken (htaken : containers.opcodes.contains entry.type.code) :
    insertEntry entry containers = (.error (.mappedTwice entry.type), containers) := by
  simp only [insertEntry, bind_apply, get_apply, htaken, if_pos, throw_apply]

variable (hfree : containers.opcodes.contains entry.type.code = false)
include hfree

theorem insertEntry_of_vacant (hsecond : entry.second? = none)
    (hslot : containers.slot? entry.lead = none) :
    insertEntry entry containers =
      (.ok (), containers.register entry
        (containers.primary.emplace entry.lead (.terminal entry))) := by
  simp [insertEntry, bind_apply, get_apply, hfree, hsecond, hslot, modify_apply, register]

theorem insertEntry_of_terminal (owner : StoredEntry) (hsecond : entry.second? = none)
    (hslot : containers.slot? entry.lead = some (.terminal owner)) :
    insertEntry entry containers =
      (.error (.opcodeTaken entry.opcode owner.type), containers) := by
  simp [insertEntry, bind_apply, get_apply, hfree, hsecond, hslot, throw_apply]

theorem insertEntry_of_extended (hsecond : entry.second? = none)
    (hslot : containers.slot? entry.lead = some (.extended entries)) :
    insertEntry entry containers = (.error (.usedAsLead entry.lead), containers) := by
  simp [insertEntry, bind_apply, get_apply, hfree, hsecond, hslot, throw_apply]

theorem insertEntry_of_newLead (hsecond : entry.second? = some second)
    (hslot : containers.slot? entry.lead = none) :
    insertEntry entry containers =
      (.ok (), containers.register entry
        ((containers.primary.emplace entry.lead (.extended .empty)).change entry.lead
          (PrimarySlot.emplace second entry))) := by
  simp [insertEntry, bind_apply, get_apply, hfree, hsecond, hslot, modify_apply, register]

theorem insertEntry_of_terminalLead (owner : StoredEntry) (hsecond : entry.second? = some second)
    (hslot : containers.slot? entry.lead = some (.terminal owner)) :
    insertEntry entry containers =
      (.error (.leadTaken entry.lead owner.type), containers) := by
  simp [insertEntry, bind_apply, get_apply, hfree, hsecond, hslot, throw_apply]

theorem insertEntry_of_takenSecond (hsecond : entry.second? = some second)
    (hslot : containers.slot? entry.lead = some (.extended entries))
    (howner : entries.find? second = some owner) :
    insertEntry entry containers =
      (.error (.opcodeTaken entry.opcode owner.type), containers) := by
  simp [insertEntry, bind_apply, get_apply, hfree, hsecond, hslot, howner, throw_apply]

theorem insertEntry_of_freeSecond (hsecond : entry.second? = some second)
    (hslot : containers.slot? entry.lead = some (.extended entries))
    (hnone : entries.find? second = none) :
    insertEntry entry containers =
      (.ok (), containers.register entry
        (containers.primary.change entry.lead (PrimarySlot.emplace second entry))) := by
  simp [insertEntry, bind_apply, get_apply, hfree, hsecond, hslot, hnone, modify_apply, register]

end Insertions

/-! ## Representation -/

/-- What a slot of the primary map holds, where `next` finds entries by their second bytes. -/
inductive Holds (next : UInt8 → Option Entry) : Option PrimarySlot → Option Slot → Prop
  | vacant : Holds next none none
  | terminal (entry : Entry) : Holds next (some (.terminal entry.stored)) (some (.single entry))
  | extended {entries : SecondaryMap}
      (hentries : ∀ second, entries.find? second = (next second).map Entry.stored) :
      Holds next (some (.extended entries)) (some .extended)

/-- Every container answers as the list of entries does. -/
structure Represents (containers : Containers) (table : Table) : Prop where
  source : containers.source = table.source
  count : containers.count = table.size
  opcode : ∀ type : InstructionType, containers.opcodes.find? type.code =
    (table.entryOf? type).map fun entry => (entry.opcode.lead, entry.opcode.second?)
  slot : ∀ lead, Holds (table.extended? lead) (containers.slot? lead) (table.slot? lead)

theorem represents_empty (source : String) : (empty source).Represents (.empty source) :=
  ⟨rfl, rfl, fun _ => rfl, fun _ => .vacant⟩

/-- A step on containers and on a list of entries: both accept, and then the containers
represent the list again, or both refuse for the same fault and the containers are unchanged. -/
inductive InStep (containers : Containers) :
    Except TableFault Unit × Containers → Except TableFault Table → Prop
  | accepted {after : Containers} {grown : Table} (hrep : after.Represents grown) :
      InStep containers (.ok (), after) (.ok grown)
  | refused {fault : TableFault} : InStep containers (.error fault, containers) (.error fault)

section Steps

variable {entry : Entry} {second : UInt8} {primary : FiniteMap UInt8 PrimarySlot}

/-- A registered entry is represented if its slot is, and if no other slot has changed. -/
theorem Represents.register
    (hrep : containers.Represents table) (hnone : table.entryOf? entry.type = none)
    (hgrown : grown = ⟨table.source, table.entries ++ [entry]⟩)
    (hslot : Holds (grown.extended? entry.opcode.lead) (primary.find? entry.opcode.lead)
      (grown.slot? entry.opcode.lead))
    (hothers : ∀ lead ≠ entry.opcode.lead, primary.find? lead = containers.slot? lead) :
    (containers.register entry.stored primary).Represents grown := by
  subst hgrown
  refine ⟨hrep.source, ?_, fun type => ?_, fun lead => ?_⟩
  · simpa [Containers.register, Table.size] using hrep.count
  · have htypes : type.code = entry.stored.type.code ↔ entry.type = type := by
      constructor
      · intro hcode
        exact (congrArg InstructionType.mk hcode).symm
      · rintro rfl
        rfl
    have hkey : containers.opcodes.find? entry.stored.type.code = none := by
      exact (hrep.opcode entry.type).trans (by rw [hnone, Option.map_none])
    rw [Table.entryOf?_append, Containers.register, FiniteMap.find?_emplace, hkey, hrep.opcode]
    by_cases htype : entry.type = type
    · rw [if_pos (htypes.mpr htype), if_pos htype, ← htype, hnone]
      rfl
    · rw [if_neg (mt htypes.mp htype), if_neg htype, Option.or_none]
  · by_cases hlead : lead = entry.opcode.lead
    · subst hlead
      exact hslot
    · have hother : entry.opcode.lead ≠ lead := Ne.symm hlead
      have hnext : Table.extended? ⟨table.source, table.entries ++ [entry]⟩ lead =
          table.extended? lead := by
        funext second
        have hopcode : entry.opcode ≠ .extended lead second := by
          intro hopcode
          exact hother (congrArg Opcode.lead hopcode)
        rw [Table.extended?_append, if_neg hopcode, Option.or_none]
      rw [Table.slot?_append, if_neg hother, Option.or_none, hnext]
      change Holds _ (primary.find? lead) _
      rw [hothers lead hlead]
      exact hrep.slot lead

/-- Inserting an opcode of one byte. -/
theorem Represents.inserts_single
    (hrep : containers.Represents table) (hnone : table.entryOf? entry.type = none)
    (hfree : containers.opcodes.contains entry.type.code = false)
    (hsecond : entry.opcode.second? = none) :
    InStep containers (insertEntry entry.stored containers) (table.insert entry) := by
  have hslot := hrep.slot entry.opcode.lead
  unfold Table.insert Table.conflict?
  rw [hnone, Option.isSome_none, if_neg Bool.false_ne_true, hsecond]
  generalize hfound : containers.slot? entry.opcode.lead = found at hslot
  generalize hlisted : table.slot? entry.opcode.lead = listed at hslot
  cases hslot with
  | vacant =>
      rw [insertEntry_of_vacant hfree hsecond hfound]
      refine .accepted (hrep.register hnone rfl ?_ fun lead hlead => ?_)
      · have hkey : containers.primary.find? entry.opcode.lead = none := hfound
        have hprimary : (containers.primary.emplace entry.stored.lead
            (.terminal entry.stored)).find? entry.opcode.lead =
              some (.terminal entry.stored) := by
          simp [Entry.stored, hkey]
        rw [hprimary, Table.slot?_append, hlisted, if_pos rfl, if_pos hsecond, Option.none_or]
        exact .terminal entry
      · exact (FiniteMap.find?_emplace _ _ _ _).trans (if_neg hlead)
  | terminal owner =>
      rw [insertEntry_of_terminal hfree owner.stored hsecond hfound]
      exact .refused
  | extended =>
      rw [insertEntry_of_extended hfree hsecond hfound]
      exact .refused

/-- Inserting an opcode of two bytes. -/
theorem Represents.inserts_extended
    (hrep : containers.Represents table) (hnone : table.entryOf? entry.type = none)
    (hfree : containers.opcodes.contains entry.type.code = false)
    (hsecond : entry.opcode.second? = some second) :
    InStep containers (insertEntry entry.stored containers) (table.insert entry) := by
  have hslot := hrep.slot entry.opcode.lead
  have hopcode : entry.opcode = .extended entry.opcode.lead second := Opcode.eq_extended hsecond
  have hopcodes (other : UInt8) :
      entry.opcode = .extended entry.opcode.lead other ↔ second = other := by
    rw [hopcode]
    simp [Opcode.extended]
  unfold Table.insert Table.conflict?
  rw [hnone, Option.isSome_none, if_neg Bool.false_ne_true, hsecond]
  generalize hfound : containers.slot? entry.opcode.lead = found at hslot
  generalize hlisted : table.slot? entry.opcode.lead = listed at hslot
  have hkey : containers.primary.find? entry.opcode.lead = found := hfound
  cases hslot with
  | vacant =>
      rw [insertEntry_of_newLead hfree hsecond hfound]
      refine .accepted (hrep.register hnone rfl ?_ fun lead hlead => ?_)
      · have hprimary : ((containers.primary.emplace entry.stored.lead
            (.extended .empty)).change entry.stored.lead
              (PrimarySlot.emplace second entry.stored)).find? entry.opcode.lead =
                some (.extended (FiniteMap.emplace .empty second entry.stored)) := by
          simp [Entry.stored, hkey, PrimarySlot.emplace]
        have hlong : entry.opcode.second? ≠ none := by simp [hsecond]
        rw [hprimary, Table.slot?_append, hlisted, if_pos rfl, if_neg hlong, Option.none_or]
        refine .extended fun other => ?_
        rw [Table.extended?_append, Table.extended?_of_vacant hlisted, Option.none_or,
          FiniteMap.find?_emplace]
        simp only [hopcodes]
        by_cases hother : second = other <;> simp [hother, eq_comm]
      · refine (FiniteMap.find?_change _ _ _ _).trans ((if_neg hlead).trans ?_)
        exact (FiniteMap.find?_emplace _ _ _ _).trans (if_neg hlead)
  | terminal owner =>
      rw [insertEntry_of_terminalLead hfree owner.stored hsecond hfound]
      exact .refused
  | @extended entries hentries =>
      dsimp only
      cases hnext : table.extended? entry.opcode.lead second with
      | some owner =>
          have howner : entries.find? second = some owner.stored := by
            rw [hentries, hnext, Option.map_some]
          rw [insertEntry_of_takenSecond hfree hsecond hfound howner]
          exact .refused
      | none =>
          have hvacant : entries.find? second = none := by
            rw [hentries, hnext, Option.map_none]
          rw [insertEntry_of_freeSecond hfree hsecond hfound hvacant]
          refine .accepted (hrep.register hnone rfl ?_ fun lead hlead => ?_)
          · have hprimary : (containers.primary.change entry.stored.lead
                (PrimarySlot.emplace second entry.stored)).find? entry.opcode.lead =
                  some (.extended (entries.emplace second entry.stored)) := by
              simp [Entry.stored, hkey, PrimarySlot.emplace]
            rw [hprimary, Table.slot?_append, hlisted, Option.some_or]
            refine .extended fun other => ?_
            rw [Table.extended?_append, FiniteMap.find?_emplace, hentries other]
            simp only [hopcodes]
            by_cases hother : second = other
            · simp [← hother, hvacant, hnext]
            · simp [hother, Ne.symm hother]
          · exact (FiniteMap.find?_change _ _ _ _).trans (if_neg hlead)

/-- One step keeps the containers and the list in step. -/
theorem Represents.inserts (hrep : containers.Represents table) (entry : Entry) :
    InStep containers (insertEntry entry.stored containers) (table.insert entry) := by
  have hkey : containers.opcodes.contains entry.type.code =
      (table.entryOf? entry.type).isSome := by
    rw [FiniteMap.contains, hrep.opcode, Option.isSome_map]
  cases hnone : table.entryOf? entry.type with
  | some owner =>
      have hrefused : table.insert entry = .error (.mappedTwice entry.type) := by
        simp [Table.insert, Table.conflict?, hnone]
      rw [hnone, Option.isSome_some] at hkey
      rw [hrefused, insertEntry_of_taken hkey]
      exact .refused
  | none =>
      rw [hnone, Option.isSome_none] at hkey
      cases hsecond : entry.opcode.second? with
      | none => exact hrep.inserts_single hnone hkey hsecond
      | some second => exact hrep.inserts_extended hnone hkey hsecond

/-- A row keeps the containers and the list in step. -/
theorem Represents.insertRow (hrep : containers.Represents table) (row : Row) :
    InStep containers (insertRow row containers) (table.insertRow row) := by
  have hrow : Containers.insertRow row containers =
      (liftM (StoredEntry.ofRow row) >>= insertEntry : Building Unit) containers := rfl
  rw [hrow, StoredEntry.ofRow_eq, Table.insertRow]
  cases Entry.ofRow row with
  | error fault => exact .refused
  | ok entry => exact hrep.inserts entry

/-- A line keeps the containers and the list in step. -/
theorem Represents.addLine (hrep : containers.Represents table) (line : String) :
    InStep containers (addLine line containers) (table.addLine line) := by
  unfold Containers.addLine Table.addLine
  cases Row.ofLine? line with
  | error fault => exact .refused
  | ok row? =>
      cases row? with
      | none => exact .accepted hrep
      | some row => exact hrep.insertRow row

end Steps

/-! ## Runs -/

/-- The stored table represents the one that was built, or both are refused with one error.
No access goes wrong. -/
inductive Agrees : Except StorageError Containers → Except TableError Table → Prop
  | built {containers : Containers} {table : Table} (hrep : containers.Represents table) :
      Agrees (.ok containers) (.ok table)
  | refused {error : TableError} : Agrees (.error (.refused error)) (.error error)

/-- What each piece keeps in step, all pieces keep in step. -/
theorem Represents.addAll {α : Type} {add : α → Building Unit}
    {addListed : Table → α → Except TableFault Table}
    (hadd : ∀ {containers table}, containers.Represents table → ∀ piece,
      InStep containers (add piece containers) (addListed table piece))
    {pieces : List (α × UInt32)} (hrep : containers.Represents table) :
    Agrees (addAll add containers pieces) (Table.addAll addListed table pieces) := by
  induction pieces generalizing containers table with
  | nil => exact .built hrep
  | cons numbered pieces ih =>
      obtain ⟨piece, line⟩ := numbered
      have hstep := hadd hrep piece
      unfold Containers.addAll Table.addAll
      generalize add piece containers = outcome at hstep
      generalize addListed table piece = listed at hstep
      cases hstep with
      | accepted hafter => exact ih hafter
      | refused =>
          rw [hrep.source]
          exact .refused

/-- The entry of a type is found where the reverse map says, if the list is coherent. -/
theorem Represents.entryOf_eq (hrep : containers.Represents table) (htable : table.Coherent)
    (type : InstructionType) :
    containers.entryOf type = .ok ((table.entryOf? type).map Entry.stored) := by
  unfold entryOf
  rw [hrep.opcode]
  cases hfound : table.entryOf? type with
  | none => rfl
  | some entry =>
      obtain ⟨hentry, -⟩ := htable.entryOf?_eq_some_iff.mp hfound
      have hslot := hrep.slot entry.opcode.lead
      cases hsecond : entry.opcode.second? with
      | none =>
          have hsingle : entry.opcode = .single entry.opcode.lead := Opcode.eq_single hsecond
          rw [htable.slot?_eq_single_iff.mpr ⟨hentry, hsingle⟩] at hslot
          simp only [Option.map_some, hsecond]
          generalize containers.slot? entry.opcode.lead = found at hslot
          cases hslot
          rfl
      | some second =>
          have hlong : entry.opcode = .extended entry.opcode.lead second :=
            Opcode.eq_extended hsecond
          have hnext := htable.extended?_eq_some_iff.mpr ⟨hentry, hlong⟩
          have hlead : table.slot? entry.opcode.lead = some .extended :=
            htable.slot?_eq_extended_of_extended? hnext
          rw [hlead] at hslot
          simp only [Option.map_some, hsecond, extended?]
          generalize containers.slot? entry.opcode.lead = found at hslot
          cases hslot with
          | extended hentries =>
              have hstored := hentries second
              rw [hnext, Option.map_some] at hstored
              exact congrArg Except.ok hstored

theorem Represents.finish (hrep : containers.Represents table) (htable : table.Coherent) :
    Agrees containers.finish table.finish := by
  unfold Containers.finish Table.finish
  rw [hrep.entryOf_eq htable]
  cases table.entryOf? .blockEnd with
  | none =>
      rw [Option.isSome_none, if_neg Bool.false_ne_true, hrep.source]
      exact .refused
  | some entry => exact .built hrep

/-- Pieces that are added in step to nothing make tables that agree. -/
theorem agrees_finish {α : Type} {add : α → Building Unit}
    {addListed : Table → α → Except TableFault Table}
    (hadd : ∀ {containers table}, containers.Represents table → ∀ piece,
      InStep containers (add piece containers) (addListed table piece))
    (hkeeps : ∀ table piece grown, table.Coherent → addListed table piece = .ok grown →
      grown.Coherent) (source : String) (pieces : List (α × UInt32)) :
    Agrees (do finish (← addAll add (empty source) pieces))
      (do Table.finish (← Table.addAll addListed (.empty source) pieces)) := by
  have hpieces : Agrees (addAll add (empty source) pieces)
      (Table.addAll addListed (.empty source) pieces) :=
    (represents_empty source).addAll hadd
  generalize addAll add (empty source) pieces = stored at hpieces
  generalize hlisted : Table.addAll addListed (.empty source) pieces = listed at hpieces
  cases hpieces with
  | built hrep =>
      exact hrep.finish (Table.addAll_induction hkeeps (Table.coherent_empty source) hlisted)
  | refused => exact .refused

theorem ofRows_agrees (source : String) (rows : List Row) :
    Agrees (ofRows source rows) (Table.ofRows source rows) :=
  agrees_finish Represents.insertRow (fun _ _ _ htable => htable.insertRow) source
    (Table.numbered 1 rows)

theorem ofText_agrees (source text : String) :
    Agrees (ofText source text) (Table.ofText source text) :=
  agrees_finish Represents.addLine (fun _ _ _ htable => htable.addLine) source
    (Table.numbered 1 (Text.lines text))

theorem ofBrokenText_agrees (source text : String) (size : Nat) :
    Agrees (ofBrokenText source text size) (Table.ofBrokenText source text size) := by
  have hlines (pieces : List (String × UInt32)) :
      Agrees (addAll addLine (empty source) pieces)
        (Table.addAll Table.addLine (.empty source) pieces) :=
    (represents_empty source).addAll Represents.addLine
  have hpieces := hlines (Table.numbered 1 (Text.completeLines (Text.firstBytes size text)))
  unfold ofBrokenText Table.ofBrokenText
  dsimp only
  generalize addAll addLine (empty source) _ = stored at hpieces
  generalize Table.addAll Table.addLine (.empty source) _ = listed at hpieces
  cases hpieces with
  | built => exact .refused
  | refused => exact .refused

theorem Agrees.exists_represents {listed : Except TableError Table}
    (hagrees : Agrees (.ok containers) listed) :
    ∃ table, listed = .ok table ∧ containers.Represents table := by
  cases hagrees with
  | built hrep => exact ⟨_, rfl, hrep⟩

theorem Agrees.not_broken {fault : StorageFault} {listed : Except TableError Table} :
    ¬ Agrees (.error (.broken fault)) listed := by
  intro hagrees
  cases hagrees

/-! ## Consistency -/

/-- The entries that lookups reach. -/
def reachable (containers : Containers) : Set StoredEntry :=
  {entry | (∃ lead, containers.slot? lead = some (.terminal entry)) ∨
    ∃ lead second, containers.extended? lead second = some entry}

/-- The maps and the counter are in step.  Every access succeeds, every lookup gives an entry
that stores the bytes it was looked up by, and every lead byte of longer opcodes has one. -/
structure Consistent (containers : Containers) : Prop where
  terminal : ∀ lead entry, containers.slot? lead = some (.terminal entry) →
    entry.opcode = .single lead ∧ containers.entryOf entry.type = .ok (some entry)
  extended : ∀ lead second entry, containers.extended? lead second = some entry →
    entry.opcode = .extended lead second ∧ containers.entryOf entry.type = .ok (some entry)
  typed : ∀ type, containers.entryOf type = .ok none ∨
    ∃ entry, containers.entryOf type = .ok (some entry) ∧ entry.type = type ∧
      (containers.slot? entry.lead = some (.terminal entry) ∨
        ∃ second, entry.second? = some second ∧
          containers.extended? entry.lead second = some entry)
  apart : ∀ lead entry, containers.slot? lead = some (.terminal entry) →
    ∀ second, containers.extended? lead second = none
  continued : ∀ lead entries, containers.slot? lead = some (.extended entries) →
    ∃ second entry, entries.find? second = some entry
  counted : containers.reachable.ncard = containers.count
  endMapped : ∃ entry, containers.entryOf .blockEnd = .ok (some entry)
  bound : ∀ entry ∈ containers.reachable, entry.Bound

section Lookups

variable {lead second : UInt8} {stored : StoredEntry}

theorem Represents.slot?_eq_terminal_iff (hrep : containers.Represents table) :
    containers.slot? lead = some (.terminal stored) ↔
      ∃ entry, table.slot? lead = some (.single entry) ∧ stored = entry.stored := by
  have hslot := hrep.slot lead
  generalize containers.slot? lead = found at hslot
  generalize table.slot? lead = listed at hslot
  cases hslot <;> simp [eq_comm]

theorem Represents.extended?_eq (hrep : containers.Represents table) (htable : table.Coherent) :
    containers.extended? lead second = (table.extended? lead second).map Entry.stored := by
  have hslot := hrep.slot lead
  have hfound {entry : Entry} (hnext : table.extended? lead second = some entry) :
      table.slot? lead = some .extended :=
    htable.slot?_eq_extended_of_extended? hnext
  unfold extended?
  generalize containers.slot? lead = found at hslot
  generalize hlisted : table.slot? lead = listed at hslot
  cases hslot with
  | vacant => rw [Table.extended?_of_vacant hlisted, Option.map_none]
  | terminal owner =>
      cases hnext : table.extended? lead second with
      | none => rfl
      | some entry => simp [hfound hnext] at hlisted
  | extended hentries => exact hentries second

/-- The lookups of the containers reach the entries of the list. -/
theorem Represents.reachable_eq (hrep : containers.Represents table) (htable : table.Coherent) :
    containers.reachable = Entry.stored '' table.reachable := by
  ext stored
  simp only [reachable, Set.mem_ofPred_eq, hrep.slot?_eq_terminal_iff, hrep.extended?_eq htable,
    Option.map_eq_some_iff, Set.mem_image, Table.reachable, htable.lookup?_eq_some_iff,
    htable.slot?_eq_single_iff, htable.extended?_eq_some_iff]
  constructor
  · rintro (⟨lead, entry, ⟨hentry, -⟩, rfl⟩ | ⟨lead, second, entry, ⟨hentry, -⟩, rfl⟩)
    · exact ⟨entry, ⟨_, hentry, rfl⟩, rfl⟩
    · exact ⟨entry, ⟨_, hentry, rfl⟩, rfl⟩
  · rintro ⟨entry, ⟨_, hentry, rfl⟩, rfl⟩
    cases hsecond : entry.opcode.second? with
    | none =>
        have hopcode : entry.opcode = .single entry.opcode.lead := Opcode.eq_single hsecond
        exact .inl ⟨_, entry, ⟨hentry, hopcode⟩, rfl⟩
    | some second =>
        have hopcode : entry.opcode = .extended entry.opcode.lead second :=
          Opcode.eq_extended hsecond
        exact .inr ⟨_, second, entry, ⟨hentry, hopcode⟩, rfl⟩

/-- The containers are printed like the list. -/
theorem Represents.text_eq (hrep : containers.Represents table) :
    containers.text = table.text := by
  have hlead (lead : UInt8) :
      containers.orderedAt lead = (table.orderedAt lead).map Entry.stored := by
    have hslot := hrep.slot lead
    unfold orderedAt Table.orderedAt
    generalize containers.slot? lead = found at hslot
    generalize table.slot? lead = listed at hslot
    cases hslot with
    | vacant => rfl
    | terminal entry => rfl
    | extended hentries =>
        dsimp only
        rw [Table.secondBytes_eq, List.map_filterMap, List.filterMap_filter]
        refine List.filterMap_congr fun second _ => ?_
        rw [hentries]
        cases table.extended? lead second <;> rfl
  have hordered : containers.ordered = table.ordered.map Entry.stored := by
    rw [Table.ordered_eq, List.map_flatMap, ordered]
    exact List.flatMap_congr fun lead _ => hlead lead
  rw [text, Table.text, hordered, List.map_map]
  refine congrArg String.join (List.map_congr_left fun entry _ => ?_)
  rw [Function.comp_apply, StoredEntry.text_stored]

end Lookups

/-- Containers that represent a finished table are consistent. -/
theorem Represents.consistent (hrep : containers.Represents table) (htable : table.WellFormed) :
    containers.Consistent := by
  have hcoherent := htable.toCoherent
  have hlisted := htable.consistent
  have hentryOf (entry : Entry) (hentry : table.entryOf? entry.type = some entry) :
      containers.entryOf entry.stored.type = .ok (some entry.stored) := by
    have hfound := hrep.entryOf_eq hcoherent entry.type
    rwa [hentry, Option.map_some] at hfound
  constructor
  · intro lead stored hslot
    obtain ⟨entry, hsingle, rfl⟩ := hrep.slot?_eq_terminal_iff.mp hslot
    obtain ⟨hopcode, htype⟩ := hlisted.single lead entry hsingle
    exact ⟨hopcode, hentryOf entry htype⟩
  · intro lead second stored hfound
    rw [hrep.extended?_eq hcoherent, Option.map_eq_some_iff] at hfound
    obtain ⟨entry, hnext, rfl⟩ := hfound
    obtain ⟨hopcode, htype⟩ := hlisted.extended lead second entry hnext
    exact ⟨hopcode, hentryOf entry htype⟩
  · intro type
    rw [hrep.entryOf_eq hcoherent]
    cases hfound : table.entryOf? type with
    | none => exact .inl rfl
    | some entry =>
        obtain ⟨hentry, htype⟩ := hcoherent.entryOf?_eq_some_iff.mp hfound
        refine .inr ⟨entry.stored, rfl, htype, ?_⟩
        cases hsecond : entry.opcode.second? with
        | none =>
            have hopcode : entry.opcode = .single entry.opcode.lead := Opcode.eq_single hsecond
            have hsingle := hcoherent.slot?_eq_single_iff.mpr ⟨hentry, hopcode⟩
            exact .inl (hrep.slot?_eq_terminal_iff.mpr ⟨entry, hsingle, rfl⟩)
        | some second =>
            have hopcode : entry.opcode = .extended entry.opcode.lead second :=
              Opcode.eq_extended hsecond
            have hnext := hcoherent.extended?_eq_some_iff.mpr ⟨hentry, hopcode⟩
            refine .inr ⟨second, hsecond, ?_⟩
            rw [hrep.extended?_eq hcoherent, Option.map_eq_some_iff]
            exact ⟨entry, hnext, rfl⟩
  · intro lead stored hslot second
    obtain ⟨entry, hsingle, rfl⟩ := hrep.slot?_eq_terminal_iff.mp hslot
    rw [hrep.extended?_eq hcoherent, hlisted.apart lead entry hsingle second, Option.map_none]
  · intro lead entries hslot
    have hholds := hrep.slot lead
    rw [hslot] at hholds
    generalize hlead : table.slot? lead = slot at hholds
    cases hholds with
    | extended hentries =>
        obtain ⟨second, entry, hnext⟩ := (hlisted.continued lead).mp hlead
        exact ⟨second, entry.stored, by rw [hentries, hnext, Option.map_some]⟩
  · rw [hrep.reachable_eq hcoherent, Set.ncard_image_of_injective _ Entry.stored_injective,
      hlisted.counted, hrep.count]
  · obtain ⟨entry, hend⟩ := hlisted.endMapped
    exact ⟨entry.stored, by rw [hrep.entryOf_eq hcoherent, hend, Option.map_some]⟩
  · rw [hrep.reachable_eq hcoherent]
    rintro _ ⟨entry, hentry, rfl⟩
    refine (hlisted.bound entry hentry).1.stored (hcoherent.known entry ?_)
    rwa [hcoherent.reachable_eq, Finset.mem_coe, List.mem_toFinset] at hentry

/-- Stored tables that are built represent the list of their entries and are consistent, with
one entry for each row.  Building them never accesses what is not there. -/
theorem built_containers_stay_in_step (source : String) :
    (∀ rows containers, ofRows source rows = .ok containers →
      containers.Consistent ∧ containers.count = rows.length ∧
        ∃ table, Table.ofRows source rows = .ok table ∧ containers.Represents table) ∧
    (∀ text containers, ofText source text = .ok containers →
      containers.Consistent ∧ containers.count = (Row.ofText text).length ∧
        ∃ table, Table.ofText source text = .ok table ∧ containers.Represents table) ∧
    ∀ fault, (∀ rows, ofRows source rows ≠ .error (.broken fault)) ∧
      ∀ text, ofText source text ≠ .error (.broken fault) := by
  refine ⟨fun rows containers hrows => ?_, fun text containers htext => ?_, fun fault => ⟨?_, ?_⟩⟩
  · have hagrees := ofRows_agrees source rows
    rw [hrows] at hagrees
    obtain ⟨table, hlisted, hrep⟩ := hagrees.exists_represents
    refine ⟨hrep.consistent (Table.wellFormed_of_ofRows hlisted), ?_, table, hlisted, hrep⟩
    exact hrep.count.trans (Table.size_eq_of_ofRows hlisted)
  · have hagrees := ofText_agrees source text
    rw [htext] at hagrees
    obtain ⟨table, hlisted, hrep⟩ := hagrees.exists_represents
    refine ⟨hrep.consistent (Table.wellFormed_of_ofText hlisted), ?_, table, hlisted, hrep⟩
    exact hrep.count.trans (Table.size_eq_of_ofRows (Table.ofText_eq_ok_iff.mp hlisted).2)
  · intro rows hbroken
    exact Agrees.not_broken (hbroken ▸ ofRows_agrees source rows)
  · intro text hbroken
    exact Agrees.not_broken (hbroken ▸ ofText_agrees source text)

/-- An extended opcode and a single one, as rows and on lines with comments. -/
theorem containers_of_rows_and_lines :
    let rows : List Row :=
      [⟨.extended 0xFC 0x08, "memory.init", "dataidx memidx"⟩, ⟨.single 0x0B, "end", ""⟩]
    let text := "# two\n252 8 memory.init dataidx\tmemidx\n\n0x0b end # closes"
    let init : StoredEntry := ⟨0xFC, some 0x08, ⟨57⟩, .inOrder,
      [⟨FieldCode.indexKind, .dataSegments⟩, ⟨FieldCode.indexKind, .memories⟩]⟩
    let stored (source : String) : Containers := ⟨source,
      ⟨[(0x0B, .terminal ⟨0x0B, none, .blockEnd, .inOrder, []⟩),
        (0xFC, .extended ⟨[(0x08, init)]⟩)]⟩,
      ⟨[(6, 0x0B, none), (57, 0xFC, some 0x08)]⟩, 2⟩
    (ofRows "rows" rows = .ok (stored "rows") ∧ (stored "rows").Consistent) ∧
      ofText "lines" text = .ok (stored "lines") ∧ (stored "lines").Consistent := by
  intro rows text init stored
  have hrows : ofRows "rows" rows = .ok (stored "rows") := by decide +kernel
  have htext : ofText "lines" text = .ok (stored "lines") := by decide +kernel
  have hbuilt := (built_containers_stay_in_step "rows").1 rows (stored "rows") hrows
  have hread := (built_containers_stay_in_step "lines").2.1 text (stored "lines") htext
  exact ⟨⟨hrows, hbuilt.1⟩, htext, hread.1⟩

end Containers

end Disassembly
