import Disassembly.Proofs.Table.Wording
import Disassembly.Table.Text

/-!
# The invariant of opcode tables

Any two entries of a table that was built have different types, and they are
told apart by their opcodes even if the second byte is read only after the
first one was looked up.  Every entry has a layout that words can name and that
suits its type, and one of them ends blocks.

Under this invariant a lookup finds an entry exactly if the table lists it.
-/

namespace Disassembly

/-! ## Entries that fit together -/

/-- Neither opcode is the other one or a lead byte of it. -/
def Opcode.Apart (first second : Opcode) : Prop :=
  first.lead = second.lead →
    first.second? ≠ none ∧ second.second? ≠ none ∧
      first.second? ≠ second.second?

def Entry.Apart (first second : Entry) : Prop :=
  first.type ≠ second.type ∧ first.opcode.Apart second.opcode

theorem Entry.Apart.symm {first second : Entry} (hapart : first.Apart second) :
    second.Apart first := by
  refine ⟨hapart.1.symm, fun hlead => ?_⟩
  obtain ⟨hfirst, hsecond, hdiffer⟩ := hapart.2 hlead.symm
  exact ⟨hsecond, hfirst, hdiffer.symm⟩

instance : Std.Symm Entry.Apart :=
  ⟨fun _ _ => Entry.Apart.symm⟩

namespace Table

/-- What every step of building a table keeps. -/
structure Coherent (table : Table) : Prop where
  apart : table.entries.Pairwise Entry.Apart
  known : ∀ entry ∈ table.entries, entry.layout.Known
  suited : ∀ entry ∈ table.entries, entry.misfit? = none

/-- What a finished table fulfils. -/
structure WellFormed (table : Table) : Prop extends table.Coherent where
  endMapped : ∃ entry ∈ table.entries, entry.type = .blockEnd

/-- A table that was built from rows or from text. -/
def Accepted (table : Table) : Prop :=
  (∃ source rows, ofRows source rows = .ok table) ∨
    ∃ source text, ofText source text = .ok table

variable {table : Table}

theorem Coherent.apart_of_mem
    (htable : table.Coherent) {first second : Entry}
    (hfirst : first ∈ table.entries) (hsecond : second ∈ table.entries)
    (hne : first ≠ second) : first.Apart second :=
  htable.apart.forall hfirst hsecond hne

theorem Coherent.eq_of_type_eq
    (htable : table.Coherent) {first second : Entry}
    (hfirst : first ∈ table.entries) (hsecond : second ∈ table.entries)
    (htype : first.type = second.type) : first = second := by
  by_contra hne
  exact (htable.apart_of_mem hfirst hsecond hne).1 htype

theorem Coherent.eq_of_opcode_eq
    (htable : table.Coherent) {first second : Entry}
    (hfirst : first ∈ table.entries) (hsecond : second ∈ table.entries)
    (hopcode : first.opcode = second.opcode) : first = second := by
  by_contra hne
  have hapart := (htable.apart_of_mem hfirst hsecond hne).2
  exact (hapart (by rw [hopcode])).2.2 (by rw [hopcode])

theorem Coherent.eq_of_single
    (htable : table.Coherent) {first second : Entry}
    (hfirst : first ∈ table.entries) (hsecond : second ∈ table.entries)
    (hlead : first.opcode.lead = second.opcode.lead)
    (hsingle : first.opcode.second? = none) : first = second := by
  by_contra hne
  exact ((htable.apart_of_mem hfirst hsecond hne).2 hlead).1 hsingle

/-! ## Lookups -/

theorem mem_entriesAt_iff {lead : UInt8} {entry : Entry} :
    entry ∈ table.entriesAt lead ↔
      entry ∈ table.entries ∧ entry.opcode.lead = lead := by
  simp [entriesAt]

theorem find?_eq_some_iff_of_unique
    {α : Type} {holds : α → Bool} {xs : List α} {x : α}
    (hunique : ∀ y ∈ xs, holds y → x ∈ xs → holds x → y = x) :
    xs.find? holds = some x ↔ x ∈ xs ∧ holds x := by
  constructor
  · intro hfind
    exact ⟨List.mem_of_find?_eq_some hfind, List.find?_some hfind⟩
  · rintro ⟨hmem, hholds⟩
    cases hfind : xs.find? holds with
    | none =>
        have hnone := List.find?_eq_none.mp hfind x hmem
        exact absurd hholds hnone
    | some y =>
        rw [hunique y (List.mem_of_find?_eq_some hfind)
          (List.find?_some hfind) hmem hholds]

theorem Coherent.entryOf?_eq_some_iff
    (htable : table.Coherent) {type : InstructionType} {entry : Entry} :
    table.entryOf? type = some entry ↔
      entry ∈ table.entries ∧ entry.type = type := by
  unfold entryOf?
  rw [find?_eq_some_iff_of_unique]
  · simp
  · intro other hother htype hentry hsame
    exact htable.eq_of_type_eq hother hentry (by simp_all)

theorem Coherent.extended?_eq_some_iff
    (htable : table.Coherent) {lead second : UInt8} {entry : Entry} :
    table.extended? lead second = some entry ↔
      entry ∈ table.entries ∧ entry.opcode = .extended lead second := by
  unfold extended?
  rw [find?_eq_some_iff_of_unique]
  · rw [mem_entriesAt_iff, decide_eq_true_iff, and_assoc]
    rcases entry with ⟨⟨entryLead, entrySecond⟩, type, layout⟩
    simp [Opcode.extended]
  · intro other hother hsecond hentry hsame
    rw [mem_entriesAt_iff] at hother hentry
    refine htable.eq_of_opcode_eq hother.1 hentry.1 ?_
    rcases hopcode : other.opcode with ⟨otherLead, otherSecond⟩
    rcases hopcode' : entry.opcode with ⟨entryLead, entrySecond⟩
    simp_all

theorem slot?_eq_none_iff {lead : UInt8} :
    table.slot? lead = none ↔
      ∀ entry ∈ table.entries, entry.opcode.lead ≠ lead := by
  unfold slot?
  cases hgroup : table.entriesAt lead with
  | nil =>
      simp only [true_iff]
      intro entry hentry hlead
      have hmem := mem_entriesAt_iff.mpr ⟨hentry, hlead⟩
      rw [hgroup] at hmem
      cases hmem
  | cons entry group =>
      have hmem : entry ∈ table.entriesAt lead := by simp [hgroup]
      rw [mem_entriesAt_iff] at hmem
      constructor
      · intro hslot
        simp only at hslot
        split at hslot <;> cases hslot
      · intro hnone
        exact absurd hmem.2 (hnone entry hmem.1)

theorem Coherent.slot?_eq_single_iff
    (htable : table.Coherent) {lead : UInt8} {entry : Entry} :
    table.slot? lead = some (.single entry) ↔
      entry ∈ table.entries ∧ entry.opcode = .single lead := by
  unfold slot?
  cases hgroup : table.entriesAt lead with
  | nil =>
      constructor
      · intro hslot
        cases hslot
      · rintro ⟨hentry, hopcode⟩
        have hmem : entry ∈ table.entriesAt lead :=
          mem_entriesAt_iff.mpr ⟨hentry, by rw [hopcode]; rfl⟩
        rw [hgroup] at hmem
        cases hmem
  | cons head group =>
      have hhead : head ∈ table.entriesAt lead := by simp [hgroup]
      rw [mem_entriesAt_iff] at hhead
      constructor
      · intro hslot
        simp only at hslot
        split at hslot
        next hsingle =>
          obtain rfl : head = entry := by simpa using hslot
          refine ⟨hhead.1, ?_⟩
          rcases hopcode : head.opcode with ⟨headLead, headSecond⟩
          simp_all [Opcode.single]
        next => cases hslot
      · rintro ⟨hentry, hopcode⟩
        have heq : entry = head := by
          apply htable.eq_of_single hentry hhead.1
          · rw [hopcode, hhead.2]
            rfl
          · rw [hopcode]
            rfl
        subst heq
        simp [hopcode, Opcode.single]

theorem Coherent.slot?_eq_extended_iff
    (htable : table.Coherent) {lead : UInt8} :
    table.slot? lead = some .extended ↔
      ∃ entry ∈ table.entries,
        entry.opcode.lead = lead ∧ entry.opcode.second? ≠ none := by
  unfold slot?
  cases hgroup : table.entriesAt lead with
  | nil =>
      constructor
      · intro hslot
        cases hslot
      · rintro ⟨entry, hentry, hlead, _⟩
        have hmem := mem_entriesAt_iff.mpr ⟨hentry, hlead⟩
        rw [hgroup] at hmem
        cases hmem
  | cons head group =>
      have hhead : head ∈ table.entriesAt lead := by simp [hgroup]
      rw [mem_entriesAt_iff] at hhead
      constructor
      · intro hslot
        simp only at hslot
        split at hslot
        next => cases hslot
        next hsecond => exact ⟨head, hhead.1, hhead.2, hsecond⟩
      · rintro ⟨entry, hentry, hlead, hsecond⟩
        have hextended : head.opcode.second? ≠ none := by
          intro hsingle
          have heq : head = entry :=
            htable.eq_of_single hhead.1 hentry
              (hhead.2.trans hlead.symm) hsingle
          exact hsecond (heq ▸ hsingle)
        simp [hextended]

/-! ## Inserting entries -/

theorem Coherent.conflict?_eq_none_iff
    (htable : table.Coherent) {entry : Entry} :
    table.conflict? entry = none ↔
      ∀ other ∈ table.entries, other.Apart entry := by
  unfold conflict?
  cases hsame : table.entryOf? entry.type with
  | some owner =>
      obtain ⟨howner, htype⟩ := htable.entryOf?_eq_some_iff.mp hsame
      simp only [Option.isSome_some, if_true]
      constructor
      · intro hconflict
        cases hconflict
      · intro hapart
        exact absurd htype (hapart owner howner).1
  | none =>
      have htype : ∀ other ∈ table.entries, other.type ≠ entry.type := by
        simpa [entryOf?] using hsame
      simp only [Option.isSome_none, Bool.false_eq_true, if_false]
      cases hslot : table.slot? entry.opcode.lead with
      | none =>
          have hlead := slot?_eq_none_iff.mp hslot
          simp only [true_iff]
          exact fun other hother =>
            ⟨htype other hother, fun heq => absurd heq (hlead other hother)⟩
      | some slot =>
          cases slot with
          | single owner =>
              obtain ⟨howner, hopcode⟩ := htable.slot?_eq_single_iff.mp hslot
              have hclash : ¬ ∀ other ∈ table.entries, other.Apart entry := by
                intro hapart
                have hbytes := (hapart owner howner).2 (by rw [hopcode]; rfl)
                exact hbytes.1 (by rw [hopcode]; rfl)
              cases entry.opcode.second? <;> simp [hclash]
          | extended =>
              obtain ⟨owner, howner, hlead, hsecond⟩ :=
                htable.slot?_eq_extended_iff.mp hslot
              cases hnew : entry.opcode.second? with
              | none =>
                  have hclash : ¬ ∀ other ∈ table.entries, other.Apart entry := by
                    intro hapart
                    exact ((hapart owner howner).2 hlead).2.1 hnew
                  simp [hclash]
              | some second =>
                  rw [Option.map_eq_none_iff]
                  constructor
                  · intro hfree other hother
                    refine ⟨htype other hother, fun hbyte => ⟨?_, by simp [hnew], ?_⟩⟩
                    · intro hsingle
                      have heq := htable.eq_of_single hother howner
                        (hbyte.trans hlead.symm) hsingle
                      exact hsecond (heq ▸ hsingle)
                    · intro hclash
                      have hfound : table.extended? entry.opcode.lead second =
                          some other := by
                        refine htable.extended?_eq_some_iff.mpr ⟨hother, ?_⟩
                        rw [← hbyte, Opcode.extended, ← hnew, ← hclash]
                      rw [hfree] at hfound
                      cases hfound
                  · intro hapart
                    by_contra hfound
                    obtain ⟨other, hother⟩ := Option.ne_none_iff_exists'.mp hfound
                    obtain ⟨hmem, hopcode⟩ := htable.extended?_eq_some_iff.mp hother
                    have hbytes := (hapart other hmem).2 (by rw [hopcode]; rfl)
                    exact hbytes.2.2 (by rw [hopcode, hnew]; rfl)

theorem insert_eq_ok_iff {entry : Entry} {grown : Table} :
    table.insert entry = .ok grown ↔
      table.conflict? entry = none ∧
        grown = { table with entries := table.entries ++ [entry] } := by
  unfold insert
  cases hconflict : table.conflict? entry with
  | some fault => simp
  | none => simp [eq_comm]

theorem Coherent.insert
    (htable : table.Coherent) {entry : Entry} {grown : Table}
    (hknown : entry.layout.Known) (hsuited : entry.misfit? = none)
    (hinsert : table.insert entry = .ok grown) : grown.Coherent := by
  obtain ⟨hconflict, rfl⟩ := insert_eq_ok_iff.mp hinsert
  have hapart := htable.conflict?_eq_none_iff.mp hconflict
  constructor
  · rw [List.pairwise_append]
    refine ⟨htable.apart, List.pairwise_singleton _ _, ?_⟩
    intro other hother new hnew
    rw [List.mem_singleton.mp hnew]
    exact hapart other hother
  · rw [List.forall_mem_append, List.forall_mem_singleton]
    exact ⟨htable.known, hknown⟩
  · rw [List.forall_mem_append, List.forall_mem_singleton]
    exact ⟨htable.suited, hsuited⟩

end Table

/-! ## Layouts -/

namespace Entry

variable {entry : Entry}

theorem misfit?_eq_none_iff :
    entry.misfit? = none ↔
      (∀ directive, entry.layout = .special directive →
        directive.subject = entry.type) ∧
      ∀ layout, entry.type.requiredLayout? = some layout →
        entry.layout = layout := by
  have hdirective :
      (entry.layout.directive?.filter
          fun directive => directive.subject ≠ entry.type) = none ↔
        ∀ directive, entry.layout = .special directive →
          directive.subject = entry.type := by
    rw [Option.filter_eq_none_iff]
    cases entry.layout <;> simp [Layout.directive?]
  have hrequired :
      ((entry.type.requiredLayout?.filter
          fun layout => layout ≠ entry.layout).map fun layout =>
            TableFault.requiresLayout entry.type layout) = none ↔
        ∀ layout, entry.type.requiredLayout? = some layout →
          entry.layout = layout := by
    rw [Option.map_eq_none_iff, Option.filter_eq_none_iff]
    simp [eq_comm (b := entry.layout)]
  unfold misfit?
  rw [← hdirective, ← hrequired]
  split
  next directive hstray =>
    rw [hstray]
    constructor
    · intro hfalse
      cases hfalse
    · rintro ⟨hfalse, _⟩
      cases hfalse
  next hfits =>
    rw [hfits]
    exact (and_iff_right rfl).symm

theorem known_and_suited_of_ofRow {row : Row} (hrow : Entry.ofRow row = .ok entry) :
    entry.layout.Known ∧ entry.misfit? = none := by
  unfold ofRow at hrow
  cases hname : InstructionType.ofName? row.name with
  | none =>
      rw [hname] at hrow
      cases hrow
  | some type =>
      cases hlayout : Layout.ofWords (Text.words row.fields) with
      | error fault =>
          rw [hname, hlayout] at hrow
          cases hrow
      | ok layout =>
          rw [hname, hlayout] at hrow
          cases hmisfit : Entry.misfit? ⟨row.opcode, type, layout⟩ with
          | some fault =>
              simp only [bind, Except.bind, hmisfit] at hrow
              cases hrow
          | none =>
              simp only [bind, Except.bind, hmisfit] at hrow
              cases hrow
              exact ⟨(Layout.ofWords_eq_ok_iff.mp hlayout).1, hmisfit⟩

end Entry

/-! ## Building tables -/

namespace Table

variable {table : Table}

/-- A directive belongs to an instruction that closes no block. -/
theorem Coherent.exists_fields_of_isTerminator
    (htable : table.Coherent) {entry : Entry}
    (hentry : entry ∈ table.entries) (hterminator : entry.type.isTerminator) :
    ∃ fields, entry.layout = .inOrder fields := by
  cases hlayout : entry.layout with
  | inOrder fields => exact ⟨fields, rfl⟩
  | special directive =>
      have hsubject :=
        (Entry.misfit?_eq_none_iff.mp (htable.suited entry hentry)).1 _ hlayout
      rw [← hsubject] at hterminator
      cases directive <;> cases hterminator
  | unknown rule =>
      have hknown := htable.known entry hentry
      rw [hlayout] at hknown
      exact hknown.elim

theorem coherent_empty (source : String) : (empty source).Coherent :=
  ⟨List.Pairwise.nil, List.forall_mem_nil _, List.forall_mem_nil _⟩

theorem Coherent.insertRow
    (htable : table.Coherent) {row : Row} {grown : Table}
    (hrow : table.insertRow row = .ok grown) : grown.Coherent := by
  unfold Table.insertRow at hrow
  cases hentry : Entry.ofRow row with
  | error fault =>
      rw [hentry] at hrow
      cases hrow
  | ok entry =>
      rw [hentry] at hrow
      obtain ⟨hknown, hsuited⟩ := Entry.known_and_suited_of_ofRow hentry
      exact htable.insert hknown hsuited hrow

theorem Coherent.addLine
    (htable : table.Coherent) {line : String} {grown : Table}
    (hline : table.addLine line = .ok grown) : grown.Coherent := by
  unfold Table.addLine at hline
  cases hrow : Row.ofLine? line with
  | error fault =>
      rw [hrow] at hline
      cases hline
  | ok row? =>
      rw [hrow] at hline
      cases row? with
      | none =>
          cases hline
          exact htable
      | some row => exact htable.insertRow hline

/-- What each piece keeps, all pieces keep. -/
theorem addAll_induction
    {α : Type} {add : Table → α → Except TableFault Table}
    {holds : Table → Prop}
    (hadd : ∀ table piece grown, holds table → add table piece = .ok grown →
      holds grown)
    {pieces : List (α × UInt32)} {table grown : Table} (htable : holds table)
    (hpieces : addAll add table pieces = .ok grown) : holds grown := by
  induction pieces generalizing table with
  | nil =>
      cases hpieces
      exact htable
  | cons numbered pieces ih =>
      rcases numbered with ⟨piece, line⟩
      simp only [addAll] at hpieces
      split at hpieces
      next next hpiece => exact ih (hadd _ _ _ htable hpiece) hpieces
      next => cases hpieces

theorem Coherent.finish
    (htable : table.Coherent) {grown : Table}
    (hfinish : table.finish = .ok grown) : grown.WellFormed := by
  unfold Table.finish at hfinish
  split at hfinish
  next hend =>
    cases hfinish
    obtain ⟨entry, hentry⟩ := Option.isSome_iff_exists.mp hend
    exact ⟨htable, entry, htable.entryOf?_eq_some_iff.mp hentry⟩
  next => cases hfinish

theorem addAll_finish_wellFormed
    {α : Type} {add : Table → α → Except TableFault Table}
    (hadd : ∀ table piece grown, Coherent table → add table piece = .ok grown →
      Coherent grown)
    {source : String} {pieces : List (α × UInt32)}
    (hbuild : (do finish (← addAll add (empty source) pieces)) = .ok table) :
    table.WellFormed := by
  cases hpieces : addAll add (empty source) pieces with
  | error error =>
      rw [hpieces] at hbuild
      cases hbuild
  | ok built =>
      rw [hpieces] at hbuild
      have hbuilt := addAll_induction hadd (coherent_empty source) hpieces
      exact hbuilt.finish hbuild

theorem wellFormed_of_ofRows
    {source : String} {rows : List Row} (hrows : ofRows source rows = .ok table) :
    table.WellFormed :=
  addAll_finish_wellFormed (fun _ _ _ hold => hold.insertRow) hrows

theorem wellFormed_of_ofText
    {source text : String} (htext : ofText source text = .ok table) :
    table.WellFormed :=
  addAll_finish_wellFormed (fun _ _ _ hold => hold.addLine) htext

theorem Accepted.wellFormed (htable : table.Accepted) : table.WellFormed := by
  rcases htable with ⟨source, rows, hrows⟩ | ⟨source, text, htext⟩
  · exact wellFormed_of_ofRows hrows
  · exact wellFormed_of_ofText htext

end Table

/-! ## A small table -/

/-- Rows of every shape: both directives, fields, no fields, a longer opcode. -/
def Row.sample : List Row := [
  ⟨.single 0x02, "block", "blocktype instr*"⟩,
  ⟨.single 0x04, "if", "%conditional"⟩,
  ⟨.single 0x05, "else", ""⟩,
  ⟨.single 0x0B, "end", ""⟩,
  ⟨.single 0x0E, "br_table", "%branchtable"⟩,
  ⟨.single 0x28, "i32.load", "u32 u32"⟩,
  ⟨.single 0x41, "i32.const", "i32"⟩,
  ⟨.extended 0xFC 0x08, "memory.init", "dataidx memidx"⟩]

/-- The table of these rows. -/
def Table.sample : Table := ⟨"sample", [
  ⟨.single 0x02, .block, .inOrder [.blockType, .instructions]⟩,
  ⟨.single 0x04, .conditional, .special .conditional⟩,
  ⟨.single 0x05, .otherwise, .inOrder []⟩,
  ⟨.single 0x0B, .blockEnd, .inOrder []⟩,
  ⟨.single 0x0E, .branchTable, .special .branchTable⟩,
  ⟨.single 0x28, .firstMemoryAccess, .inOrder [.u32, .u32]⟩,
  ⟨.single 0x41, ⟨61⟩, .inOrder [.i32]⟩,
  ⟨.extended 0xFC 0x08, ⟨57⟩,
    .inOrder [.index .dataSegments, .index .memories]⟩]⟩

theorem Table.accepted_sample : Table.sample.Accepted :=
  .inl ⟨"sample", Row.sample, rfl⟩

end Disassembly
