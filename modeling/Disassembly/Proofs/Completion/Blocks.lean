import Disassembly.Proofs.Completion.Readers

/-!
# Completing instructions and blocks

Where terminators hold nothing, a decoder that runs out of bytes has met nothing
wrong so far.  It stands inside some blocks, and each of them can be ended at
once.  The first arm of a conditional that is ended in this way needs no second
one, and the second one must not be ended in another way.

What stands in the way is the limit on nested blocks, since the fields that are
still missing may hold blocks.  Every level takes the byte of an opcode, so
that a limit of as many levels as there are bytes leaves room for one more level
wherever an opcode was read.
-/

namespace Disassembly

open Grammar

/-- Terminators hold nothing, and nothing but a single byte stands for `else`. -/
structure Table.ClosesPlainly (table : Table) : Prop where
  blockEnd : ∀ entry ∈ table.entries, entry.type = .blockEnd →
    entry.layout = .inOrder []
  otherwise : ∀ entry ∈ table.entries, entry.type = .otherwise →
    entry.layout = .inOrder [] ∧ entry.opcode.second? = none

namespace Grammar

variable {table : Table} {limit level : Nat} {bytes : List UInt8}

/-! ## What can always be supplied -/

/-- A block that is not ended by `else`. -/
def EndedBlock (table : Table) (limit level : Nat) (bytes : List UInt8) : Prop :=
  ∃ content : Block, Derives table limit level bytes (.block content) ∧
    content.closedByElse = false

/-- An instruction that is not `else`. -/
def PlainInstruction (table : Table) (limit level : Nat) (bytes : List UInt8) : Prop :=
  ∃ item : Instruction, Derives table limit level bytes (.instruction item) ∧
    item.type ≠ .otherwise

theorem EndedBlock.nested (hlevel : level + 1 ≤ limit)
    (hblock : EndedBlock table limit (level + 1) bytes) :
    ∃ value, Derives table limit level bytes (.field .instructions value) := by
  obtain ⟨content, hcontent, _⟩ := hblock
  exact ⟨_, .nested hlevel hcontent⟩

theorem exists_endedBlock
    (htable : table.WellFormed) (hplain : table.ClosesPlainly) (limit level : Nat) :
    ∃ bytes, EndedBlock table limit level bytes := by
  obtain ⟨entry, hentry, htype⟩ := htable.endMapped
  have hitem : Derives table limit level (entry.opcode.bytes ++ [])
      (.instruction ⟨entry.type, []⟩) := by
    apply Derives.instruction hentry
    rw [hplain.blockEnd entry hentry htype]
    exact .noFields
  refine ⟨_, _, .close hitem ?_, ?_⟩
  · exact InstructionType.isTerminator_iff.mpr (.inr htype)
  · simp only [htype]
    rfl

/-- Behind an instruction that is not `else` the block can be ended. -/
theorem Derives.exists_endedBlock
    (htable : table.WellFormed) (hplain : table.ClosesPlainly) {item : Instruction}
    (hitem : Derives table limit level bytes (.instruction item))
    (htype : item.type ≠ .otherwise) :
    ∃ more, EndedBlock table limit level (bytes ++ more) := by
  by_cases hterminator : item.isTerminator
  · refine ⟨[], ⟨[], item.type = .otherwise⟩, ?_, by simpa using htype⟩
    rw [List.append_nil]
    exact .close hitem hterminator
  · obtain ⟨more, content, hcontent, hended⟩ :=
      Grammar.exists_endedBlock htable hplain limit level
    exact ⟨more, _, .next hitem hterminator hcontent, hended⟩

theorem exists_fields
    (htable : table.WellFormed) (hplain : table.ClosesPlainly)
    (hlevel : level + 1 ≤ limit) {fields : List Field}
    (hfields : ∀ field ∈ fields, field ∈ Field.all) :
    ∃ bytes values, Derives table limit level bytes (.operands (.inOrder fields) values) := by
  induction fields with
  | nil => exact ⟨_, _, .noFields⟩
  | cons field fields ih =>
      obtain ⟨hknown, hmore⟩ := List.forall_mem_cons.mp hfields
      obtain ⟨second, values, hvalues⟩ := ih hmore
      by_cases hfield : field = .instructions
      · subst hfield
        obtain ⟨first, hfirst⟩ := exists_endedBlock htable hplain limit (level + 1)
        obtain ⟨value, hvalue⟩ := hfirst.nested hlevel
        exact ⟨_, _, .nextField hvalue hvalues⟩
      · obtain ⟨first, value, hvalue⟩ := exists_scalar hknown hfield
        exact ⟨_, _, .nextField (.scalar hvalue) hvalues⟩

theorem exists_operands_of_level
    (htable : table.WellFormed) (hplain : table.ClosesPlainly)
    (hlevel : level + 1 ≤ limit) {layout : Layout} (hlayout : layout.Known) :
    ∃ bytes values, Derives table limit level bytes (.operands layout values) := by
  cases layout with
  | inOrder fields => exact exists_fields htable hplain hlevel hlayout
  | special directive =>
      cases directive with
      | conditional =>
          obtain ⟨body, ⟨first, closedByElse⟩, hfirst, rfl⟩ :=
            exists_endedBlock htable hplain limit (level + 1)
          exact ⟨_, _, .oneArm .noResult hlevel hfirst⟩
      | branchTable =>
          have hlabels : Labels ([0] ++ [[(0 : UInt8)]].flatten) _ :=
            .intro (form_zero (by decide)) rfl (by simp [form_zero])
          exact ⟨_, _, .branchTable hlabels⟩
  | unknown rule => exact hlayout.elim

end Grammar

/-! ## Decoding -/

namespace Decoding

variable {α β : Type} {bound : Nat} {work : Decoding Input α} {start whole : List UInt8 → Prop}

/-- Work that never fails for want of bytes. -/
def AsksNothing (work : Decoding Input α) : Prop :=
  ∀ session error after, work session = (.error error, after) → ¬ error.IsShortage

/-- Every input of at most `bound` bytes that ends too early has a continuation with which
it is a form. -/
def Completable (bound : Nat) (work : Decoding Input α) (form : List UInt8 → Prop) : Prop :=
  ∀ session : Session Input, session.input.remaining ≤ bound → ∀ error after,
    work session = (.error error, after) → error.IsShortage →
    ∃ suffix, form (session.input.rest ++ suffix)

theorem recognizes_of_le {low : Nat} {form : List UInt8 → α → Prop}
    (hwork : Recognizes bound work form) (hlow : low ≤ bound) :
    Recognizes low work form :=
  fun session hsession => hwork session (hsession.trans hlow)

theorem asksNothing_pure (value : α) : AsksNothing (pure value) := by
  intro session error after hfails
  cases hfails

theorem asksNothing_failHere {fault : DecodeFault}
    (hother : ∀ count, fault ≠ .endOfInput count) :
    AsksNothing (read (Reader.failHere fault) : Decoding Input α) := by
  intro session error after hfails
  cases hfails
  exact Reader.not_isShortage hother

theorem AsksNothing.tell_then (hwork : AsksNothing work) (decoder : Decoder) (event : Event) :
    AsksNothing (decoder.tell event >>= fun _ => work) := by
  intro session error after hfails
  obtain ⟨told, htold⟩ := tell_eq_ok decoder event session
  rw [bind_apply, htold] at hfails
  exact hwork _ error after hfails

theorem AsksNothing.completable (hwork : AsksNothing work) :
    Completable bound work whole := by
  intro session _ error after hfails hshortage
  exact absurd hshortage (hwork session error after hfails)

theorem Completable.mono (hwork : Completable bound work start)
    (himp : ∀ bytes, start bytes → whole bytes) : Completable bound work whole := by
  intro session hbound error after hfails hshortage
  obtain ⟨suffix, hsuffix⟩ := hwork session hbound error after hfails hshortage
  exact ⟨suffix, himp _ hsuffix⟩

theorem completable_read {reader : Reader Input α} (hreader : reader.Completable whole)
    (bound : Nat) : Completable bound (read reader) whole := by
  intro session _ error after hfails
  unfold read at hfails
  cases hresult : reader session.input with
  | mk result input =>
      rw [hresult] at hfails
      cases hfails
      exact hreader _ _ _ hresult

theorem Completable.bind_within
    (later : Nat) {next : α → Decoding Input β} {form : List UInt8 → α → Prop}
    (hwork : Completable bound work start)
    (hstart : ∀ bytes, start bytes → ∃ more, whole (bytes ++ more))
    (hform : Recognizes bound work form)
    (hlength : ∀ bytes value, form bytes value → bound ≤ later + bytes.length)
    (hnext : ∀ first value, form first value → first.length ≤ bound →
      Completable later (next value) fun second => whole (first ++ second)) :
    Completable bound (work >>= next) whole := by
  intro session hbound error after hfails hshortage
  rcases bind_eq_error_iff.mp hfails with hfirst | ⟨value, middle, hvalue, hrest⟩
  · obtain ⟨suffix, hsuffix⟩ := hwork session hbound error after hfirst hshortage
    obtain ⟨more, hmore⟩ := hstart _ hsuffix
    exact ⟨suffix ++ more, by rwa [← List.append_assoc]⟩
  · obtain ⟨first, hfirst, hconsumed⟩ :=
      (hform session hbound value middle.input).mp ⟨middle.events, hvalue⟩
    have hremaining := hconsumed.remaining
    have hslack := hlength first value hfirst
    obtain ⟨suffix, hsuffix⟩ :=
      hnext first value hfirst (by omega) middle (by omega) error after hrest hshortage
    rw [hconsumed.rest]
    exact ⟨suffix, by rwa [List.append_assoc]⟩

theorem Completable.bind
    {next : α → Decoding Input β} {form : List UInt8 → α → Prop}
    (hwork : Completable bound work start)
    (hstart : ∀ bytes, start bytes → ∃ more, whole (bytes ++ more))
    (hform : Recognizes bound work form)
    (hnext : ∀ first value, form first value →
      Completable bound (next value) fun second => whole (first ++ second)) :
    Completable bound (work >>= next) whole :=
  hwork.bind_within bound hstart hform (fun _ _ _ => Nat.le_add_right _ _)
    fun first value hfirst _ => hnext first value hfirst

theorem Completable.bind_asksNothing {next : α → Decoding Input β}
    (hwork : Completable bound work whole) (hnext : ∀ value, AsksNothing (next value)) :
    Completable bound (work >>= next) whole := by
  intro session hbound error after hfails hshortage
  rcases bind_eq_error_iff.mp hfails with hfirst | ⟨value, middle, _, hrest⟩
  · exact hwork session hbound error after hfirst hshortage
  · exact absurd hshortage (hnext value middle error after hrest)

theorem Completable.map (hwork : Completable bound work whole) (f : α → β) :
    Completable bound (work >>= fun value => pure (f value)) whole :=
  hwork.bind_asksNothing fun value => asksNothing_pure (f value)

end Decoding

/-! ## Operands -/

namespace Decoder

open Decoding (Recognizes Completable AsksNothing read recognizes_read completable_read
  recognizes_of_le asksNothing_pure asksNothing_failHere)

variable {decoder : Decoder} {block : Nat → Decoding Input Block} {bound level : Nat}

/-- Blocks are completed as far as the limit allows one level for each byte. -/
def CompletesBlocks (decoder : Decoder) (block : Nat → Decoding Input Block) (bound : Nat) : Prop :=
  ∀ level, level + bound ≤ decoder.depthLimit → Completable bound (block level)
    (EndedBlock decoder.table decoder.depthLimit level)

theorem CompletesBlocks.nestedBlock
    (hblock : decoder.CompletesBlocks block bound)
    (hlevel : level + 1 + bound ≤ decoder.depthLimit) :
    Completable bound (decoder.nestedBlock block level)
      (EndedBlock decoder.table decoder.depthLimit (level + 1)) := by
  unfold Decoder.nestedBlock
  split
  next => exact hblock (level + 1) hlevel
  next => exact (asksNothing_failHere (by simp)).completable

/-- A second arm that was begun is ended as it has to be. -/
theorem CompletesBlocks.secondArm
    (hblock : decoder.CompletesBlocks block bound)
    (hlevel : level + 1 + bound ≤ decoder.depthLimit) (first : Block) :
    Completable bound (secondArm block level first) fun bytes =>
      ∃ second, SecondArm decoder.table decoder.depthLimit level first bytes second := by
  unfold Decoder.secondArm SecondArm
  cases first.closedByElse with
  | false => exact (asksNothing_pure []).completable
  | true =>
      have hended : ∀ bytes,
          EndedBlock decoder.table decoder.depthLimit (level + 1) bytes →
            ∃ second, Derives decoder.table decoder.depthLimit (level + 1) bytes
              (.block ⟨second, false⟩) := by
        rintro bytes ⟨⟨second, closedByElse⟩, hsecond, rfl⟩
        exact ⟨second, hsecond⟩
      refine ((hblock (level + 1) hlevel).mono hended).bind_asksNothing fun second => ?_
      split
      next => exact asksNothing_failHere (by simp)
      next => exact asksNothing_pure _

theorem exists_littleEndianBytes {count : Nat} {bytes : List UInt8}
    (hlength : bytes.length = count) :
    ∃ value < 256 ^ count, bytes = littleEndianBytes count value := by
  refine ⟨Reader.littleEndianValue bytes, ?_, ?_⟩
  · rw [← hlength]
    exact littleEndianValue_lt bytes
  · rw [← hlength, littleEndianBytes_littleEndianValue]

theorem completable_scalar
    (decoder : Decoder) (block : Nat → Decoding Input Block) (bound level : Nat)
    {field : Field} (hfield : field ≠ .instructions) :
    Completable bound (decoder.field block level field) fun bytes =>
      ∃ value, Scalar field bytes value := by
  cases field with
  | u32 =>
      refine ((completable_read Reader.completable_u32 bound).map _).mono ?_
      exact fun bytes hbytes => ⟨_, .u32 hbytes⟩
  | i32 =>
      refine ((completable_read Reader.completable_i32 bound).map _).mono ?_
      exact fun bytes hbytes => ⟨_, .i32 hbytes⟩
  | i64 =>
      refine ((completable_read Reader.completable_i64 bound).map _).mono ?_
      exact fun bytes hbytes => ⟨_, .i64 hbytes⟩
  | f32 =>
      refine ((completable_read ((Reader.completable_nextBytes 4).map _) bound).map _).mono ?_
      intro bytes hlength
      obtain ⟨value, hvalue, rfl⟩ := exists_littleEndianBytes hlength
      have hbits : (UInt32.ofNat value).toNat = value := UInt32.toNat_ofNat_of_lt' hvalue
      exact ⟨_, by simpa [hbits] using Scalar.f32 (UInt32.ofNat value)⟩
  | f64 =>
      refine ((completable_read ((Reader.completable_nextBytes 8).map _) bound).map _).mono ?_
      intro bytes hlength
      obtain ⟨value, hvalue, rfl⟩ := exists_littleEndianBytes hlength
      have hbits : (UInt64.ofNat value).toNat = value := UInt64.toNat_ofNat_of_lt' hvalue
      exact ⟨_, by simpa [hbits] using Scalar.f64 (UInt64.ofNat value)⟩
  | index space =>
      refine ((completable_read Reader.completable_u32 bound).map _).mono ?_
      exact fun bytes hbytes => ⟨_, .index space hbytes⟩
  | blockType =>
      refine ((completable_read Reader.completable_blockType bound).map _).mono ?_
      exact fun bytes ⟨_, htype⟩ => ⟨_, htype⟩
  | referenceType =>
      exact (completable_read Reader.completable_referenceType bound).map _
  | valueTypes =>
      refine ((completable_read Reader.completable_valueTypes bound).map _).mono ?_
      exact fun bytes ⟨_, htypes⟩ => ⟨_, htypes⟩
  | instructions => exact absurd rfl hfield
  | unknown kind => exact (asksNothing_failHere (by simp)).completable

section Parts

variable (hblock : decoder.CompletesBlocks block bound)
variable (hreads : decoder.ReadsBlocks block bound)
variable (htable : decoder.table.WellFormed) (hplain : decoder.table.ClosesPlainly)
variable (hlevel : level + 1 + bound ≤ decoder.depthLimit)
include hblock hlevel

theorem CompletesBlocks.field (field : Field) :
    Completable bound (decoder.field block level field) fun bytes =>
      ∃ value, Derives decoder.table decoder.depthLimit level bytes
        (.field field value) := by
  by_cases hfield : field = .instructions
  · subst hfield
    refine ((hblock.nestedBlock hlevel).map _).mono fun bytes hbytes => ?_
    exact hbytes.nested (by omega)
  · refine (decoder.completable_scalar block bound level hfield).mono ?_
    exact fun bytes ⟨value, hvalue⟩ => ⟨value, .scalar hvalue⟩

include hreads htable hplain

theorem CompletesBlocks.fields
    {fields : List Field} (hfields : ∀ field ∈ fields, field ∈ Field.all) :
    Completable bound (fields.mapM (decoder.field block level)) fun bytes =>
      ∃ values, Derives decoder.table decoder.depthLimit level bytes
        (.operands (.inOrder fields) values) := by
  induction fields with
  | nil =>
      rw [List.mapM_nil]
      exact (asksNothing_pure []).completable
  | cons field fields ih =>
      have hmore := (List.forall_mem_cons.mp hfields).2
      rw [List.mapM_cons]
      refine (hblock.field hlevel field).bind ?_ (hreads.field level field) ?_
      · rintro bytes ⟨value, hvalue⟩
        obtain ⟨more, values, hvalues⟩ :=
          exists_fields htable hplain (Nat.le_of_add_right_le hlevel) hmore
        exact ⟨more, _, .nextField hvalue hvalues⟩
      · intro first value hvalue
        refine ((ih hmore).map (value :: ·)).mono ?_
        exact fun second ⟨values, hvalues⟩ => ⟨_, .nextField hvalue hvalues⟩

theorem CompletesBlocks.operands {layout : Layout} (hlayout : layout.Known) :
    Completable bound (decoder.operands block level layout) fun bytes =>
      ∃ values, Derives decoder.table decoder.depthLimit level bytes
        (.operands layout values) := by
  cases layout with
  | inOrder fields => exact hblock.fields hreads htable hplain hlevel hlayout
  | special directive =>
      cases directive with
      | conditional =>
          have hdeeper : level + 1 ≤ decoder.depthLimit := Nat.le_of_add_right_le hlevel
          refine (completable_read Reader.completable_blockType bound).bind ?_
            (recognizes_read Reader.recognizes_blockType bound) ?_
          · rintro head ⟨type, htype⟩
            obtain ⟨body, ⟨first, closedByElse⟩, hfirst, rfl⟩ :=
              exists_endedBlock htable hplain decoder.depthLimit (level + 1)
            exact ⟨body, _, .oneArm htype hdeeper hfirst⟩
          intro head type htype
          refine (hblock.nestedBlock hlevel).bind ?_ (hreads.nestedBlock level) ?_
          · rintro body ⟨⟨first, closedByElse⟩, hfirst, rfl⟩
            refine ⟨[], [.blockType type, .instructions first, .instructions []], ?_⟩
            rw [List.append_nil]
            exact .oneArm htype hdeeper hfirst
          rintro body first ⟨_, hfirst⟩
          refine ((hblock.secondArm hlevel first).map _).mono ?_
          rintro other ⟨second, hsecond⟩
          refine ⟨[.blockType type, .instructions first.instructions,
            .instructions second], derives_conditional_iff.mpr ?_⟩
          exact ⟨type, head, _, htype,
            ⟨first, body, other, ⟨hdeeper, hfirst⟩, ⟨second, hsecond, rfl⟩, rfl⟩, rfl⟩
      | branchTable =>
          refine ((completable_read Reader.completable_branchLabels bound).map _).mono ?_
          exact fun bytes ⟨targets, htargets⟩ => ⟨_, .branchTable htargets⟩
  | unknown rule => exact hlayout.elim

end Parts

/-! ## Instructions and blocks -/

section Instructions

variable (htable : decoder.table.WellFormed) (hplain : decoder.table.ClosesPlainly)
include htable hplain

/-- An opcode is completed to one whose operands can be supplied.  Without any byte that is
the end of the block, and behind a lead byte there is room for one more level. -/
theorem completable_entry (hlevel : level + bound ≤ decoder.depthLimit) :
    Completable bound (read (Reader.entry decoder.table)) fun bytes =>
      ∃ found ∈ decoder.table.entries, bytes = found.opcode.bytes ∧
        found.type ≠ .otherwise ∧ ∃ more values,
          Derives decoder.table decoder.depthLimit level more
            (.operands found.layout values) := by
  intro session hbound error after hfails hshortage
  have hentry :
      Reader.entry decoder.table session.input = (.error error, after.input) := by
    unfold Decoding.read at hfails
    cases hresult : Reader.entry decoder.table session.input with
    | mk result input =>
        rw [hresult] at hfails
        cases hfails
        rfl
  rcases Reader.entry_shortage htable.toCoherent hentry hshortage with
    hempty | ⟨hsome, found, hfound, hlonger, suffix, hsuffix⟩
  · obtain ⟨found, hfound, htype⟩ := htable.endMapped
    refine ⟨found.opcode.bytes, found, hfound, by rw [hempty]; rfl, ?_, [], [], ?_⟩
    · rw [htype]
      decide
    · rw [hplain.blockEnd found hfound htype]
      exact .noFields
  · have hpos : 0 < session.input.remaining := List.length_pos_iff.mpr hsome
    refine ⟨suffix, found, hfound, hsuffix, ?_, ?_⟩
    -- a byte that is not yet an opcode cannot be the beginning of `else`
    · intro htype
      exact hlonger (hplain.otherwise found hfound htype).2
    · exact exists_operands_of_level htable hplain (by omega) (htable.known found hfound)

theorem CompletesBlocks.instruction
    (hblock : decoder.CompletesBlocks block (bound - 1))
    (hreads : decoder.ReadsBlocks block (bound - 1))
    (hlevel : level + bound ≤ decoder.depthLimit) :
    Completable bound (decoder.instruction block level)
      (PlainInstruction decoder.table decoder.depthLimit level) := by
  refine (completable_entry htable hplain hlevel).bind_within (bound - 1) ?_
    (recognizes_read (Reader.recognizes_entry htable.toCoherent) bound) ?_ ?_
  · intro bytes hopcode
    obtain ⟨found, hfound, rfl, htype, more, values, hvalues⟩ := hopcode
    exact ⟨more, _, .instruction hfound hvalues, htype⟩
  · rintro _ found ⟨_, rfl⟩
    have hopcode := List.length_pos_iff.mpr found.opcode.bytes_ne_nil
    omega
  rintro _ found ⟨hfound, rfl⟩ hlength
  have hopcode := List.length_pos_iff.mpr found.opcode.bytes_ne_nil
  have htell (values : List Operand) := (asksNothing_pure
    (Instruction.mk found.type values)).tell_then decoder
      (.instruction level ⟨found.type, values⟩)
  -- Nothing can be missing behind `else`, so that a completion never has to end there.
  by_cases htype : found.type = .otherwise
  · have hoperands : AsksNothing (decoder.operands block level found.layout) := by
      rw [(hplain.otherwise found hfound htype).1]
      exact asksNothing_pure []
    exact hoperands.completable.bind_asksNothing htell
  · have hdeeper : level + 1 + (bound - 1) ≤ decoder.depthLimit := by omega
    have hoperands := hblock.operands hreads htable hplain hdeeper
      (htable.known found hfound)
    refine (hoperands.mono ?_).bind_asksNothing htell
    exact fun bytes ⟨values, hvalues⟩ => ⟨_, .instruction hfound hvalues, htype⟩

theorem completable_block
    (budget : Nat) (earlier : List Instruction) (hbound : bound ≤ budget)
    (hlevel : level + bound ≤ decoder.depthLimit) :
    Completable bound (decoder.block budget level earlier)
      (EndedBlock decoder.table decoder.depthLimit level) := by
  induction budget generalizing bound level earlier with
  | zero =>
      intro session hsession error after _ _
      have hempty : session.input.rest = [] := by
        apply List.eq_nil_of_length_eq_zero
        unfold Input.remaining at hsession
        omega
      rw [hempty]
      exact exists_endedBlock htable hplain decoder.depthLimit level
  -- The opcode takes a byte, which pays for the level of the blocks behind it and
  -- for the budget of the instructions that follow.
  | succ budget ih =>
      have hblocks :
          decoder.CompletesBlocks (fun inner => decoder.block budget inner []) (bound - 1) :=
        fun inner hinner => ih [] (by omega) hinner
      have hreads :
          decoder.ReadsBlocks (fun inner => decoder.block budget inner []) (bound - 1) :=
        fun inner => recognizes_of_le (readsBlocks htable.toCoherent budget inner) (by omega)
      have hitems :=
        recognizes_of_le (hreads.instruction htable.toCoherent level) (by omega : bound ≤ _)
      refine (hblocks.instruction htable hplain hreads hlevel).bind_within (bound - 1) ?_
        hitems ?_ ?_
      · rintro first ⟨item, hitem, htype⟩
        exact hitem.exists_endedBlock htable hplain htype
      · intro first item hitem
        have hpos := hitem.instruction_length_pos
        omega
      intro first item hitem hlength
      split
      next => exact ((asksNothing_pure _).tell_then decoder _).completable
      next hinner =>
        have hpos := hitem.instruction_length_pos
        refine (ih (item :: earlier) (by omega) (by omega)).mono ?_
        intro second hsecond
        obtain ⟨content, hcontent, hended⟩ := hsecond
        exact ⟨_, .next hitem hinner hcontent, hended⟩

end Instructions

/-! ## Whole runs -/

theorem exists_suffix_of_run
    {α : Type} {work : Decoding Input α} {form : List UInt8 → Prop} {input : Input}
    (hwork : Completable bound work form) (hbound : input.remaining ≤ bound)
    {error : DecodeError} (herror : (decoder.run work input).result = .error error)
    (hshortage : error.IsShortage) : ∃ suffix, form (input.rest ++ suffix) := by
  obtain ⟨told, events, hrun⟩ := decoder.run_eq_work work input
  rw [hrun] at herror
  exact hwork ⟨input, told⟩ hbound error _ (Prod.ext herror rfl) hshortage

theorem decodeOne_shortage
    (htable : decoder.table.WellFormed) (hplain : decoder.table.ClosesPlainly)
    {input : Input} {error : DecodeError}
    (herror : (decoder.decodeOne input).result = .error error)
    (hshortage : error.IsShortage) (hlimit : input.remaining ≤ decoder.depthLimit) :
    ∃ suffix, PlainInstruction decoder.table decoder.depthLimit 0 (input.rest ++ suffix) := by
  have hblocks : decoder.CompletesBlocks
      (fun inner => decoder.block input.remaining inner []) (input.remaining - 1) :=
    fun inner hinner => completable_block htable hplain _ [] (Nat.sub_le _ _) hinner
  have hreads : decoder.ReadsBlocks
      (fun inner => decoder.block input.remaining inner []) (input.remaining - 1) :=
    fun inner => recognizes_of_le (readsBlocks htable.toCoherent _ inner) (Nat.sub_le _ _)
  exact exists_suffix_of_run
    (hblocks.instruction htable hplain hreads (by omega)) le_rfl herror hshortage

theorem decodeBlock_shortage
    (htable : decoder.table.WellFormed) (hplain : decoder.table.ClosesPlainly)
    {input : Input} {error : DecodeError}
    (herror : (decoder.decodeBlock input).result = .error error)
    (hshortage : error.IsShortage) (hlimit : input.remaining ≤ decoder.depthLimit) :
    ∃ suffix, EndedBlock decoder.table decoder.depthLimit 0 (input.rest ++ suffix) :=
  exists_suffix_of_run (completable_block htable hplain _ [] le_rfl (by omega)) le_rfl
    herror hshortage

end Decoder

/-! ## Buffers -/

/-- Some continuation of a buffer is decoded as a whole. -/
def Buffer.CanBeCompleted {α : Type} (buffer : Buffer)
    (iterate : BufferIterator → Outcome BufferIterator α) : Prop :=
  ∃ suffix value, (buffer.append suffix).Decodes iterate 0 (.ok value)
    (buffer.append suffix).size

/-- Where terminators hold nothing, bytes that end too early are the beginning of an
instruction or of a block, provided that the limit leaves a level for each of them. -/
theorem shortages_can_be_completed
    (decoder : Decoder) (htable : decoder.table.Accepted)
    (hplain : decoder.table.ClosesPlainly) (buffer : Buffer)
    (hlimit : buffer.size ≤ decoder.depthLimit) :
    (∀ error reached, buffer.Decodes decoder.decodeOne 0 (.error error) reached →
      error.IsShortage → buffer.CanBeCompleted decoder.decodeOne) ∧
    ∀ error reached, buffer.Decodes decoder.decodeBlock 0 (.error error) reached →
      error.IsShortage → buffer.CanBeCompleted decoder.decodeBlock := by
  have hwellFormed := htable.wellFormed
  constructor
  · intro error reached hdecodes hshortage
    obtain ⟨_, herror, _⟩ :=
      (Buffer.decodes_iff (BufferIterator.agree_decodeOne decoder)).mp hdecodes
    obtain ⟨suffix, item, hitem, _⟩ :=
      Decoder.decodeOne_shortage hwellFormed hplain herror hshortage hlimit
    refine ⟨suffix, item, ((decodes_iff_derives decoder htable _ 0 _).1 item).mpr ?_⟩
    rw [Buffer.slice_whole]
    exact ⟨Nat.zero_le _, le_rfl, hitem⟩
  · intro error reached hdecodes hshortage
    obtain ⟨_, herror, _⟩ :=
      (Buffer.decodes_iff (BufferIterator.agree_decodeBlock decoder)).mp hdecodes
    obtain ⟨suffix, content, hcontent, _⟩ :=
      Decoder.decodeBlock_shortage hwellFormed hplain herror hshortage hlimit
    refine ⟨suffix, content, ((decodes_iff_derives decoder htable _ 0 _).2 content).mpr ?_⟩
    rw [Buffer.slice_whole]
    exact ⟨Nat.zero_le _, le_rfl, hcontent⟩

/-- The first arm of a conditional, in which a constant lacks its last byte. -/
theorem unfinished_arm_can_be_completed :
    Table.sample.Accepted ∧ Table.sample.ClosesPlainly ∧
      (∃ error reached, Buffer.Decodes ⟨[0x04, 0x40, 0x41, 0xFF]⟩
        (Decoder.decodeBlock ⟨Table.sample, 4, false⟩) 0 (.error error) reached ∧
          error.IsShortage) ∧
      Buffer.CanBeCompleted ⟨[0x04, 0x40, 0x41, 0xFF]⟩
        (Decoder.decodeBlock ⟨Table.sample, 4, false⟩) := by
  have hplain : Table.sample.ClosesPlainly := ⟨by decide, by decide⟩
  have hdecodes : Buffer.Decodes ⟨[0x04, 0x40, 0x41, 0xFF]⟩
      (Decoder.decodeBlock ⟨Table.sample, 4, false⟩) 0 (.error ⟨4, .endOfInput 1⟩) 4 :=
    ⟨_, rfl, by cbv, by cbv⟩
  have hshortage : (⟨4, .endOfInput 1⟩ : DecodeError).IsShortage := ⟨1, rfl⟩
  have hcompletes := shortages_can_be_completed ⟨Table.sample, 4, false⟩
    Table.accepted_sample hplain ⟨[0x04, 0x40, 0x41, 0xFF]⟩ (by decide)
  exact ⟨Table.accepted_sample, hplain, ⟨_, _, hdecodes, hshortage⟩,
    hcompletes.2 _ _ hdecodes hshortage⟩

end Disassembly
