import Disassembly.Proofs.Grammar.Acceptance

/-!
# What failures say

A failure blames the bytes for something that is true of them.  It happens
behind some bytes that were consumed: too few bytes are left for what is asked
for, the next opcode is not in the table, the next byte is no type of the kind
that is needed, an integer has no last group within its width, a block lies too
deep, or the second arm of a conditional is closed by `else`.  There is no other
way to fail.  In particular the decoder itself is never at fault, and a budget never
runs out before the input does.

Readers and the parts of a decoder are treated in the same order as for
acceptance.  Whatever fails after a part that succeeded also fails on the input
of that part, with more bytes consumed.
-/

namespace Disassembly

open Grammar

/-- The bytes that a type can be read from. -/
def TypeRole.Admits : TypeRole → UInt8 → Prop
  | .block, byte => byte = BlockType.emptyByte ∨ ValueType.mk byte ∈ ValueType.all
  | .reference, byte => ValueType.mk byte = .funcRef ∨ ValueType.mk byte = .externRef
  | .value, byte => ValueType.mk byte ∈ ValueType.all

/-- The input behind a request for more bytes than there are. -/
def Input.afterShortage (input : Input) (count : Nat) : Input :=
  match input.shortRead with
  | .keeps => input
  | .drains => input.advance count

theorem Input.afterShortage_of_rest_nil {input : Input} (hrest : input.rest = []) :
    input.afterShortage 1 = input := by
  rcases input with ⟨shortRead, position, rest⟩
  cases hrest
  cases shortRead <;> rfl

/-- The errors that an input can give rise to, and where they leave it. -/
inductive Failure (table : Table) (limit : Nat) (before : Input) :
    DecodeError → Input → Prop
  | endOfInput {bytes : List UInt8} {reached : Input} {count : Nat}
      (hbytes : before.Consumed bytes reached)
      (hcount : count = 1 ∨ count = 4 ∨ count = 8)
      (hshort : reached.remaining < count) :
      Failure table limit before ⟨reached.position, .endOfInput count⟩
        (reached.afterShortage count)
  | unknownOpcode {bytes : List UInt8} {lead : UInt8} {reached after : Input}
      (hbytes : before.Consumed bytes reached)
      (hlead : reached.Consumed [lead] after)
      (hslot : table.slot? lead = none) :
      Failure table limit before ⟨reached.position, .unknownOpcode lead⟩ after
  | unknownSecondary {bytes : List UInt8} {lead second : UInt8}
      {reached after : Input}
      (hbytes : before.Consumed (bytes ++ [lead]) reached)
      (hsecond : reached.Consumed [second] after)
      (hslot : table.slot? lead = some .extended)
      (hnone : table.extended? lead second = none) :
      Failure table limit before
        ⟨reached.position, .unknownSecondary lead second⟩ after
  | invalidType {bytes : List UInt8} {byte : UInt8} {role : TypeRole}
      {reached after : Input}
      (hbytes : before.Consumed bytes reached)
      (hbyte : reached.Consumed [byte] after)
      (hrole : ¬ role.Admits byte) :
      Failure table limit before ⟨reached.position, .invalidType byte role⟩ after
  | overlongInteger {bytes groups : List UInt8} {width : Nat} {after : Input}
      (hbytes : before.Consumed (bytes ++ groups) after)
      (hwidth : width = 32 ∨ width = 64)
      (hlength : groups.length = Leb128.maxGroups width)
      (hgroups : ∀ byte ∈ groups, 128 ≤ byte.toNat) :
      Failure table limit before ⟨after.position, .overlongInteger width⟩ after
  | nestingTooDeep {bytes : List UInt8} {after : Input}
      (hbytes : before.Consumed bytes after) :
      Failure table limit before ⟨after.position, .nestingTooDeep limit⟩ after
  | secondElse {bytes : List UInt8} {after : Input}
      (hbytes : before.Consumed bytes after) :
      Failure table limit before ⟨after.position, .secondElse⟩ after

section Failures

variable {table : Table} {limit : Nat} {α β : Type}

/-- The decoder itself is never to blame. -/
theorem Failure.not_internal
    {before after : Input} {error : DecodeError}
    (hfailure : Failure table limit before error after) : ¬ error.fault.isInternal := by
  cases hfailure <;> simp [DecodeFault.isInternal]

-- Under a table that is put together by hand it can be.
example :
    (Decoder.decodeOne
      ⟨⟨"hand", [⟨.single 0x01, ⟨1⟩, .inOrder [.unknown ⟨10, by decide⟩]⟩]⟩, 1, false⟩
      (StreamSource.ofBytes [0x01])).result = .error ⟨1, .internal .unknownField⟩ := by
  cbv

theorem Failure.after_consumed
    {before middle after : Input} {bytes : List UInt8} {error : DecodeError}
    (hbytes : before.Consumed bytes middle)
    (hfailure : Failure table limit middle error after) :
    Failure table limit before error after := by
  cases hfailure with
  | endOfInput hmore hcount hshort =>
      exact .endOfInput (hbytes.append hmore) hcount hshort
  | unknownOpcode hmore hlead hslot =>
      exact .unknownOpcode (hbytes.append hmore) hlead hslot
  | unknownSecondary hmore hsecond hslot hnone =>
      have hboth := hbytes.append hmore
      rw [← List.append_assoc] at hboth
      exact .unknownSecondary hboth hsecond hslot hnone
  | invalidType hmore hbyte hrole =>
      exact .invalidType (hbytes.append hmore) hbyte hrole
  | overlongInteger hmore hwidth hlength hgroups =>
      have hboth := hbytes.append hmore
      rw [← List.append_assoc] at hboth
      exact .overlongInteger hboth hwidth hlength hgroups
  | nestingTooDeep hmore => exact .nestingTooDeep (hbytes.append hmore)
  | secondElse hmore => exact .secondElse (hbytes.append hmore)

/-! ## Readers -/

namespace Reader

/-- A reader fails only as the input justifies. -/
def Justified (table : Table) (limit : Nat) (reader : Reader Input α) : Prop :=
  ∀ input error after, reader input = (.error error, after) →
    Failure table limit input error after

theorem Justified.bind
    {reader : Reader Input α} {next : α → Reader Input β} {form : List UInt8 → α → Prop}
    (hreader : Justified table limit reader) (hform : reader.Recognizes form)
    (hnext : ∀ value, Justified table limit (next value)) :
    Justified table limit (reader >>= next) := by
  intro input error after hfails
  rcases bind_eq_error_iff.mp hfails with hfirst | ⟨value, middle, hvalue, hrest⟩
  · exact hreader input error after hfirst
  · obtain ⟨bytes, _, hbytes⟩ := (hform _ _ _).mp hvalue
    exact (hnext value middle error after hrest).after_consumed hbytes

theorem justified_pure (value : α) :
    Justified table limit (pure value : Reader Input α) := by
  intro input error after hfails
  cases hfails

theorem Justified.map
    {reader : Reader Input α} (hreader : Justified table limit reader) (f : α → β) :
    Justified table limit (reader >>= fun value => pure (f value)) := by
  intro input error after hfails
  rcases bind_eq_error_iff.mp hfails with hfirst | ⟨value, middle, _, hrest⟩
  · exact hreader input error after hfirst
  · cases hrest

theorem Justified.repeated
    {reader : Reader Input α} {form : List UInt8 → α → Prop}
    (hreader : Justified table limit reader) (hform : reader.Recognizes form)
    (count : Nat) : Justified table limit (repeated reader count) := by
  induction count with
  | zero => exact justified_pure []
  | succ count ih =>
      exact hreader.bind hform fun first => ih.map (first :: ·)

theorem justified_nextByte : Justified table limit nextByte := by
  intro input error after hfails
  cases hrest : input.rest with
  | nil =>
      rw [nextByte_nil hrest] at hfails
      cases hfails
      have hshort : input.remaining < 1 := by simp [Input.remaining, hrest]
      have hfailure :
          Failure table limit input (input.shortage 1) (input.afterShortage 1) :=
        .endOfInput (.nil input) (.inl rfl) hshort
      rwa [Input.afterShortage_of_rest_nil hrest] at hfailure
  | cons byte rest =>
      rw [nextByte_cons hrest] at hfails
      cases hfails

theorem justified_nextBytes {count : Nat} (hcount : count = 1 ∨ count = 4 ∨ count = 8) :
    Justified table limit (nextBytes count) := by
  intro input error after hfails
  rw [nextBytes_input] at hfails
  split at hfails
  next => cases hfails
  next hshort =>
    cases hfails
    exact .endOfInput (.nil input) hcount (Nat.lt_of_not_le hshort)

/-- An integer fails for want of a byte, or behind as many groups as its width
allows, none of which is the last one. -/
theorem readGroups_eq_error
    {width : Nat} {signed : Bool} {most shift : Nat} {value : BitVec width}
    {input after : Input} {error : DecodeError}
    (hfails : Leb128.readGroups width signed Leb128.shiftWord most shift value input =
      (.error error, after)) :
    Failure table limit input error after ∨
      ∃ groups, groups.length = most ∧
        (∀ byte ∈ groups, 128 ≤ byte.toNat) ∧ input.Consumed groups after ∧
        error = ⟨after.position, .overlongInteger width⟩ := by
  induction most generalizing shift value input with
  | zero =>
      cases hfails
      exact .inr ⟨[], rfl, by simp, .nil _, rfl⟩
  | succ most ih =>
      rw [Leb128.readGroups_succ] at hfails
      rcases bind_eq_error_iff.mp hfails with hfirst | ⟨byte, middle, hbyte, hrest⟩
      · exact .inl (justified_nextByte input error after hfirst)
      · obtain ⟨_, rfl, hconsumed⟩ := (recognizes_nextByte _ _ _).mp hbyte
        split at hrest
        next hcontinues =>
          rcases ih hrest with hfailure | ⟨groups, hlength, hgroups, hmore, herror⟩
          · exact .inl (hfailure.after_consumed hconsumed)
          · refine .inr ⟨byte :: groups, by simp [hlength], ?_,
              hconsumed.append hmore, herror⟩
            intro other hother
            rcases List.mem_cons.mp hother with rfl | hother
            · simpa [Leb128.continues] using hcontinues
            · exact hgroups other hother
        next => cases hrest

theorem justified_readBits
    {width : Nat} (hwidth : width = 32 ∨ width = 64) (signed : Bool) :
    Justified table limit (Leb128.readBits width signed) := by
  intro input error after hfails
  rcases readGroups_eq_error hfails with hfailure |
    ⟨groups, hlength, hgroups, hconsumed, rfl⟩
  · exact hfailure
  · exact .overlongInteger ((Input.Consumed.nil input).append hconsumed) hwidth
      hlength hgroups

theorem justified_u32 : Justified table limit u32 :=
  (justified_readBits (.inl rfl) false).map UInt32.ofBitVec

theorem justified_i32 : Justified table limit i32 :=
  (justified_readBits (.inl rfl) true).map Int32.ofBitVec

theorem justified_i64 : Justified table limit i64 :=
  (justified_readBits (.inr rfl) true).map Int64.ofBitVec

theorem justified_littleEndian32 : Justified table limit littleEndian32 :=
  (justified_nextBytes (.inr (.inl rfl))).map _

theorem justified_littleEndian64 : Justified table limit littleEndian64 :=
  (justified_nextBytes (.inr (.inr rfl))).map _

theorem justified_typeByte
    {role : TypeRole} {ofByte : UInt8 → Except InternalFault (Option α)}
    {ofByte? : UInt8 → Option α} (hread : ∀ byte, ofByte byte = .ok (ofByte? byte))
    (hadmits : ∀ byte, role.Admits byte → ofByte? byte ≠ none) :
    Justified table limit (typeByte role ofByte) := by
  intro input error after hfails
  change (nextByte >>= fun byte => _) input = _ at hfails
  rcases bind_eq_error_iff.mp hfails with hfirst | ⟨byte, middle, hbyte, hrest⟩
  · exact justified_nextByte input error after hfirst
  · obtain ⟨_, rfl, hconsumed⟩ := (recognizes_nextByte _ _ _).mp hbyte
    simp only [hread] at hrest
    cases htype : ofByte? byte with
    | some type =>
        simp only [htype] at hrest
        cases hrest
    | none =>
        simp only [htype] at hrest
        cases hrest
        exact .invalidType (.nil input) hconsumed fun hrole =>
          hadmits byte hrole htype

theorem justified_valueType : Justified table limit valueType := by
  refine justified_typeByte ValueType.ofByte_eq fun byte hrole => ?_
  rw [Option.ne_none_iff_exists']
  exact ⟨⟨byte⟩, ValueType.ofByte?_eq_some_iff.mpr ⟨hrole, rfl⟩⟩

theorem justified_referenceType : Justified table limit referenceType := by
  refine justified_typeByte referenceByte_eq fun byte hrole => ?_
  have hmem : ValueType.mk byte ∈ ValueType.all := by
    rcases hrole with hrole | hrole <;> rw [hrole] <;> decide
  rw [ValueType.ofByte?_eq_some_iff.mpr ⟨hmem, rfl⟩, Option.filter_some,
    ValueType.isReference_iff.mpr hrole]
  simp

theorem justified_blockType : Justified table limit blockType := by
  refine justified_typeByte BlockType.ofByte_eq fun byte hrole => ?_
  unfold BlockType.ofByte?
  split
  next => simp
  next hother =>
    have hmem : ValueType.mk byte ∈ ValueType.all :=
      hrole.resolve_left hother
    rw [ValueType.ofByte?_eq_some_iff.mpr ⟨hmem, rfl⟩]
    simp

theorem justified_valueTypes : Justified table limit valueTypes :=
  justified_u32.bind recognizes_u32 fun count =>
    justified_valueType.repeated recognizes_valueType count.toNat

theorem justified_branchLabels : Justified table limit branchLabels :=
  justified_u32.bind recognizes_u32 fun count =>
    justified_u32.repeated recognizes_u32 (count.toNat + 1)

theorem failure_of_secondEntry
    {lead : UInt8} {before input after : Input} {error : DecodeError}
    (hlead : before.Consumed [lead] input)
    (hslot : table.slot? lead = some .extended)
    (hfails : secondEntry table lead input = (.error error, after)) :
    Failure table limit before error after := by
  change (nextByte >>= fun second => _) input = _ at hfails
  rcases bind_eq_error_iff.mp hfails with hfirst | ⟨second, last, hsecond, hrest⟩
  · exact (justified_nextByte input error after hfirst).after_consumed hlead
  · obtain ⟨_, rfl, hmore⟩ := (recognizes_nextByte _ _ _).mp hsecond
    cases hfound : table.extended? lead second with
    | some found =>
        simp only [hfound] at hrest
        cases hrest
    | none =>
        simp only [hfound] at hrest
        cases hrest
        exact .unknownSecondary ((Input.Consumed.nil before).append hlead) hmore
          hslot hfound

theorem justified_entry : Justified table limit (entry table) := by
  intro input error after hfails
  change (nextByte >>= fun lead => _) input = _ at hfails
  rcases bind_eq_error_iff.mp hfails with hfirst | ⟨lead, middle, hlead, hrest⟩
  · exact justified_nextByte input error after hfirst
  · obtain ⟨_, rfl, hconsumed⟩ := (recognizes_nextByte _ _ _).mp hlead
    cases hslot : table.slot? lead with
    | none =>
        simp only [hslot] at hrest
        cases hrest
        exact .unknownOpcode (.nil input) hconsumed hslot
    | some slot =>
        cases slot with
        | single owner =>
            simp only [hslot] at hrest
            cases hrest
        | extended =>
            simp only [hslot] at hrest
            exact failure_of_secondEntry hconsumed hslot hrest

end Reader

/-! ## Decoding -/

namespace Decoding

/-- Work fails only as an input of at most `bound` bytes justifies. -/
def Justified (table : Table) (limit bound : Nat) (work : Decoding Input α) : Prop :=
  ∀ session : Session Input, session.input.remaining ≤ bound → ∀ error after,
    work session = (.error error, after) →
      Failure table limit session.input error after.input

theorem justified_read
    {reader : Reader Input α} (hreader : reader.Justified table limit) (bound : Nat) :
    Justified table limit bound (read reader) := by
  intro session _ error after hfails
  unfold read at hfails
  cases hresult : reader session.input with
  | mk result input =>
      rw [hresult] at hfails
      cases hfails
      exact hreader _ _ _ hresult

theorem justified_pure (bound : Nat) (value : α) :
    Justified table limit bound (pure value) := by
  intro session _ error after hfails
  cases hfails

theorem Justified.bind_within
    {bound : Nat} (later : Nat) {work : Decoding Input α} {next : α → Decoding Input β}
    {form : List UInt8 → α → Prop}
    (hwork : Justified table limit bound work)
    (hform : Recognizes bound work form)
    (hlength : ∀ bytes value, form bytes value → bound ≤ later + bytes.length)
    (hnext : ∀ value, (∃ bytes, form bytes value) → Justified table limit later (next value)) :
    Justified table limit bound (work >>= next) := by
  intro session hbound error after hfails
  rcases bind_eq_error_iff.mp hfails with hfirst | ⟨value, middle, hvalue, hrest⟩
  · exact hwork session hbound error after hfirst
  · obtain ⟨bytes, hbytes, hconsumed⟩ :=
      (hform session hbound value middle.input).mp ⟨middle.events, hvalue⟩
    have hremaining := hconsumed.remaining
    have hslack := hlength bytes value hbytes
    exact (hnext value ⟨bytes, hbytes⟩ middle (by omega) error after hrest).after_consumed
      hconsumed

theorem Justified.bind
    {bound : Nat} {work : Decoding Input α} {next : α → Decoding Input β}
    {form : List UInt8 → α → Prop}
    (hwork : Justified table limit bound work)
    (hform : Recognizes bound work form)
    (hnext : ∀ value, Justified table limit bound (next value)) :
    Justified table limit bound (work >>= next) :=
  hwork.bind_within bound hform (fun _ _ _ => Nat.le_add_right _ _) fun value _ => hnext value

theorem Justified.map
    {bound : Nat} {work : Decoding Input α}
    (hwork : Justified table limit bound work) (f : α → β) :
    Justified table limit bound (work >>= fun value => pure (f value)) := by
  intro session hbound error after hfails
  rcases bind_eq_error_iff.mp hfails with hfirst | ⟨value, middle, _, hrest⟩
  · exact hwork session hbound error after hfirst
  · cases hrest

theorem Justified.tell_then
    {bound : Nat} {work : Decoding Input α}
    (hwork : Justified table limit bound work) (decoder : Decoder)
    (event : Event) :
    Justified table limit bound (decoder.tell event >>= fun _ => work) := by
  intro session hbound error after hfails
  obtain ⟨told, htold⟩ := tell_eq_ok decoder event session
  rcases bind_eq_error_iff.mp hfails with hfirst | ⟨_, middle, hmiddle, hrest⟩
  · rw [htold] at hfirst
    cases hfirst
  · rw [htold] at hmiddle
    cases hmiddle
    exact hwork { session with events := told } hbound error after hrest

end Decoding

end Failures

/-! ## Instructions and blocks -/

namespace Decoder

open Decoding

section Operands

variable {decoder : Decoder} {block : Nat → Decoding Input Block} {bound : Nat}

/-- Blocks fail only as the input justifies. -/
def JustifiesBlocks (decoder : Decoder) (block : Nat → Decoding Input Block)
    (bound : Nat) : Prop :=
  ∀ level, Justified decoder.table decoder.depthLimit bound (block level)

theorem JustifiesBlocks.nestedBlock
    (hblock : decoder.JustifiesBlocks block bound) (level : Nat) :
    Justified decoder.table decoder.depthLimit bound
      (decoder.nestedBlock block level) := by
  unfold Decoder.nestedBlock
  split
  next => exact hblock (level + 1)
  next =>
    intro session _ error after hfails
    cases hfails
    exact .nestingTooDeep (.nil _)

theorem JustifiesBlocks.secondArm
    (hblock : decoder.JustifiesBlocks block bound)
    (hreads : decoder.ReadsBlocks block bound) (level : Nat) (first : Block) :
    Justified decoder.table decoder.depthLimit bound
      (secondArm block level first) := by
  unfold Decoder.secondArm
  split
  next =>
    refine (hblock (level + 1)).bind (hreads (level + 1)) ?_
    intro second
    split
    next =>
      intro session _ error after hfails
      cases hfails
      exact .secondElse (.nil _)
    next => exact justified_pure bound _
  next => exact justified_pure bound _

theorem JustifiesBlocks.field
    (hblock : decoder.JustifiesBlocks block bound) (level : Nat)
    {field : Field} (hfield : field ∈ Field.all) :
    Justified decoder.table decoder.depthLimit bound
      (decoder.field block level field) := by
  cases field with
  | u32 => exact (justified_read Reader.justified_u32 bound).map _
  | i32 => exact (justified_read Reader.justified_i32 bound).map _
  | i64 => exact (justified_read Reader.justified_i64 bound).map _
  | f32 => exact (justified_read Reader.justified_littleEndian32 bound).map _
  | f64 => exact (justified_read Reader.justified_littleEndian64 bound).map _
  | index space => exact (justified_read Reader.justified_u32 bound).map _
  | blockType => exact (justified_read Reader.justified_blockType bound).map _
  | referenceType =>
      exact (justified_read Reader.justified_referenceType bound).map _
  | valueTypes => exact (justified_read Reader.justified_valueTypes bound).map _
  | instructions => exact (hblock.nestedBlock level).map _
  | unknown kind => exact absurd hfield (Field.unknown_notMem_all kind)

theorem JustifiesBlocks.fields
    (hblock : decoder.JustifiesBlocks block bound)
    (hreads : decoder.ReadsBlocks block bound) (level : Nat)
    {fields : List Field} (hfields : ∀ field ∈ fields, field ∈ Field.all) :
    Justified decoder.table decoder.depthLimit bound
      (fields.mapM (decoder.field block level)) := by
  induction fields with
  | nil =>
      rw [List.mapM_nil]
      exact justified_pure bound []
  | cons field fields ih =>
      obtain ⟨hfield, hmore⟩ := List.forall_mem_cons.mp hfields
      rw [List.mapM_cons]
      exact (hblock.field level hfield).bind (hreads.field level field)
        fun value => (ih hmore).map (value :: ·)

theorem JustifiesBlocks.operands
    (hblock : decoder.JustifiesBlocks block bound)
    (hreads : decoder.ReadsBlocks block bound) (level : Nat)
    {layout : Layout} (hlayout : layout.Known) :
    Justified decoder.table decoder.depthLimit bound
      (decoder.operands block level layout) := by
  cases layout with
  | inOrder fields => exact hblock.fields hreads level hlayout
  | special directive =>
      cases directive with
      | conditional =>
          refine (justified_read Reader.justified_blockType bound).bind
            (recognizes_read Reader.recognizes_blockType bound) fun type => ?_
          refine (hblock.nestedBlock level).bind (hreads.nestedBlock level)
            fun first => ?_
          exact (hblock.secondArm hreads level first).map _
      | branchTable =>
          exact (justified_read Reader.justified_branchLabels bound).map _
  | unknown rule => exact hlayout.elim

theorem JustifiesBlocks.instruction
    (hblock : decoder.JustifiesBlocks block bound)
    (hreads : decoder.ReadsBlocks block bound)
    (htable : decoder.table.Coherent) (level : Nat) :
    Justified decoder.table decoder.depthLimit (bound + 1)
      (decoder.instruction block level) := by
  have hrest (entry : Entry) (hknown : entry.layout.Known) :
      Justified decoder.table decoder.depthLimit bound
        (do
          let operands ← decoder.operands block level entry.layout
          let item := Instruction.mk entry.type operands
          decoder.tell (.instruction level item)
          return item) :=
    (hblock.operands hreads level hknown).bind
      (hreads.operands level entry.layout) fun values =>
        (justified_pure bound _).tell_then decoder _
  refine (justified_read Reader.justified_entry (bound + 1)).bind_within
    bound (recognizes_read (Reader.recognizes_entry htable) (bound + 1)) ?_ ?_
  · rintro bytes entry ⟨_, rfl⟩
    have hopcode := List.length_pos_iff.mpr entry.opcode.bytes_ne_nil
    omega
  · rintro entry ⟨bytes, hentry, rfl⟩
    exact hrest entry (htable.known entry hentry)

end Operands

variable {decoder : Decoder}

theorem justified_block
    (htable : decoder.table.Coherent) (budget level : Nat)
    (earlier : List Instruction) :
    Justified decoder.table decoder.depthLimit budget
      (decoder.block budget level earlier) := by
  induction budget generalizing level earlier with
  | zero =>
      -- out of budget, the block is refused for the byte that is not there
      intro session hbound error after hfails
      cases hfails
      have hrest : session.input.rest = [] :=
        List.eq_nil_of_length_eq_zero (Nat.le_zero.mp hbound)
      have hfailure :
          Failure decoder.table decoder.depthLimit session.input
            (session.input.shortage 1) (session.input.afterShortage 1) :=
        .endOfInput (.nil _) (.inl rfl) (Nat.lt_succ_of_le hbound)
      rwa [Input.afterShortage_of_rest_nil hrest] at hfailure
  | succ budget ih =>
      have hreads := readsBlocks htable budget
      have hblocks :
          decoder.JustifiesBlocks (fun inner => decoder.block budget inner [])
            budget :=
        fun inner => ih inner []
      refine (hblocks.instruction hreads htable level).bind_within budget
        (hreads.instruction htable level) ?_ fun item _ => ?_
      · intro bytes item hitem
        have hpos := hitem.instruction_length_pos
        omega
      · split
        next => exact (justified_pure budget _).tell_then decoder _
        next => exact ih level (item :: earlier)

theorem run_eq_error
    {α : Type} {work : Decoding Input α} {input : Input} {bound : Nat}
    (hwork : Justified decoder.table decoder.depthLimit bound work)
    (hbound : input.remaining ≤ bound) {error : DecodeError}
    (herror : (decoder.run work input).result = .error error) :
    Failure decoder.table decoder.depthLimit input error
      (decoder.run work input).input := by
  obtain ⟨told, events, hrun⟩ := decoder.run_eq_work work input
  rw [hrun] at herror ⊢
  exact hwork ⟨input, told⟩ hbound error _ (Prod.ext herror rfl)

theorem decodeOne_eq_error
    (htable : decoder.table.Coherent) {input : Input} {error : DecodeError}
    (herror : (decoder.decodeOne input).result = .error error) :
    Failure decoder.table decoder.depthLimit input error
      (decoder.decodeOne input).input := by
  have hblocks :
      decoder.JustifiesBlocks
        (fun level => decoder.block input.remaining level []) input.remaining :=
    fun level => justified_block htable input.remaining level []
  exact run_eq_error
    (hblocks.instruction (readsBlocks htable input.remaining) htable 0)
    (Nat.le_succ _) herror

theorem decodeBlock_eq_error
    (htable : decoder.table.Coherent) {input : Input} {error : DecodeError}
    (herror : (decoder.decodeBlock input).result = .error error) :
    Failure decoder.table decoder.depthLimit input error
      (decoder.decodeBlock input).input :=
  run_eq_error (justified_block htable input.remaining 0 []) le_rfl herror

end Decoder

end Disassembly
