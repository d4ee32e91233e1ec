import Disassembly.Proofs.Grammar.Acceptance

/-!
# Encodings delimit themselves

A decoder settles an input if it returns something, or fails for another reason
than missing bytes.  What is settled depends on the consumed bytes alone: every
input that starts with the same bytes at the same place is settled in the same
way, whatever follows.  If one of these bytes is cut off, a decoder can only
ask for more, since neither a result nor another error could be taken back.

Readers and the parts of a decoder are treated in the same order as for
acceptance.  Two inputs may differ in length, and with them the budgets of the
two runs.  Therefore a part of a decoder is compared with the same part under
another budget, which has to cover the bytes that the first run consumed.
-/

namespace Disassembly

/-! ## Settled results -/

/-- The error of an input that ends too early. -/
def DecodeError.IsShortage (error : DecodeError) : Prop :=
  ∃ count, error.fault = .endOfInput count

/-- A result that does not blame missing bytes. -/
def Settled {α : Type} (result : Except DecodeError α) : Prop :=
  ∀ error, result = .error error → ¬ error.IsShortage

@[simp] theorem settled_ok {α : Type} (value : α) :
    Settled (.ok value : Except DecodeError α) := by
  simp [Settled]

@[simp] theorem settled_error_iff {α : Type} {error : DecodeError} :
    Settled (.error error : Except DecodeError α) ↔ ¬ error.IsShortage := by
  simp [Settled]

theorem Input.isShortage_shortage (input : Input) (count : Nat) :
    (input.shortage count).IsShortage :=
  ⟨count, rfl⟩

/-- A way to decode that settles equal beginnings equally. -/
structure SettlesLocally {α : Type} (decode : Input → Outcome Input α) : Prop where
  consumes : ∀ input, Settled (decode input).result →
    ∃ bytes, input.Consumed bytes (decode input).input
  repeats : ∀ input bytes other last, Settled (decode input).result →
    input.Consumed bytes (decode input).input →
    other.position = input.position → other.Consumed bytes last →
    (decode other).result = (decode input).result ∧ (decode other).input = last

/-! ## Readers -/

namespace Reader

variable {α β : Type}

/-- What the reader settles, it settles in the same way wherever it meets the
consumed bytes at the same place. -/
def Local (reader : Reader Input α) : Prop :=
  ∀ before result after, reader before = (result, after) → Settled result →
    ∃ bytes, before.Consumed bytes after ∧
      ∀ other last, other.position = before.position →
        other.Consumed bytes last → reader other = (result, last)

/-- A reader that does nothing but end. -/
theorem local_ending
    {reader : Reader Input α} {result : Except DecodeError α}
    (hreader : ∀ input, reader input = (result, input)) : reader.Local := by
  intro before outcome after hrun _
  rw [hreader] at hrun
  cases hrun
  refine ⟨[], .nil before, ?_⟩
  intro other last _ hlast
  rw [Input.consumed_nil_iff.mp hlast]
  exact hreader other

theorem local_pure (value : α) : Local (pure value : Reader Input α) :=
  local_ending fun _ => rfl

theorem Local.bind
    {reader : Reader Input α} {next : α → Reader Input β} (hreader : reader.Local)
    (hnext : ∀ value, (next value).Local) : Local (reader >>= next) := by
  intro before result after hrun hsettled
  cases hfirst : reader before with
  | mk outcome middle =>
      simp only [bind_apply, hfirst] at hrun
      cases outcome with
      | error error =>
          cases hrun
          obtain ⟨bytes, hbytes, hagain⟩ :=
            hreader _ _ _ hfirst (settled_error_iff.mpr (hsettled error rfl))
          refine ⟨bytes, hbytes, ?_⟩
          intro other last hposition hlast
          simp only [bind_apply, hagain other last hposition hlast]
      | ok value =>
          obtain ⟨first, hconsumed, hagain⟩ :=
            hreader _ _ _ hfirst (settled_ok value)
          obtain ⟨second, hmore, hrest⟩ := hnext value _ _ _ hrun hsettled
          refine ⟨first ++ second, hconsumed.append hmore, ?_⟩
          intro other last hposition hlast
          obtain ⟨between, hbetween, hend⟩ := hlast.split
          have hsame : between.position = middle.position := by
            rw [hbetween.position, hconsumed.position, hposition]
          simp only [bind_apply, hagain other between hposition hbetween]
          exact hrest between last hsame hend

theorem Local.map
    {reader : Reader Input α} (hreader : reader.Local) (f : α → β) :
    Local (reader >>= fun value => pure (f value)) :=
  hreader.bind fun value => local_pure (f value)

/-- The position is the same in both runs, so that errors may name it. -/
theorem Local.position_then
    {next : Nat → Reader Input α} (hnext : ∀ start, (next start).Local) :
    Local (position >>= next) := by
  intro before result after hrun hsettled
  have hstart (input : Input) :
      (position >>= next) input = next input.position input := rfl
  rw [hstart] at hrun
  obtain ⟨bytes, hbytes, hagain⟩ := hnext before.position _ _ _ hrun hsettled
  refine ⟨bytes, hbytes, ?_⟩
  intro other last hposition hlast
  rw [hstart, hposition]
  exact hagain other last hposition hlast

theorem local_failHere (fault : DecodeFault) :
    Local (failHere fault : Reader Input α) :=
  .position_then fun _ => local_ending fun _ => rfl

/-- A reader whose only error is a shortage is local as soon as it recognizes a form. -/
theorem Recognizes.local_of_shortage
    {reader : Reader Input α} {form : List UInt8 → α → Prop}
    (hreader : reader.Recognizes form)
    (herror : ∀ before error after, reader before = (.error error, after) →
      error.IsShortage) : reader.Local := by
  intro before result after hrun hsettled
  cases result with
  | error error =>
      have hshortage := herror before error after hrun
      exact absurd hshortage (settled_error_iff.mp hsettled)
  | ok value =>
      obtain ⟨bytes, hform, hbytes⟩ := (hreader before value after).mp hrun
      refine ⟨bytes, hbytes, ?_⟩
      intro other last _ hlast
      exact (hreader other value last).mpr ⟨bytes, hform, hlast⟩

theorem local_nextByte : Local nextByte := by
  apply recognizes_nextByte.local_of_shortage
  intro before error after hrun
  cases hrest : before.rest with
  | nil =>
      rw [nextByte_nil hrest] at hrun
      cases hrun
      exact ⟨1, rfl⟩
  | cons byte rest =>
      rw [nextByte_cons hrest] at hrun
      cases hrun

theorem local_nextBytes (count : Nat) : Local (nextBytes count) := by
  apply (recognizes_nextBytes count).local_of_shortage
  intro before error after hrun
  rw [nextBytes_input] at hrun
  split at hrun
  next => cases hrun
  next =>
    cases hrun
    exact ⟨count, rfl⟩

theorem Local.repeated {reader : Reader Input α} (hreader : reader.Local) (count : Nat) :
    Local (repeated reader count) := by
  induction count with
  | zero => exact local_pure []
  | succ count ih => exact hreader.bind fun first => ih.map (first :: ·)

theorem local_readGroups
    {width : Nat} (signed : Bool) (count shift : Nat) (value : BitVec width) :
    Local (Leb128.readGroups width signed Leb128.shiftWord count shift value) := by
  induction count generalizing shift value with
  | zero => exact local_failHere _
  | succ count ih =>
      rw [Leb128.readGroups_succ]
      refine local_nextByte.bind fun byte => ?_
      dsimp only
      split
      next => exact ih _ _
      next => exact local_pure _

theorem local_readBits (width : Nat) (signed : Bool) :
    Local (Leb128.readBits width signed) :=
  local_readGroups signed _ 0 0

theorem local_u32 : Local u32 :=
  (local_readBits 32 false).map UInt32.ofBitVec

theorem local_i32 : Local i32 :=
  (local_readBits 32 true).map Int32.ofBitVec

theorem local_i64 : Local i64 :=
  (local_readBits 64 true).map Int64.ofBitVec

theorem local_littleEndian32 : Local littleEndian32 :=
  (local_nextBytes 4).map _

theorem local_littleEndian64 : Local littleEndian64 :=
  (local_nextBytes 8).map _

theorem local_typeByte (role : TypeRole) (ofByte : UInt8 → Except InternalFault (Option α)) :
    Local (typeByte role ofByte) := by
  refine .position_then fun start => local_nextByte.bind fun byte => ?_
  cases ofByte byte with
  | error fault => exact local_failHere _
  | ok type? =>
      cases type? with
      | some type => exact local_pure type
      | none => exact local_ending fun _ => rfl

theorem local_blockType : Local blockType :=
  local_typeByte .block _

theorem local_referenceType : Local referenceType :=
  local_typeByte .reference _

theorem local_valueType : Local valueType :=
  local_typeByte .value _

theorem local_valueTypes : Local valueTypes :=
  local_u32.bind fun count => local_valueType.repeated count.toNat

theorem local_branchLabels : Local branchLabels :=
  local_u32.bind fun count => local_u32.repeated (count.toNat + 1)

theorem local_secondEntry (table : Table) (lead : UInt8) :
    Local (secondEntry table lead) := by
  refine .position_then fun start => local_nextByte.bind fun second => ?_
  cases table.extended? lead second with
  | some found => exact local_pure found
  | none => exact local_ending fun _ => rfl

theorem local_entry (table : Table) : Local (entry table) := by
  refine .position_then fun start => local_nextByte.bind fun lead => ?_
  cases table.slot? lead with
  | none => exact local_ending fun _ => rfl
  | some slot =>
      cases slot with
      | single found => exact local_pure found
      | extended => exact local_secondEntry table lead

/-- An opcode is settled only behind its first byte. -/
theorem entry_consumes
    {table : Table} {before after : Input} {result : Except DecodeError Entry}
    (hrun : entry table before = (result, after)) (hsettled : Settled result)
    {bytes : List UInt8} (hbytes : before.Consumed bytes after) :
    1 ≤ bytes.length := by
  obtain ⟨settling, hsettling, hagain⟩ :=
    local_entry table before result after hrun hsettled
  have hlength : settling.length = bytes.length := by
    have hposition := hsettling.position.symm.trans hbytes.position
    omega
  rw [← hlength]
  by_contra hnone
  -- settled by nothing, the opcode would be found where no byte is left
  have hnil : settling = [] := List.eq_nil_of_length_eq_zero (by omega)
  subst hnil
  let other : Input := ⟨before.shortRead, before.position, []⟩
  have hempty : entry table other = (.error (other.shortage 1), other) := rfl
  rw [hagain other other rfl (.nil other)] at hempty
  cases hempty
  exact hsettled _ rfl (other.isShortage_shortage 1)

end Reader

/-! ## Decoding -/

namespace Decoding

variable {α β : Type}

/-- What the one computation settles, it settles behind `least` bytes or more.  The
other one settles it in the same way wherever it meets these bytes at the same
place, as long as there are no more than `bound` of them. -/
def Repeats (least bound : Nat) (work again : Decoding Input α) : Prop :=
  ∀ before result after, work before = (result, after) → Settled result →
    ∃ bytes, before.input.Consumed bytes after.input ∧ least ≤ bytes.length ∧
      (bytes.length ≤ bound → ∀ other last,
        other.input.position = before.input.position →
        other.input.Consumed bytes last →
        ∃ events, again other = (result, ⟨last, events⟩))

theorem repeats_read
    {reader : Reader Input α} (hreader : reader.Local) (bound : Nat) :
    Repeats 0 bound (read reader) (read reader) := by
  intro before result after hrun hsettled
  unfold read at hrun
  cases hread : reader before.input with
  | mk outcome input =>
      rw [hread] at hrun
      cases hrun
      obtain ⟨bytes, hbytes, hagain⟩ := hreader _ _ _ hread hsettled
      refine ⟨bytes, hbytes, Nat.zero_le _, ?_⟩
      intro _ other last hposition hlast
      unfold read
      rw [hagain other.input last hposition hlast]
      exact ⟨other.events, rfl⟩

theorem repeats_entry (table : Table) (bound : Nat) :
    Repeats 1 bound (read (Reader.entry table)) (read (Reader.entry table)) := by
  intro before result after hrun hsettled
  obtain ⟨bytes, hbytes, _, hagain⟩ :=
    repeats_read (Reader.local_entry table) bound _ _ _ hrun hsettled
  refine ⟨bytes, hbytes, ?_, hagain⟩
  unfold read at hrun
  cases hread : Reader.entry table before.input with
  | mk outcome input =>
      rw [hread] at hrun
      cases hrun
      exact Reader.entry_consumes hread hsettled hbytes

theorem repeats_pure (bound : Nat) (value : α) :
    Repeats 0 bound (pure value) (pure value) := by
  intro before result after hrun _
  cases hrun
  refine ⟨[], .nil _, le_rfl, ?_⟩
  intro _ other last _ hlast
  rw [Input.consumed_nil_iff.mp hlast]
  exact ⟨other.events, rfl⟩

theorem repeats_tell (decoder : Decoder) (event : Event) (bound : Nat) :
    Repeats 0 bound (decoder.tell event) (decoder.tell event) := by
  intro before result after hrun _
  obtain ⟨events, htold⟩ := tell_eq_ok decoder event before
  rw [htold] at hrun
  cases hrun
  refine ⟨[], .nil _, le_rfl, ?_⟩
  intro _ other last _ hlast
  rw [Input.consumed_nil_iff.mp hlast]
  exact tell_eq_ok decoder event other

/-- The second part has to cope with what the bound leaves behind the first one. -/
theorem Repeats.bind
    {least bound later : Nat} {work again : Decoding Input α}
    {next nextAgain : α → Decoding Input β}
    (hwork : Repeats least bound work again) (hlater : bound ≤ later + least)
    (hnext : ∀ value, Repeats 0 later (next value) (nextAgain value)) :
    Repeats least bound (work >>= next) (again >>= nextAgain) := by
  intro before result after hrun hsettled
  cases hfirst : work before with
  | mk outcome middle =>
      simp only [bind_apply, hfirst] at hrun
      cases outcome with
      | error error =>
          cases hrun
          obtain ⟨bytes, hbytes, hleast, hagain⟩ :=
            hwork _ _ _ hfirst (settled_error_iff.mpr (hsettled error rfl))
          refine ⟨bytes, hbytes, hleast, ?_⟩
          intro hbound other last hposition hlast
          obtain ⟨events, hother⟩ := hagain hbound other last hposition hlast
          simp only [bind_apply, hother]
          exact ⟨events, rfl⟩
      | ok value =>
          obtain ⟨first, hconsumed, hleast, hagain⟩ :=
            hwork _ _ _ hfirst (settled_ok value)
          obtain ⟨second, hmore, _, hrest⟩ :=
            hnext value _ _ _ hrun hsettled
          have hlength : (first ++ second).length = first.length + second.length :=
            List.length_append
          refine ⟨first ++ second, hconsumed.append hmore, by omega, ?_⟩
          intro hbound other last hposition hlast
          obtain ⟨between, hbetween, hend⟩ := hlast.split
          obtain ⟨told, hother⟩ :=
            hagain (by omega) other between hposition hbetween
          have hsame : between.position = middle.input.position := by
            rw [hbetween.position, hconsumed.position, hposition]
          simp only [bind_apply, hother]
          exact hrest (by omega) ⟨between, told⟩ last hsame hend

theorem Repeats.map
    {least bound : Nat} {work again : Decoding Input α}
    (hwork : Repeats least bound work again) (f : α → β) :
    Repeats least bound (work >>= fun value => pure (f value))
      (again >>= fun value => pure (f value)) :=
  hwork.bind (Nat.le_add_right _ _) fun value => repeats_pure bound (f value)

theorem Repeats.of_least
    {least bound : Nat} {work again : Decoding Input α}
    (hwork : Repeats least bound work again) : Repeats 0 bound work again := by
  intro before result after hrun hsettled
  obtain ⟨bytes, hbytes, _, hagain⟩ := hwork _ _ _ hrun hsettled
  exact ⟨bytes, hbytes, Nat.zero_le _, hagain⟩

/-- Nothing that takes more bytes than the bound has to be repeated. -/
theorem Repeats.of_lt
    {least bound later : Nat} {work again other : Decoding Input α}
    (hwork : Repeats least bound work again) (hlater : later < least) :
    Repeats least later work other := by
  intro before result after hrun hsettled
  obtain ⟨bytes, hbytes, hleast, _⟩ := hwork _ _ _ hrun hsettled
  refine ⟨bytes, hbytes, hleast, ?_⟩
  intro hbound
  omega

end Decoding

namespace Decoder

open Decoding

/-! ## Operands -/

section Operands

variable {decoder : Decoder} {block again : Nat → Decoding Input Block} {bound : Nat}

/-- The same blocks, read in two ways. -/
def RepeatsBlocks (block again : Nat → Decoding Input Block) (bound : Nat) : Prop :=
  ∀ level, Repeats 0 bound (block level) (again level)

theorem RepeatsBlocks.nestedBlock
    (hblock : RepeatsBlocks block again bound) (level : Nat) :
    Repeats 0 bound (decoder.nestedBlock block level)
      (decoder.nestedBlock again level) := by
  unfold Decoder.nestedBlock
  split
  next => exact hblock (level + 1)
  next => exact repeats_read (Reader.local_failHere _) bound

theorem RepeatsBlocks.secondArm
    (hblock : RepeatsBlocks block again bound) (level : Nat) (first : Block) :
    Repeats 0 bound (secondArm block level first)
      (secondArm again level first) := by
  unfold Decoder.secondArm
  split
  next =>
    refine (hblock (level + 1)).bind le_rfl fun second => ?_
    split
    next => exact repeats_read (Reader.local_failHere _) bound
    next => exact repeats_pure bound _
  next => exact repeats_pure bound _

theorem RepeatsBlocks.field
    (hblock : RepeatsBlocks block again bound) (level : Nat) (field : Field) :
    Repeats 0 bound (decoder.field block level field)
      (decoder.field again level field) := by
  cases field with
  | u32 => exact (repeats_read Reader.local_u32 bound).map _
  | i32 => exact (repeats_read Reader.local_i32 bound).map _
  | i64 => exact (repeats_read Reader.local_i64 bound).map _
  | f32 => exact (repeats_read Reader.local_littleEndian32 bound).map _
  | f64 => exact (repeats_read Reader.local_littleEndian64 bound).map _
  | index space => exact (repeats_read Reader.local_u32 bound).map _
  | blockType => exact (repeats_read Reader.local_blockType bound).map _
  | referenceType => exact (repeats_read Reader.local_referenceType bound).map _
  | valueTypes => exact (repeats_read Reader.local_valueTypes bound).map _
  | instructions => exact (hblock.nestedBlock level).map _
  | unknown kind => exact repeats_read (Reader.local_failHere _) bound

theorem RepeatsBlocks.fields
    (hblock : RepeatsBlocks block again bound) (level : Nat)
    (fields : List Field) :
    Repeats 0 bound (fields.mapM (decoder.field block level))
      (fields.mapM (decoder.field again level)) := by
  induction fields with
  | nil =>
      simp only [List.mapM_nil]
      exact repeats_pure bound []
  | cons field fields ih =>
      simp only [List.mapM_cons]
      exact (hblock.field level field).bind le_rfl fun value =>
        ih.map (value :: ·)

theorem RepeatsBlocks.operands
    (hblock : RepeatsBlocks block again bound) (level : Nat) (layout : Layout) :
    Repeats 0 bound (decoder.operands block level layout)
      (decoder.operands again level layout) := by
  cases layout with
  | inOrder fields => exact hblock.fields level fields
  | special directive =>
      cases directive with
      | conditional =>
          refine (repeats_read Reader.local_blockType bound).bind le_rfl
            fun type => ?_
          refine (hblock.nestedBlock level).bind le_rfl fun first => ?_
          exact (hblock.secondArm level first).map _
      | branchTable =>
          exact (repeats_read Reader.local_branchLabels bound).map _
  | unknown rule => exact repeats_read (Reader.local_failHere _) bound

theorem RepeatsBlocks.instruction
    (hblock : RepeatsBlocks block again bound) (level : Nat) :
    Repeats 1 (bound + 1) (decoder.instruction block level)
      (decoder.instruction again level) := by
  refine (repeats_entry decoder.table (bound + 1)).bind le_rfl fun entry => ?_
  refine (hblock.operands level entry.layout).bind le_rfl fun values => ?_
  refine (repeats_tell decoder _ bound).bind le_rfl fun _ => ?_
  exact repeats_pure bound _

end Operands

/-! ## Blocks -/

variable {decoder : Decoder}

theorem repeats_block
    (budget again level : Nat) (earlier : List Instruction) :
    Repeats 1 again (decoder.block budget level earlier)
      (decoder.block again level earlier) := by
  induction budget generalizing again level earlier with
  | zero =>
      -- out of budget nothing is settled
      intro before result after hrun hsettled
      cases hrun
      exact absurd (before.input.isShortage_shortage 1) (hsettled _ rfl)
  | succ budget ih =>
      have hstep (again : Nat) :
          Repeats 1 (again + 1) (decoder.block (budget + 1) level earlier)
            (decoder.block (again + 1) level earlier) := by
        have hblocks :
            RepeatsBlocks (fun inner => decoder.block budget inner [])
              (fun inner => decoder.block again inner []) again :=
          fun inner => (ih again inner []).of_least
        refine (hblocks.instruction level).bind le_rfl fun item => ?_
        split
        next =>
          refine (repeats_tell decoder _ again).bind le_rfl fun _ => ?_
          exact repeats_pure again _
        next => exact (ih again level (item :: earlier)).of_least
      cases again with
      | zero => exact (hstep 0).of_lt Nat.zero_lt_one
      | succ again => exact hstep again

/-! ## Whole runs -/

section Runs

variable {α : Type} {work again : Decoding Input α} {least bound : Nat}

theorem exists_consumed_of_repeats
    (hwork : Repeats least bound work again) {input : Input}
    (hsettled : Settled (decoder.run work input).result) :
    ∃ bytes, input.Consumed bytes (decoder.run work input).input := by
  obtain ⟨told, events, hrun⟩ := decoder.run_eq_work work input
  rw [hrun] at hsettled ⊢
  obtain ⟨bytes, hbytes, _⟩ := hwork ⟨input, told⟩ _ _ rfl hsettled
  exact ⟨bytes, hbytes⟩

theorem run_eq_of_repeats
    (hwork : Repeats least bound work again) {input other last : Input}
    {bytes : List UInt8}
    (hsettled : Settled (decoder.run work input).result)
    (hbytes : input.Consumed bytes (decoder.run work input).input)
    (hbound : bytes.length ≤ bound) (hposition : other.position = input.position)
    (hlast : other.Consumed bytes last) :
    (decoder.run again other).result = (decoder.run work input).result ∧
      (decoder.run again other).input = last := by
  obtain ⟨told, events, hrun⟩ := decoder.run_eq_work work input
  obtain ⟨toldAgain, eventsAgain, hrunAgain⟩ := decoder.run_eq_work again other
  rw [hrun] at hsettled hbytes
  rw [hrun, hrunAgain]
  obtain ⟨settling, hsettling, _, hagain⟩ :=
    hwork ⟨input, told⟩ _ _ rfl hsettled
  have hsame : settling = bytes :=
    List.append_cancel_right (hsettling.rest.symm.trans hbytes.rest)
  subst hsame
  obtain ⟨_, hother⟩ := hagain hbound ⟨other, toldAgain⟩ last hposition hlast
  rw [hother]
  exact ⟨rfl, rfl⟩

end Runs

theorem decodeOne_settlesLocally : SettlesLocally decoder.decodeOne := by
  have hwork (first second : Nat) :
      Repeats 1 (second + 1)
        (decoder.instruction (fun level => decoder.block first level []) 0)
        (decoder.instruction (fun level => decoder.block second level []) 0) :=
    RepeatsBlocks.instruction
      (fun level => (repeats_block first second level []).of_least) 0
  constructor
  · intro input hsettled
    exact exists_consumed_of_repeats (hwork _ 0) hsettled
  · intro input bytes other last hsettled hbytes hposition hlast
    have hlength : bytes.length ≤ other.remaining + 1 := by
      have hremaining := hlast.remaining
      omega
    exact run_eq_of_repeats (hwork _ _) hsettled hbytes hlength hposition hlast

theorem decodeBlock_settlesLocally : SettlesLocally decoder.decodeBlock := by
  constructor
  · intro input hsettled
    exact exists_consumed_of_repeats (repeats_block _ 0 0 []) hsettled
  · intro input bytes other last hsettled hbytes hposition hlast
    have hlength : bytes.length ≤ other.remaining := by
      have hremaining := hlast.remaining
      omega
    exact run_eq_of_repeats (repeats_block _ _ 0 []) hsettled hbytes hlength
      hposition hlast

end Decoder

/-! ## Buffers -/

namespace Buffer

variable {α : Type} {iterate : BufferIterator → Outcome BufferIterator α}
variable {decode : Input → Outcome Input α} {buffer other : Buffer}
variable {start stop : Nat} {result : Except DecodeError α}

/-- Decoding from an offset on ends with a result at another offset. -/
def Decodes (buffer : Buffer) (iterate : BufferIterator → Outcome BufferIterator α)
    (start : Nat) (result : Except DecodeError α) (stop : Nat) : Prop :=
  ∃ iterator, buffer.iterator start = .ok iterator ∧
    (iterate iterator).result = result ∧ (iterate iterator).input.position = stop

theorem decodes_iff (hagree : BufferIterator.Agree iterate decode) :
    buffer.Decodes iterate start result stop ↔
      start ≤ buffer.size ∧
        (decode ⟨.keeps, start, buffer.bytes.drop start⟩).result = result ∧
        (decode ⟨.keeps, start, buffer.bytes.drop start⟩).input.position =
          stop :=
  exists_iterate_iff hagree

theorem Decodes.unique
    {otherResult : Except DecodeError α} {otherStop : Nat}
    (hfirst : buffer.Decodes iterate start result stop)
    (hsecond : buffer.Decodes iterate start otherResult otherStop) :
    result = otherResult ∧ stop = otherStop := by
  obtain ⟨_, hiterator, rfl, rfl⟩ := hfirst
  obtain ⟨_, hagain, rfl, rfl⟩ := hsecond
  obtain rfl := Except.ok.inj (hiterator.symm.trans hagain)
  exact ⟨rfl, rfl⟩

theorem Decodes.bounds
    (hdecode : SettlesLocally decode) (hagree : BufferIterator.Agree iterate decode)
    (hsettled : Settled result) (hdecodes : buffer.Decodes iterate start result stop) :
    start ≤ stop ∧ stop ≤ buffer.size := by
  obtain ⟨hstart, rfl, hstop⟩ := (decodes_iff hagree).mp hdecodes
  obtain ⟨bytes, hbytes⟩ := hdecode.consumes _ hsettled
  have hposition : stop = start + bytes.length :=
    hstop.symm.trans hbytes.position
  have hlength := congrArg List.length hbytes.rest
  simp only [List.length_drop, List.length_append] at hlength
  unfold size at hstart ⊢
  omega

/-- What is settled stays settled in every buffer with the same beginning. -/
theorem Decodes.transfer
    (hdecode : SettlesLocally decode) (hagree : BufferIterator.Agree iterate decode)
    (hsettled : Settled result) (hdecodes : buffer.Decodes iterate start result stop)
    (hsame : buffer.bytes.take stop <+: other.bytes) :
    other.Decodes iterate start result stop := by
  obtain ⟨hstart, rfl, hstop⟩ := (decodes_iff hagree).mp hdecodes
  obtain ⟨bytes, hbytes⟩ := hdecode.consumes _ hsettled
  have hposition : stop = start + bytes.length :=
    hstop.symm.trans hbytes.position
  have hbeginning : buffer.bytes.take stop = buffer.bytes.take start ++ bytes := by
    have hrest : buffer.bytes.drop start = bytes ++ _ := hbytes.rest
    rw [hposition, List.take_add, hrest, List.take_left]
  have hlength : (buffer.bytes.take start).length = start :=
    List.length_take_of_le hstart
  obtain ⟨tail, htail⟩ := hsame
  rw [hbeginning, List.append_assoc] at htail
  have hrest : other.bytes.drop start = bytes ++ tail := by
    rw [← htail, List.drop_left' hlength]
  have hsize : start ≤ other.size := by
    have hlength' := congrArg List.length htail
    rw [List.length_append, hlength] at hlength'
    unfold size
    omega
  obtain ⟨hresult, hlast⟩ := hdecode.repeats _ bytes
    ⟨.keeps, start, other.bytes.drop start⟩ _ hsettled hbytes rfl
    (Input.consumed_of_rest hrest)
  refine (decodes_iff hagree).mpr ⟨hsize, hresult, ?_⟩
  rw [hlast, hposition]

end Buffer

/-- What is decoded from an offset of a buffer on shows where it ends. -/
structure SelfDelimiting {α : Type} (iterate : BufferIterator → Outcome BufferIterator α)
    (buffer : Buffer) (start : Nat) : Prop where
  returned : ∀ value stop, buffer.Decodes iterate start (.ok value) stop →
    ∀ other : Buffer, buffer.bytes.take stop <+: other.bytes →
      other.Decodes iterate start (.ok value) stop
  truncated : ∀ value stop, buffer.Decodes iterate start (.ok value) stop →
    ∀ size, start ≤ size → size < stop → ∃ error reached,
      Buffer.Decodes ⟨buffer.bytes.take size⟩ iterate start (.error error) reached ∧
        error.IsShortage
  refused : ∀ error stop, buffer.Decodes iterate start (.error error) stop →
    ¬ error.IsShortage → ∀ other : Buffer, buffer.bytes.take stop <+: other.bytes →
      other.Decodes iterate start (.error error) stop

theorem SettlesLocally.selfDelimiting
    {α : Type} {decode : Input → Outcome Input α} (hdecode : SettlesLocally decode)
    {iterate : BufferIterator → Outcome BufferIterator α}
    (hagree : BufferIterator.Agree iterate decode) (buffer : Buffer) (start : Nat) :
    SelfDelimiting iterate buffer start := by
  constructor
  · intro value stop hdecodes other hbeginning
    exact hdecodes.transfer hdecode hagree (settled_ok value) hbeginning
  · intro value stop hdecodes size hstart hsize
    have hbounds := hdecodes.bounds hdecode hagree (settled_ok value)
    let cut : Buffer := ⟨buffer.bytes.take size⟩
    have hcut : cut.size = size := by
      have hlength : size ≤ buffer.bytes.length := by
        have hstop := hbounds.2
        unfold Buffer.size at hstop
        omega
      exact List.length_take_of_le hlength
    let outcome := decode ⟨.keeps, start, cut.bytes.drop start⟩
    have houtcome :
        cut.Decodes iterate start outcome.result outcome.input.position :=
      (Buffer.decodes_iff hagree).mpr ⟨by omega, rfl, rfl⟩
    -- settled, the shorter buffer would settle the longer one as well
    have hunsettled : ¬ Settled outcome.result := by
      intro hsettled
      have hreached := (houtcome.bounds hdecode hagree hsettled).2
      have hbeginning : cut.bytes.take outcome.input.position <+: buffer.bytes :=
        (List.take_prefix _ _).trans (List.take_prefix _ _)
      have hwhole := houtcome.transfer hdecode hagree hsettled hbeginning
      have hstop := (hdecodes.unique hwhole).2
      omega
    cases hresult : outcome.result with
    | ok value => exact absurd (by simp [hresult]) hunsettled
    | error error =>
        have hshortage : error.IsShortage := by
          rw [hresult, settled_error_iff, not_not] at hunsettled
          exact hunsettled
        rw [hresult] at houtcome
        exact ⟨error, _, houtcome, hshortage⟩
  · intro error stop hdecodes herror other hbeginning
    exact hdecodes.transfer hdecode hagree (settled_error_iff.mpr herror) hbeginning

/-- Instructions and blocks end where their own bytes say so, under every table. -/
theorem decoding_is_self_delimiting
    (decoder : Decoder) (buffer : Buffer) (start : Nat) :
    SelfDelimiting decoder.decodeOne buffer start ∧
      SelfDelimiting decoder.decodeBlock buffer start :=
  ⟨Decoder.decodeOne_settlesLocally.selfDelimiting
      (BufferIterator.agree_decodeOne decoder) buffer start,
    Decoder.decodeBlock_settlesLocally.selfDelimiting
      (BufferIterator.agree_decodeBlock decoder) buffer start⟩

/-- A constant behind a foreign byte, before one, and without its last byte, and an
unknown opcode in a block that could go on. -/
theorem delimited_constant :
    Buffer.Decodes ⟨[0xFF, 0x41, 0xFF, 0x00, 0xAA]⟩
        (Decoder.decodeOne ⟨Table.sample, 1, false⟩) 1
        (.ok ⟨⟨61⟩, [.i32 127]⟩) 4 ∧
      (∃ error reached, Buffer.Decodes ⟨[0xFF, 0x41, 0xFF]⟩
        (Decoder.decodeOne ⟨Table.sample, 1, false⟩) 1
        (.error error) reached ∧ error.IsShortage) ∧
      Buffer.Decodes ⟨[0x02, 0x40, 0x99, 0x0B]⟩
        (Decoder.decodeOne ⟨Table.sample, 1, false⟩) 0
        (.error ⟨2, .unknownOpcode 0x99⟩) 3 := by
  have hconstant : Buffer.Decodes ⟨[0xFF, 0x41, 0xFF, 0x00]⟩
      (Decoder.decodeOne ⟨Table.sample, 1, false⟩) 1
      (.ok ⟨⟨61⟩, [.i32 127]⟩) 4 := ⟨_, rfl, by cbv, by cbv⟩
  have hunknown : Buffer.Decodes ⟨[0x02, 0x40, 0x99]⟩
      (Decoder.decodeOne ⟨Table.sample, 1, false⟩) 0
      (.error ⟨2, .unknownOpcode 0x99⟩) 3 := ⟨_, rfl, by cbv, by cbv⟩
  have hdelimited (bytes : List UInt8) (start : Nat) :=
    (decoding_is_self_delimiting ⟨Table.sample, 1, false⟩ ⟨bytes⟩ start).1
  refine ⟨?_, ?_, ?_⟩
  · exact (hdelimited _ 1).returned _ _ hconstant _ ⟨[0xAA], rfl⟩
  · exact (hdelimited _ 1).truncated _ _ hconstant 3 (by decide) (by decide)
  · have hknown : ¬ (⟨2, .unknownOpcode 0x99⟩ : DecodeError).IsShortage := by
      rintro ⟨count, hcount⟩
      cases hcount
    exact (hdelimited _ 0).refused _ _ hunknown hknown _ ⟨[0x0B], rfl⟩

end Disassembly
