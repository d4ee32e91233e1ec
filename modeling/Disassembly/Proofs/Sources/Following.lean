import Disassembly.Proofs.Recognition

/-!
# Sources that follow each other

Two sources may have states of different kinds and still hand out the same.  A relation
between their states says which places belong together.  If each single request has the
same result at places that belong together, and leaves the sources at such places again,
then so does everything that is put together from requests: readers, the operands of an
instruction, blocks up to any budget, and whole runs with what they tell.
-/

namespace Disassembly

open Decoding (read)

/-! ## Computations -/

section Computation

variable {σ τ ε α β : Type} {belong : σ → τ → Prop}

/-- From states that belong together one computation has the result of the other, and
they leave states that belong together. -/
def Follows (belong : σ → τ → Prop)
    (work : ExceptT ε (StateM σ) α) (model : ExceptT ε (StateM τ) α) : Prop :=
  ∀ ⦃state other⦄, belong state other →
    (work state).1 = (model other).1 ∧ belong (work state).2 (model other).2

theorem follows_pure (value : α) :
    Follows belong (pure value : ExceptT ε (StateM σ) α) (pure value) :=
  fun _ _ hbelong => ⟨rfl, hbelong⟩

theorem follows_throw (error : ε) :
    Follows belong (throw error : ExceptT ε (StateM σ) α) (throw error) :=
  fun _ _ hbelong => ⟨rfl, hbelong⟩

theorem Follows.bind
    {work : ExceptT ε (StateM σ) α} {model : ExceptT ε (StateM τ) α}
    {next : α → ExceptT ε (StateM σ) β} {modelNext : α → ExceptT ε (StateM τ) β}
    (hwork : Follows belong work model)
    (hnext : ∀ value, Follows belong (next value) (modelNext value)) :
    Follows belong (work >>= next) (model >>= modelNext) := by
  intro state other hbelong
  obtain ⟨hresult, hafter⟩ := hwork hbelong
  rw [bind_apply, bind_apply, ← hresult]
  cases (work state).1 with
  | ok value => exact hnext value hafter
  | error error => exact ⟨rfl, hafter⟩

theorem Follows.map
    {work : ExceptT ε (StateM σ) α} {model : ExceptT ε (StateM τ) α}
    (hwork : Follows belong work model) (f : α → β) :
    Follows belong (work >>= fun value => pure (f value))
      (model >>= fun value => pure (f value)) :=
  hwork.bind fun value => follows_pure (f value)

theorem Follows.tryCatch
    {work : ExceptT ε (StateM σ) α} {model : ExceptT ε (StateM τ) α}
    {handler : ε → ExceptT ε (StateM σ) α} {modelHandler : ε → ExceptT ε (StateM τ) α}
    (hwork : Follows belong work model)
    (hhandler : ∀ error, Follows belong (handler error) (modelHandler error)) :
    Follows belong (tryCatch work handler) (tryCatch model modelHandler) := by
  intro state other hbelong
  obtain ⟨hresult, hafter⟩ := hwork hbelong
  rw [tryCatch_apply, tryCatch_apply, ← hresult]
  cases (work state).1 with
  | ok value => exact ⟨rfl, hafter⟩
  | error error => exact hhandler error hafter

theorem Follows.mapM
    {work : α → ExceptT ε (StateM σ) β} {model : α → ExceptT ε (StateM τ) β}
    (hwork : ∀ item, Follows belong (work item) (model item)) (items : List α) :
    Follows belong (items.mapM work) (items.mapM model) := by
  induction items with
  | nil => exact follows_pure []
  | cons item items ih =>
      rw [List.mapM_cons, List.mapM_cons]
      exact (hwork item).bind fun first => ih.map (first :: ·)

end Computation

/-! ## Readers -/

section Readers

variable {σ τ α : Type}

theorem Follows.repeated
    {belong : σ → τ → Prop} {reader : Reader σ α} {model : Reader τ α}
    (hreader : Follows belong reader model) (count : Nat) :
    Follows belong (Reader.repeated reader count) (Reader.repeated model count) := by
  induction count with
  | zero => exact follows_pure []
  | succ count ih => exact hreader.bind fun first => ih.map (first :: ·)

variable [ByteSource σ] [ByteSource τ]

/-- Places of two sources belong together, and single requests keep to this. -/
structure Tracks (belong : σ → τ → Prop) : Prop where
  position : ∀ {state other}, belong state other →
    ByteSource.position state = ByteSource.position other
  remaining : ∀ {state other}, belong state other →
    ByteSource.remaining state = ByteSource.remaining other
  nextByte : Follows belong Reader.nextByte Reader.nextByte
  nextBytes : ∀ count, Follows belong (Reader.nextBytes count) (Reader.nextBytes count)

namespace Tracks

variable {belong : σ → τ → Prop} (htracks : Tracks belong)
include htracks

theorem readPosition : Follows belong Reader.position Reader.position :=
  fun _ _ hbelong => ⟨congrArg Except.ok (htracks.position hbelong), hbelong⟩

theorem failHere (fault : DecodeFault) :
    Follows belong (Reader.failHere fault : Reader σ α) (Reader.failHere fault) :=
  htracks.readPosition.bind fun position => follows_throw (DecodeError.mk position fault)

theorem readGroups (width : Nat) (signed : Bool) (count shift : Nat) (value : BitVec width) :
    Follows belong (Leb128.readGroups width signed Leb128.shiftWord count shift value)
      (Leb128.readGroups width signed Leb128.shiftWord count shift value) := by
  induction count generalizing shift value with
  | zero => exact htracks.failHere _
  | succ count ih =>
      refine htracks.nextByte.bind fun byte => (follows_pure _).bind fun bits => ?_
      split
      next => exact ih _ _
      next =>
        split
        next => exact (follows_pure _).map (value ||| bits ||| ·)
        next => exact follows_pure _

theorem readBits (width : Nat) (signed : Bool) :
    Follows belong (Leb128.readBits width signed) (Leb128.readBits width signed) :=
  htracks.readGroups width signed _ 0 0

theorem u32 : Follows belong Reader.u32 Reader.u32 :=
  (htracks.readBits 32 false).map UInt32.ofBitVec

theorem u64 : Follows belong Reader.u64 Reader.u64 :=
  (htracks.readBits 64 false).map UInt64.ofBitVec

theorem i32 : Follows belong Reader.i32 Reader.i32 :=
  (htracks.readBits 32 true).map Int32.ofBitVec

theorem i64 : Follows belong Reader.i64 Reader.i64 :=
  (htracks.readBits 64 true).map Int64.ofBitVec

theorem littleEndian32 : Follows belong Reader.littleEndian32 Reader.littleEndian32 :=
  (htracks.nextBytes 4).map fun bytes => UInt32.ofNat (Reader.littleEndianValue bytes)

theorem littleEndian64 : Follows belong Reader.littleEndian64 Reader.littleEndian64 :=
  (htracks.nextBytes 8).map fun bytes => UInt64.ofNat (Reader.littleEndianValue bytes)

theorem typeByte (role : TypeRole) (ofByte : UInt8 → Except InternalFault (Option α)) :
    Follows belong (Reader.typeByte role ofByte) (Reader.typeByte role ofByte) := by
  refine htracks.readPosition.bind fun start => htracks.nextByte.bind fun byte => ?_
  cases ofByte byte with
  | error fault => exact htracks.failHere _
  | ok type? =>
      cases type? with
      | some type => exact follows_pure type
      | none => exact follows_throw _

theorem valueTypes : Follows belong Reader.valueTypes Reader.valueTypes :=
  htracks.u32.bind fun count => (htracks.typeByte .value _).repeated count.toNat

theorem branchLabels : Follows belong Reader.branchLabels Reader.branchLabels :=
  htracks.u32.bind fun count => htracks.u32.repeated (count.toNat + 1)

theorem entry (table : Table) :
    Follows belong (Reader.entry table) (Reader.entry table) := by
  refine htracks.readPosition.bind fun start => htracks.nextByte.bind fun lead => ?_
  cases table.slot? lead with
  | none => exact follows_throw _
  | some slot =>
      cases slot with
      | single entry => exact follows_pure entry
      | extended =>
          refine htracks.readPosition.bind fun secondStart =>
            htracks.nextByte.bind fun second => ?_
          cases table.extended? lead second with
          | some entry => exact follows_pure entry
          | none => exact follows_throw _

end Tracks

end Readers

/-! ## Decoders -/

section Decoders

variable {σ τ α : Type} {belong : σ → τ → Prop}

/-- Sessions whose sources belong together and that have told the same. -/
structure Together (belong : σ → τ → Prop) (session : Session σ) (other : Session τ) :
    Prop where
  input : belong session.input other.input
  events : session.events = other.events

theorem Follows.read
    {reader : Reader σ α} {model : Reader τ α} (hreader : Follows belong reader model) :
    Follows (Together belong) (read reader) (read model) := by
  rintro session other ⟨hinput, hevents⟩
  obtain ⟨hresult, hafter⟩ := hreader hinput
  exact ⟨hresult, hafter, hevents⟩

namespace Decoder

variable (decoder : Decoder)

theorem follows_tell (event : Event) :
    Follows (Together belong) (decoder.tell event) (decoder.tell event) := by
  unfold tell
  split
  next =>
    rintro session other ⟨hinput, hevents⟩
    exact ⟨rfl, hinput, congrArg (·.push event) hevents⟩
  next => exact follows_pure ()

theorem follows_tellFailure (error : DecodeError) :
    Follows (Together belong) (decoder.tellFailure error) (decoder.tellFailure error) := by
  unfold tellFailure
  split
  next => exact follows_pure ()
  next => exact decoder.follows_tell (.failed error)

variable [ByteSource σ] [ByteSource τ] (htracks : Tracks belong)
include htracks

section Operands

variable {block : Nat → Decoding σ Block} {modelBlock : Nat → Decoding τ Block}
  (hblock : ∀ depth, Follows (Together belong) (block depth) (modelBlock depth))
  (depth : Nat)
include hblock

theorem follows_nestedBlock :
    Follows (Together belong) (decoder.nestedBlock block depth)
      (decoder.nestedBlock modelBlock depth) := by
  unfold nestedBlock
  split
  next => exact hblock (depth + 1)
  next => exact (htracks.failHere _).read

omit decoder in
theorem follows_secondArm (first : Block) :
    Follows (Together belong) (secondArm block depth first)
      (secondArm modelBlock depth first) := by
  unfold secondArm
  split
  next =>
    refine (hblock (depth + 1)).bind fun second => ?_
    split
    next => exact (htracks.failHere _).read
    next => exact follows_pure _
  next => exact follows_pure []

theorem follows_field (field : Field) :
    Follows (Together belong) (decoder.field block depth field)
      (decoder.field modelBlock depth field) := by
  cases field with
  | u32 => exact htracks.u32.read.map _
  | i32 => exact htracks.i32.read.map _
  | i64 => exact htracks.i64.read.map _
  | f32 => exact htracks.littleEndian32.read.map _
  | f64 => exact htracks.littleEndian64.read.map _
  | index space => exact htracks.u32.read.map _
  | blockType => exact (htracks.typeByte _ _).read.map _
  | referenceType => exact (htracks.typeByte _ _).read.map _
  | valueTypes => exact htracks.valueTypes.read.map _
  | instructions => exact (decoder.follows_nestedBlock htracks hblock depth).map _
  | unknown kind => exact (htracks.failHere _).read

theorem follows_operands (layout : Layout) :
    Follows (Together belong) (decoder.operands block depth layout)
      (decoder.operands modelBlock depth layout) := by
  cases layout with
  | inOrder fields =>
      exact .mapM (decoder.follows_field htracks hblock depth) fields
  | special rule =>
      cases rule with
      | conditional =>
          exact (htracks.typeByte _ _).read.bind fun type =>
            (decoder.follows_nestedBlock htracks hblock depth).bind fun first =>
              (follows_secondArm htracks hblock depth first).map _
      | branchTable => exact htracks.branchLabels.read.map _
  | unknown rule => exact (htracks.failHere _).read

theorem follows_instruction :
    Follows (Together belong) (decoder.instruction block depth)
      (decoder.instruction modelBlock depth) :=
  (htracks.entry decoder.table).read.bind fun entry =>
    (decoder.follows_operands htracks hblock depth entry.layout).bind fun operands =>
      (decoder.follows_tell _).map fun _ => Instruction.mk entry.type operands

end Operands

theorem follows_block (budget depth : Nat) (earlier : List Instruction) :
    Follows (Together belong) (decoder.block budget depth earlier)
      (decoder.block budget depth earlier) := by
  induction budget generalizing depth earlier with
  | zero => exact (htracks.failHere _).read
  | succ budget ih =>
      refine (decoder.follows_instruction htracks
        (fun inner => ih inner []) depth).bind fun instruction => ?_
      split
      next => exact (decoder.follows_tell _).map fun _ => _
      next => exact ih depth _

theorem follows_reported
    {work : Decoding σ α} {model : Decoding τ α}
    (hwork : Follows (Together belong) work model) :
    Follows (Together belong) (decoder.reported work) (decoder.reported model) :=
  htracks.readPosition.read.bind fun _ =>
    (decoder.follows_tell _).bind fun _ =>
      hwork.tryCatch fun error =>
        (decoder.follows_tellFailure error).bind fun _ => follows_throw error

end Decoder

/-! ## Runs -/

/-- Runs with the same result that have told the same and stop at places that belong
together. -/
structure Outcome.Agrees (belong : σ → τ → Prop)
    (outcome : Outcome σ α) (model : Outcome τ α) : Prop where
  result : outcome.result = model.result
  input : belong outcome.input model.input
  events : outcome.events = model.events

theorem Outcome.Agrees.map
    {β : Type} {outcome : Outcome σ α} {model : Outcome τ α}
    (hagrees : outcome.Agrees belong model) (f : α → β) :
    (outcome.map f).Agrees belong (model.map f) :=
  ⟨congrArg (·.map f) hagrees.result, hagrees.input, hagrees.events⟩

namespace Tracks

variable [ByteSource σ] [ByteSource τ] (htracks : Tracks belong) (decoder : Decoder)
  {state : σ} {other : τ} (hbelong : belong state other)
include htracks hbelong

theorem run
    {work : Decoding σ α} {model : Decoding τ α}
    (hwork : Follows (Together belong) work model) :
    (decoder.run work state).Agrees belong (decoder.run model other) := by
  have hstart : Together belong ⟨state, #[]⟩ ⟨other, #[]⟩ := ⟨hbelong, rfl⟩
  obtain ⟨hresult, hafter⟩ := decoder.follows_reported htracks hwork hstart
  exact ⟨hresult, hafter.input, congrArg Array.toList hafter.events⟩

theorem decodeOne :
    (decoder.decodeOne state).Agrees belong (decoder.decodeOne other) := by
  unfold Decoder.decodeOne
  rw [htracks.remaining hbelong]
  exact htracks.run decoder hbelong (decoder.follows_instruction htracks
    (fun depth => decoder.follows_block htracks _ depth []) 0)

theorem decodeBlock :
    (decoder.decodeBlock state).Agrees belong (decoder.decodeBlock other) := by
  unfold Decoder.decodeBlock
  rw [htracks.remaining hbelong]
  exact htracks.run decoder hbelong (decoder.follows_block htracks _ 0 [])

end Tracks

end Decoders

end Disassembly
