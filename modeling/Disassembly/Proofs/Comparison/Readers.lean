import Disassembly.Proofs.Failure

/-!
# Two runs side by side

Several properties of a decoder compare two of its runs: on stored bytes and on a
stream, under two limits, at two levels, or with two budgets.  Such runs take the
same steps.  A comparison says how their sessions are related while both go on,
and how they are related once both have failed.  Some errors of the first run may
excuse the second one, which can then end in any way.

It is enough to check a comparison for the few steps that readers and decoders
are made of: consuming bytes, telling an event, blaming bytes, and refusing a
block.  From these the comparison is carried to every reader, to the operands of
an instruction, to instructions and to blocks, once and for all.

The budgets of the runs have to cover the bytes that are left.  Therefore a
comparison is stated for runs that leave at most a bounded number of bytes behind
a part that succeeds and that takes at least a number of bytes.
-/

namespace Disassembly

open Decoding (read)

/-! ## Steps of sessions -/

/-- A fault that neither the end of the input nor the nesting of blocks leads to. -/
def DecodeFault.BlamesBytes (fault : DecodeFault) : Prop :=
  (∀ count, fault ≠ .endOfInput count) ∧ (∀ limit, fault ≠ .nestingTooDeep limit) ∧
    fault ≠ .secondElse

namespace Session

variable (session : Session Input)

def advance (count : Nat) : Session Input :=
  { session with input := session.input.advance count }

/-- The session behind a request for more bytes than there are. -/
def afterShortage (count : Nat) : Session Input :=
  { session with input := session.input.afterShortage count }

end Session

/-- The session behind an event that was told to whoever watches. -/
def Decoder.told (decoder : Decoder) (event : Event) (session : Session Input) : Session Input :=
  if decoder.watched then { session with events := session.events.push event }
  else session

theorem Decoder.tell_apply (decoder : Decoder) (event : Event) (session : Session Input) :
    decoder.tell event session = (.ok (), decoder.told event session) := by
  unfold tell told
  cases decoder.watched <;> rfl

@[simp] theorem Decoder.told_input
    (decoder : Decoder) (event : Event) (session : Session Input) :
    (decoder.told event session).input = session.input := by
  unfold told
  cases decoder.watched <;> rfl

/-- The session behind an error, which is told unless it is a fault of the decoder itself. -/
def Decoder.toldFailure (decoder : Decoder) (error : DecodeError) (session : Session Input) :
    Session Input :=
  if error.fault.isInternal then session else decoder.told (.failed error) session

theorem Decoder.tellFailure_apply
    (decoder : Decoder) (error : DecodeError) (session : Session Input) :
    decoder.tellFailure error session = (.ok (), decoder.toldFailure error session) := by
  unfold tellFailure toldFailure
  split
  next => rfl
  next => exact decoder.tell_apply _ session

@[simp] theorem Decoder.toldFailure_input
    (decoder : Decoder) (error : DecodeError) (session : Session Input) :
    (decoder.toldFailure error session).input = session.input := by
  unfold toldFailure
  split
  next => rfl
  next => exact decoder.told_input _ session

/-- Reported work tells its start, and its failure if it fails. -/
theorem Decoder.reported_apply
    {α : Type} (decoder : Decoder) (work : Decoding Input α) (session : Session Input) :
    decoder.reported work session =
      match work (decoder.told (.started session.input.position) session) with
      | (.ok value, after) => (.ok value, after)
      | (.error error, after) => (.error error, decoder.toldFailure error after) := by
  have hposition : read Reader.position session =
      (.ok session.input.position, session) := rfl
  simp only [reported, bind_apply, hposition, tell_apply, tellFailure_apply, tryCatch_apply]
  rcases work (decoder.told (.started session.input.position) session) with
    ⟨result, after⟩
  cases result <;> rfl

theorem Reader.nextByte_eq_advance
    {input : Input} {byte : UInt8} {rest : List UInt8}
    (hrest : input.rest = byte :: rest) :
    nextByte input = (.ok byte, input.advance 1) := by
  rw [nextByte_cons hrest, Input.advance, hrest]
  simp

theorem Decoding.read_apply {α : Type} (reader : Reader Input α) (session : Session Input) :
    read reader session =
      ((reader session.input).1, { session with input := (reader session.input).2 }) :=
  rfl

theorem Decoding.read_bind
    {α β : Type} (reader : Reader Input α) (next : α → Reader Input β) :
    read (reader >>= next) = read reader >>= fun value => read (next value) := by
  funext session
  simp only [bind_apply, read_apply]
  rcases reader session.input with ⟨result, input⟩
  cases result <;> rfl

theorem Decoder.instruction_eq_shortage
    (decoder : Decoder) (block : Nat → Decoding Input Block) (level : Nat)
    {session : Session Input} (hrest : session.input.rest = []) :
    decoder.instruction block level session =
      (.error (session.input.shortage 1), session) := by
  have hentry : Reader.entry decoder.table session.input =
      (.error (session.input.shortage 1), session.input) := by
    change (Reader.nextByte >>= fun lead => _) session.input = _
    rw [bind_apply, Reader.nextByte_nil hrest]
  unfold Decoder.instruction
  rw [bind_apply, Decoding.read_apply, hentry]

/-- Without a byte left, a block ends like its next instruction under every budget. -/
theorem Decoder.block_eq_shortage
    (decoder : Decoder) (budget level : Nat) (earlier : List Instruction)
    {session : Session Input} (hrest : session.input.rest = []) :
    decoder.block budget level earlier session =
      (.error (session.input.shortage 1), session) := by
  cases budget with
  | zero => rfl
  | succ budget =>
      unfold Decoder.block
      rw [bind_apply, decoder.instruction_eq_shortage _ _ hrest]

/-! ## Comparisons -/

/-- How two runs compare. -/
structure Comparison where
  running : Session Input → Session Input → Prop
  failed : DecodeError → Session Input → DecodeError → Session Input → Prop
  excuses : DecodeFault → Prop

namespace Comparison

variable {α β : Type}

/-- Two runs end alike.  If they succeed, the first one has at most `most` bytes left. -/
inductive Agree (comparison : Comparison) (most : Nat) :
    Except DecodeError α × Session Input → Except DecodeError α × Session Input → Prop
  | ok {value : α} {after last : Session Input}
      (hrunning : comparison.running after last)
      (hmost : after.input.remaining ≤ most) :
      Agree comparison most (.ok value, after) (.ok value, last)
  | error {error other : DecodeError} {after last : Session Input}
      (hfailed : comparison.failed error after other last) :
      Agree comparison most (.error error, after) (.error other, last)
  | excused {error : DecodeError} {after : Session Input}
      {outcome : Except DecodeError α × Session Input}
      (hexcused : comparison.excuses error.fault) :
      Agree comparison most (.error error, after) outcome

/-- Runs of two computations end alike.  If the first computation succeeds, it takes
at least `least` bytes and leaves at most `bound` bytes. -/
def Relates (comparison : Comparison) (least bound : Nat)
    (work again : Decoding Input α) : Prop :=
  ∀ most ≤ bound, ∀ before other, comparison.running before other →
    before.input.remaining ≤ most + least →
      comparison.Agree most (work before) (again other)

variable {comparison : Comparison} {least bound : Nat}

theorem Agree.mono
    {most more : Nat} {first second : Except DecodeError α × Session Input}
    (hagree : comparison.Agree most first second) (hmore : most ≤ more) :
    comparison.Agree more first second := by
  cases hagree with
  | ok hrunning hmost => exact .ok hrunning (hmost.trans hmore)
  | error hfailed => exact .error hfailed
  | excused hexcused => exact .excused hexcused

theorem relates_pure (bound : Nat) (value : α) :
    comparison.Relates 0 bound (pure value) (pure value) := by
  intro most _ before other hrunning hbefore
  exact .ok hrunning hbefore

/-- The later parts may rely on the run of the first one. -/
theorem Relates.bind_of_run
    {work again : Decoding Input α} {next nextAgain : α → Decoding Input β}
    (hwork : comparison.Relates least bound work again)
    (hnext : ∀ most ≤ bound, ∀ before other value after last,
      comparison.running before other → before.input.remaining ≤ most + least →
      work before = (.ok value, after) → comparison.running after last →
      after.input.remaining ≤ most →
        comparison.Agree most (next value after) (nextAgain value last)) :
    comparison.Relates least bound (work >>= next) (again >>= nextAgain) := by
  intro most hmost before other hrunning hbefore
  have hfirst := hwork most hmost before other hrunning hbefore
  have hrest := hnext most hmost before other
  rw [bind_apply, bind_apply]
  generalize work before = outcome at hfirst hrest ⊢
  generalize again other = outcomeAgain at hfirst ⊢
  cases hfirst with
  | ok hafter hleft => exact hrest _ _ _ hrunning hbefore rfl hafter hleft
  | error hfailed => exact .error hfailed
  | excused hexcused => exact .excused hexcused

theorem Relates.bind
    {work again : Decoding Input α} {next nextAgain : α → Decoding Input β}
    (hwork : comparison.Relates least bound work again)
    (hnext : ∀ value,
      comparison.Relates 0 bound (next value) (nextAgain value)) :
    comparison.Relates least bound (work >>= next) (again >>= nextAgain) :=
  hwork.bind_of_run fun most hmost _ _ value after last _ _ _ hrunning hleft =>
    hnext value most hmost after last hrunning hleft

theorem Relates.map
    {work again : Decoding Input α}
    (hwork : comparison.Relates least bound work again) (f : α → β) :
    comparison.Relates least bound (work >>= fun value => pure (f value))
      (again >>= fun value => pure (f value)) :=
  hwork.bind fun value => relates_pure bound (f value)

theorem Relates.of_least
    {work again : Decoding Input α}
    (hwork : comparison.Relates least bound work again) :
    comparison.Relates 0 bound work again := by
  intro most hmost before other hrunning hbefore
  exact hwork most hmost before other hrunning (hbefore.trans (Nat.le_add_right _ _))

/-- A byte that is taken in any case counts among those that may be there before. -/
theorem Relates.of_succ
    {work again : Decoding Input α} (hwork : comparison.Relates 1 bound work again) :
    comparison.Relates 0 (bound + 1) work again := by
  intro most hmost before other hrunning hbefore
  have hagree := hwork (most - 1) (by omega) before other hrunning (by omega)
  exact hagree.mono (Nat.sub_le _ _)

theorem Relates.read_bind
    {reader : Reader Input α} {next : α → Reader Input β}
    (hreader : comparison.Relates least bound (read reader) (read reader))
    (hnext : ∀ value,
      comparison.Relates 0 bound (read (next value)) (read (next value))) :
    comparison.Relates least bound (read (reader >>= next))
      (read (reader >>= next)) := by
  rw [Decoding.read_bind]
  exact hreader.bind hnext

theorem Relates.read_map
    {reader : Reader Input α}
    (hreader : comparison.Relates least bound (read reader) (read reader))
    (f : α → β) :
    comparison.Relates least bound (read (reader >>= fun value => pure (f value)))
      (read (reader >>= fun value => pure (f value))) :=
  hreader.read_bind fun value => relates_pure bound (f value)

/-- The same reader a number of times. -/
theorem Relates.repeated
    {reader : Reader Input α}
    (hreader : comparison.Relates 0 bound (read reader) (read reader))
    (count : Nat) :
    comparison.Relates 0 bound (read (Reader.repeated reader count))
      (read (Reader.repeated reader count)) := by
  induction count with
  | zero => exact relates_pure bound []
  | succ count ih =>
      exact hreader.read_bind fun first => ih.read_map (first :: ·)

/-! ## Readers -/

/-- The comparison is kept by what readers do. -/
structure Reads (comparison : Comparison) : Prop where
  rest : ∀ {before other}, comparison.running before other →
    other.input.rest = before.input.rest
  advance : ∀ {before other}, comparison.running before other →
    ∀ count ≤ before.input.remaining,
      comparison.running (before.advance count) (other.advance count)
  shortage : ∀ {before other}, comparison.running before other →
    ∀ count, before.input.remaining < count →
      comparison.failed (before.input.shortage count) (before.afterShortage count)
        (other.input.shortage count) (other.afterShortage count)
  blame : ∀ {before other}, comparison.running before other →
    ∀ fault : DecodeFault, fault.BlamesBytes →
      ∀ count ≤ before.input.remaining,
        comparison.failed ⟨before.input.position, fault⟩ (before.advance count)
          ⟨other.input.position, fault⟩ (other.advance count)

/-- How two readers go on behind a byte, from the place of this byte: both blame the byte,
the first one refuses it and is excused, or they go on alike. -/
inductive GoesOn (comparison : Comparison) (bound : Nat) :
    (Nat → Reader Input α) → (Nat → Reader Input α) → Prop
  | refuse {fault : DecodeFault} (hfault : fault.BlamesBytes) :
      GoesOn comparison bound (fun start => throw ⟨start, fault⟩)
        (fun start => throw ⟨start, fault⟩)
  | excuse {fault : DecodeFault} {again : Nat → Reader Input α}
      (hexcused : comparison.excuses fault) :
      GoesOn comparison bound (fun start => throw ⟨start, fault⟩) again
  | proceed {reader again : Reader Input α}
      (hrelates : comparison.Relates 0 bound (read reader) (read again)) :
      GoesOn comparison bound (fun _ => reader) (fun _ => again)

section Readers

variable (hreads : comparison.Reads) (bound : Nat)
include hreads

theorem Reads.failHere {fault : DecodeFault} (hfault : fault.BlamesBytes) :
    comparison.Relates 0 bound (read (Reader.failHere fault : Reader Input α))
      (read (Reader.failHere fault)) := by
  intro most _ before other hrunning _
  have hstay (session : Session Input) : session.advance 0 = session := rfl
  have hfailed := hreads.blame hrunning fault hfault 0 (Nat.zero_le _)
  rw [hstay, hstay] at hfailed
  exact .error hfailed

theorem Reads.agree_shortage
    {before other : Session Input} (hrunning : comparison.running before other)
    (hrest : before.input.rest = []) (most : Nat) :
    comparison.Agree (α := α) most (.error (before.input.shortage 1), before)
      (.error (other.input.shortage 1), other) := by
  have hshort : before.input.remaining < 1 := by simp [Input.remaining, hrest]
  have hfailed := hreads.shortage hrunning 1 hshort
  have hother : other.input.rest = [] := (hreads.rest hrunning).trans hrest
  unfold Session.afterShortage at hfailed
  rw [Input.afterShortage_of_rest_nil hrest,
    Input.afterShortage_of_rest_nil hother] at hfailed
  exact .error hfailed

/-- A byte that decides how to go on, or that is refused at its place. -/
theorem Reads.checkedByte
    {next again : Nat → UInt8 → Reader Input α}
    (hnext : ∀ byte, comparison.GoesOn bound (next · byte) (again · byte)) :
    comparison.Relates 1 bound
      (read (Reader.position >>= fun start => Reader.nextByte >>= next start))
      (read (Reader.position >>= fun start => Reader.nextByte >>= again start)) := by
  intro most hmost before other hrunning hbefore
  have hother := hreads.rest hrunning
  have hposition (next : Nat → UInt8 → Reader Input α) (session : Session Input) :
      read (Reader.position >>= fun start => Reader.nextByte >>= next start) session =
        read (Reader.nextByte >>= next session.input.position) session := rfl
  simp only [hposition, bind_apply, Decoding.read_apply]
  cases hrest : before.input.rest with
  | nil =>
      rw [Reader.nextByte_nil hrest, Reader.nextByte_nil (hother.trans hrest)]
      exact hreads.agree_shortage hrunning hrest most
  | cons byte rest =>
      have hone : 1 ≤ before.input.remaining := by simp [Input.remaining, hrest]
      rw [Reader.nextByte_eq_advance hrest,
        Reader.nextByte_eq_advance (hother.trans hrest)]
      have hgoes := hnext byte
      generalize hfirst : (fun start => next start byte) = first at hgoes
      generalize hsecond : (fun start => again start byte) = second at hgoes
      have hnextFirst (start : Nat) : next start byte = first start :=
        congrFun hfirst start
      have hagainSecond (start : Nat) : again start byte = second start :=
        congrFun hsecond start
      simp only [hnextFirst, hagainSecond]
      cases hgoes with
      | refuse hfault => exact .error (hreads.blame hrunning _ hfault 1 hone)
      | excuse hexcused => exact .excused hexcused
      | proceed hrelates =>
        have hleft : (before.advance 1).input.remaining ≤ most := by
          unfold Input.remaining at hbefore
          simp only [Session.advance, Input.advance, Input.remaining,
            List.length_drop]
          omega
        exact hrelates most hmost _ _ (hreads.advance hrunning 1 hone) hleft

theorem Reads.nextByte :
    comparison.Relates 1 bound (read Reader.nextByte) (read Reader.nextByte) := by
  have hchecked :
      (Reader.position >>= fun _ => Reader.nextByte >>= fun byte => pure byte :
        Reader Input UInt8) = Reader.nextByte := by
    funext input
    change (Reader.nextByte >>= fun byte => pure byte) input = _
    rw [bind_pure]
  rw [← hchecked]
  exact hreads.checkedByte bound fun byte => .proceed (relates_pure bound byte)

theorem Reads.nextBytes (count : Nat) :
    comparison.Relates 0 bound (read (Reader.nextBytes count))
      (read (Reader.nextBytes count)) := by
  intro most _ before other hrunning hbefore
  have hrest := hreads.rest hrunning
  simp only [Decoding.read_apply, Reader.nextBytes_input, hrest]
  split
  next hcount =>
    refine .ok (hreads.advance hrunning count hcount) ?_
    unfold Input.remaining at hbefore
    simp only [Input.advance, Input.remaining, List.length_drop]
    omega
  next hcount =>
    exact .error (hreads.shortage hrunning count (Nat.lt_of_not_le hcount))

theorem Reads.readGroups
    {width : Nat} (hwidth : (DecodeFault.overlongInteger width).BlamesBytes)
    (signed : Bool) (count shift : Nat) (value : BitVec width) :
    comparison.Relates 0 bound
      (read (Leb128.readGroups width signed Leb128.shiftWord count shift value))
      (read (Leb128.readGroups width signed Leb128.shiftWord count shift value)) := by
  induction count generalizing shift value with
  | zero => exact hreads.failHere bound hwidth
  | succ count ih =>
      rw [Leb128.readGroups_succ]
      refine (hreads.nextByte bound).of_least.read_bind fun byte => ?_
      dsimp only
      split
      next => exact ih _ _
      next => exact relates_pure bound _

theorem Reads.readBits (width : Nat) (signed : Bool) :
    comparison.Relates 0 bound (read (Leb128.readBits width signed))
      (read (Leb128.readBits width signed)) :=
  hreads.readGroups bound (by simp [DecodeFault.BlamesBytes]) signed _ 0 0

theorem Reads.u32 :
    comparison.Relates 0 bound (read Reader.u32) (read Reader.u32) :=
  (hreads.readBits bound 32 false).read_map UInt32.ofBitVec

theorem Reads.u64 :
    comparison.Relates 0 bound (read Reader.u64) (read Reader.u64) :=
  (hreads.readBits bound 64 false).read_map UInt64.ofBitVec

theorem Reads.i32 :
    comparison.Relates 0 bound (read Reader.i32) (read Reader.i32) :=
  (hreads.readBits bound 32 true).read_map Int32.ofBitVec

theorem Reads.i64 :
    comparison.Relates 0 bound (read Reader.i64) (read Reader.i64) :=
  (hreads.readBits bound 64 true).read_map Int64.ofBitVec

theorem Reads.littleEndian32 :
    comparison.Relates 0 bound (read Reader.littleEndian32)
      (read Reader.littleEndian32) :=
  (hreads.nextBytes bound 4).read_map _

theorem Reads.littleEndian64 :
    comparison.Relates 0 bound (read Reader.littleEndian64)
      (read Reader.littleEndian64) :=
  (hreads.nextBytes bound 8).read_map _

theorem Reads.typeByte (role : TypeRole) (ofByte : UInt8 → Except InternalFault (Option α)) :
    comparison.Relates 0 bound (read (Reader.typeByte role ofByte))
      (read (Reader.typeByte role ofByte)) := by
  refine (hreads.checkedByte bound fun byte => ?_).of_least
  cases ofByte byte with
  | error fault =>
      exact .proceed (hreads.failHere bound (by simp [DecodeFault.BlamesBytes]))
  | ok type? =>
      cases type? with
      | some type => exact .proceed (relates_pure bound type)
      | none => exact .refuse (by simp [DecodeFault.BlamesBytes])

theorem Reads.valueTypes :
    comparison.Relates 0 bound (read Reader.valueTypes) (read Reader.valueTypes) :=
  (hreads.u32 bound).read_bind fun count =>
    (hreads.typeByte bound .value _).repeated count.toNat

theorem Reads.branchLabels :
    comparison.Relates 0 bound (read Reader.branchLabels)
      (read Reader.branchLabels) :=
  (hreads.u32 bound).read_bind fun count =>
    (hreads.u32 bound).repeated (count.toNat + 1)

/-! ### Entries -/

/-- What is found in the first table is found in the second one.  What is not found in
the first table may be found in the second one only if not knowing it is excused. -/
structure Finds (comparison : Comparison) (first second : Table) : Prop where
  slot? : ∀ lead slot, first.slot? lead = some slot → second.slot? lead = some slot
  extended? : ∀ lead next entry, first.extended? lead next = some entry →
    second.extended? lead next = some entry
  unknown : ∀ lead, first.slot? lead = none →
    second.slot? lead = none ∨ comparison.excuses (.unknownOpcode lead)
  unknownSecond : ∀ lead next, first.extended? lead next = none →
    second.extended? lead next = none ∨ comparison.excuses (.unknownSecondary lead next)

omit hreads in
theorem Finds.refl (table : Table) : comparison.Finds table table :=
  ⟨fun _ _ => id, fun _ _ _ => id, fun _ => .inl, fun _ _ => .inl⟩

variable {first second : Table} (hfinds : comparison.Finds first second)
include hfinds

theorem Reads.secondEntry (lead : UInt8) :
    comparison.Relates 0 bound (read (Reader.secondEntry first lead))
      (read (Reader.secondEntry second lead)) := by
  refine (hreads.checkedByte bound fun next => ?_).of_least
  cases hfound : first.extended? lead next with
  | some found =>
      rw [hfinds.extended? lead next found hfound]
      exact .proceed (relates_pure bound found)
  | none =>
      rcases hfinds.unknownSecond lead next hfound with hnone | hexcused
      · rw [hnone]
        exact .refuse (by simp [DecodeFault.BlamesBytes])
      · exact .excuse hexcused

theorem Reads.entry :
    comparison.Relates 1 bound (read (Reader.entry first))
      (read (Reader.entry second)) := by
  refine hreads.checkedByte bound fun lead => ?_
  cases hslot : first.slot? lead with
  | none =>
      rcases hfinds.unknown lead hslot with hnone | hexcused
      · rw [hnone]
        exact .refuse (by simp [DecodeFault.BlamesBytes])
      · exact .excuse hexcused
  | some slot =>
      rw [hfinds.slot? lead slot hslot]
      cases slot with
      | single found => exact .proceed (relates_pure bound found)
      | extended => exact .proceed (hreads.secondEntry bound hfinds lead)

end Readers

end Comparison

end Disassembly
