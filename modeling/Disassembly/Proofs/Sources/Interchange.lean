import Disassembly.Proofs.Comparison.Blocks
import Disassembly.Proofs.Delimiting

/-!
# Iterators and streams

Bytes can be read by an iterator over a buffer or from a stream of them.  What is
read and what is told is the same.  The two sources come apart at one place only:
several bytes are asked for at once, and some are left, but not enough.  Then the
iterator stays where it is, and the stream has handed out what it had.

A source is used in steps, and it goes on being used after a step has failed.
Each step does on a source what it does on the input that the source amounts to.  On
these inputs one step leaves both sources at the same place again, or it is the step
that brings them apart.
-/

namespace Disassembly

open Decoding (read)

/-! ## Steps -/

/-- One use of a source of bytes. -/
inductive Step where
  | decodeOne
  | decodeBlock
  | nextByte
  | nextBytes (count : Nat)
  | u32
  | u64
  | i32
  | i64
  | f32
  | f64
  | littleEndian32
  | littleEndian64
deriving DecidableEq, Repr

/-- What a step returns. -/
inductive StepValue where
  | instruction (item : Instruction)
  | block (content : Block)
  | byte (byte : UInt8)
  | bytes (bytes : List UInt8)
  | u32 (value : UInt32)
  | u64 (value : UInt64)
  | i32 (value : Int32)
  | i64 (value : Int64)
  | f32 (bits : UInt32)
  | f64 (bits : UInt64)

/-- A reader that is used by itself, which tells nothing. -/
def Reader.outcome {σ α : Type} (reader : Reader σ α) (input : σ) : Outcome σ α :=
  ⟨(reader input).1, (reader input).2, []⟩

namespace Decoder

variable {σ : Type} [ByteSource σ]

def perform (decoder : Decoder) (input : σ) : Step → Outcome σ StepValue
  | .decodeOne => (decoder.decodeOne input).map .instruction
  | .decodeBlock => (decoder.decodeBlock input).map .block
  | .nextByte => (Reader.nextByte.outcome input).map .byte
  | .nextBytes count => ((Reader.nextBytes count).outcome input).map .bytes
  | .u32 => (Reader.u32.outcome input).map .u32
  | .u64 => (Reader.u64.outcome input).map .u64
  | .i32 => (Reader.i32.outcome input).map .i32
  | .i64 => (Reader.i64.outcome input).map .i64
  | .f32 => (Reader.littleEndian32.outcome input).map .f32
  | .f64 => (Reader.littleEndian64.outcome input).map .f64
  | .littleEndian32 => (Reader.littleEndian32.outcome input).map .u32
  | .littleEndian64 => (Reader.littleEndian64.outcome input).map .u64

/-- Steps one after the other, each of them where the one before has left the source. -/
def performAll (decoder : Decoder) : σ → List Step → List (Outcome σ StepValue)
  | _, [] => []
  | input, step :: steps =>
    let outcome := decoder.perform input step
    outcome :: decoder.performAll outcome.input steps

end Decoder

/-! ## Outcomes -/

/-- An error of asking at once for more bytes than are left, where some are left of
`size` bytes. -/
def DecodeError.CutsShort (size : Nat) (error : DecodeError) : Prop :=
  ∃ count, error.fault = .endOfInput count ∧ error.position < size ∧
    size < error.position + count

/-- The outcomes of the same steps on an iterator over `size` bytes and on a stream of
them.  They agree up to the first step that cuts the bytes short, and that step differs
only in the places where it ends. -/
inductive Interchangeable (size : Nat) :
    List (Outcome BufferIterator StepValue) → List (Outcome StreamSource StepValue) → Prop
  | done : Interchangeable size [] []
  | next {stored : Outcome BufferIterator StepValue} {streamed : Outcome StreamSource StepValue}
      {more : List _} {moreStreamed : List _}
      (hresult : streamed.result = stored.result)
      (hevents : streamed.events = stored.events)
      (hwhole : ∀ error, stored.result = .error error → ¬ error.CutsShort size)
      (hposition : streamed.input.position = stored.input.position)
      (hmore : Interchangeable size more moreStreamed) :
      Interchangeable size (stored :: more) (streamed :: moreStreamed)
  | cutShort {stored : Outcome BufferIterator StepValue}
      {streamed : Outcome StreamSource StepValue} {more : List _} {moreStreamed : List _}
      {error : DecodeError}
      (hstored : stored.result = .error error)
      (hstreamed : streamed.result = .error error)
      (hevents : streamed.events = stored.events)
      (hcut : error.CutsShort size)
      (hkept : stored.input.position = error.position)
      (hdrained : streamed.input.position = size) :
      Interchangeable size (stored :: more) (streamed :: moreStreamed)

namespace Input

/-- The same place of a stream of the same bytes. -/
def streamed (input : Input) : Input :=
  { input with shortRead := .drains }

/-- An input over `size` stored bytes, at any place. -/
structure Stores (input : Input) (size : Nat) : Prop where
  keeps : input.shortRead = .keeps
  reaches : input.position + input.remaining = size

end Input

/-- A step on an input that keeps its bytes and on one that drains them: both are left at the same
place, or the step cuts the bytes short. -/
inductive Parallel {α : Type} (size : Nat) : Outcome Input α → Outcome Input α → Prop
  | whole {result : Except DecodeError α} {input : Input} {events : List Event}
      (hstores : input.Stores size)
      (hwhole : ∀ error, result = .error error → ¬ error.CutsShort size) :
      Parallel size ⟨result, input, events⟩ ⟨result, input.streamed, events⟩
  | cutShort {error : DecodeError} {input last : Input} {events : List Event}
      (hcut : error.CutsShort size) (hkept : input.position = error.position)
      (hdrained : last.position = size) :
      Parallel size ⟨.error error, input, events⟩ ⟨.error error, last, events⟩

theorem Parallel.map
    {α β : Type} {size : Nat} {stored streamed : Outcome Input α}
    (hparallel : Parallel size stored streamed) (f : α → β) :
    Parallel size (stored.map f) (streamed.map f) := by
  cases hparallel with
  | @whole result input events hstores hwhole =>
      refine .whole hstores fun error herror => hwhole error ?_
      cases result with
      | ok value => cases herror
      | error other => exact congrArg _ (Except.error.inj herror)
  | cutShort hcut hkept hdrained => exact .cutShort hcut hkept hdrained

/-! ## Side by side -/

namespace Comparison

variable {size : Nat}

/-- A stream next to stored bytes that have just been refused. -/
inductive Refused (input : Input) : DecodeError → Input → Prop
  | settled {error : DecodeError} (herror : ¬ error.IsShortage) :
      Refused input error input.streamed
  | shortage {count : Nat} (hshort : input.remaining < count) :
      Refused input (input.shortage count) (input.streamed.advance count)

/-- The first run reads stored bytes, and the second one reads a stream of them. -/
def streaming (size : Nat) : Comparison where
  running before other :=
    before.input.Stores size ∧ other = { before with input := before.input.streamed }
  failed error after other last :=
    other = error ∧ last.events = after.events ∧ after.input.Stores size ∧
      Refused after.input error last.input
  excuses _ := False

theorem Stores.advance {input : Input} (hstores : input.Stores size) (count : Nat) :
    (input.advance count).Stores size := by
  refine ⟨hstores.keeps, ?_⟩
  have hreaches := hstores.reaches
  simp only [Input.remaining] at hreaches
  simp only [Input.advance, Input.remaining, List.length_drop]
  omega

theorem reads_streaming (size : Nat) : (streaming size).Reads where
  rest := by
    rintro before _ ⟨_, rfl⟩
    rfl
  advance := by
    rintro before _ ⟨hstores, rfl⟩ count _
    exact ⟨Stores.advance hstores count, rfl⟩
  shortage := by
    rintro before _ ⟨hstores, rfl⟩ count hshort
    have hkeeps : before.afterShortage count = before := by
      simp only [Session.afterShortage, Input.afterShortage, hstores.keeps]
    rw [hkeeps]
    exact ⟨rfl, rfl, hstores, .shortage hshort⟩
  blame := by
    rintro before _ ⟨hstores, rfl⟩ fault hfault count _
    refine ⟨rfl, rfl, Stores.advance hstores count, .settled ?_⟩
    rintro ⟨requested, hrequested⟩
    exact hfault.1 requested hrequested

/-- Both sources are told the same. -/
theorem streaming_told
    {before other : Session Input} (hrunning : (streaming size).running before other)
    (decoder : Decoder) (event : Event) :
    (streaming size).running (decoder.told event before)
      (decoder.told event other) := by
  obtain ⟨hstores, rfl⟩ := hrunning
  unfold Decoder.told
  cases decoder.watched with
  | true => exact ⟨hstores, rfl⟩
  | false => exact ⟨hstores, rfl⟩

theorem covers_streaming (size : Nat) (decoder : Decoder) :
    (streaming size).Covers decoder decoder Eq where
  toReads := reads_streaming size
  entry bound := (reads_streaming size).entry bound (.refl decoder.table)
  tellInstruction := by
    rintro level _ before last rfl hrunning item
    exact streaming_told hrunning decoder _
  tellBlock := by
    rintro level _ before last rfl hrunning content
    exact streaming_told hrunning decoder _
  deeper := congrArg (· + 1)
  nests := by
    rintro level _ rfl hlevel
    exact hlevel
  tooDeep := by
    rintro level _ before _ rfl ⟨hstores, rfl⟩ hdeep
    exact .inr ⟨hdeep, rfl, rfl, hstores, .settled (by simp [DecodeError.IsShortage])⟩
  secondElse := by
    rintro budget level before other after _ content _ _ _ _ ⟨hstores, rfl⟩
    exact ⟨rfl, rfl, hstores, .settled (by simp [DecodeError.IsShortage])⟩

/-- Reported work compares like the work itself. -/
theorem Relates.streaming_reported
    {α : Type} {least bound : Nat} {work : Decoding Input α}
    (hwork : (streaming size).Relates least bound work work) (decoder : Decoder) :
    (streaming size).Relates least bound (decoder.reported work)
      (decoder.reported work) := by
  refine hwork.reported decoder decoder ?_ ?_
  · rintro before _ ⟨hstores, rfl⟩
    exact streaming_told ⟨hstores, rfl⟩ decoder _
  · rintro _ error after last ⟨rfl, hevents, hstores, hrefused⟩
    refine ⟨rfl, ?_, by simpa using hstores, by simpa using hrefused⟩
    unfold Decoder.toldFailure Decoder.told
    cases error.fault.isInternal <;> cases decoder.watched <;> simp [hevents]

theorem Refused.parallel
    {α : Type} {error : DecodeError} {input last : Input} {events : List Event}
    (hrefused : Refused input error last) (hstores : input.Stores size) :
    Parallel (α := α) size ⟨.error error, input, events⟩
      ⟨.error error, last, events⟩ := by
  cases hrefused with
  | settled hsettled =>
      refine .whole hstores ?_
      rintro _ ⟨⟩ ⟨count, hcount, _⟩
      exact hsettled ⟨count, hcount⟩
  | @shortage count hshort =>
      have hreaches := hstores.reaches
      unfold Input.remaining at hshort hreaches
      cases hrest : input.rest with
      | nil =>
          -- nothing is left for the stream to hand out
          have hsame : input.streamed.advance count = input.streamed := by
            simp [Input.advance, Input.streamed, hrest]
          rw [hsame]
          refine .whole hstores ?_
          rintro _ ⟨⟩ ⟨_, _, hless, _⟩
          rw [hrest] at hreaches
          exact absurd hreaches hless.ne
      | cons byte rest =>
          have hleft : 0 < input.rest.length := by simp [hrest]
          have hcut : (input.shortage count).CutsShort size := by
            refine ⟨count, rfl, ?_, ?_⟩ <;> simp only [Input.shortage] <;> omega
          refine .cutShort hcut rfl ?_
          simp only [Input.advance, Input.streamed]
          omega

theorem Agree.parallel
    {α : Type} {most : Nat} {first second : Except DecodeError α × Session Input}
    (hagree : (streaming size).Agree most first second) :
    Parallel size ⟨first.1, first.2.input, first.2.events.toList⟩
      ⟨second.1, second.2.input, second.2.events.toList⟩ := by
  cases hagree with
  | ok hrunning _ =>
      obtain ⟨hstores, rfl⟩ := hrunning
      exact .whole hstores (by simp)
  | error hfailed =>
      obtain ⟨rfl, hevents, hstores, hrefused⟩ := hfailed
      rw [hevents]
      exact hrefused.parallel hstores
  | excused hexcused => exact hexcused.elim

end Comparison

/-! ## Runs of steps -/

section Steps

open Comparison

variable {α : Type} {size : Nat} {input : Input}

theorem Reader.parallel_outcome
    {reader : Reader Input α}
    (hreader : (streaming size).Relates 0 input.remaining (read reader) (read reader))
    (hstores : input.Stores size) :
    Parallel size (reader.outcome input) (reader.outcome input.streamed) :=
  (hreader input.remaining le_rfl ⟨input, #[]⟩ ⟨input.streamed, #[]⟩
    ⟨hstores, rfl⟩ le_rfl).parallel

namespace Decoder

variable (decoder : Decoder)

theorem parallel_run
    {work : Decoding Input α} {least bound : Nat}
    (hwork : (streaming size).Relates least bound work work)
    (hbound : input.remaining ≤ bound + least) (hstores : input.Stores size) :
    Parallel size (decoder.run work input) (decoder.run work input.streamed) :=
  (hwork.streaming_reported decoder bound le_rfl ⟨input, #[]⟩
    ⟨input.streamed, #[]⟩ ⟨hstores, rfl⟩ hbound).parallel

theorem parallel_perform (step : Step) (hstores : input.Stores size) :
    Parallel size (decoder.perform input step) (decoder.perform input.streamed step) := by
  have hcovers := covers_streaming size decoder
  have hblocks := hcovers.relatesBlocks le_rfl (Nat.le_refl input.remaining)
  have hreads := reads_streaming size
  cases step with
  | decodeOne =>
      have hwork := hcovers.instruction hblocks le_rfl (Eq.refl 0)
      exact (decoder.parallel_run hwork (Nat.le_succ _) hstores).map _
  | decodeBlock =>
      exact (decoder.parallel_run (hblocks 0 0 rfl) le_rfl hstores).map _
  | nextByte =>
      exact (Reader.parallel_outcome (hreads.nextByte _).of_least hstores).map _
  | nextBytes count =>
      exact (Reader.parallel_outcome (hreads.nextBytes _ count) hstores).map _
  | u32 => exact (Reader.parallel_outcome (hreads.u32 _) hstores).map _
  | u64 => exact (Reader.parallel_outcome (hreads.u64 _) hstores).map _
  | i32 => exact (Reader.parallel_outcome (hreads.i32 _) hstores).map _
  | i64 => exact (Reader.parallel_outcome (hreads.i64 _) hstores).map _
  | f32 => exact (Reader.parallel_outcome (hreads.littleEndian32 _) hstores).map _
  | f64 => exact (Reader.parallel_outcome (hreads.littleEndian64 _) hstores).map _
  | littleEndian32 =>
      exact (Reader.parallel_outcome (hreads.littleEndian32 _) hstores).map _
  | littleEndian64 =>
      exact (Reader.parallel_outcome (hreads.littleEndian64 _) hstores).map _

end Decoder

end Steps

/-! ## Steps on the sources -/

section Sources

variable {σ τ α : Type} {belong : σ → τ → Prop}

theorem Follows.outcome
    {reader : Reader σ α} {model : Reader τ α} (hreader : Follows belong reader model)
    {state : σ} {other : τ} (hbelong : belong state other) :
    (reader.outcome state).Agrees belong (model.outcome other) :=
  ⟨(hreader hbelong).1, (hreader hbelong).2, rfl⟩

/-- One step does the same on sources that belong together. -/
theorem Tracks.perform
    [ByteSource σ] [ByteSource τ] (htracks : Tracks belong) (decoder : Decoder) (step : Step)
    {state : σ} {other : τ} (hbelong : belong state other) :
    (decoder.perform state step).Agrees belong (decoder.perform other step) := by
  cases step with
  | decodeOne => exact (htracks.decodeOne decoder hbelong).map _
  | decodeBlock => exact (htracks.decodeBlock decoder hbelong).map _
  | nextByte => exact (htracks.nextByte.outcome hbelong).map _
  | nextBytes count => exact ((htracks.nextBytes count).outcome hbelong).map _
  | u32 => exact (htracks.u32.outcome hbelong).map _
  | u64 => exact (htracks.u64.outcome hbelong).map _
  | i32 => exact (htracks.i32.outcome hbelong).map _
  | i64 => exact (htracks.i64.outcome hbelong).map _
  | f32 => exact (htracks.littleEndian32.outcome hbelong).map _
  | f64 => exact (htracks.littleEndian64.outcome hbelong).map _
  | littleEndian32 => exact (htracks.littleEndian32.outcome hbelong).map _
  | littleEndian64 => exact (htracks.littleEndian64.outcome hbelong).map _

theorem Decoder.interchangeable_performAll
    (decoder : Decoder) (steps : List Step) {size : Nat} {iterator : BufferIterator}
    {source : StreamSource} {input : Input} (hstores : input.Stores size)
    (hiterator : iterator.AmountsTo input) (hsource : source.AmountsTo input.streamed) :
    Interchangeable size (decoder.performAll iterator steps)
      (decoder.performAll source steps) := by
  induction steps generalizing iterator source input with
  | nil => exact .done
  | cons step steps ih =>
      have hstep := decoder.parallel_perform step hstores
      have hstored := BufferIterator.tracks.perform decoder step hiterator
      have hstreamed := StreamSource.tracks.perform decoder step hsource
      unfold performAll
      generalize decoder.perform input step = kept at hstep hstored
      generalize decoder.perform input.streamed step = drained at hstep hstreamed
      cases hstep with
      | whole hafter hwhole =>
          refine .next (hstreamed.result.trans hstored.result.symm)
            (hstreamed.events.trans hstored.events.symm) ?_ ?_
            (ih hafter hstored.input hstreamed.input)
          · rw [hstored.result]
            exact hwhole
          · exact (congrArg Input.position hstreamed.input).trans
              (congrArg Input.position hstored.input).symm
      | cutShort hcut hkept hdrained =>
          exact .cutShort hstored.result hstreamed.result
            (hstreamed.events.trans hstored.events.symm) hcut
            ((congrArg Input.position hstored.input).trans hkept)
            ((congrArg Input.position hstreamed.input).trans hdrained)

end Sources

/-- Whatever is done with a source, it makes no difference whether the bytes are iterated
over or streamed, up to the first step that finds some bytes but too few. -/
theorem sources_are_interchangeable
    (decoder : Decoder) (bytes : List UInt8) (steps : List Step) :
    ∃ iterator, Buffer.iterator ⟨bytes⟩ 0 = .ok iterator ∧
      Interchangeable bytes.length (decoder.performAll iterator steps)
        (decoder.performAll (StreamSource.ofBytes bytes) steps) := by
  obtain ⟨iterator, hiterator, hinput⟩ :=
    Buffer.exists_iterator ⟨bytes⟩ (Nat.zero_le _)
  exact ⟨iterator, hiterator, decoder.interchangeable_performAll steps
    ⟨rfl, Nat.zero_add _⟩ hinput (StreamSource.toInput_ofBytes bytes)⟩

/-- Four bytes are asked for where two of three are left. -/
example :
    (Decoder.performAll ⟨Table.sample, 1, false⟩
        (⟨#[1, 2, 3], 0, Nat.zero_le 3⟩ : BufferIterator)
        [.nextByte, .littleEndian32]).map (fun outcome => outcome.input.position) =
      [1, 1] ∧
    (Decoder.performAll ⟨Table.sample, 1, false⟩ (StreamSource.ofBytes [1, 2, 3])
        [.nextByte, .littleEndian32]).map (fun outcome => outcome.input.position) =
      [1, 3] := by
  decide

end Disassembly
