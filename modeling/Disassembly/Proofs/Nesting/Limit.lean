import Disassembly.Proofs.Comparison.Blocks
import Disassembly.Proofs.Nesting.Height

/-!
# The limit is a threshold

A decoder looks at its limit only in front of a block, and if the limit refuses
the block, the decoder fails and says so.  Every other end of a run is therefore
the end of the run under every higher limit.

How much of a limit a run needs shows in what it returns.  Where terminators hold
no blocks, a run that succeeds under one limit succeeds under the lower limits
down to the height of its result, and under the limits below it is refused.
-/

namespace Disassembly

open Grammar

/-- A fault that blames the limit on nested blocks. -/
def DecodeFault.IsTooDeep (fault : DecodeFault) : Prop :=
  ∃ limit, fault = .nestingTooDeep limit

/-- What decoding an input under a limit and under a higher one have in common.
Here `flat` is the condition under which the limit shows in the result. -/
structure Threshold {α : Type} (flat : Prop) (height : α → Nat) (limit : Nat)
    (low high : Outcome Input α) : Prop where
  returned : ∀ value, low.result = .ok value →
    high.result = .ok value ∧ high.input = low.input
  refused : ∀ error, low.result = .error error → ¬ error.fault.IsTooDeep →
    high.result = .error error ∧ high.input = low.input
  reached : flat → ∀ value, high.result = .ok value →
    ((∃ again, low.result = .ok again) ↔ height value ≤ limit) ∧
      (¬ height value ≤ limit →
        ∃ position, low.result = .error ⟨position, .nestingTooDeep limit⟩)

namespace Decoder

variable {decoder : Decoder} {low high : Nat}

/-- Runs under two limits differ only where the lower limit refuses a block. -/
theorem covers_higherLimit (decoder : Decoder) (hle : low ≤ high) :
    (Comparison.upTo id DecodeFault.IsTooDeep).Covers
      { decoder with depthLimit := low } { decoder with depthLimit := high } Eq := by
  refine Comparison.covers_upTo (fun _ _ => rfl) (.refl _) (congrArg (· + 1)) ?_ ?_
  · rintro level _ rfl hlevel
    exact hlevel.trans_le hle
  · intro level other _ _
    exact .inl ⟨low, rfl⟩

/-- A run that was not refused for its depth ends in the same way under a higher limit. -/
theorem run_eq_of_not_tooDeep
    {α : Type} {work again : Decoding Input α} {least bound : Nat} {input : Input}
    {first second : Decoder}
    (hwork : (Comparison.upTo id DecodeFault.IsTooDeep).Relates least bound
      work again)
    (hbound : input.remaining ≤ bound + least)
    (hdepth : ∀ error, (first.run work input).result = .error error →
      ¬ error.fault.IsTooDeep) :
    (second.run again input).result = (first.run work input).result ∧
      (second.run again input).input = (first.run work input).input :=
  hwork.run_eq_of_not_excused hbound hdepth

theorem fault_of_isTooDeep
    {table : Table} {limit : Nat} {before after : Input} {error : DecodeError}
    (hfailure : Failure table limit before error after) (hdepth : error.fault.IsTooDeep) :
    error.fault = .nestingTooDeep limit := by
  obtain ⟨other, hfault⟩ := hdepth
  cases hfailure <;> cases hfault
  rfl

/-- Where the returned values are those that are derived, two limits that agree up
to refused blocks have the height as a threshold. -/
theorem threshold_of_derives
    {α : Type} {table : Table} (htable : table.Coherent) (phrase : α → Phrase)
    (low high : Nat) (input : Input) {lower higher : Outcome Input α}
    (hsame : (∀ error, lower.result = .error error → ¬ error.fault.IsTooDeep) →
      higher.result = lower.result ∧ higher.input = lower.input)
    (hlower : ∀ value after, lower.result = .ok value ∧ lower.input = after ↔
      ∃ bytes, Derives table low 0 bytes (phrase value) ∧
        input.Consumed bytes after)
    (hhigher : ∀ value after, higher.result = .ok value ∧ higher.input = after →
      ∃ bytes, Derives table high 0 bytes (phrase value) ∧
        input.Consumed bytes after)
    (hfailure : ∀ error, lower.result = .error error →
      Failure table low input error lower.input) :
    Threshold table.TerminatorsFlat (fun value => (phrase value).height) low
      lower higher := by
  have hreturned (value : α) (hvalue : lower.result = .ok value) :
      higher.result = .ok value ∧ higher.input = lower.input := by
    rw [← hvalue]
    exact hsame fun error herror => by simp [hvalue] at herror
  have hrefused (error : DecodeError) (herror : lower.result = .error error)
      (hdepth : ¬ error.fault.IsTooDeep) :
      higher.result = .error error ∧ higher.input = lower.input := by
    rw [← herror]
    refine hsame fun other hother => ?_
    rw [herror] at hother
    cases hother
    exact hdepth
  refine ⟨hreturned, hrefused, ?_⟩
  intro hflat value hvalue
  have hreaches : (∃ again, lower.result = .ok again) ↔ (phrase value).height ≤ low := by
    constructor
    · rintro ⟨again, hagain⟩
      obtain rfl : again = value := by
        have hboth := (hreturned again hagain).1.symm.trans hvalue
        cases hboth
        rfl
      obtain ⟨_, hderives, _⟩ := (hlower again _).mp ⟨hagain, rfl⟩
      have hheight := hderives.height_le (Nat.zero_le low)
      omega
    · intro hheight
      obtain ⟨bytes, hderives, hbytes⟩ := hhigher value _ ⟨hvalue, rfl⟩
      have hlow : Derives table low 0 bytes (phrase value) :=
        hderives.of_height_le htable hflat (by omega)
      exact ⟨value, ((hlower value _).mpr ⟨bytes, hlow, hbytes⟩).1⟩
  refine ⟨hreaches, ?_⟩
  intro hheight
  cases hresult : lower.result with
  | ok again => exact absurd (hreaches.mp ⟨again, hresult⟩) hheight
  | error error =>
      by_cases hdepth : error.fault.IsTooDeep
      · have hfault := fault_of_isTooDeep (hfailure error hresult) hdepth
        exact ⟨error.position, by rw [← hfault]⟩
      · rw [(hrefused error hresult hdepth).1] at hvalue
        cases hvalue

end Decoder

/-- A limit decides only whether the blocks of what is decoded may lie so deep. -/
theorem depth_limit_is_a_threshold
    {σ : Type} [ViewedSource σ] (decoder : Decoder) (htable : decoder.table.Accepted)
    {low high : Nat} (hle : low ≤ high) (source : σ) :
    Threshold decoder.table.TerminatorsFlat Instruction.height low
        (Decoder.decodeOne { decoder with depthLimit := low } source).viewed
        (Decoder.decodeOne { decoder with depthLimit := high } source).viewed ∧
      Threshold decoder.table.TerminatorsFlat Block.height low
        (Decoder.decodeBlock { decoder with depthLimit := low } source).viewed
        (Decoder.decodeBlock { decoder with depthLimit := high } source).viewed := by
  simp only [Decoder.viewed_decodeOne, Decoder.viewed_decodeBlock]
  generalize ViewedSource.toInput source = input
  let lower : Decoder := { decoder with depthLimit := low }
  let higher : Decoder := { decoder with depthLimit := high }
  have hlower : lower.table.Coherent := htable.wellFormed.toCoherent
  have hhigher : higher.table.Coherent := htable.wellFormed.toCoherent
  have hcovers := decoder.covers_higherLimit hle
  have hblocks := hcovers.relatesBlocks le_rfl (Nat.le_refl input.remaining)
  constructor
  · refine Decoder.threshold_of_derives hlower Phrase.instruction low high input
      ?_ ?_ ?_ ?_
    · exact Decoder.run_eq_of_not_tooDeep
        (hcovers.instruction hblocks le_rfl rfl) (Nat.le_succ input.remaining)
    · intro item after
      exact Decoder.decodeOne_eq_ok_iff hlower
    · intro item after
      exact (Decoder.decodeOne_eq_ok_iff hhigher).mp
    · intro error herror
      exact Decoder.decodeOne_eq_error hlower herror
  · refine Decoder.threshold_of_derives hlower Phrase.block low high input
      ?_ ?_ ?_ ?_
    · exact Decoder.run_eq_of_not_tooDeep (hblocks 0 0 rfl) le_rfl
    · intro content after
      exact Decoder.decodeBlock_eq_ok_iff hlower
    · intro content after
      exact (Decoder.decodeBlock_eq_ok_iff hhigher).mp
    · intro error herror
      exact Decoder.decodeBlock_eq_error hlower herror

/-- One block in another one, a block by itself, and an unknown opcode, under limits of
one and two levels. -/
theorem nested_blocks_need_two_levels :
    Table.sample.Accepted ∧ 1 ≤ 2 ∧
      (∃ position, (Decoder.decodeOne ⟨Table.sample, 1, false⟩
        (StreamSource.ofBytes [0x02, 0x40, 0x02, 0x40, 0x0B, 0x0B])).result =
          .error ⟨position, .nestingTooDeep 1⟩) ∧
      (Decoder.decodeOne ⟨Table.sample, 2, false⟩
        (StreamSource.ofBytes [0x02, 0x40, 0x0B])).result =
          .ok ⟨.block, [.blockType none, .instructions []]⟩ ∧
      (Decoder.decodeBlock ⟨Table.sample, 2, false⟩
        (StreamSource.ofBytes [0x41, 0x00, 0x99])).result = .error ⟨2, .unknownOpcode 0x99⟩ := by
  have hle : 1 ≤ 2 := by decide
  have hthreshold (bytes : List UInt8) :=
    depth_limit_is_a_threshold ⟨Table.sample, 0, false⟩ Table.accepted_sample hle
      (StreamSource.ofBytes bytes)
  have hflat : Table.sample.TerminatorsFlat := by
    unfold Table.TerminatorsFlat
    decide
  let inner : Instruction := ⟨.block, [.blockType none, .instructions []]⟩
  let outer : Instruction := ⟨.block, [.blockType none, .instructions [inner]]⟩
  have hhigh : (Decoder.decodeOne ⟨Table.sample, 2, false⟩
      (StreamSource.ofBytes [0x02, 0x40, 0x02, 0x40, 0x0B, 0x0B])).result = .ok outer := by cbv
  have hshallow : (Decoder.decodeOne ⟨Table.sample, 1, false⟩
      (StreamSource.ofBytes [0x02, 0x40, 0x0B])).result = .ok inner := by cbv
  have hunknown : (Decoder.decodeBlock ⟨Table.sample, 1, false⟩
      (StreamSource.ofBytes [0x41, 0x00, 0x99])).result = .error ⟨2, .unknownOpcode 0x99⟩ := by cbv
  have hknown : ¬ (DecodeFault.unknownOpcode 0x99).IsTooDeep := by
    rintro ⟨limit, hlimit⟩
    cases hlimit
  refine ⟨Table.accepted_sample, hle, ?_, ?_, ?_⟩
  · have houter := (hthreshold [0x02, 0x40, 0x02, 0x40, 0x0B, 0x0B]).1.reached hflat outer hhigh
    exact houter.2 (by decide)
  · exact ((hthreshold [0x02, 0x40, 0x0B]).1.returned inner hshallow).1
  · exact ((hthreshold [0x41, 0x00, 0x99]).2.refused _ hunknown hknown).1

end Disassembly
