import Disassembly.Proofs.Comparison.Readers

/-!
# Two decoders side by side

A comparison that is kept by the steps of two decoders is kept by their operands,
their instructions and their blocks.  The two may differ in their tables, as long
as they find the same entries, and in their limits.  Their levels only have to
correspond to each other, and their budgets to cover the bytes that are left.

Two runs on one input, which fail with the same errors up to a renaming of these,
are the case that occurs most.
-/

namespace Disassembly

open Decoding (read)

/-- One turn of the loop that reads a block, where `blocks` goes on with the block and
reads the blocks inside it. -/
def Decoder.turn {σ : Type} [ByteSource σ] (decoder : Decoder)
    (blocks : Nat → List Instruction → Decoding σ Block) (level : Nat)
    (earlier : List Instruction) : Decoding σ Block := do
  let item ← decoder.instruction (fun inner => blocks inner []) level
  if item.isTerminator then
    let content : Block := ⟨earlier.reverse, item.type = .otherwise⟩
    decoder.tell (.block level content)
    return content
  else blocks level (item :: earlier)

theorem Decoder.block_succ {σ : Type} [ByteSource σ] (decoder : Decoder) (budget : Nat) :
    (decoder.block (budget + 1) : Nat → List Instruction → Decoding σ Block) =
      decoder.turn (decoder.block budget) := rfl

namespace Comparison

variable {α : Type} {comparison : Comparison} {least bound : Nat}

/-! ## Instructions -/

/-- The comparison is kept by two decoders at corresponding levels. -/
structure Covers (comparison : Comparison) (first second : Decoder)
    (levels : Nat → Nat → Prop) : Prop extends Reads comparison where
  entry : ∀ bound, comparison.Relates 1 bound
    (read (Reader.entry first.table)) (read (Reader.entry second.table))
  tellInstruction : ∀ {level other before last}, levels level other →
    comparison.running before last → ∀ item,
      comparison.running (first.told (.instruction level item) before)
        (second.told (.instruction other item) last)
  tellBlock : ∀ {level other before last}, levels level other →
    comparison.running before last → ∀ content,
      comparison.running (first.told (.block level content) before)
        (second.told (.block other content) last)
  deeper : ∀ {level other}, levels level other → levels (level + 1) (other + 1)
  nests : ∀ {level other}, levels level other → level < first.depthLimit →
    other < second.depthLimit
  tooDeep : ∀ {level other before last}, levels level other →
    comparison.running before last → first.depthLimit ≤ level →
      comparison.excuses (.nestingTooDeep first.depthLimit) ∨
        second.depthLimit ≤ other ∧
          comparison.failed
            ⟨before.input.position, .nestingTooDeep first.depthLimit⟩ before
            ⟨last.input.position, .nestingTooDeep second.depthLimit⟩ last
  secondElse : ∀ {budget level before other after last} {content : Block},
    comparison.running before other → before.input.remaining ≤ budget →
      first.block budget level [] before = (.ok content, after) →
      content.closedByElse → comparison.running after last →
        comparison.failed ⟨after.input.position, .secondElse⟩ after
          ⟨last.input.position, .secondElse⟩ last

/-- Two ways to read blocks at corresponding levels, by which runs compare.  If a block
is closed by `else` where it must not be, both of them are to blame for it. -/
structure BlocksRelate (comparison : Comparison) (levels : Nat → Nat → Prop)
    (bound : Nat) (block again : Nat → Decoding Input Block) : Prop where
  relates : ∀ {level other}, levels level other →
    comparison.Relates 0 bound (block level) (again other)
  secondElse : ∀ {level before other after last} {content : Block},
    comparison.running before other → before.input.remaining ≤ bound →
      block level before = (.ok content, after) → content.closedByElse →
      comparison.running after last →
        comparison.failed ⟨after.input.position, .secondElse⟩ after
          ⟨last.input.position, .secondElse⟩ last

section Operands

variable {first second : Decoder} {levels : Nat → Nat → Prop}
variable {block again : Nat → Decoding Input Block} {level other : Nat}
variable (hcovers : comparison.Covers first second levels)
variable (hblocks : comparison.BlocksRelate levels bound block again)
include hcovers hblocks

theorem Covers.nestedBlock (hlevel : levels level other) :
    comparison.Relates 0 bound (first.nestedBlock block level)
      (second.nestedBlock again other) := by
  unfold Decoder.nestedBlock
  split
  next hnests =>
    rw [if_pos (hcovers.nests hlevel hnests)]
    exact hblocks.relates (hcovers.deeper hlevel)
  next hdeep =>
    intro most _ before last hrunning _
    rcases hcovers.tooDeep hlevel hrunning (Nat.le_of_not_lt hdeep) with
      hexcused | ⟨hother, hfailed⟩
    · exact .excused hexcused
    · rw [if_neg (Nat.not_lt_of_le hother)]
      exact .error hfailed

theorem Covers.secondArm (hlevel : levels level other) (arm : Block) :
    comparison.Relates 0 bound (Decoder.secondArm block level arm)
      (Decoder.secondArm again other arm) := by
  unfold Decoder.secondArm
  split
  next =>
    refine (hblocks.relates (hcovers.deeper hlevel)).bind_of_run ?_
    intro most hmost before started content after last hstart hleft hrun hrunning
      hafter
    split
    next hclosed =>
      exact .error (hblocks.secondElse hstart (hleft.trans hmost) hrun hclosed
        hrunning)
    next => exact .ok hrunning hafter
  next => exact relates_pure bound []

theorem Covers.field (hlevel : levels level other) (field : Field) :
    comparison.Relates 0 bound (first.field block level field)
      (second.field again other field) := by
  cases field with
  | u32 => exact (hcovers.u32 bound).map _
  | i32 => exact (hcovers.i32 bound).map _
  | i64 => exact (hcovers.i64 bound).map _
  | f32 => exact (hcovers.littleEndian32 bound).map _
  | f64 => exact (hcovers.littleEndian64 bound).map _
  | index space => exact (hcovers.u32 bound).map _
  | blockType => exact (hcovers.typeByte bound .block _).map _
  | referenceType => exact (hcovers.typeByte bound .reference _).map _
  | valueTypes => exact (hcovers.valueTypes bound).map _
  | instructions => exact (hcovers.nestedBlock hblocks hlevel).map _
  | unknown kind => exact hcovers.failHere bound (by simp [DecodeFault.BlamesBytes])

theorem Covers.fields (hlevel : levels level other) (fields : List Field) :
    comparison.Relates 0 bound (fields.mapM (first.field block level))
      (fields.mapM (second.field again other)) := by
  induction fields with
  | nil =>
      simp only [List.mapM_nil]
      exact relates_pure bound []
  | cons field fields ih =>
      simp only [List.mapM_cons]
      exact (hcovers.field hblocks hlevel field).bind fun value =>
        ih.map (value :: ·)

theorem Covers.operands (hlevel : levels level other) (layout : Layout) :
    comparison.Relates 0 bound (first.operands block level layout)
      (second.operands again other layout) := by
  cases layout with
  | inOrder fields => exact hcovers.fields hblocks hlevel fields
  | special directive =>
      cases directive with
      | conditional =>
          refine (hcovers.typeByte bound .block _).bind fun type => ?_
          refine (hcovers.nestedBlock hblocks hlevel).bind fun arm => ?_
          exact (hcovers.secondArm hblocks hlevel arm).map _
      | branchTable => exact (hcovers.branchLabels bound).map _
  | unknown rule => exact hcovers.failHere bound (by simp [DecodeFault.BlamesBytes])

theorem Covers.instruction_of_blocks (hlevel : levels level other) :
    comparison.Relates 1 bound (first.instruction block level)
      (second.instruction again other) := by
  refine (hcovers.entry bound).bind fun entry => ?_
  refine (hcovers.operands hblocks hlevel entry.layout).bind fun values => ?_
  intro most _ before last hrunning hleft
  simp only [bind_apply, Decoder.tell_apply]
  refine .ok (hcovers.tellInstruction hlevel hrunning _) ?_
  simpa using hleft

end Operands

/-! ## Blocks -/

/-- The blocks of two decoders, each with a budget of its own. -/
def RelatesBlocks (comparison : Comparison) (first second : Decoder)
    (levels : Nat → Nat → Prop) (budget again bound : Nat) : Prop :=
  ∀ level other, levels level other →
    comparison.Relates 0 bound (first.block budget level [])
      (second.block again other [])

section Blocks

variable {first second : Decoder} {levels : Nat → Nat → Prop}
variable {budget again level other : Nat}
variable (hcovers : comparison.Covers first second levels)
include hcovers

/-- A turn takes a byte, and what it leaves is for the blocks that it was given. -/
theorem Covers.turn
    {blocks others : Nat → List Instruction → Decoding Input Block}
    (hblocks : comparison.BlocksRelate levels bound (fun inner => blocks inner [])
      (fun inner => others inner []))
    (hlevel : levels level other) {earlier : List Instruction}
    (hnext : ∀ item, comparison.Relates 0 bound (blocks level (item :: earlier))
      (others other (item :: earlier))) :
    comparison.Relates 0 (bound + 1) (first.turn blocks level earlier)
      (second.turn others other earlier) := by
  refine Relates.of_succ
    ((hcovers.instruction_of_blocks hblocks hlevel).bind fun item => ?_)
  split
  next =>
    intro most _ before last hrunning hleft
    simp only [bind_apply, Decoder.tell_apply]
    refine .ok (hcovers.tellBlock hlevel hrunning _) ?_
    simpa using hleft
  next => exact hnext item

theorem Covers.blocksRelate
    (hblocks : comparison.RelatesBlocks first second levels budget again bound)
    (hbudget : bound ≤ budget) :
    comparison.BlocksRelate levels bound (fun inner => first.block budget inner [])
      (fun inner => second.block again inner []) where
  relates := hblocks _ _
  secondElse hrunning hbefore := hcovers.secondElse hrunning (hbefore.trans hbudget)

theorem Covers.instruction
    (hblocks : comparison.RelatesBlocks first second levels budget again bound)
    (hbudget : bound ≤ budget) (hlevel : levels level other) :
    comparison.Relates 1 bound
      (first.instruction (fun inner => first.block budget inner []) level)
      (second.instruction (fun inner => second.block again inner []) other) :=
  hcovers.instruction_of_blocks (hcovers.blocksRelate hblocks hbudget) hlevel

theorem Covers.block
    (bound : Nat) (hbudget : bound ≤ budget) (hagain : bound ≤ again)
    (hlevel : levels level other) (earlier : List Instruction) :
    comparison.Relates 0 bound (first.block budget level earlier)
      (second.block again other earlier) := by
  -- every instruction takes one of the bytes and one of either budget
  induction bound generalizing budget again level other earlier with
  | zero =>
      intro most hmost before last hrunning hleft
      have hrest : before.input.rest = [] :=
        List.eq_nil_of_length_eq_zero (Nat.le_zero.mp (hleft.trans hmost))
      have hother := (hcovers.rest hrunning).trans hrest
      rw [first.block_eq_shortage _ _ _ hrest, second.block_eq_shortage _ _ _ hother]
      exact hcovers.agree_shortage hrunning hrest most
  | succ bound ih =>
      cases budget with
      | zero => omega
      | succ budget =>
          cases again with
          | zero => omega
          | succ again =>
              have hinner : bound ≤ budget := Nat.le_of_succ_le_succ hbudget
              have hinnerAgain : bound ≤ again := Nat.le_of_succ_le_succ hagain
              have hblocks :
                  comparison.RelatesBlocks first second levels budget again bound :=
                fun _ _ hdeeper => ih hinner hinnerAgain hdeeper []
              rw [first.block_succ, second.block_succ]
              exact hcovers.turn (hcovers.blocksRelate hblocks hinner) hlevel
                fun item => ih hinner hinnerAgain hlevel (item :: earlier)

end Blocks

theorem Covers.relatesBlocks
    {first second : Decoder} {levels : Nat → Nat → Prop}
    (hcovers : comparison.Covers first second levels) {budget again : Nat}
    (hbudget : bound ≤ budget) (hagain : bound ≤ again) :
    comparison.RelatesBlocks first second levels budget again bound :=
  fun _ _ hlevel => hcovers.block bound hbudget hagain hlevel []

/-! ## Whole runs -/

section Runs

variable (first second : Decoder) {input other : Input}

/-- Work that is reported compares like the work itself, if telling its start and
its failure keeps the comparison. -/
theorem Relates.reported
    {work again : Decoding Input α} (hwork : comparison.Relates least bound work again)
    (hstarted : ∀ {before last}, comparison.running before last →
      comparison.running (first.told (.started before.input.position) before)
        (second.told (.started last.input.position) last))
    (hfailure : ∀ {error other after last},
      comparison.failed error after other last →
        comparison.failed error (first.toldFailure error after) other
          (second.toldFailure other last)) :
    comparison.Relates least bound (first.reported work)
      (second.reported again) := by
  intro most hmost before last hrunning hbefore
  rw [first.reported_apply, second.reported_apply]
  have hagree := hwork most hmost _ _ (hstarted hrunning) (by simpa using hbefore)
  generalize work (first.told (.started before.input.position) before) = outcome
    at hagree ⊢
  generalize again (second.told (.started last.input.position) last) = outcomeAgain
    at hagree ⊢
  cases hagree with
  | ok hafter hleft => exact .ok hafter hleft
  | error hfailed => exact .error (hfailure hfailed)
  | excused hexcused => exact .excused hexcused

/-- Runs of related work on two inputs end alike. -/
theorem Relates.exists_agree
    {work again : Decoding Input α} (hwork : comparison.Relates least bound work again)
    (hrunning : ∀ told toldAgain,
      comparison.running ⟨input, told⟩ ⟨other, toldAgain⟩)
    (hbound : input.remaining ≤ bound + least) :
    ∃ outcome outcomeAgain, comparison.Agree bound outcome outcomeAgain ∧
      ((first.run work input).result = outcome.1 ∧
        (first.run work input).input = outcome.2.input) ∧
      (second.run again other).result = outcomeAgain.1 ∧
        (second.run again other).input = outcomeAgain.2.input := by
  obtain ⟨told, events, hrun⟩ := first.run_eq_work work input
  obtain ⟨toldAgain, eventsAgain, hrunAgain⟩ := second.run_eq_work again other
  rw [hrun, hrunAgain]
  exact ⟨_, _, hwork bound le_rfl _ _ (hrunning told toldAgain) hbound,
    ⟨rfl, rfl⟩, rfl, rfl⟩

end Runs

/-! ## Runs on the same input -/

/-- Runs on one input that fail with the same errors, up to a renaming. -/
def upTo (rename : DecodeError → DecodeError) (excuses : DecodeFault → Prop) :
    Comparison where
  running before other := other.input = before.input
  failed error after other last := error = rename other ∧ last.input = after.input
  excuses := excuses

section UpTo

variable {rename : DecodeError → DecodeError} {excuses : DecodeFault → Prop}
variable (hrename : ∀ error : DecodeError,
  (∀ limit, error.fault ≠ .nestingTooDeep limit) → rename error = error)
include hrename

theorem reads_upTo : (upTo rename excuses).Reads where
  rest := by
    intro before other hsame
    rw [show other.input = before.input from hsame]
  advance := by
    intro before other hsame count _
    exact congrArg (Input.advance · count) hsame
  shortage := by
    intro before other hsame count _
    rw [show other.input = before.input from hsame]
    exact ⟨(hrename _ (by simp [Input.shortage])).symm,
      congrArg (Input.afterShortage · count) hsame⟩
  blame := by
    intro before other hsame fault hfault count _
    rw [show other.input = before.input from hsame]
    exact ⟨(hrename _ hfault.2.1).symm, congrArg (Input.advance · count) hsame⟩

theorem covers_upTo
    {first second : Decoder} {levels : Nat → Nat → Prop}
    (hfinds : (upTo rename excuses).Finds first.table second.table)
    (hdeeper : ∀ {level other}, levels level other → levels (level + 1) (other + 1))
    (hnests : ∀ {level other}, levels level other → level < first.depthLimit →
      other < second.depthLimit)
    (hrefused : ∀ {level other}, levels level other → first.depthLimit ≤ level →
      excuses (.nestingTooDeep first.depthLimit) ∨ second.depthLimit ≤ other ∧
        ∀ position, (⟨position, .nestingTooDeep first.depthLimit⟩ : DecodeError) =
          rename ⟨position, .nestingTooDeep second.depthLimit⟩) :
    (upTo rename excuses).Covers first second levels where
  toReads := reads_upTo hrename
  entry bound := (reads_upTo hrename).entry bound hfinds
  tellInstruction := by
    intro level other before last _ hsame item
    simpa [upTo] using hsame
  tellBlock := by
    intro level other before last _ hsame content
    simpa [upTo] using hsame
  deeper := hdeeper
  nests := hnests
  tooDeep := by
    intro level other before last hlevel hsame hdeep
    rcases hrefused hlevel hdeep with hexcused | ⟨hother, hsecond⟩
    · exact .inl hexcused
    · rw [show last.input = before.input from hsame]
      exact .inr ⟨hother, hsecond _, hsame⟩
  secondElse := by
    intro budget level before other after last content _ _ _ _ hsame
    rw [show last.input = after.input from hsame]
    exact ⟨(hrename _ (by simp)).symm, hsame⟩

end UpTo

/-- A run whose failure is not excused ends in the same way as the other run. -/
theorem Relates.run_eq_of_not_excused
    {excuses : DecodeFault → Prop} {work again : Decoding Input α} {input : Input}
    {first second : Decoder}
    (hwork : (upTo id excuses).Relates least bound work again)
    (hbound : input.remaining ≤ bound + least)
    (hexcused : ∀ error, (first.run work input).result = .error error →
      ¬ excuses error.fault) :
    (second.run again input).result = (first.run work input).result ∧
      (second.run again input).input = (first.run work input).input := by
  obtain ⟨outcome, outcomeAgain, hagree, ⟨hresult, hinput⟩, hagain, hlast⟩ :=
    hwork.exists_agree first second (fun _ _ => rfl) hbound
  rw [hresult] at hexcused
  rw [hresult, hinput, hagain, hlast]
  cases hagree with
  | ok hsame _ => exact ⟨rfl, hsame⟩
  | error hfailed =>
      obtain ⟨rfl, hsame⟩ := hfailed
      exact ⟨rfl, hsame⟩
  | excused hfault => exact absurd hfault (hexcused _ rfl)

end Comparison

end Disassembly
