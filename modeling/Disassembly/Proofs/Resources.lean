import Disassembly.Proofs.Comparison.Blocks
import Disassembly.Proofs.Sources.Views

/-!
# What decoding costs

Blocks hold instructions and instructions hold blocks, and nothing in a table
bounds this recursion: even a terminator may hold a block.  What bounds it are the
bytes.  Every turn of the loop over the instructions of a block reads an opcode, so
that what goes on behind it and inside it has fewer bytes left.  The recursion is
unfolded no more often than there are bytes, and once more to find that there is
none left.  All other loops count down from a number that they know when they start.

The same bytes pay for the result.  An instruction takes its opcode, and a label and
a value type take at least a byte of their own, whatever count stands in front of
them.
-/

namespace Disassembly

open Decoding (read)
open Grammar
open ViewedSource (toInput)

/-! ## Weights -/

mutual

/-- The instructions of a tree at all depths, with their labels and value types. -/
def Instruction.weight : Instruction → Nat
  | .mk _ operands => Operand.weightOfAll operands + 1
  termination_by structural instruction => instruction

def Operand.weight : Operand → Nat
  | .labels targets => targets.length
  | .valueTypes types => types.length
  | .instructions body => Instruction.weightOfAll body
  | _ => 0
  termination_by structural operand => operand

def Operand.weightOfAll : List Operand → Nat
  | [] => 0
  | operand :: more => Operand.weight operand + Operand.weightOfAll more
  termination_by structural operands => operands

def Instruction.weightOfAll : List Instruction → Nat
  | [] => 0
  | instruction :: more =>
    Instruction.weight instruction + Instruction.weightOfAll more
  termination_by structural instructions => instructions

end

def Block.weight (block : Block) : Nat :=
  Instruction.weightOfAll block.instructions

namespace Grammar

variable {table : Table} {limit level : Nat} {bytes : List UInt8}

/-- The weight of what a phrase stands for. -/
def Phrase.weight : Phrase → Nat
  | .instruction item => item.weight
  | .operands _ values => Operand.weightOfAll values
  | .field _ value => value.weight
  | .block content => content.weight

theorem Scalar.weight_le {field : Field} {value : Operand}
    (hvalue : Scalar field bytes value) : value.weight ≤ bytes.length := by
  cases hvalue with
  | valueTypes => simp [Operand.weight]
  | _ => exact Nat.zero_le _

theorem Labels.length_le {targets : List UInt32}
    (htargets : Labels bytes targets) : targets.length ≤ bytes.length := by
  cases htargets with
  | @intro count pieces _ _ hpieces =>
      have hlengths : ∀ length ∈ pieces.map List.length, 1 ≤ length := by
        intro length hlength
        obtain ⟨piece, hpiece, rfl⟩ := List.mem_map.mp hlength
        exact (hpieces piece hpiece).terminated.length_pos
      calc (pieces.map fun piece => UInt32.ofNat (Leb128.groupSum piece)).length
          = (pieces.map List.length).length := by simp only [List.length_map]
        _ ≤ (pieces.map List.length).sum := List.length_le_sum_of_one_le _ hlengths
        _ = pieces.flatten.length := List.length_flatten.symm
        _ ≤ (count ++ pieces.flatten).length := by simp

/-- Every phrase has at least as many bytes as it weighs. -/
theorem Derives.weight_le {phrase : Phrase}
    (hphrase : Derives table limit level bytes phrase) :
    phrase.weight ≤ bytes.length := by
  induction hphrase with
  | @instruction _ entry _ _ _ _ ih =>
      have hopcode := List.length_pos_iff.mpr entry.opcode.bytes_ne_nil
      simp only [Phrase.weight, Instruction.weight] at ih ⊢
      rw [List.length_append]
      omega
  | noFields => exact Nat.zero_le _
  | nextField _ _ hfirst hmore =>
      simp only [Phrase.weight, Operand.weightOfAll] at hfirst hmore ⊢
      rw [List.length_append]
      omega
  | oneArm _ _ _ hfirst =>
      simp only [Phrase.weight, Block.weight] at hfirst
      simp only [Phrase.weight, Operand.weightOfAll, Operand.weight,
        Instruction.weightOfAll, List.length_append]
      omega
  | twoArms _ _ _ _ hfirst hsecond =>
      simp only [Phrase.weight, Block.weight] at hfirst hsecond
      simp only [Phrase.weight, Operand.weightOfAll, Operand.weight,
        List.length_append]
      omega
  | branchTable htargets => exact htargets.length_le
  | scalar hvalue => exact hvalue.weight_le
  | nested _ _ hcontent => exact hcontent
  | close => exact Nat.zero_le _
  | next _ _ _ hitem hcontent =>
      simp only [Phrase.weight, Block.weight, Instruction.weightOfAll]
        at hitem hcontent ⊢
      rw [List.length_append]
      omega

end Grammar

/-! ## Turns -/

section Turns

variable {σ α : Type} [ViewedSource σ]

/-- A source belongs to the input that it amounts to as long as fewer than `bound` bytes are
left. -/
def Below (bound : Nat) (source : σ) (input : Input) : Prop :=
  toInput source = input ∧ input.remaining < bound

theorem Input.remaining_nextByte_le (input : Input) :
    (Reader.nextByte input).2.remaining ≤ input.remaining := by
  cases hrest : input.rest with
  | nil => rw [Reader.nextByte_nil hrest]
  | cons byte rest =>
      rw [Reader.nextByte_cons hrest, Input.remaining, Input.remaining, hrest]
      exact Nat.le_succ rest.length

theorem Input.remaining_nextBytes_le (input : Input) (count : Nat) :
    (Reader.nextBytes count input).2.remaining ≤ input.remaining := by
  have hadvance : (input.advance count).remaining ≤ input.remaining := by
    simp [Input.advance, Input.remaining]
  rw [Reader.nextBytes_input]
  split
  next => exact hadvance
  next =>
    cases input.shortRead with
    | keeps => exact le_rfl
    | drains => exact hadvance

theorem tracks_below (bound : Nat) : Tracks (Below bound : σ → Input → Prop) where
  position := fun ⟨hinput, _⟩ => ViewedSource.tracks.position hinput
  remaining := fun ⟨hinput, _⟩ => ViewedSource.tracks.remaining hinput
  nextByte := by
    rintro source input ⟨hinput, hless⟩
    obtain ⟨hresult, hafter⟩ := ViewedSource.tracks.nextByte hinput
    exact ⟨hresult, hafter, input.remaining_nextByte_le.trans_lt hless⟩
  nextBytes := by
    rintro count source input ⟨hinput, hless⟩
    obtain ⟨hresult, hafter⟩ := ViewedSource.tracks.nextBytes count hinput
    exact ⟨hresult, hafter, (input.remaining_nextBytes_le count).trans_lt hless⟩

/-- An opcode takes a byte, unless there is none. -/
theorem Reader.entry_takes (table : Table) (input : Input) :
    (Reader.entry table input).2.remaining < input.remaining ∨
      Reader.entry table input = (.error (input.shortage 1), input) := by
  cases hrest : input.rest with
  | nil =>
      right
      change (Reader.nextByte >>= fun lead => _) input = _
      rw [bind_apply, Reader.nextByte_nil hrest]
  | cons lead rest =>
      left
      let middle : Input := { input with position := input.position + 1, rest := rest }
      have hless : middle.remaining < input.remaining := by
        simp [middle, Input.remaining, hrest]
      change ((Reader.nextByte >>= fun lead => _) input).2.remaining < _
      rw [bind_apply, Reader.nextByte_cons hrest]
      dsimp only
      cases table.slot? lead with
      | none => exact hless
      | some slot =>
          cases slot with
          | single entry => exact hless
          | extended =>
              refine lt_of_le_of_lt ?_ (middle.remaining_nextByte_le.trans_lt hless)
              change ((Reader.nextByte >>= fun second => _) middle).2.remaining ≤ _
              rw [bind_apply]
              cases (Reader.nextByte middle).1 with
              | error error => exact le_rfl
              | ok second =>
                  dsimp only
                  cases table.extended? lead second <;> exact le_rfl

/-- What comes behind an opcode has fewer bytes left. -/
theorem follows_behind_entry
    {bound : Nat} (table : Table) {work : Entry → Decoding σ α} {model : Entry → Decoding Input α}
    (hwork : ∀ entry, Follows (Together (Below bound)) (work entry) (model entry)) :
    Follows (Together (Below (bound + 1)))
      (read (Reader.entry table) >>= work) (read (Reader.entry table) >>= model) := by
  rintro session other ⟨⟨hinput, hless⟩, hevents⟩
  obtain ⟨hresult, hafter, hagain⟩ := (ViewedSource.tracks.entry table).read ⟨hinput, hevents⟩
  have htakes := Reader.entry_takes table other.input
  rw [Decoding.read_apply] at hresult hafter hagain
  rw [bind_apply, bind_apply, hresult, Decoding.read_apply]
  dsimp only at hafter hagain ⊢
  cases hentry : (Reader.entry table other.input).1 with
  | error error =>
      have hleft : (Reader.entry table other.input).2.remaining < bound + 1 := by
        rcases htakes with htakes | hnone
        · exact htakes.trans hless
        · rwa [hnone]
      exact ⟨rfl, ⟨hafter, hleft⟩, hagain⟩
  | ok entry =>
      have hleft : (Reader.entry table other.input).2.remaining < bound := by
        rcases htakes with htakes | hnone
        · exact htakes.trans_le (Nat.le_of_lt_succ hless)
        · rw [hnone] at hentry
          cases hentry
      have htogether : Together (Below bound) (read (Reader.entry table) session).2
          ⟨(Reader.entry table other.input).2, other.events⟩ :=
        ⟨⟨hafter, hleft⟩, hagain⟩
      obtain ⟨hsame, ⟨hends, hfewer⟩, htold⟩ := hwork entry htogether
      exact ⟨hsame, ⟨hends, hfewer.trans (Nat.lt_succ_self bound)⟩, htold⟩

namespace Decoder

variable (decoder : Decoder)

/-- A turn takes a byte, so that whatever goes on behind it and inside it has fewer left. -/
theorem follows_turn
    {bound : Nat} {blocks : Nat → List Instruction → Decoding σ Block}
    {modelBlocks : Nat → List Instruction → Decoding Input Block}
    (hblocks : ∀ level earlier,
      Follows (Together (Below bound)) (blocks level earlier) (modelBlocks level earlier))
    (level : Nat) (earlier : List Instruction) :
    Follows (Together (Below (bound + 1))) (decoder.turn blocks level earlier)
      (decoder.turn modelBlocks level earlier) := by
  unfold turn instruction
  simp only [bind_assoc]
  refine follows_behind_entry decoder.table fun entry => ?_
  refine (decoder.follows_operands (tracks_below bound) (fun inner => hblocks inner [])
    level entry.layout).bind fun operands => ?_
  refine (decoder.follows_tell _).bind fun _ => ?_
  simp only [pure_bind]
  split
  next => exact (decoder.follows_tell _).map fun _ => _
  next => exact hblocks level _

/-- More turns than there are bytes are never used up: it makes no difference what
would happen behind them. -/
theorem follows_turns
    (spent : Nat → List Instruction → Decoding σ Block)
    {bound turns budget : Nat} (hturns : bound ≤ turns) (hbudget : bound ≤ budget + 1)
    (level : Nat) (earlier : List Instruction) :
    Follows (Together (Below bound)) (decoder.turn^[turns] spent level earlier)
      (decoder.block budget level earlier) := by
  induction bound generalizing turns budget level earlier with
  | zero =>
      rintro session other ⟨⟨_, hless⟩, _⟩
      exact absurd hless (Nat.not_lt_zero _)
  | succ bound ih =>
      cases turns with
      | zero => omega
      | succ turns =>
          rw [Function.iterate_succ_apply']
          have hfewer : bound ≤ turns := Nat.le_of_succ_le_succ hturns
          cases budget with
          | zero =>
              -- no byte is left, and a block without a budget ends like its next turn
              obtain rfl : bound = 0 := by omega
              have hturn : Follows (Together (Below 1)) _ (decoder.block 1 level earlier) :=
                decoder.follows_turn (ih hfewer (Nat.zero_le 1)) level earlier
              rintro session other htogether
              have hrest : other.input.rest = [] :=
                List.eq_nil_of_length_eq_zero (Nat.lt_one_iff.mp htogether.input.2)
              have hends := hturn htogether
              rw [decoder.block_eq_shortage _ _ _ hrest] at hends ⊢
              exact hends
          | succ budget =>
              exact decoder.follows_turn
                (ih hfewer (Nat.le_of_succ_le_succ hbudget)) level earlier

variable {source : σ} {turns : Nat}

theorem decodeOne_eq_turns (spent : Nat → List Instruction → Decoding σ Block)
    (hturns : ByteSource.remaining source < turns) :
    (decoder.run
        (decoder.instruction (fun level => decoder.turn^[turns] spent level []) 0)
        source).viewed = (decoder.decodeOne source).viewed := by
  rw [ViewedSource.remaining_eq] at hturns
  have hblocks (level : Nat) := decoder.follows_turns spent hturns le_rfl level []
  have hagrees := (tracks_below _).run decoder ⟨rfl, Nat.lt_succ_self _⟩
    (decoder.follows_instruction (tracks_below _) hblocks 0)
  rw [decoder.viewed_decodeOne]
  exact Outcome.Agrees.viewed_eq ⟨hagrees.result, hagrees.input.1, hagrees.events⟩

theorem decodeBlock_eq_turns (spent : Nat → List Instruction → Decoding σ Block)
    (hturns : ByteSource.remaining source < turns) :
    (decoder.run (decoder.turn^[turns] spent 0 []) source).viewed =
      (decoder.decodeBlock source).viewed := by
  rw [ViewedSource.remaining_eq] at hturns
  have hagrees := (tracks_below _).run decoder ⟨rfl, Nat.lt_succ_self _⟩
    (decoder.follows_turns spent hturns le_rfl 0 [])
  rw [decoder.viewed_decodeBlock]
  exact Outcome.Agrees.viewed_eq ⟨hagrees.result, hagrees.input.1, hagrees.events⟩

end Decoder

end Turns

/-- Decoding comes to its end within one more turn of its recursion than there are
bytes, so that it never gets to what is `spent` behind these turns.  What it returns
weighs no more than the bytes that it has consumed. -/
theorem decoding_is_paid_for_by_its_bytes
    {σ : Type} [ViewedSource σ]
    (decoder : Decoder) (htable : decoder.table.Accepted) (source : σ) :
    (∀ spent turns, ByteSource.remaining source < turns →
      (decoder.run
          (decoder.instruction (fun level => decoder.turn^[turns] spent level []) 0)
          source).viewed = (decoder.decodeOne source).viewed ∧
        (decoder.run (decoder.turn^[turns] spent 0 []) source).viewed =
          (decoder.decodeBlock source).viewed) ∧
    (∀ item, (decoder.decodeOne source).result = .ok item →
      ByteSource.position source + item.weight ≤
        ByteSource.position (decoder.decodeOne source).input) ∧
    ∀ content, (decoder.decodeBlock source).result = .ok content →
      ByteSource.position source + content.weight ≤
        ByteSource.position (decoder.decodeBlock source).input := by
  have hcoherent := htable.wellFormed.toCoherent
  refine ⟨?_, ?_, ?_⟩
  · intro spent turns hturns
    exact ⟨decoder.decodeOne_eq_turns spent hturns,
      decoder.decodeBlock_eq_turns spent hturns⟩
  · intro item hitem
    rw [decoder.result_decodeOne] at hitem
    obtain ⟨bytes, hderives, hbytes⟩ :=
      (Decoder.decodeOne_eq_ok_iff hcoherent).mp ⟨hitem, rfl⟩
    rw [decoder.position_decodeOne, ViewedSource.position_eq, hbytes.position]
    exact Nat.add_le_add_left hderives.weight_le _
  · intro content hcontent
    rw [decoder.result_decodeBlock] at hcontent
    obtain ⟨bytes, hderives, hbytes⟩ :=
      (Decoder.decodeBlock_eq_ok_iff hcoherent).mp ⟨hcontent, rfl⟩
    rw [decoder.position_decodeBlock, ViewedSource.position_eq, hbytes.position]
    exact Nat.add_le_add_left hderives.weight_le _

/-- A block with a branch table of three labels, and a block that is closed by an `end`
which holds another such block. -/
theorem paid_labels_and_nested_ends :
    let nesting : Table := ⟨"nesting", [⟨.single 0x0B, .blockEnd, .inOrder [.instructions]⟩,
      ⟨.single 0x05, .otherwise, .inOrder []⟩]⟩
    let labels : StreamSource := .ofBytes [0x02, 0x40, 0x0E, 0x02, 0x00, 0x01, 0x02, 0x0B]
    let ends : StreamSource := .ofBytes [0x0B, 0x0B, 0x05]
    let tree : Instruction := ⟨.block, [.blockType none,
      .instructions [⟨.branchTable, [.labels [0, 1, 2]]⟩]]⟩
    (Table.sample.Accepted ∧ nesting.Accepted ∧ ends.remaining < 4) ∧
      ((Decoder.decodeOne ⟨Table.sample, 1, false⟩ labels).result = .ok tree ∧
        tree.weight = 5 ∧
        tree.weight ≤ (Decoder.decodeOne ⟨Table.sample, 1, false⟩ labels).input.position) ∧
      (Decoder.decodeBlock ⟨nesting, 2, false⟩ ends).result = .ok ⟨[], false⟩ ∧
        ∀ spent, (Decoder.run ⟨nesting, 2, false⟩
          ((Decoder.turn ⟨nesting, 2, false⟩)^[4] spent 0 []) ends).viewed =
            (Decoder.decodeBlock ⟨nesting, 2, false⟩ ends).viewed := by
  intro nesting labels ends tree
  have hnesting : nesting.Accepted :=
    .inl ⟨"nesting", [⟨.single 0x0B, "end", "instr*"⟩, ⟨.single 0x05, "else", ""⟩], rfl⟩
  have hturns : ends.remaining < 4 := by decide
  have htree : (Decoder.decodeOne ⟨Table.sample, 1, false⟩ labels).result = .ok tree := by
    cbv
  refine ⟨⟨Table.accepted_sample, hnesting, hturns⟩, ⟨htree, rfl, ?_⟩, by cbv, ?_⟩
  · have hpaid := (decoding_is_paid_for_by_its_bytes ⟨Table.sample, 1, false⟩
      Table.accepted_sample labels).2.1 tree htree
    exact (Nat.le_add_left _ _).trans hpaid
  · intro spent
    exact ((decoding_is_paid_for_by_its_bytes ⟨nesting, 2, false⟩ hnesting ends).1
      spent 4 hturns).2

end Disassembly
