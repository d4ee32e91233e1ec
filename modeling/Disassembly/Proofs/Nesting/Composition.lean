import Disassembly.Proofs.Comparison.Blocks
import Disassembly.Proofs.Conformance.Shape

/-!
# Blocks are made of instructions

A block can be decoded as a whole, or its instructions can be decoded one by one
until a terminator comes.  Both ways return the same instructions and stop at the
same place, and both fail in the same way.

Inside an instruction a block is decoded one level deeper.  This makes no
difference but for the limit: the block is decoded as it would be by itself under
a limit lower by one, and only an error that names the limit tells the two apart.
-/

namespace Disassembly

open Decoding (read)
open Grammar
open ViewedSource (toInput)

/-- The error with another limit in it, if it names a limit. -/
def DecodeError.withLimit (limit : Nat) (error : DecodeError) : DecodeError :=
  match error.fault with
  | .nestingTooDeep _ => ⟨error.position, .nestingTooDeep limit⟩
  | _ => error

theorem DecodeError.withLimit_eq_self
    {limit : Nat} {error : DecodeError}
    (hfault : ∀ other, error.fault ≠ .nestingTooDeep other) :
    error.withLimit limit = error := by
  rcases error with ⟨position, fault⟩
  cases fault with
  | nestingTooDeep other => exact absurd rfl (hfault other)
  | _ => rfl

namespace Comparison

/-- Runs on one input that end in the same way. -/
def identical : Comparison := upTo id fun _ => False

theorem covers_identical (decoder : Decoder) :
    identical.Covers decoder decoder Eq := by
  refine covers_upTo (fun _ _ => rfl) (.refl _) (congrArg (· + 1)) ?_ ?_
  · rintro level _ rfl hlevel
    exact hlevel
  · rintro level _ rfl hlevel
    exact .inr ⟨hlevel, fun _ => rfl⟩

theorem Agree.upTo_eq
    {α : Type} {rename : DecodeError → DecodeError} {most : Nat}
    {first second : Except DecodeError α × Session Input}
    (hagree : (upTo rename fun _ => False).Agree most first second) :
    first.1 = second.1.mapError rename ∧ first.2.input = second.2.input := by
  cases hagree with
  | ok hsame _ => exact ⟨rfl, Eq.symm hsame⟩
  | error hfailed =>
      obtain ⟨rfl, hsame⟩ := hfailed
      exact ⟨rfl, hsame.symm⟩
  | excused hexcused => exact hexcused.elim

end Comparison

namespace Decoder

variable {decoder : Decoder}

/-! ## One instruction after the other -/

section Sources

variable {σ : Type} [ByteSource σ]

/-- Single decodings, one after the other, return instructions that close no block. -/
inductive Successively (decoder : Decoder) : σ → List Instruction → σ → Prop
  | none (source : σ) : Successively decoder source [] source
  | next {source last : σ} {item : Instruction} {items : List Instruction}
      (hitem : (decoder.decodeOne source).result = .ok item)
      (hinner : ¬ item.isTerminator)
      (hmore : Successively decoder (decoder.decodeOne source).input items last) :
      Successively decoder source (item :: items) last

/-- Nothing can be decoded from a source but an instruction that closes a block. -/
def Stops (decoder : Decoder) (source : σ) : Prop :=
  ∀ item, (decoder.decodeOne source).result = .ok item → item.isTerminator

theorem stops_of_error {source : σ} {error : DecodeError}
    (herror : (decoder.decodeOne source).result = .error error) :
    decoder.Stops source := by
  intro item hitem
  rw [herror] at hitem
  cases hitem

theorem stops_of_isTerminator {source : σ} {closing : Instruction}
    (hclosing : (decoder.decodeOne source).result = .ok closing)
    (hterminator : closing.isTerminator) : decoder.Stops source := by
  intro item hitem
  rw [hclosing] at hitem
  cases hitem
  exact hterminator

/-- The instructions up to the first place to stop are determined. -/
theorem Successively.unique
    {source middle other : σ} {items others : List Instruction}
    (hitems : decoder.Successively source items middle) (hstops : decoder.Stops middle)
    (hothers : decoder.Successively source others other)
    (hstopsOther : decoder.Stops other) : items = others ∧ middle = other := by
  induction hitems generalizing others with
  | none source =>
      cases hothers with
      | none => exact ⟨rfl, rfl⟩
      | next hitem hinner _ => exact absurd (hstops _ hitem) hinner
  | next hitem hinner _ ih =>
      cases hothers with
      | none => exact absurd (hstopsOther _ hitem) hinner
      | next hagain _ hmore =>
          rw [hitem] at hagain
          cases hagain
          obtain ⟨rfl, rfl⟩ := ih hstops hmore
          exact ⟨rfl, rfl⟩

end Sources

/-- What is decoded in turn from the input that a source amounts to is decoded in turn from
the source. -/
theorem Successively.exists_of_toInput
    {σ : Type} [ViewedSource σ] {source : σ} {items : List Instruction} {last : Input}
    (hitems : decoder.Successively (toInput source) items last) :
    ∃ middle, decoder.Successively source items middle ∧ toInput middle = last := by
  generalize hinput : toInput source = input at hitems
  induction hitems generalizing source with
  | none => exact ⟨source, .none source, hinput⟩
  | next hitem hinner _ ih =>
      subst hinput
      have hafter := congrArg Outcome.input (decoder.viewed_decodeOne source)
      obtain ⟨middle, hmiddle, hlast⟩ := ih hafter
      exact ⟨middle, .next ((decoder.result_decodeOne source).trans hitem) hinner hmiddle, hlast⟩

/-- The first instruction of a block is decoded as if it stood alone. -/
theorem agree_decodeOne
    (decoder : Decoder) {budget : Nat} {session : Session Input}
    (hbudget : session.input.remaining ≤ budget + 1) :
    ∃ outcome, Comparison.identical.Agree (session.input.remaining - 1)
        (decoder.instruction (fun inner => decoder.block budget inner []) 0 session)
        outcome ∧
      (decoder.decodeOne session.input).result = outcome.1 ∧
        (decoder.decodeOne session.input).input = outcome.2.input := by
  obtain ⟨told, events, hrun⟩ := decoder.run_eq_work
    (decoder.instruction
      (fun inner => decoder.block session.input.remaining inner []) 0) session.input
  have hcovers := Comparison.covers_identical decoder
  have hblocks : Comparison.identical.RelatesBlocks decoder decoder Eq budget
      session.input.remaining (session.input.remaining - 1) :=
    hcovers.relatesBlocks (by omega) (Nat.sub_le _ _)
  have hagree := hcovers.instruction hblocks (by omega) (Eq.refl 0)
    (session.input.remaining - 1) le_rfl session ⟨session.input, told⟩ rfl (by omega)
  rw [decodeOne_input, hrun]
  exact ⟨_, hagree, rfl, rfl⟩

theorem decodeOne_eq_shortage (decoder : Decoder) {input : Input}
    (hrest : input.rest = []) :
    (decoder.decodeOne input).result = .error (input.shortage 1) ∧
      (decoder.decodeOne input).input = input := by
  obtain ⟨told, events, hrun⟩ := decoder.run_eq_work
    (decoder.instruction
      (fun inner => decoder.block input.remaining inner []) 0) input
  rw [decodeOne_input]
  rw [hrun, decoder.instruction_eq_shortage _ _ hrest]
  exact ⟨rfl, rfl⟩

/-- A block consists of the instructions that are decoded one by one up to the first
terminator, or up to the first error. -/
theorem exists_successively
    (decoder : Decoder) (budget : Nat) (earlier : List Instruction)
    (session : Session Input) (hbudget : session.input.remaining ≤ budget) :
    ∃ items middle, decoder.Successively session.input items middle ∧
      decoder.Stops middle ∧
      (decoder.block budget 0 earlier session).1 =
        (decoder.decodeOne middle).result.map (fun closing =>
          ⟨earlier.reverse ++ items, closing.type = .otherwise⟩) ∧
      (decoder.block budget 0 earlier session).2.input =
        (decoder.decodeOne middle).input := by
  induction budget generalizing earlier session with
  | zero =>
      have hrest : session.input.rest = [] :=
        List.eq_nil_of_length_eq_zero (Nat.le_zero.mp hbudget)
      obtain ⟨hresult, hinput⟩ := decoder.decodeOne_eq_shortage hrest
      refine ⟨[], session.input, .none _, stops_of_error hresult, ?_, ?_⟩
      · rw [hresult, decoder.block_eq_shortage _ _ _ hrest]
        rfl
      · rw [hinput, decoder.block_eq_shortage _ _ _ hrest]
  | succ budget ih =>
      obtain ⟨outcome, hagree, hresult, hinput⟩ := decoder.agree_decodeOne hbudget
      unfold block
      simp only [bind_apply]
      generalize decoder.instruction (fun inner => decoder.block budget inner []) 0
        session = first at hagree ⊢
      cases hagree with
      | excused hexcused => exact hexcused.elim
      | error hfailed =>
          obtain ⟨rfl, hsame⟩ := hfailed
          refine ⟨[], session.input, .none _, stops_of_error hresult, ?_, ?_⟩
          · rw [hresult]
            rfl
          · rw [hinput]
            exact hsame.symm
      | @ok item after last hsame hleft =>
          by_cases hterminator : item.isTerminator
          · refine ⟨[], session.input, .none _,
              stops_of_isTerminator hresult hterminator, ?_, ?_⟩
            · simp [hresult, hterminator, bind_apply, tell_apply, pure_apply,
                Except.map]
            · simp only [hterminator, if_true, bind_apply, tell_apply, pure_apply,
                told_input]
              rw [hinput]
              exact hsame.symm
          · obtain ⟨items, middle, hitems, hstops, hends⟩ :=
              ih (item :: earlier) after (by omega)
            have hmiddle : (decoder.decodeOne session.input).input = after.input :=
              hinput.trans hsame
            refine ⟨item :: items, middle, .next hresult hterminator ?_, hstops, ?_⟩
            · rw [hmiddle]
              exact hitems
            · simpa [hterminator] using hends

/-- Decoding a block is decoding its instructions one after the other. -/
structure Succession {σ : Type} [ViewedSource σ] (decoder : Decoder) (source : σ) : Prop where
  returned : ∀ items closedByElse after,
    (decoder.decodeBlock source).result = .ok ⟨items, closedByElse⟩ ∧
        (decoder.decodeBlock source).viewed.input = after ↔
      ∃ middle closing, decoder.Successively source items middle ∧
        (decoder.decodeOne middle).result = .ok closing ∧
        (decoder.decodeOne middle).viewed.input = after ∧
        closing.isTerminator ∧ (closedByElse ↔ closing.type = .otherwise)
  refused : ∀ error after,
    (decoder.decodeBlock source).result = .error error ∧
        (decoder.decodeBlock source).viewed.input = after ↔
      ∃ items middle, decoder.Successively source items middle ∧
        (decoder.decodeOne middle).result = .error error ∧
        (decoder.decodeOne middle).viewed.input = after

/-- A block ends where its instructions come to a stop. -/
theorem exists_stop {σ : Type} [ViewedSource σ] (decoder : Decoder) (source : σ) :
    ∃ items middle, decoder.Successively source items middle ∧ decoder.Stops middle ∧
      (decoder.decodeBlock source).result =
        (decoder.decodeOne middle).result.map (fun closing =>
          ⟨items, closing.type = .otherwise⟩) ∧
      (decoder.decodeBlock source).viewed.input = (decoder.decodeOne middle).viewed.input := by
  obtain ⟨told, events, hrun⟩ :=
    decoder.run_eq_work (decoder.block (toInput source).remaining 0 []) (toInput source)
  obtain ⟨items, last, hinputs, hstops, hresult, hinput⟩ :=
    decoder.exists_successively _ [] ⟨toInput source, told⟩ le_rfl
  obtain ⟨middle, hitems, rfl⟩ := hinputs.exists_of_toInput
  have hblock : decoder.decodeBlock (toInput source) = _ := hrun
  rw [hresult, hinput, List.reverse_nil, List.nil_append] at hblock
  refine ⟨items, middle, hitems, fun item hitem => hstops item ?_, ?_, ?_⟩
  · rwa [← decoder.result_decodeOne]
  · rw [decoder.result_decodeBlock, hblock, decoder.result_decodeOne middle]
  · rw [decoder.viewed_decodeBlock, hblock, decoder.viewed_decodeOne middle]

theorem succession {σ : Type} [ViewedSource σ] (decoder : Decoder) (source : σ) :
    decoder.Succession source := by
  obtain ⟨items, middle, hitems, hstops, hresult, hinput⟩ := decoder.exists_stop source
  constructor
  · intro others closedByElse after
    rw [hresult, hinput]
    constructor
    · rintro ⟨hcontent, rfl⟩
      cases hclosing : (decoder.decodeOne middle).result with
      | error error =>
          rw [hclosing] at hcontent
          cases hcontent
      | ok closing =>
          rw [hclosing] at hcontent
          cases hcontent
          exact ⟨middle, closing, hitems, hclosing, rfl, hstops closing hclosing,
            by simp⟩
    · rintro ⟨other, closing, hothers, hclosing, rfl, hterminator, hclosed⟩
      obtain ⟨rfl, rfl⟩ := hitems.unique hstops hothers
        (stops_of_isTerminator hclosing hterminator)
      rw [hclosing]
      simp [Except.map, ← hclosed]
  · intro error after
    rw [hresult, hinput]
    constructor
    · rintro ⟨herror, rfl⟩
      cases hclosing : (decoder.decodeOne middle).result with
      | error other =>
          rw [hclosing] at herror
          cases herror
          exact ⟨items, middle, hitems, hclosing, rfl⟩
      | ok closing =>
          rw [hclosing] at herror
          cases herror
    · rintro ⟨others, other, hothers, herror, rfl⟩
      obtain ⟨rfl, rfl⟩ := hitems.unique hstops hothers (stops_of_error herror)
      rw [herror]
      exact ⟨rfl, rfl⟩

/-! ## One level deeper -/

/-- Runs one level deeper, under a limit that is higher by one. -/
theorem covers_deeper {limit : Nat} (hlimit : decoder.depthLimit = limit + 1) :
    (Comparison.upTo (DecodeError.withLimit (limit + 1)) fun _ => False).Covers
      decoder { decoder with depthLimit := limit }
      fun level other => level = other + 1 := by
  refine Comparison.covers_upTo (fun _ => DecodeError.withLimit_eq_self) (.refl _)
    (congrArg (· + 1)) ?_ ?_
  · intro level other (hlevel : level = other + 1) hnests
    simp only
    omega
  · intro level other (hlevel : level = other + 1) hdeep
    refine .inr ⟨by simp only; omega, fun position => ?_⟩
    rw [hlimit]
    rfl

/-- Behind its opcode and its type, an instruction with one block is that block, decoded
one level deeper. -/
theorem decodeOne_eq_block
    (htable : decoder.table.Coherent) (hlimit : 0 < decoder.depthLimit)
    {entry : Entry} (hentry : entry ∈ decoder.table.entries)
    (hlayout : entry.layout = .inOrder [.blockType, .instructions])
    {type : BlockType} {head : List UInt8}
    (htype : Scalar .blockType head (.blockType type)) {input inner : Input}
    (hbytes : input.Consumed (entry.opcode.bytes ++ head) inner) :
    ∃ events,
      (decoder.decodeOne input).result =
        (decoder.block input.remaining 1 [] ⟨inner, events⟩).1.map (fun content =>
          ⟨entry.type, [.blockType type, .instructions content.instructions]⟩) ∧
      (decoder.decodeOne input).input =
        (decoder.block input.remaining 1 [] ⟨inner, events⟩).2.input := by
  obtain ⟨told, events, hrun⟩ := decoder.run_eq_work
    (decoder.instruction
      (fun inner => decoder.block input.remaining inner []) 0) input
  obtain ⟨middle, hopcode, hhead⟩ := hbytes.split
  have hreadEntry : Reader.entry decoder.table input = (.ok entry, middle) :=
    (Reader.recognizes_entry htable _ _ _).mpr ⟨_, ⟨hentry, rfl⟩, hopcode⟩
  have hreadType : Reader.blockType middle = (.ok type, inner) :=
    (Reader.recognizes_blockType _ _ _).mpr ⟨_, htype, hhead⟩
  refine ⟨told, ?_⟩
  rw [decodeOne_input, hrun]
  simp only [instruction, bind_apply, Decoding.read_apply, hreadEntry, hlayout,
    operands, List.mapM_cons, List.mapM_nil, field, hreadType, pure_apply,
    nestedBlock, if_pos hlimit, tell_apply]
  rcases decoder.block input.remaining 1 [] ⟨inner, told⟩ with ⟨result, session⟩
  cases result with
  | ok content => simp [Except.map]
  | error error => simp [Except.map]

/-- What surrounds a block adds nothing to how the block ends, except that an error
names another limit. -/
structure Surrounds (limit : Nat) (wrap : List Instruction → Instruction)
    (outer : Outcome Input Instruction) (inside : Outcome Input Block) : Prop where
  returned : ∀ body after,
    outer.result = .ok (wrap body) ∧ outer.input = after ↔
      ∃ closedByElse, inside.result = .ok ⟨body, closedByElse⟩ ∧
        inside.input = after
  refused : ∀ error after,
    outer.result = .error error ∧ outer.input = after ↔
      ∃ other, inside.result = .error other ∧ error = other.withLimit limit ∧
        inside.input = after

theorem Surrounds.of_result
    {limit : Nat} {wrap : List Instruction → Instruction}
    (hwrap : Function.Injective wrap) {outer : Outcome Input Instruction}
    {inside : Outcome Input Block}
    (hresult : outer.result = (inside.result.mapError (·.withLimit limit)).map
      fun content => wrap content.instructions)
    (hinput : outer.input = inside.input) : Surrounds limit wrap outer inside := by
  constructor
  · intro body after
    rw [hresult, hinput]
    cases inside.result with
    | ok content =>
        rcases content with ⟨items, closedByElse⟩
        simp [Except.map, Except.mapError, hwrap.eq_iff]
    | error error => simp [Except.map, Except.mapError]
  · intro error after
    rw [hresult, hinput]
    cases inside.result with
    | ok content => simp [Except.map, Except.mapError]
    | error other => simp [Except.map, Except.mapError, eq_comm]

theorem surrounds_decodeBlock
    (htable : decoder.table.Coherent) {limit : Nat}
    (hlimit : decoder.depthLimit = limit + 1) {entry : Entry}
    (hentry : entry ∈ decoder.table.entries)
    (hlayout : entry.layout = .inOrder [.blockType, .instructions])
    {type : BlockType} {head : List UInt8}
    (htype : Scalar .blockType head (.blockType type)) {input inner : Input}
    (hbytes : input.Consumed (entry.opcode.bytes ++ head) inner) :
    Surrounds (limit + 1)
      (fun body => ⟨entry.type, [.blockType type, .instructions body]⟩)
      (decoder.decodeOne input)
      (decodeBlock { decoder with depthLimit := limit } inner) := by
  let lower : Decoder := { decoder with depthLimit := limit }
  obtain ⟨told, hresult, hinput⟩ :=
    decodeOne_eq_block htable (by omega) hentry hlayout htype hbytes
  obtain ⟨toldAgain, events, hrun⟩ :=
    lower.run_eq_work (lower.block inner.remaining 0 []) inner
  have hinside : lower.decodeBlock inner = _ := hrun
  have hless : inner.remaining ≤ input.remaining := by
    have hremaining := hbytes.remaining
    omega
  have hrelates :
      (Comparison.upTo (DecodeError.withLimit (limit + 1)) fun _ => False).Relates 0
        inner.remaining (decoder.block input.remaining 1 [])
        (lower.block inner.remaining 0 []) :=
    (covers_deeper hlimit).block _ hless le_rfl rfl []
  obtain ⟨hsame, hinputs⟩ :=
    (hrelates _ le_rfl ⟨inner, told⟩ ⟨inner, toldAgain⟩ rfl le_rfl).upTo_eq
  rw [hsame] at hresult
  rw [hinputs] at hinput
  refine .of_result ?_ ?_ ?_
  · intro body other hbody
    simpa using hbody
  · rw [hresult]
    change _ = ((lower.decodeBlock inner).result.mapError _).map _
    rw [hinside]
  · rw [hinput]
    change _ = (lower.decodeBlock inner).input
    rw [hinside]

end Decoder

/-- Blocks are decoded like their instructions one by one, and inside a block or a loop
like by themselves under a limit that is lower by one. -/
theorem decoding_is_compositional
    {σ : Type} [ViewedSource σ]
    (decoder : Decoder) (htable : decoder.table.Accepted) (source : σ) :
    decoder.Succession source ∧
      ∀ limit, decoder.depthLimit = limit + 1 →
      ∀ entry ∈ decoder.table.entries, entry.type = .block ∨ entry.type = .loop →
      ∀ type head, Scalar .blockType head (.blockType type) →
      ∀ inner : σ, (toInput source).Consumed (entry.opcode.bytes ++ head) (toInput inner) →
        Decoder.Surrounds (limit + 1)
          (fun body => ⟨entry.type, [.blockType type, .instructions body]⟩)
          (decoder.decodeOne source).viewed
          (Decoder.decodeBlock { decoder with depthLimit := limit } inner).viewed := by
  have hcoherent := htable.wellFormed.toCoherent
  refine ⟨decoder.succession source, ?_⟩
  intro limit hlimit entry hentry htype type head hhead inner hbytes
  have hrequired :
      entry.type.requiredLayout? = some (.inOrder [.blockType, .instructions]) := by
    rcases htype with htype | htype <;> rw [htype] <;> rfl
  have hlayout := hcoherent.layout_eq_of_required hentry hrequired
  rw [Decoder.viewed_decodeOne, Decoder.viewed_decodeBlock]
  exact Decoder.surrounds_decodeBlock hcoherent hlimit hentry hlayout hhead hbytes

/-- A block that is decoded inside an instruction and by itself, a block that lies too
deep in another one, and a block that is decoded instruction by instruction. -/
theorem block_inside_and_alone :
    let decoder : Decoder := ⟨Table.sample, 1, false⟩
    Table.sample.Accepted ∧
      (decoder.decodeOne
        (StreamSource.ofBytes [0x02, 0x40, 0x41, 0x07, 0x0B, 0xAA])).result =
          .ok ⟨.block, [.blockType none, .instructions [⟨⟨61⟩, [.i32 7]⟩]]⟩ ∧
      (decoder.decodeOne
        (StreamSource.ofBytes [0x02, 0x40, 0x02, 0x40, 0x0B, 0x0B])).result =
          .error ⟨4, .nestingTooDeep 1⟩ ∧
      (decoder.decodeBlock (StreamSource.ofBytes [0x41, 0x07, 0x05])).result =
        .ok ⟨[⟨⟨61⟩, [.i32 7]⟩], true⟩ := by
  intro decoder
  let entry : Entry := ⟨.single 0x02, .block, .inOrder [.blockType, .instructions]⟩
  have hentry : entry ∈ Table.sample.entries := by simp [entry, Table.sample]
  have hcompositional (bytes : List UInt8) :=
    decoding_is_compositional decoder Table.accepted_sample (StreamSource.ofBytes bytes)
  -- the stream once the opcode and the type have been read
  let behind (body : List UInt8) : StreamSource := ⟨⟨body, false, false, 1⟩, 2⟩
  have hsurrounds (body : List UInt8) :=
    (hcompositional (0x02 :: 0x40 :: body)).2 0 rfl entry hentry (.inl rfl) none [0x40]
      .noResult (behind body) ⟨rfl, rfl, rfl⟩
  refine ⟨Table.accepted_sample, ?_, ?_, ?_⟩
  · have hinside : (Decoder.decodeBlock ⟨Table.sample, 0, false⟩
        (behind [0x41, 0x07, 0x0B, 0xAA])).result = .ok ⟨[⟨⟨61⟩, [.i32 7]⟩], false⟩ := by cbv
    exact (((hsurrounds [0x41, 0x07, 0x0B, 0xAA]).returned _ _).mpr ⟨false, hinside, rfl⟩).1
  · have hinside : (Decoder.decodeBlock ⟨Table.sample, 0, false⟩
        (behind [0x02, 0x40, 0x0B, 0x0B])).result = .error ⟨4, .nestingTooDeep 0⟩ := by cbv
    exact (((hsurrounds [0x02, 0x40, 0x0B, 0x0B]).refused _ _).mpr ⟨_, hinside, rfl, rfl⟩).1
  · have hfirst : (decoder.decodeOne (StreamSource.ofBytes [0x41, 0x07, 0x05])).result =
        .ok ⟨⟨61⟩, [.i32 7]⟩ := by cbv
    have hmiddle : (decoder.decodeOne (StreamSource.ofBytes [0x41, 0x07, 0x05])).input =
        behind [0x05] := by cbv
    have hlast : (decoder.decodeOne (behind [0x05])).result = .ok ⟨.otherwise, []⟩ := by cbv
    have hitems : decoder.Successively (StreamSource.ofBytes [0x41, 0x07, 0x05])
        [⟨⟨61⟩, [.i32 7]⟩] (behind [0x05]) := by
      refine .next hfirst (by decide) ?_
      rw [hmiddle]
      exact .none _
    exact (((hcompositional _).1.returned _ true _).mpr
      ⟨_, _, hitems, hlast, rfl, by decide, by decide⟩).1

end Disassembly
