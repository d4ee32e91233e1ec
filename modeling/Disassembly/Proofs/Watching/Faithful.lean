import Disassembly.Proofs.Nesting.Composition
import Disassembly.Proofs.Nesting.Height
import Disassembly.Proofs.Table.Describing
import Disassembly.Proofs.Watching.Account

/-!
# Faithful observation

Whether a decoder is watched makes no difference to what it returns and to where
it stops.  Whoever watches it is told where it starts, then of each instruction
and each block that is complete, and of a failure at the end.  If it succeeds,
the events in between are an account of what it returns.

Every part of a decoder adds events behind those that were told before.  They are
an account of its value once they are put together in the same way as the parts
themselves.  A part that fails has told only of levels within the limit.
-/

namespace Disassembly

open Decoding (read)

/-! ## Events of the parts -/

/-- An event between the start and a failure, at a level within the limit. -/
def Event.IsProgress (limit : Nat) : Event → Prop
  | .instruction level _ => level ≤ limit
  | .block level _ => level ≤ limit
  | _ => False

namespace Decoding

variable {α β : Type} {limit : Nat}

/-- Work adds events of progress, which account for its value if there is one. -/
def Tells (limit : Nat) (work : Decoding Input α) (account : α → List Event → Prop) : Prop :=
  ∀ before, ∃ events,
    (work before).2.events.toList = before.events.toList ++ events ∧
    (∀ event ∈ events, event.IsProgress limit) ∧
    ∀ value, (work before).1 = .ok value → account value events

variable {work : Decoding Input α} {account other : α → List Event → Prop}

theorem Tells.mono (hwork : Tells limit work account)
    (himp : ∀ value events, account value events → other value events) :
    Tells limit work other := by
  intro before
  obtain ⟨events, htold, hprogress, haccount⟩ := hwork before
  exact ⟨events, htold, hprogress, fun value hvalue => himp _ _ (haccount value hvalue)⟩

theorem tells_read {reader : Reader Input α} {form : List UInt8 → α → Prop}
    (hreader : reader.Recognizes form) :
    Tells limit (read reader) fun value events => events = [] ∧ ∃ bytes, form bytes value := by
  intro before
  refine ⟨[], (List.append_nil _).symm, by simp, fun value hvalue => ⟨rfl, ?_⟩⟩
  obtain ⟨bytes, hform, _⟩ :=
    (hreader before.input value (reader before.input).2).mp (Prod.ext hvalue rfl)
  exact ⟨bytes, hform⟩

theorem tells_silently (reader : Reader Input α) :
    Tells limit (read reader) fun _ events => events = [] := by
  intro before
  exact ⟨[], (List.append_nil _).symm, by simp, fun _ _ => rfl⟩

theorem tells_pure (value : α) :
    Tells limit (pure value) fun result events => result = value ∧ events = [] := by
  intro before
  refine ⟨[], (List.append_nil _).symm, by simp, fun result hresult => ?_⟩
  cases hresult
  exact ⟨rfl, rfl⟩

theorem tells_failHere (fault : DecodeFault) :
    Tells limit (read (Reader.failHere fault)) account := by
  intro before
  refine ⟨[], (List.append_nil _).symm, by simp, fun value hvalue => ?_⟩
  cases hvalue

theorem Tells.bind {next : α → Decoding Input β} {more : α → β → List Event → Prop}
    (hwork : Tells limit work account)
    (hnext : ∀ value first, account value first → Tells limit (next value) (more value)) :
    Tells limit (work >>= next) fun result events =>
      ∃ value first second, account value first ∧ more value result second ∧
        events = first ++ second := by
  intro before
  obtain ⟨first, hfirst, hprogress, haccount⟩ := hwork before
  rw [bind_apply]
  cases hvalue : (work before).1 with
  | error error =>
      simp only []
      exact ⟨first, hfirst, hprogress, fun _ hresult => by cases hresult⟩
  | ok value =>
      have hvalue := haccount value hvalue
      obtain ⟨second, hsecond, hmore, hrest⟩ := hnext value first hvalue (work before).2
      refine ⟨first ++ second, ?_, ?_, fun result hresult => ?_⟩
      · rw [hsecond, hfirst, List.append_assoc]
      · exact List.forall_mem_append.mpr ⟨hprogress, hmore⟩
      · exact ⟨value, first, second, hvalue, hrest result hresult, rfl⟩

theorem Tells.map (hwork : Tells limit work account) (f : α → β) :
    Tells limit (work >>= fun value => pure (f value)) fun result events =>
      ∃ value, account value events ∧ result = f value := by
  refine (hwork.bind fun value _ _ => tells_pure (f value)).mono ?_
  intro result events haccount
  obtain ⟨value, first, second, hfirst, ⟨hresult, rfl⟩, rfl⟩ := haccount
  exact ⟨value, by rwa [List.append_nil], hresult⟩

theorem tells_tell_pure {decoder : Decoder} (hwatched : decoder.watched) {event : Event}
    (hevent : event.IsProgress limit) (value : α) :
    Tells limit (decoder.tell event >>= fun _ => pure value) fun result events =>
      result = value ∧ events = [event] := by
  intro before
  rw [bind_apply, decoder.tell_apply]
  refine ⟨[event], ?_, by simpa using hevent, fun result hresult => ?_⟩
  · simp [Decoder.told, hwatched, pure_apply]
  · cases hresult
    exact ⟨rfl, rfl⟩

end Decoding

/-! ## Operands -/

namespace Decoder

open Decoding (Tells tells_read tells_silently tells_pure tells_failHere tells_tell_pure)

variable {decoder : Decoder} {block : Nat → Decoding Input Block} {level : Nat}

/-- Blocks tell what belongs to them at every level within the limit. -/
def TellsBlocks (decoder : Decoder) (block : Nat → Decoding Input Block) : Prop :=
  ∀ level ≤ decoder.depthLimit, Tells decoder.depthLimit (block level)
    fun content events => Accounts level (.block content) events

/-- The events of a field: those of the block that it holds. -/
def FieldAccount (level : Nat) (field : Field) (value : Operand) (events : List Event) : Prop :=
  (field = .instructions ∧ ∃ content : Block, value = .instructions content.instructions ∧
    Accounts (level + 1) (.block content) events) ∨
  (field ≠ .instructions ∧ (∀ body, value ≠ .instructions body) ∧ events = [])

theorem TellsBlocks.nestedBlock (hblock : decoder.TellsBlocks block) (level : Nat) :
    Tells decoder.depthLimit (decoder.nestedBlock block level) fun content events =>
      level + 1 ≤ decoder.depthLimit ∧ Accounts (level + 1) (.block content) events := by
  unfold Decoder.nestedBlock
  split
  next hlevel =>
    exact (hblock (level + 1) hlevel).mono fun _ _ hcontent => ⟨hlevel, hcontent⟩
  next => exact tells_failHere _

theorem TellsBlocks.secondArm
    (hblock : decoder.TellsBlocks block) (hlevel : level + 1 ≤ decoder.depthLimit)
    (first : Block) :
    Tells decoder.depthLimit (secondArm block level first) fun second events =>
      if first.closedByElse then Accounts (level + 1) (.block ⟨second, false⟩) events
      else second = [] ∧ events = [] := by
  unfold Decoder.secondArm
  cases first.closedByElse with
  | false => exact tells_pure []
  | true =>
      have hclosed (second : Block) : Tells decoder.depthLimit
          (if second.closedByElse then read (Reader.failHere .secondElse)
            else return second.instructions)
          fun body events => second = ⟨body, false⟩ ∧ events = [] := by
        rcases second with ⟨items, closedByElse⟩
        cases closedByElse with
        | true => exact tells_failHere _
        | false =>
            refine (tells_pure items).mono ?_
            rintro body events ⟨rfl, rfl⟩
            exact ⟨rfl, rfl⟩
      refine ((hblock (level + 1) hlevel).bind fun second _ _ => hclosed second).mono ?_
      intro body events haccount
      obtain ⟨second, arm, rest, harm, ⟨rfl, rfl⟩, rfl⟩ := haccount
      simpa using harm

theorem tells_scalar
    {α : Type} {field : Field} (hfield : field ≠ .instructions) (reader : Reader Input α)
    {wrap : α → Operand} (hwrap : ∀ value body, wrap value ≠ .instructions body)
    (limit level : Nat) :
    Tells limit (do return wrap (← read reader)) (FieldAccount level field) := by
  refine ((tells_silently reader).map wrap).mono ?_
  rintro _ events ⟨value, rfl, rfl⟩
  exact .inr ⟨hfield, hwrap value, rfl⟩

theorem TellsBlocks.field
    (hblock : decoder.TellsBlocks block) (level : Nat) (field : Field) :
    Tells decoder.depthLimit (decoder.field block level field)
      (FieldAccount level field) := by
  cases field with
  | instructions =>
      refine ((hblock.nestedBlock level).map _).mono ?_
      rintro _ events ⟨content, ⟨_, hcontent⟩, rfl⟩
      exact .inl ⟨rfl, content, rfl, hcontent⟩
  | u32 => exact tells_scalar (by simp) _ (by simp) _ _
  | i32 => exact tells_scalar (by simp) _ (by simp) _ _
  | i64 => exact tells_scalar (by simp) _ (by simp) _ _
  | f32 => exact tells_scalar (by simp) _ (by simp) _ _
  | f64 => exact tells_scalar (by simp) _ (by simp) _ _
  | index space => exact tells_scalar (by simp) _ (by simp) _ _
  | blockType => exact tells_scalar (by simp) _ (by simp) _ _
  | referenceType => exact tells_scalar (by simp) _ (by simp) _ _
  | valueTypes => exact tells_scalar (by simp) _ (by simp) _ _
  | unknown kind => exact tells_failHere _

theorem TellsBlocks.fields
    (hblock : decoder.TellsBlocks block) (level : Nat) (fields : List Field) :
    Tells decoder.depthLimit (fields.mapM (decoder.field block level))
      fun values events => Accounts level (.operands values) events ∧
        (.instructions ∉ fields → events = []) := by
  induction fields with
  | nil =>
      rw [List.mapM_nil]
      refine (tells_pure []).mono ?_
      rintro _ _ ⟨rfl, rfl⟩
      exact ⟨.noOperands, fun _ => rfl⟩
  | cons field fields ih =>
      rw [List.mapM_cons]
      refine ((hblock.field level field).bind fun value _ _ => ih.map (value :: ·)).mono ?_
      intro _ events haccount
      obtain ⟨value, first, second, hvalue, hmore, rfl⟩ := haccount
      obtain ⟨values, ⟨hvalues, hflat⟩, rfl⟩ := hmore
      rcases hvalue with ⟨rfl, content, rfl, hcontent⟩ | ⟨hfield, hscalar, rfl⟩
      · exact ⟨.nested hcontent hvalues, by simp⟩
      · refine ⟨.scalar hscalar hvalues, fun hnone => ?_⟩
        rw [List.mem_cons, not_or] at hnone
        exact hflat hnone.2

/-- The events of a conditional are those of its first arm, and those of its second one if
the first one was closed by `else`. -/
theorem TellsBlocks.conditional (hblock : decoder.TellsBlocks block) (level : Nat) :
    Tells decoder.depthLimit (decoder.operands block level (.special .conditional))
      fun values events => Accounts level (.instruction ⟨.conditional, values⟩)
        (events ++ [.instruction level ⟨.conditional, values⟩]) := by
  refine ((tells_silently Reader.blockType).bind fun type _ _ =>
    (hblock.nestedBlock level).bind fun first _ hfirst =>
      (hblock.secondArm hfirst.1 first).map _).mono ?_
  intro _ events haccount
  obtain ⟨type, _, arms, rfl, harms, rfl⟩ := haccount
  obtain ⟨⟨first, closedByElse⟩, arm, other, ⟨_, hfirst⟩, hother, rfl⟩ := harms
  obtain ⟨second, hsecond, rfl⟩ := hother
  cases closedByElse with
  | false =>
      obtain ⟨rfl, rfl⟩ := hsecond
      rw [List.append_nil]
      exact .oneArm rfl hfirst
  | true => exact .twoArms rfl hfirst hsecond

theorem TellsBlocks.operands
    (hblock : decoder.TellsBlocks block) (htable : decoder.table.Coherent)
    (hflat : decoder.table.TerminatorsFlat) (level : Nat) {entry : Entry}
    (hentry : entry ∈ decoder.table.entries) :
    Tells decoder.depthLimit (decoder.operands block level entry.layout)
      fun values events =>
        Accounts level (.instruction ⟨entry.type, values⟩)
          (events ++ [.instruction level ⟨entry.type, values⟩]) ∧
        (entry.type.isTerminator → events = []) := by
  have hbound := Entry.misfit?_eq_none_iff_bound.mp (htable.suited entry hentry)
  have hfields := hflat entry hentry
  cases hlayout : entry.layout with
  | inOrder fields =>
      have htype : entry.type ≠ .conditional := by
        intro htype
        rw [hbound.conditional.mpr htype] at hlayout
        cases hlayout
      rw [hlayout] at hfields
      refine (hblock.fields level fields).mono ?_
      rintro values events ⟨hvalues, hnone⟩
      exact ⟨.instruction htype hvalues, fun hterminator => hnone (hfields hterminator)⟩
  | special directive =>
      cases directive with
      | conditional =>
          have htype := hbound.conditional.mp hlayout
          rw [htype]
          refine (hblock.conditional level).mono ?_
          rintro values events hvalues
          exact ⟨hvalues, fun hterminator => by cases hterminator⟩
      | branchTable =>
          have htype := hbound.branchTable.mp hlayout
          rw [htype]
          refine ((tells_silently Reader.branchLabels).map _).mono ?_
          rintro _ events ⟨targets, rfl, rfl⟩
          have hother : InstructionType.branchTable ≠ .conditional := by decide
          exact ⟨.instruction hother (.scalar (by simp) .noOperands), fun _ => rfl⟩
  | unknown rule => exact tells_failHere _

/-! ## Instructions and blocks -/

theorem TellsBlocks.instruction
    (hwatched : decoder.watched) (hblock : decoder.TellsBlocks block)
    (htable : decoder.table.Coherent) (hflat : decoder.table.TerminatorsFlat)
    (hlevel : level ≤ decoder.depthLimit) :
    Tells decoder.depthLimit (decoder.instruction block level) fun item events =>
      Accounts level (.instruction item) events ∧
        (item.isTerminator → events = [.instruction level item]) := by
  have hprogress (item : Instruction) :
      (Event.instruction level item).IsProgress decoder.depthLimit := hlevel
  have htell (item : Instruction) := tells_tell_pure hwatched (hprogress item) item
  refine ((tells_read (Reader.recognizes_entry htable)).bind
    fun entry _ ⟨_, _, hentry, _⟩ =>
      (hblock.operands htable hflat level hentry).bind fun values _ _ =>
        htell ⟨entry.type, values⟩).mono ?_
  intro _ told haccount
  obtain ⟨entry, _, _, ⟨rfl, _⟩, hrest, rfl⟩ := haccount
  obtain ⟨values, events, _, ⟨hitem, hnone⟩, ⟨rfl, rfl⟩, rfl⟩ := hrest
  refine ⟨hitem, fun hterminator => ?_⟩
  rw [hnone hterminator]
  rfl

/-- The events of a block behind some earlier instructions of it, up to its own event. -/
def Closes (level : Nat) (earlier : List Instruction) (content : Block)
    (events : List Event) : Prop :=
  ∃ items closing before, closing.isTerminator ∧
    content = ⟨earlier.reverse ++ items, closing.type = .otherwise⟩ ∧
    Accounts level (.sequence items) before ∧
    events = before ++ [.instruction level closing, .block level content]

theorem Closes.accounts {content : Block} {events : List Event}
    (haccount : Closes level [] content events) :
    Accounts level (.block content) events := by
  obtain ⟨items, closing, before, hterminator, hcontent, hitems, rfl⟩ := haccount
  exact .block hcontent hterminator hitems

theorem Closes.close
    {earlier : List Instruction} {closing : Instruction} (hterminator : closing.isTerminator) :
    Closes level earlier ⟨earlier.reverse, closing.type = .otherwise⟩
      ([.instruction level closing] ++
        [.block level ⟨earlier.reverse, closing.type = .otherwise⟩]) :=
  ⟨[], closing, [], hterminator, by rw [List.append_nil], .noItems, rfl⟩

theorem Closes.next
    {earlier : List Instruction} {item : Instruction} {content : Block}
    {first second : List Event} (hinner : ¬ item.isTerminator)
    (hitem : Accounts level (.instruction item) first)
    (haccount : Closes level (item :: earlier) content second) :
    Closes level earlier content (first ++ second) := by
  obtain ⟨items, closing, before, hterminator, hcontent, hitems, rfl⟩ := haccount
  refine ⟨item :: items, closing, first ++ before, hterminator, ?_,
    .nextItem hinner hitem hitems, by rw [List.append_assoc]⟩
  rw [hcontent, List.reverse_cons, List.append_assoc, List.singleton_append]

theorem tells_block
    (hwatched : decoder.watched) (htable : decoder.table.Coherent)
    (hflat : decoder.table.TerminatorsFlat) (budget : Nat)
    (hlevel : level ≤ decoder.depthLimit) (earlier : List Instruction) :
    Tells decoder.depthLimit (decoder.block budget level earlier)
      (Closes level earlier) := by
  induction budget generalizing level earlier with
  | zero => exact tells_failHere _
  | succ budget ih =>
      have hblocks : decoder.TellsBlocks fun inner => decoder.block budget inner [] :=
        fun inner hinner => (ih hinner []).mono fun _ _ => Closes.accounts
      -- what comes behind an instruction: the event of the block, or the rest of it
      have hrest (item : Instruction) :
          Tells decoder.depthLimit
            (if item.isTerminator then do
              let content : Block := ⟨earlier.reverse, item.type = .otherwise⟩
              decoder.tell (.block level content)
              return content
            else decoder.block budget level (item :: earlier))
            fun content events =>
              if item.isTerminator then
                content = ⟨earlier.reverse, item.type = .otherwise⟩ ∧
                  events = [.block level ⟨earlier.reverse, item.type = .otherwise⟩]
              else Closes level (item :: earlier) content events := by
        split
        next =>
          let content : Block := ⟨earlier.reverse, item.type = .otherwise⟩
          have hprogress : (Event.block level content).IsProgress decoder.depthLimit := hlevel
          exact tells_tell_pure hwatched hprogress content
        next => exact ih hlevel (item :: earlier)
      refine ((hblocks.instruction hwatched htable hflat hlevel).bind
        fun item _ _ => hrest item).mono ?_
      intro content events haccount
      obtain ⟨item, first, second, ⟨hitem, hclosing⟩, hmore, rfl⟩ := haccount
      split at hmore
      next hterminator =>
        obtain ⟨rfl, rfl⟩ := hmore
        rw [hclosing hterminator]
        exact .close hterminator
      next hinner => exact .next hinner hitem hmore

end Decoder

/-! ## Whole runs -/

/-- What is told of a result that is a failure. -/
def Event.ofFailure {α : Type} : Except DecodeError α → List Event
  | .ok _ => []
  | .error error => [.failed error]

/-- An outcome that was watched, compared to the one that nobody watched. -/
structure FaithfullyTold {α : Type} (limit start : Nat) (account : α → List Event → Prop)
    (quiet watched : Outcome Input α) : Prop where
  result : watched.result = quiet.result
  input : watched.input = quiet.input
  events : ∃ progress,
    watched.events = .started start :: progress ++ Event.ofFailure watched.result ∧
    (∀ event ∈ progress, event.IsProgress limit) ∧
    ∀ value, watched.result = .ok value → account value progress

namespace Decoder

open Decoding (Tells)

variable {α : Type} {table : Table} {limit : Nat} {input : Input}

theorem covers_watched (table : Table) (limit : Nat) :
    Comparison.identical.Covers ⟨table, limit, true⟩ ⟨table, limit, false⟩ Eq := by
  refine Comparison.covers_upTo (fun _ _ => rfl) (.refl _) (congrArg (· + 1)) ?_ ?_
  · rintro level _ rfl hlevel
    exact hlevel
  · rintro level _ rfl hlevel
    exact .inr ⟨hlevel, fun _ => rfl⟩

/-- Events of progress stand between the start and a failure. -/
theorem run_events
    {decoder : Decoder} (hwatched : decoder.watched) {work : Decoding Input α}
    {account : α → List Event → Prop} (hwork : Tells limit work account) {input : Input}
    (hblamed : ∀ error, (decoder.run work input).result = .error error →
      ¬ error.fault.isInternal) :
    ∃ progress,
      (decoder.run work input).events =
        .started input.position :: progress ++
          Event.ofFailure (decoder.run work input).result ∧
      (∀ event ∈ progress, event.IsProgress limit) ∧
      ∀ value, (decoder.run work input).result = .ok value → account value progress := by
  obtain ⟨progress, htold, hprogress, haccount⟩ :=
    hwork (decoder.told (.started input.position) ⟨input, #[]⟩)
  refine ⟨progress, ?_⟩
  unfold run at hblamed ⊢
  rw [decoder.reported_apply] at hblamed ⊢
  have hstart : (decoder.told (.started input.position) ⟨input, #[]⟩).events.toList =
      [.started input.position] := by
    simp [told, hwatched]
  rw [hstart] at htold
  generalize work (decoder.told (.started input.position) ⟨input, #[]⟩) = outcome
    at htold haccount hblamed ⊢
  rcases outcome with ⟨result, after⟩
  cases result with
  | ok value =>
      refine ⟨?_, hprogress, haccount⟩
      rw [Event.ofFailure, List.append_nil]
      exact htold
  | error error =>
      refine ⟨?_, hprogress, haccount⟩
      have hlast : (decoder.toldFailure error after).events.toList =
          after.events.toList ++ [.failed error] := by
        simp [toldFailure, hblamed error rfl, told, hwatched]
      exact hlast.trans (congrArg (· ++ [.failed error]) htold)

theorem faithfullyTold_run
    {work again : Decoding Input α} {least bound : Nat} {account : α → List Event → Prop}
    (hsame : Comparison.identical.Relates least bound work again)
    (hbound : input.remaining ≤ bound + least) (hwork : Tells limit work account)
    (hblamed : ∀ error, ((Decoder.mk table limit true).run work input).result = .error error →
      ¬ error.fault.isInternal) :
    FaithfullyTold limit input.position account
      ((Decoder.mk table limit false).run again input)
      ((Decoder.mk table limit true).run work input) := by
  obtain ⟨hresult, hinput⟩ := hsame.run_eq_of_not_excused hbound fun _ _ => id
  exact ⟨hresult.symm, hinput.symm, run_events rfl hwork hblamed⟩

end Decoder

/-- The events of a decoded block: an account of it, which lists the instructions of the
tree and tells of blocks behind their terminators. -/
structure BlockAccount (content : Block) (events : List Event) : Prop where
  accounts : Accounts 0 (.block content) events
  instructions : events.filterMap Event.inner? = Instruction.postOrderAll 0 content.instructions
  blocks : Event.BlocksFollow events

theorem Accounts.blockAccount {content : Block} {events : List Event}
    (haccount : Accounts 0 (.block content) events) : BlockAccount content events :=
  ⟨haccount, haccount.filterMap_inner?, haccount.blocksFollow⟩

/-- Watching a decoder changes nothing, and whoever watches is told the start, then each
instruction and each block as it is completed, and a failure at the end. -/
theorem watching_is_faithful
    {σ : Type} [ViewedSource σ]
    (table : Table) (htable : table.Accepted) (hflat : table.TerminatorsFlat)
    (limit : Nat) (source : σ) :
    FaithfullyTold limit (ByteSource.position source)
      (fun item => Accounts 0 (.instruction item))
      ((Decoder.mk table limit false).decodeOne source).viewed
      ((Decoder.mk table limit true).decodeOne source).viewed ∧
    FaithfullyTold limit (ByteSource.position source) BlockAccount
      ((Decoder.mk table limit false).decodeBlock source).viewed
      ((Decoder.mk table limit true).decodeBlock source).viewed := by
  simp only [ViewedSource.position_eq, Decoder.viewed_decodeOne, Decoder.viewed_decodeBlock]
  generalize ViewedSource.toInput source = input
  have hcoherent := htable.wellFormed.toCoherent
  have hcovers := Decoder.covers_watched table limit
  let watched : Decoder := ⟨table, limit, true⟩
  have hblocks : watched.TellsBlocks fun inner => watched.block input.remaining inner [] :=
    fun inner hinner => (Decoder.tells_block rfl hcoherent hflat _ hinner []).mono
      fun _ _ => Decoder.Closes.accounts
  constructor
  · have hitem := hblocks.instruction rfl hcoherent hflat (Nat.zero_le limit)
    exact Decoder.faithfullyTold_run
      (hcovers.instruction (hcovers.relatesBlocks le_rfl le_rfl) le_rfl rfl)
      (Nat.le_succ input.remaining) (hitem.mono fun _ _ haccount => haccount.1)
      fun _ herror => (Decoder.decodeOne_eq_error hcoherent herror).not_internal
  · have hcontent := hblocks 0 (Nat.zero_le limit)
    exact Decoder.faithfullyTold_run (hcovers.block input.remaining le_rfl le_rfl rfl []) le_rfl
      (hcontent.mono fun _ _ => Accounts.blockAccount)
      fun _ herror => (Decoder.decodeBlock_eq_error hcoherent herror).not_internal

/-- A block that holds a conditional with two arms, the first of which is empty. -/
theorem told_arms :
    let source : StreamSource := .ofBytes [0x04, 0x40, 0x05, 0x41, 0x7F, 0x0B, 0x0B]
    Table.sample.Accepted ∧ Table.sample.TerminatorsFlat ∧
      (FaithfullyTold 1 0 BlockAccount
        ((Decoder.mk Table.sample 1 false).decodeBlock source).viewed
        ((Decoder.mk Table.sample 1 true).decodeBlock source).viewed) ∧
      ((Decoder.mk Table.sample 1 true).decodeBlock source).events =
        [.started 0,
          .instruction 1 ⟨.otherwise, []⟩, .block 1 ⟨[], true⟩,
          .instruction 1 ⟨⟨61⟩, [.i32 (-1)]⟩,
          .instruction 1 ⟨.blockEnd, []⟩, .block 1 ⟨[⟨⟨61⟩, [.i32 (-1)]⟩], false⟩,
          .instruction 0 ⟨.conditional, [.blockType none, .instructions [],
            .instructions [⟨⟨61⟩, [.i32 (-1)]⟩]]⟩,
          .instruction 0 ⟨.blockEnd, []⟩,
          .block 0 ⟨[⟨.conditional, [.blockType none, .instructions [],
            .instructions [⟨⟨61⟩, [.i32 (-1)]⟩]]⟩], false⟩] := by
  intro source
  have hflat : Table.sample.TerminatorsFlat := by
    unfold Table.TerminatorsFlat
    decide
  refine ⟨Table.accepted_sample, hflat, ?_, by cbv⟩
  exact (watching_is_faithful Table.sample Table.accepted_sample hflat 1 source).2

end Disassembly
