import Disassembly.Proofs.Watching.Faithful

/-!
# Decoders that nobody watches

Without anyone who watches, a decoder tells nothing, and its outcome has no
events.  What it returns and where it leaves the input are the same with and
without a watcher.
-/

namespace Disassembly

namespace Comparison

/-- A run next to itself that has told nothing. -/
def untold : Comparison where
  running before other := other = before ∧ before.events = #[]
  failed _ after _ _ := after.events = #[]
  excuses _ := False

theorem reads_untold : untold.Reads where
  rest := by
    rintro before _ ⟨rfl, _⟩
    rfl
  advance := by
    rintro before _ ⟨rfl, huntold⟩ count _
    exact ⟨rfl, huntold⟩
  shortage := by
    rintro before _ ⟨rfl, huntold⟩ count _
    exact huntold
  blame := by
    rintro before _ ⟨rfl, huntold⟩ fault _ count _
    exact huntold

end Comparison

namespace Decoder

variable {α : Type} {decoder : Decoder} {input : Input}

theorem told_of_not_watched
    (hquiet : ¬ decoder.watched) (event : Event) (session : Session Input) :
    decoder.told event session = session :=
  if_neg hquiet

theorem covers_untold (hquiet : ¬ decoder.watched) :
    Comparison.untold.Covers decoder decoder Eq where
  toReads := Comparison.reads_untold
  entry bound := Comparison.reads_untold.entry bound (.refl decoder.table)
  tellInstruction := by
    rintro level _ before last rfl hrunning item
    rwa [told_of_not_watched hquiet, told_of_not_watched hquiet]
  tellBlock := by
    rintro level _ before last rfl hrunning content
    rwa [told_of_not_watched hquiet, told_of_not_watched hquiet]
  deeper := congrArg (· + 1)
  nests := by
    rintro level _ rfl hlevel
    exact hlevel
  tooDeep := by
    rintro level _ before last rfl ⟨_, huntold⟩ hdeep
    exact .inr ⟨hdeep, huntold⟩
  secondElse := by
    rintro budget level before other after last content _ _ _ _ ⟨_, huntold⟩
    exact huntold

theorem events_run_eq_nil
    {work : Decoding Input α} {least bound : Nat} (hquiet : ¬ decoder.watched)
    (hwork : Comparison.untold.Relates least bound work work)
    (hbound : input.remaining ≤ bound + least) :
    (decoder.run work input).events = [] := by
  have hreported :
      Comparison.untold.Relates least bound (decoder.reported work) (decoder.reported work) := by
    refine hwork.reported decoder decoder ?_ ?_
    · intro before last hrunning
      rwa [told_of_not_watched hquiet, told_of_not_watched hquiet]
    · intro error other after last huntold
      rwa [toldFailure, told_of_not_watched hquiet, ite_self]
  have hagree := hreported bound le_rfl ⟨input, #[]⟩ ⟨input, #[]⟩ ⟨rfl, rfl⟩ hbound
  unfold run
  generalize decoder.reported work ⟨input, #[]⟩ = outcome at hagree ⊢
  cases hagree with
  | ok hrunning _ => exact congrArg Array.toList hrunning.2
  | error huntold => exact congrArg Array.toList huntold
  | excused hexcused => exact hexcused.elim

theorem events_decodeOne (hquiet : ¬ decoder.watched) (input : Input) :
    (decoder.decodeOne input).events = [] := by
  have hcovers := covers_untold hquiet
  have hblocks := hcovers.relatesBlocks le_rfl (Nat.le_refl input.remaining)
  exact events_run_eq_nil hquiet (hcovers.instruction hblocks le_rfl rfl)
    (Nat.le_succ input.remaining)

theorem events_decodeBlock (hquiet : ¬ decoder.watched) (input : Input) :
    (decoder.decodeBlock input).events = [] := by
  have hblocks := (covers_untold hquiet).relatesBlocks le_rfl (Nat.le_refl input.remaining)
  exact events_run_eq_nil hquiet (hblocks 0 0 rfl) le_rfl

/-! ## With and without a watcher -/

theorem decodeOne_unwatched (table : Table) (limit : Nat) (input : Input) :
    ((Decoder.mk table limit false).decodeOne input).result =
        ((Decoder.mk table limit true).decodeOne input).result ∧
      ((Decoder.mk table limit false).decodeOne input).input =
        ((Decoder.mk table limit true).decodeOne input).input := by
  have hcovers := covers_watched table limit
  have hblocks := hcovers.relatesBlocks le_rfl (Nat.le_refl input.remaining)
  exact (hcovers.instruction hblocks le_rfl rfl).run_eq_of_not_excused
    (Nat.le_succ input.remaining) fun _ _ => id

theorem decodeBlock_unwatched (table : Table) (limit : Nat) (input : Input) :
    ((Decoder.mk table limit false).decodeBlock input).result =
        ((Decoder.mk table limit true).decodeBlock input).result ∧
      ((Decoder.mk table limit false).decodeBlock input).input =
        ((Decoder.mk table limit true).decodeBlock input).input := by
  have hblocks := (covers_watched table limit).relatesBlocks le_rfl (Nat.le_refl input.remaining)
  exact (hblocks 0 0 rfl).run_eq_of_not_excused le_rfl fun _ _ => id

end Decoder

end Disassembly
