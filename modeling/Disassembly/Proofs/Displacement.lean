import Disassembly.Proofs.Comparison.Blocks

/-!
# Decoding behind other bytes

The bytes in front of an input show in its position and nowhere else.  A decoder
only passes positions on, into errors and into what it tells.  If an input is
displaced by a distance, the decoder therefore takes the same steps, and every
position that comes out of it is displaced by this distance.
-/

namespace Disassembly

open Decoding (read)

/-! ## Displaced by a distance -/

def Input.displaced (distance : Nat) (input : Input) : Input :=
  { input with position := input.position + distance }

def DecodeError.displaced (distance : Nat) (error : DecodeError) : DecodeError :=
  { error with position := error.position + distance }

def Event.displaced (distance : Nat) : Event → Event
  | .started position => .started (position + distance)
  | .instruction level item => .instruction level item
  | .block level content => .block level content
  | .failed error => .failed (error.displaced distance)

def Session.displaced (distance : Nat) (session : Session Input) : Session Input :=
  ⟨session.input.displaced distance, session.events.map (Event.displaced distance)⟩

def Outcome.displaced {α : Type} (distance : Nat) (outcome : Outcome Input α) : Outcome Input α :=
  ⟨outcome.result.mapError (DecodeError.displaced distance),
    outcome.input.displaced distance,
    outcome.events.map (Event.displaced distance)⟩

section Steps

variable (distance : Nat)

theorem Input.displaced_advance (input : Input) (count : Nat) :
    (input.displaced distance).advance count =
      (input.advance count).displaced distance := by
  simp only [Input.displaced, Input.advance, Nat.add_right_comm]

theorem Input.displaced_afterShortage (input : Input) (count : Nat) :
    (input.displaced distance).afterShortage count =
      (input.afterShortage count).displaced distance := by
  have hadvance := displaced_advance distance input count
  rcases input with ⟨shortRead, position, rest⟩
  cases shortRead with
  | keeps => rfl
  | drains => exact hadvance

theorem Decoder.told_displaced
    (decoder : Decoder) (event : Event) (session : Session Input) :
    decoder.told (event.displaced distance) (session.displaced distance) =
      (decoder.told event session).displaced distance := by
  unfold Decoder.told
  cases decoder.watched with
  | false => rfl
  | true => simp [Session.displaced]

theorem Decoder.toldFailure_displaced
    (decoder : Decoder) (error : DecodeError) (session : Session Input) :
    decoder.toldFailure (error.displaced distance) (session.displaced distance) =
      (decoder.toldFailure error session).displaced distance := by
  have htold := decoder.told_displaced distance (.failed error) session
  unfold Decoder.toldFailure
  rw [apply_ite (Session.displaced distance), ← htold]
  rfl

end Steps

/-! ## Side by side -/

namespace Comparison

/-- The second run is the first one, displaced by a distance. -/
def displacing (distance : Nat) : Comparison where
  running before other := other = before.displaced distance
  failed error after other last :=
    other = error.displaced distance ∧ last = after.displaced distance
  excuses _ := False

variable (distance : Nat)

theorem reads_displacing : (displacing distance).Reads where
  rest := by
    intro before other hother
    subst hother
    rfl
  advance := by
    intro before other hother count _
    subst hother
    exact congrArg (Session.mk · _) (Input.displaced_advance distance _ count)
  shortage := by
    intro before other hother count _
    subst hother
    exact ⟨rfl, congrArg (Session.mk · _)
      (Input.displaced_afterShortage distance _ count)⟩
  blame := by
    intro before other hother fault _ count _
    subst hother
    exact ⟨rfl, congrArg (Session.mk · _) (Input.displaced_advance distance _ count)⟩

theorem covers_displacing (decoder : Decoder) :
    (displacing distance).Covers decoder decoder Eq where
  toReads := reads_displacing distance
  entry bound := (reads_displacing distance).entry bound (.refl decoder.table)
  tellInstruction := by
    intro level other before last hlevel hlast item
    subst hlevel hlast
    exact decoder.told_displaced distance (.instruction level item) before
  tellBlock := by
    intro level other before last hlevel hlast content
    subst hlevel hlast
    exact decoder.told_displaced distance (.block level content) before
  deeper := congrArg (· + 1)
  nests := by
    intro level other hlevel hless
    rwa [← hlevel]
  tooDeep := by
    intro level other before last hlevel hlast hdeep
    subst hlevel hlast
    exact .inr ⟨hdeep, rfl, rfl⟩
  secondElse := by
    intro budget level before other after last content _ _ _ _ hlast
    subst hlast
    exact ⟨rfl, rfl⟩

theorem Relates.displaced_reported
    {α : Type} {least bound : Nat} {work again : Decoding Input α}
    (hwork : (displacing distance).Relates least bound work again)
    (decoder : Decoder) :
    (displacing distance).Relates least bound (decoder.reported work)
      (decoder.reported again) := by
  apply hwork.reported decoder decoder
  · intro before last hlast
    subst hlast
    exact decoder.told_displaced distance (.started before.input.position) before
  · intro error other after last hfailed
    rw [hfailed.1, hfailed.2]
    exact ⟨rfl, decoder.toldFailure_displaced distance error after⟩

/-- Runs of related work on an input and on the same input displaced. -/
theorem Relates.run_displaced
    {α : Type} {least bound : Nat} {work again : Decoding Input α} {input : Input}
    (hwork : (displacing distance).Relates least bound work again)
    (hbound : input.remaining ≤ bound + least) (decoder : Decoder) :
    decoder.run again (input.displaced distance) =
      (decoder.run work input).displaced distance := by
  have hstart : (displacing distance).running ⟨input, #[]⟩
      ⟨input.displaced distance, #[]⟩ := by
    simp [displacing, Session.displaced]
  have hagree := hwork.displaced_reported distance decoder bound le_rfl _ _ hstart hbound
  unfold Decoder.run
  generalize decoder.reported work ⟨input, #[]⟩ = outcome at hagree ⊢
  generalize decoder.reported again ⟨input.displaced distance, #[]⟩ = outcomeAgain
    at hagree ⊢
  cases hagree with
  | ok hlast _ =>
      subst hlast
      simp [Outcome.displaced, Session.displaced, Except.mapError]
  | error hfailed =>
      rw [hfailed.1, hfailed.2]
      simp [Outcome.displaced, Session.displaced, Except.mapError]
  | excused hexcused => exact hexcused.elim

end Comparison

namespace Decoder

variable (decoder : Decoder) (distance : Nat) (input : Input)

theorem decodeOne_displaced :
    decoder.decodeOne (input.displaced distance) =
      (decoder.decodeOne input).displaced distance := by
  have hcovers := Comparison.covers_displacing distance decoder
  have hblocks := hcovers.relatesBlocks le_rfl (Nat.le_refl input.remaining)
  exact (hcovers.instruction hblocks le_rfl rfl).run_displaced distance
    (Nat.le_succ input.remaining) decoder

theorem decodeBlock_displaced :
    decoder.decodeBlock (input.displaced distance) =
      (decoder.decodeBlock input).displaced distance := by
  have hcovers := Comparison.covers_displacing distance decoder
  have hblocks := hcovers.relatesBlocks le_rfl (Nat.le_refl input.remaining)
  exact (hblocks 0 0 rfl).run_displaced distance le_rfl decoder

end Decoder

/-! ## Outcomes -/

/-- An outcome behind `distance` other bytes, next to the outcome without them. -/
structure Outcome.StandsBehind {α : Type} (distance : Nat)
    (alone behind : Outcome BufferIterator α) : Prop where
  returned : ∀ value, behind.result = .ok value ↔ alone.result = .ok value
  refused : ∀ error, alone.result = .error error →
    ∃ other, behind.result = .error other ∧ other.fault = error.fault ∧
      other.message = error.message ∧ other.position = error.position + distance
  reached : behind.input.position = alone.input.position + distance
  told : behind.events = alone.events.map (Event.displaced distance)

/-- What displaces its outcome with its input does so on the iterators of a buffer. -/
theorem BufferIterator.Agree.standsBehind
    {α : Type} {iterate : BufferIterator → Outcome BufferIterator α}
    {decode : Input → Outcome Input α} (hagree : BufferIterator.Agree iterate decode)
    {distance : Nat} (hdisplaced : ∀ input, decode (input.displaced distance) =
      (decode input).displaced distance) {alone behind : BufferIterator}
    (hbehind : behind.toInput = alone.toInput.displaced distance) :
    Outcome.StandsBehind distance (iterate alone) (iterate behind) := by
  have halone := hagree alone
  have hmoved := hagree behind
  rw [hbehind, hdisplaced] at hmoved
  have hresult : (iterate behind).result =
      (iterate alone).result.mapError (DecodeError.displaced distance) := by
    rw [hmoved.result, halone.result]
    rfl
  constructor
  · intro value
    rw [hresult]
    cases (iterate alone).result <;> simp [Except.mapError]
  · intro error herror
    rw [herror] at hresult
    exact ⟨error.displaced distance, hresult, rfl, rfl, rfl⟩
  · calc (iterate behind).input.position
        = (decode alone.toInput).input.position + distance :=
          congrArg Input.position hmoved.input
      _ = (iterate alone).input.position + distance :=
          congrArg (Input.position · + distance) halone.input.symm
  · rw [hmoved.events, halone.events]
    rfl

/-- Decoding from the end of some bytes on is decoding what follows them by itself, with
every position moved by their number. -/
theorem decoding_is_relative_to_its_start
    (decoder : Decoder) (front bytes : List UInt8) :
    ∃ alone behind, Buffer.iterator ⟨bytes⟩ 0 = .ok alone ∧
      Buffer.iterator ⟨front ++ bytes⟩ front.length = .ok behind ∧
      Outcome.StandsBehind front.length (decoder.decodeOne alone)
        (decoder.decodeOne behind) ∧
      Outcome.StandsBehind front.length (decoder.decodeBlock alone)
        (decoder.decodeBlock behind) := by
  obtain ⟨alone, halone, hinput⟩ :=
    Buffer.exists_iterator ⟨bytes⟩ (Nat.zero_le _)
  have hinside : front.length ≤ Buffer.size ⟨front ++ bytes⟩ := by simp [Buffer.size]
  obtain ⟨behind, hbehind, hmoved⟩ := Buffer.exists_iterator _ hinside
  have hdisplaced : behind.toInput = alone.toInput.displaced front.length := by
    simp [hinput, hmoved, Input.displaced]
  exact ⟨alone, behind, halone, hbehind,
    (BufferIterator.agree_decodeOne decoder).standsBehind
      (decoder.decodeOne_displaced _) hdisplaced,
    (BufferIterator.agree_decodeBlock decoder).standsBehind
      (decoder.decodeBlock_displaced _) hdisplaced⟩

end Disassembly
