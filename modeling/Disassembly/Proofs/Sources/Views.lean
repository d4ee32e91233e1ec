import Disassembly.Bytes.Buffer
import Disassembly.Bytes.Stream
import Disassembly.Proofs.Sources.Following

/-!
# The inputs that sources amount to

An iterator amounts to an input that keeps its bytes.  A source over a stream amounts to
an input that drains them, where the bytes that are left are those that the stream still
hands out: a stream that has failed hands out nothing any more.

What is decoded from a source that amounts to inputs is what is decoded from the input at
its place.  Whatever is shown of inputs therefore holds of buffers and of streams alike.
-/

namespace Disassembly

/-! ## Iterators -/

namespace BufferIterator

/-- The input that an iterator amounts to. -/
def toInput (iterator : BufferIterator) : Input :=
  ⟨.keeps, iterator.offset, iterator.bytes.toList.drop iterator.offset⟩

/-- An iterator belongs to the input that it amounts to. -/
def AmountsTo (iterator : BufferIterator) (input : Input) : Prop :=
  iterator.toInput = input

variable (iterator : BufferIterator) {count : Nat}

theorem length_rest : iterator.toInput.rest.length = iterator.remaining := by
  simp [toInput, remaining]

theorem hasNext_iff : iterator.hasNext count ↔ count ≤ iterator.toInput.rest.length := by
  rw [length_rest, hasNext, decide_eq_true_iff]

theorem toInput_advance (hnext : iterator.hasNext count) :
    toInput { iterator with
        offset := iterator.offset + count, inside := next_inside hnext } =
      iterator.toInput.advance count := by
  have hcount : count ≤ iterator.toInput.rest.length := iterator.hasNext_iff.mp hnext
  rw [Input.advance, min_eq_left hcount]
  simp [toInput, List.drop_drop]

theorem toInput_rest_eq_cons (hnext : iterator.hasNext 1) :
    iterator.toInput.rest =
      iterator.current hnext :: iterator.bytes.toList.drop (iterator.offset + 1) := by
  have hinside : iterator.offset < iterator.bytes.toList.length := next_inside hnext
  rw [toInput, List.drop_eq_getElem_cons hinside]
  rfl

theorem toInput_rest_eq_nil (hnext : ¬ iterator.hasNext 1) : iterator.toInput.rest = [] := by
  rw [hasNext_iff, Nat.not_le, Nat.lt_one_iff] at hnext
  exact List.length_eq_zero_iff.mp hnext

theorem nextByte_follows : Follows AmountsTo nextByte Reader.nextByte := by
  rintro iterator _ rfl
  unfold nextByte
  split
  next hnext =>
    rw [Reader.nextByte_cons (iterator.toInput_rest_eq_cons hnext)]
    exact ⟨rfl, rfl⟩
  next hnext =>
    rw [Reader.nextByte_nil (iterator.toInput_rest_eq_nil hnext)]
    exact ⟨rfl, rfl⟩

theorem extract_eq_take (count : Nat) :
    (iterator.bytes.extract iterator.offset (iterator.offset + count)).toList =
      iterator.toInput.rest.take count := by
  rw [Array.toList_extract, List.extract_eq_take_drop, Nat.add_sub_cancel_left]
  rfl

theorem nextBytes_follows (count : Nat) :
    Follows AmountsTo (nextBytes count) (Reader.nextBytes count) := by
  rintro iterator _ rfl
  rw [Reader.nextBytes_input]
  unfold nextBytes
  split
  next hnext =>
    rw [if_pos (iterator.hasNext_iff.mp hnext), extract_eq_take]
    exact ⟨rfl, iterator.toInput_advance hnext⟩
  next hnext =>
    rw [if_neg (iterator.hasNext_iff.not.mp hnext)]
    exact ⟨rfl, rfl⟩

/-- An iterator does what its input does. -/
theorem tracks : Tracks AmountsTo where
  position := by
    rintro iterator _ rfl
    rfl
  remaining := by
    rintro iterator _ rfl
    exact iterator.length_rest.symm
  nextByte := nextByte_follows
  nextBytes := nextBytes_follows

/-- What a reader finds at an input it also finds at an iterator. -/
theorem exists_read_eq
    {α : Type} {reader : Reader BufferIterator α} {model : Reader Input α}
    (hreader : Follows AmountsTo reader model) {iterator : BufferIterator}
    {result : Except DecodeError α} {after : Input}
    (hread : model iterator.toInput = (result, after)) :
    ∃ last, reader iterator = (result, last) ∧ last.toInput = after := by
  obtain ⟨hresult, hafter⟩ := hreader (show AmountsTo iterator _ from rfl)
  rw [hread] at hresult hafter
  exact ⟨_, Prod.ext hresult rfl, hafter⟩

/-- What is run on iterators agrees with what is run on the inputs that they amount to. -/
def Agree {α : Type} (iterate : BufferIterator → Outcome BufferIterator α)
    (decode : Input → Outcome Input α) : Prop :=
  ∀ iterator, (iterate iterator).Agrees AmountsTo (decode iterator.toInput)

theorem agree_decodeOne (decoder : Decoder) : Agree decoder.decodeOne decoder.decodeOne :=
  fun _ => tracks.decodeOne decoder rfl

theorem agree_decodeBlock (decoder : Decoder) :
    Agree decoder.decodeBlock decoder.decodeBlock :=
  fun _ => tracks.decodeBlock decoder rfl

end BufferIterator

namespace Buffer

variable {buffer : Buffer} {offset : Nat}

/-- An iterator of a buffer amounts to the bytes from its offset on. -/
theorem toInput_of_iterator
    {found : BufferIterator} (hfound : buffer.iterator offset = .ok found) :
    offset ≤ buffer.size ∧ found.toInput = ⟨.keeps, offset, buffer.bytes.drop offset⟩ := by
  unfold iterator at hfound
  split at hfound
  next hinside =>
    cases hfound
    exact ⟨hinside, rfl⟩
  next => cases hfound

theorem exists_iterator (buffer : Buffer) {offset : Nat} (hinside : offset ≤ buffer.size) :
    ∃ found, buffer.iterator offset = .ok found ∧
      found.toInput = ⟨.keeps, offset, buffer.bytes.drop offset⟩ :=
  ⟨_, dif_pos hinside, rfl⟩

/-- A run from an offset of a buffer on is a run on the bytes from there on. -/
theorem exists_iterate_iff
    {α : Type} {iterate : BufferIterator → Outcome BufferIterator α}
    {decode : Input → Outcome Input α} (hagree : BufferIterator.Agree iterate decode)
    {result : Except DecodeError α} {stop : Nat} :
    (∃ found, buffer.iterator offset = .ok found ∧
      (iterate found).result = result ∧ (iterate found).input.position = stop) ↔
      offset ≤ buffer.size ∧
        (decode ⟨.keeps, offset, buffer.bytes.drop offset⟩).result = result ∧
        (decode ⟨.keeps, offset, buffer.bytes.drop offset⟩).input.position = stop := by
  have hposition (found : BufferIterator) :
      (iterate found).input.position = (decode found.toInput).input.position :=
    congrArg Input.position (hagree found).input
  simp only [(hagree _).result, hposition]
  constructor
  · rintro ⟨found, hfound, hresult, hstop⟩
    obtain ⟨hinside, hinput⟩ := toInput_of_iterator hfound
    rw [hinput] at hresult hstop
    exact ⟨hinside, hresult, hstop⟩
  · rintro ⟨hinside, hresult, hstop⟩
    obtain ⟨found, hfound, hinput⟩ := buffer.exists_iterator hinside
    rw [← hinput] at hresult hstop
    exact ⟨found, hfound, hresult, hstop⟩

end Buffer

/-! ## Streams -/

namespace InputStream

variable {stream : InputStream}

theorem ahead_of_spent (hleft : stream.left = []) : stream.ahead = [] := by
  rw [ahead, hleft, ite_self]

theorem ahead_of_bad (hbad : ¬ stream.isGood) : stream.ahead = [] :=
  if_neg hbad

theorem get_of_ahead_nil (hahead : stream.ahead = []) :
    ∃ after, stream.get = (none, after) ∧ after.ahead = [] := by
  unfold get
  split
  next hgood =>
    have hleft : stream.left = [] := by rwa [ahead, if_pos hgood] at hahead
    simp only [hleft]
    exact ⟨_, rfl, ahead_of_spent rfl⟩
  next => exact ⟨_, rfl, ahead_of_bad (by simp [isGood])⟩

theorem get_of_ahead_cons
    {byte : UInt8} {rest : List UInt8} (hahead : stream.ahead = byte :: rest) :
    ∃ after, stream.get = (some byte, after) ∧ after.ahead = rest := by
  have hgood : stream.isGood := by
    by_contra hbad
    rw [ahead_of_bad hbad] at hahead
    cases hahead
  have hleft : stream.left = byte :: rest := by rwa [ahead, if_pos hgood] at hahead
  unfold get
  simp only [hgood, hleft, if_true]
  exact ⟨_, rfl, if_pos hgood⟩

/-- A request for several bytes gets those that there are.  If they are too few, none is
left. -/
theorem read_spec (stream : InputStream) (count : Nat) :
    ∃ after, stream.read count = (stream.ahead.take count, after) ∧
      after.ahead = stream.ahead.drop count ∧
      after.lastCount = (stream.ahead.take count).length := by
  unfold read
  by_cases hgood : stream.isGood
  · have hahead : stream.ahead = stream.left := if_pos hgood
    rw [if_pos hgood, hahead]
    refine ⟨_, rfl, ?_, rfl⟩
    by_cases henough : count ≤ stream.left.length
    · have hwhole : (stream.left.take count).length = count := List.length_take_of_le henough
      simp [ahead, isGood, hwhole]
    · have hnone : stream.left.drop count = [] := List.drop_of_length_le (by omega)
      exact (ahead_of_spent hnone).trans hnone.symm
  · rw [if_neg hgood, ahead_of_bad hgood, List.take_nil, List.drop_nil]
    exact ⟨_, rfl, ahead_of_bad (by simp [isGood]), rfl⟩

end InputStream

namespace StreamSource

/-- The input that a source over a stream amounts to. -/
def toInput (source : StreamSource) : Input :=
  ⟨.drains, source.consumed, source.stream.ahead⟩

/-- A source over a stream belongs to the input that it amounts to. -/
def AmountsTo (source : StreamSource) (input : Input) : Prop :=
  source.toInput = input

theorem toInput_ofBytes (bytes : List UInt8) : (ofBytes bytes).toInput = ⟨.drains, 0, bytes⟩ :=
  rfl

theorem nextByte_follows : Follows AmountsTo nextByte Reader.nextByte := by
  rintro source _ rfl
  unfold nextByte
  cases hahead : source.stream.ahead with
  | nil =>
      obtain ⟨after, hget, hafter⟩ := InputStream.get_of_ahead_nil hahead
      have hrest : source.toInput.rest = [] := hahead
      rw [hget, Reader.nextByte_nil hrest]
      refine ⟨rfl, ?_⟩
      simp only [AmountsTo, toInput, hahead, hafter]
  | cons byte rest =>
      obtain ⟨after, hget, hafter⟩ := InputStream.get_of_ahead_cons hahead
      have hrest : source.toInput.rest = byte :: rest := hahead
      rw [hget, Reader.nextByte_cons hrest]
      refine ⟨rfl, ?_⟩
      simp only [AmountsTo, toInput, hafter]

theorem nextBytes_follows (count : Nat) :
    Follows AmountsTo (nextBytes count) (Reader.nextBytes count) := by
  rintro source _ rfl
  obtain ⟨after, hread, hafter, hcount⟩ := source.stream.read_spec count
  have hdrained : toInput ⟨after, source.consumed + after.lastCount⟩ =
      source.toInput.advance count := by
    simp only [toInput, Input.advance, hafter, hcount, List.length_take]
  rw [Reader.nextBytes_input]
  unfold nextBytes
  simp only [hread]
  by_cases henough : count ≤ source.stream.ahead.length
  · have htaken : ¬ after.lastCount < count := by
      rw [hcount, List.length_take]
      omega
    rw [if_neg htaken, if_pos (show count ≤ source.toInput.rest.length from henough)]
    exact ⟨rfl, hdrained⟩
  · have hshort : after.lastCount < count := by
      rw [hcount, List.length_take]
      omega
    rw [if_pos hshort, if_neg (show ¬ count ≤ source.toInput.rest.length from henough)]
    exact ⟨rfl, hdrained⟩

/-- A source over a stream does what its input does. -/
theorem tracks : Tracks AmountsTo where
  position := by
    rintro source _ rfl
    rfl
  remaining := by
    rintro source _ rfl
    rfl
  nextByte := nextByte_follows
  nextBytes := nextBytes_follows

end StreamSource

/-! ## Any of the sources -/

/-- A source that at each place amounts to an input. -/
class ViewedSource (σ : Type) extends ByteSource σ where
  toInput : σ → Input
  tracks : Tracks fun (source : σ) input => toInput source = input

instance : ViewedSource BufferIterator where
  toInput := BufferIterator.toInput
  tracks := BufferIterator.tracks

instance : ViewedSource StreamSource where
  toInput := StreamSource.toInput
  tracks := StreamSource.tracks

/-- An input amounts to itself. -/
instance : ViewedSource Input where
  toInput := id
  tracks := by
    constructor
    · rintro input _ rfl
      rfl
    · rintro input _ rfl
      rfl
    · rintro input _ rfl
      exact ⟨rfl, rfl⟩
    · rintro count input _ rfl
      exact ⟨rfl, rfl⟩

section Sources

open ViewedSource (toInput)

variable {σ α : Type} [ViewedSource σ]

theorem ViewedSource.position_eq (source : σ) :
    ByteSource.position source = (toInput source).position :=
  ViewedSource.tracks.position rfl

theorem ViewedSource.remaining_eq (source : σ) :
    ByteSource.remaining source = (toInput source).remaining :=
  ViewedSource.tracks.remaining rfl

/-- What a reader returns, and the input that it leaves the source at. -/
def Reader.viewed (reader : Reader σ α) (source : σ) : Except DecodeError α × Input :=
  ((reader source).1, toInput (reader source).2)

/-- An outcome with the input that it leaves the source at. -/
def Outcome.viewed (outcome : Outcome σ α) : Outcome Input α :=
  ⟨outcome.result, toInput outcome.input, outcome.events⟩

theorem Follows.viewed_eq {reader : Reader σ α} {model : Reader Input α}
    (hreader : Follows (fun (source : σ) input => toInput source = input) reader model)
    (source : σ) : reader.viewed source = model (toInput source) := by
  obtain ⟨hresult, hafter⟩ := hreader (rfl : toInput source = toInput source)
  exact Prod.ext hresult hafter

theorem Outcome.Agrees.viewed_eq {outcome : Outcome σ α} {model : Outcome Input α}
    (hagrees : outcome.Agrees (fun (source : σ) input => toInput source = input) model) :
    outcome.viewed = model := by
  obtain ⟨result, input, events⟩ := model
  obtain ⟨hresult, hinput, hevents⟩ := hagrees
  exact congr (congr (congrArg Outcome.mk hresult) hinput) hevents

namespace Decoder

variable (decoder : Decoder) (source : σ)

/-- Decoding from a source is decoding from the input that it amounts to. -/
theorem viewed_decodeOne :
    (decoder.decodeOne source).viewed = decoder.decodeOne (toInput source) :=
  (ViewedSource.tracks.decodeOne decoder rfl).viewed_eq

theorem viewed_decodeBlock :
    (decoder.decodeBlock source).viewed = decoder.decodeBlock (toInput source) :=
  (ViewedSource.tracks.decodeBlock decoder rfl).viewed_eq

theorem result_decodeOne :
    (decoder.decodeOne source).result = (decoder.decodeOne (toInput source)).result :=
  congrArg Outcome.result (decoder.viewed_decodeOne source)

theorem result_decodeBlock :
    (decoder.decodeBlock source).result = (decoder.decodeBlock (toInput source)).result :=
  congrArg Outcome.result (decoder.viewed_decodeBlock source)

theorem position_decodeOne :
    ByteSource.position (decoder.decodeOne source).input =
      (decoder.decodeOne (toInput source)).input.position := by
  rw [ViewedSource.position_eq, ← decoder.viewed_decodeOne]
  rfl

theorem position_decodeBlock :
    ByteSource.position (decoder.decodeBlock source).input =
      (decoder.decodeBlock (toInput source)).input.position := by
  rw [ViewedSource.position_eq, ← decoder.viewed_decodeBlock]
  rfl

end Decoder

end Sources

end Disassembly
