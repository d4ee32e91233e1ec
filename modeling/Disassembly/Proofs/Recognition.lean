import Disassembly.Proofs.Sources.Input
import Mathlib

/-!
# Recognition of byte forms

A form relates stretches of bytes to the values that they stand for.  A
computation recognizes a form if it succeeds exactly on the inputs that start
with a stretch of the form, returns the value of that stretch, and leaves the
input right behind it.  Both directions are kept in one statement, so that a
computation put together from others recognizes the form put together from
theirs.

Readers work on an input alone.  A decoder's work also collects events, which
have no influence on what is recognized, and it may be limited to inputs of a
bounded length.
-/

namespace Disassembly

/-! ## State and failure -/

section Computation

variable {σ ε α β : Type}

@[simp] theorem outcome_eq_iff
    {first second : Except ε α} {state other : σ} :
    @Eq (Id (Except ε α × σ)) (first, state) (second, other) ↔
      first = second ∧ state = other :=
  Prod.ext_iff

theorem bind_apply
    (work : ExceptT ε (StateM σ) α) (next : α → ExceptT ε (StateM σ) β)
    (before : σ) :
    (work >>= next) before =
      match (work before).1 with
      | .ok value => next value (work before).2
      | .error fault => (Except.error fault, (work before).2) := by
  change ExceptT.bindCont next (work before).1 (work before).2 = _
  cases (work before).1 <;> rfl

theorem tryCatch_apply
    (work : ExceptT ε (StateM σ) α) (handler : ε → ExceptT ε (StateM σ) α)
    (before : σ) :
    tryCatch work handler before =
      match (work before).1 with
      | .ok value => (Except.ok value, (work before).2)
      | .error fault => handler fault (work before).2 := by
  change (match (work before).1 with
    | .ok value => pure (Except.ok value)
    | .error fault => handler fault : StateM σ (Except ε α)) (work before).2 = _
  cases (work before).1 <;> rfl

theorem bind_eq_ok_iff
    {work : ExceptT ε (StateM σ) α} {next : α → ExceptT ε (StateM σ) β}
    {before after : σ} {result : β} :
    (work >>= next) before = (.ok result, after) ↔
      ∃ value middle, work before = (.ok value, middle) ∧
        next value middle = (.ok result, after) := by
  rw [bind_apply]
  rcases work before with ⟨outcome, middle⟩
  cases outcome <;> simp

theorem bind_eq_error_iff
    {work : ExceptT ε (StateM σ) α} {next : α → ExceptT ε (StateM σ) β}
    {before after : σ} {fault : ε} :
    (work >>= next) before = (.error fault, after) ↔
      work before = (.error fault, after) ∨
        ∃ value middle, work before = (.ok value, middle) ∧
          next value middle = (.error fault, after) := by
  rw [bind_apply]
  rcases work before with ⟨outcome, middle⟩
  cases outcome <;> simp

theorem pure_apply (value : α) (state : σ) :
    (pure value : ExceptT ε (StateM σ) α) state = (.ok value, state) :=
  rfl

end Computation

/-! ## Consumed bytes -/

/-- One input is what another one leaves after a stretch of bytes. -/
structure Input.Consumed
    (before : Input) (bytes : List UInt8) (after : Input) : Prop where
  rest : before.rest = bytes ++ after.rest
  position : after.position = before.position + bytes.length
  shortRead : after.shortRead = before.shortRead

namespace Input

theorem Consumed.nil (input : Input) : input.Consumed [] input :=
  ⟨rfl, rfl, rfl⟩

theorem consumed_nil_iff {before after : Input} :
    before.Consumed [] after ↔ after = before := by
  constructor
  · rintro ⟨hrest, hposition, hshort⟩
    cases before
    cases after
    simp_all
  · rintro rfl
    exact Consumed.nil _

theorem Consumed.append
    {before middle after : Input} {first second : List UInt8}
    (hfirst : before.Consumed first middle)
    (hsecond : middle.Consumed second after) :
    before.Consumed (first ++ second) after := by
  constructor
  · rw [hfirst.rest, hsecond.rest, List.append_assoc]
  · rw [hsecond.position, hfirst.position, List.length_append]
    omega
  · exact hsecond.shortRead.trans hfirst.shortRead

theorem Consumed.split
    {before after : Input} {first second : List UInt8}
    (hboth : before.Consumed (first ++ second) after) :
    ∃ middle, before.Consumed first middle ∧
      middle.Consumed second after := by
  refine ⟨⟨before.shortRead, before.position + first.length,
    second ++ after.rest⟩, ⟨?_, rfl, rfl⟩, ⟨rfl, ?_, hboth.shortRead⟩⟩
  · rw [hboth.rest, List.append_assoc]
  · rw [hboth.position, List.length_append]
    simp only
    omega

theorem Consumed.remaining
    {before after : Input} {bytes : List UInt8}
    (hbytes : before.Consumed bytes after) :
    before.remaining = bytes.length + after.remaining := by
  unfold Input.remaining
  rw [hbytes.rest, List.length_append]

theorem Consumed.position_le
    {before after : Input} {bytes : List UInt8}
    (hbytes : before.Consumed bytes after) : before.position ≤ after.position := by
  rw [hbytes.position]
  exact Nat.le_add_right _ _

theorem Consumed.unique
    {before after other : Input} {bytes : List UInt8}
    (hafter : before.Consumed bytes after)
    (hother : before.Consumed bytes other) :
    after = other := by
  have hrest : after.rest = other.rest :=
    List.append_cancel_left (hafter.rest.symm.trans hother.rest)
  have hposition : after.position = other.position :=
    hafter.position.trans hother.position.symm
  have hshort : after.shortRead = other.shortRead :=
    hafter.shortRead.trans hother.shortRead.symm
  cases after
  cases other
  simp_all

theorem consumed_of_rest
    {before : Input} {bytes rest : List UInt8}
    (hrest : before.rest = bytes ++ rest) :
    before.Consumed bytes
      ⟨before.shortRead, before.position + bytes.length, rest⟩ :=
  ⟨hrest, rfl, rfl⟩

theorem consumed_advance (input : Input) (count : Nat) :
    input.Consumed (input.rest.take count) (input.advance count) := by
  refine ⟨(List.take_append_drop count input.rest).symm, ?_, rfl⟩
  simp only [advance, List.length_take]

end Input

/-! ## Readers -/

namespace Reader

variable {α β : Type}

/-- A reader succeeds exactly on the stretches of a form. -/
def Recognizes (reader : Reader Input α) (form : List UInt8 → α → Prop) : Prop :=
  ∀ input value after, reader input = (.ok value, after) ↔
    ∃ bytes, form bytes value ∧ input.Consumed bytes after

theorem Recognizes.congr
    {reader : Reader Input α} {form other : List UInt8 → α → Prop}
    (hreader : reader.Recognizes form)
    (hforms : ∀ bytes value, form bytes value ↔ other bytes value) :
    reader.Recognizes other := by
  intro input value after
  rw [hreader]
  simp only [hforms]

theorem recognizes_pure (value : α) :
    Recognizes (pure value) fun bytes result => bytes = [] ∧ result = value := by
  intro input result after
  rw [pure_apply]
  constructor
  · rintro ⟨⟩
    exact ⟨[], ⟨rfl, rfl⟩, Input.Consumed.nil input⟩
  · rintro ⟨bytes, ⟨rfl, rfl⟩, hbytes⟩
    rw [Input.consumed_nil_iff.mp hbytes]

theorem Recognizes.bind
    {reader : Reader Input α} {next : α → Reader Input β}
    {form : List UInt8 → α → Prop} {more : α → List UInt8 → β → Prop}
    (hreader : reader.Recognizes form)
    (hnext : ∀ value, (next value).Recognizes (more value)) :
    Recognizes (reader >>= next) fun bytes result =>
      ∃ value first second, form first value ∧
        more value second result ∧ bytes = first ++ second := by
  intro input result after
  rw [bind_eq_ok_iff]
  constructor
  · rintro ⟨value, middle, hvalue, hresult⟩
    obtain ⟨first, hfirst, hconsumed⟩ := (hreader _ _ _).mp hvalue
    obtain ⟨second, hsecond, hmore⟩ := (hnext value _ _ _).mp hresult
    exact ⟨first ++ second, ⟨value, first, second, hfirst, hsecond, rfl⟩,
      hconsumed.append hmore⟩
  · rintro ⟨bytes, ⟨value, first, second, hfirst, hsecond, rfl⟩, hboth⟩
    obtain ⟨middle, hconsumed, hmore⟩ := hboth.split
    exact ⟨value, middle, (hreader _ _ _).mpr ⟨first, hfirst, hconsumed⟩,
      (hnext value _ _ _).mpr ⟨second, hsecond, hmore⟩⟩

theorem Recognizes.map
    {reader : Reader Input α} {form : List UInt8 → α → Prop} (f : α → β)
    (hreader : reader.Recognizes form) :
    Recognizes (reader >>= fun value => pure (f value)) fun bytes result =>
      ∃ value, form bytes value ∧ result = f value := by
  refine (hreader.bind fun value => recognizes_pure (f value)).congr ?_
  intro bytes result
  constructor
  · rintro ⟨value, first, second, hfirst, ⟨rfl, hresult⟩, rfl⟩
    exact ⟨value, by simpa using hfirst, hresult⟩
  · rintro ⟨value, hvalue, hresult⟩
    exact ⟨value, bytes, [], hvalue, ⟨rfl, hresult⟩, by simp⟩

theorem recognizes_nextByte :
    nextByte.Recognizes fun bytes byte => bytes = [byte] := by
  intro input byte after
  constructor
  · intro hread
    cases hrest : input.rest with
    | nil =>
        rw [nextByte_nil hrest] at hread
        cases hread
    | cons head tail =>
        rw [nextByte_cons hrest] at hread
        cases hread
        exact ⟨[byte], rfl, hrest, rfl, rfl⟩
  · rintro ⟨bytes, rfl, hbytes⟩
    rw [nextByte_cons hbytes.rest]
    have hafter := (Input.consumed_of_rest hbytes.rest).unique hbytes
    rw [← hafter]
    rfl

theorem recognizes_lookup
    (found? : Option α) {reader : Reader Input α}
    (hsome : ∀ value, found? = some value → reader = pure value)
    (hnone : found? = none → ∀ input, ∃ error, reader input = (.error error, input)) :
    reader.Recognizes fun bytes value => bytes = [] ∧ found? = some value := by
  cases hfound : found? with
  | none =>
      intro input value after
      obtain ⟨error, herror⟩ := hnone hfound input
      rw [herror]
      constructor
      · intro hread
        cases hread
      · rintro ⟨bytes, ⟨_, hvalue⟩, _⟩
        cases hvalue
  | some found =>
      rw [hsome found hfound]
      simp only [Option.some.injEq, eq_comm (a := found)]
      exact recognizes_pure found

theorem Recognizes.repeated
    {reader : Reader Input α} {form : List UInt8 → α → Prop}
    (hreader : reader.Recognizes form) (count : Nat) :
    (repeated reader count).Recognizes fun bytes values =>
      values.length = count ∧
        ∃ pieces, List.Forall₂ form pieces values ∧ bytes = pieces.flatten := by
  induction count with
  | zero =>
      refine (recognizes_pure []).congr ?_
      intro bytes values
      constructor
      · rintro ⟨rfl, rfl⟩
        exact ⟨rfl, [], .nil, rfl⟩
      · rintro ⟨hlength, pieces, hpieces, rfl⟩
        obtain rfl := List.eq_nil_of_length_eq_zero hlength
        cases hpieces
        exact ⟨rfl, rfl⟩
  | succ count ih =>
      refine (hreader.bind fun first => ih.map (first :: ·)).congr ?_
      intro bytes values
      constructor
      · rintro ⟨first, head, tail, hfirst,
          ⟨more, ⟨hlength, pieces, hpieces, rfl⟩, rfl⟩, rfl⟩
        exact ⟨by simp [hlength], head :: pieces, .cons hfirst hpieces, rfl⟩
      · rintro ⟨hlength, pieces, hpieces, rfl⟩
        cases hpieces with
        | nil => simp at hlength
        | cons hfirst hmore =>
            exact ⟨_, _, _, hfirst,
              ⟨_, ⟨by simpa using hlength, _, hmore, rfl⟩, rfl⟩, rfl⟩

end Reader

/-! ## Decoding -/

namespace Decoding

variable {α β : Type}

/-- A decoder's work succeeds exactly on the stretches of a form, among the
inputs with at most `bound` bytes left. -/
def Recognizes (bound : Nat) (work : Decoding Input α)
    (form : List UInt8 → α → Prop) : Prop :=
  ∀ session : Session Input, session.input.remaining ≤ bound → ∀ value after,
    (∃ events, work session = (.ok value, ⟨after, events⟩)) ↔
      ∃ bytes, form bytes value ∧ session.input.Consumed bytes after

theorem Recognizes.congr_within
    {bound : Nat} {work : Decoding Input α} {form other : List UInt8 → α → Prop}
    (hwork : Recognizes bound work form)
    (hforms : ∀ bytes value, bytes.length ≤ bound →
      (form bytes value ↔ other bytes value)) :
    Recognizes bound work other := by
  intro session hbound value after
  rw [hwork session hbound]
  apply exists_congr
  intro bytes
  apply and_congr_left
  intro hconsumed
  have hremaining := hconsumed.remaining
  exact hforms bytes value (by omega)

theorem Recognizes.congr
    {bound : Nat} {work : Decoding Input α} {form other : List UInt8 → α → Prop}
    (hwork : Recognizes bound work form)
    (hforms : ∀ bytes value, form bytes value ↔ other bytes value) :
    Recognizes bound work other :=
  hwork.congr_within fun bytes value _ => hforms bytes value

theorem recognizes_read
    {reader : Reader Input α} {form : List UInt8 → α → Prop}
    (hreader : reader.Recognizes form) (bound : Nat) :
    Recognizes bound (read reader) form := by
  intro session _ value after
  rw [← hreader]
  unfold read
  rcases reader session.input with ⟨result, input⟩
  simp

theorem recognizes_pure (bound : Nat) (value : α) :
    Recognizes bound (pure value) fun bytes result =>
      bytes = [] ∧ result = value := by
  intro session _ result after
  simp only [pure_apply, outcome_eq_iff]
  constructor
  · rintro ⟨events, hresult, hsession⟩
    cases hresult
    exact ⟨[], ⟨rfl, rfl⟩, by rw [hsession]; exact Input.Consumed.nil after⟩
  · rintro ⟨bytes, ⟨rfl, rfl⟩, hbytes⟩
    rw [Input.consumed_nil_iff.mp hbytes]
    exact ⟨session.events, rfl, rfl⟩

theorem recognizes_failHere (bound : Nat) (fault : DecodeFault) :
    Recognizes bound (read (Reader.failHere fault) : Decoding Input α)
      fun _ _ => False := by
  intro session _ value after
  constructor
  · rintro ⟨events, hwork⟩
    cases hwork
  · rintro ⟨bytes, hfalse, _⟩
    exact hfalse.elim

/-- Work is followed by other work, which has to deal with what the first part
leaves of the bounded input. -/
theorem Recognizes.bind_within
    {bound later : Nat} {work : Decoding Input α} {next : α → Decoding Input β}
    {form : List UInt8 → α → Prop} {more : α → List UInt8 → β → Prop}
    (hwork : Recognizes bound work form)
    (hlength : ∀ bytes value, form bytes value → bound ≤ later + bytes.length)
    (hnext : ∀ value, Recognizes later (next value) (more value)) :
    Recognizes bound (work >>= next) fun bytes result =>
      ∃ value first second, form first value ∧
        more value second result ∧ bytes = first ++ second := by
  intro session hbound result after
  have hlater :
      ∀ {first value middle}, form first value →
        session.input.Consumed first middle → middle.remaining ≤ later := by
    intro first value middle hfirst hconsumed
    have hremaining := hconsumed.remaining
    have hslack := hlength first value hfirst
    omega
  constructor
  · rintro ⟨events, hresult⟩
    obtain ⟨value, middle, hvalue, hrest⟩ := bind_eq_ok_iff.mp hresult
    obtain ⟨first, hfirst, hconsumed⟩ :=
      (hwork session hbound value middle.input).mp ⟨middle.events, hvalue⟩
    obtain ⟨second, hsecond, hmore⟩ :=
      (hnext value middle (hlater hfirst hconsumed) result after).mp
        ⟨events, hrest⟩
    exact ⟨first ++ second, ⟨value, first, second, hfirst, hsecond, rfl⟩,
      hconsumed.append hmore⟩
  · rintro ⟨bytes, ⟨value, first, second, hfirst, hsecond, rfl⟩, hboth⟩
    obtain ⟨middle, hconsumed, hmore⟩ := hboth.split
    obtain ⟨told, hvalue⟩ :=
      (hwork session hbound value middle).mpr ⟨first, hfirst, hconsumed⟩
    obtain ⟨events, hrest⟩ :=
      (hnext value ⟨middle, told⟩ (hlater hfirst hconsumed) result after).mpr
        ⟨second, hsecond, hmore⟩
    exact ⟨events, bind_eq_ok_iff.mpr ⟨value, _, hvalue, hrest⟩⟩

theorem Recognizes.bind
    {bound : Nat} {work : Decoding Input α} {next : α → Decoding Input β}
    {form : List UInt8 → α → Prop} {more : α → List UInt8 → β → Prop}
    (hwork : Recognizes bound work form)
    (hnext : ∀ value, Recognizes bound (next value) (more value)) :
    Recognizes bound (work >>= next) fun bytes result =>
      ∃ value first second, form first value ∧
        more value second result ∧ bytes = first ++ second :=
  hwork.bind_within (fun _ _ _ => Nat.le_add_right _ _) hnext

theorem Recognizes.map
    {bound : Nat} {work : Decoding Input α} {form : List UInt8 → α → Prop}
    (f : α → β) (hwork : Recognizes bound work form) :
    Recognizes bound (work >>= fun value => pure (f value))
      fun bytes result => ∃ value, form bytes value ∧ result = f value := by
  refine (hwork.bind fun value => recognizes_pure bound (f value)).congr ?_
  intro bytes result
  constructor
  · rintro ⟨value, first, second, hfirst, ⟨rfl, hresult⟩, rfl⟩
    exact ⟨value, by simpa using hfirst, hresult⟩
  · rintro ⟨value, hvalue, hresult⟩
    exact ⟨value, bytes, [], hvalue, ⟨rfl, hresult⟩, by simp⟩

theorem tell_eq_ok (decoder : Decoder) (event : Event) (session : Session Input) :
    ∃ events, decoder.tell event session =
      (.ok (), { session with events := events }) := by
  unfold Decoder.tell
  cases decoder.watched
  · exact ⟨session.events, rfl⟩
  · exact ⟨session.events.push event, rfl⟩

theorem tellFailure_eq_ok (decoder : Decoder) (error : DecodeError) (session : Session Input) :
    ∃ events, decoder.tellFailure error session =
      (.ok (), { session with events := events }) := by
  unfold Decoder.tellFailure
  split
  next => exact ⟨session.events, rfl⟩
  next => exact tell_eq_ok decoder (.failed error) session

theorem Recognizes.tell_then
    {bound : Nat} {work : Decoding Input α} {form : List UInt8 → α → Prop}
    (decoder : Decoder) (event : Event) (hwork : Recognizes bound work form) :
    Recognizes bound (decoder.tell event >>= fun _ => work) form := by
  intro session hbound value after
  obtain ⟨told, htold⟩ := tell_eq_ok decoder event session
  rw [← hwork { session with events := told } hbound]
  simp only [bind_eq_ok_iff, htold, outcome_eq_iff]
  simp

end Decoding

end Disassembly
