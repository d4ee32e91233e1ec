import Disassembly.Proofs.Leb128.Form
import Disassembly.Proofs.Sources.Views

/-!
# How reading a LEB128 integer ends

The readers of integers differ in their widths and in their signs.  Each of them
looks for the first byte below 128.  If there is one within the groups that the
width allows, the number up to it is reduced to the width.  Otherwise the reader
stops behind the last group that is allowed, or at the end of the bytes.

A group may reach over the width, but it never starts there, and sign bits are set
only above a group that ends below the width.  So the readers do not depend on what
a shift by the width or by more than the width would do.
-/

namespace Disassembly

open ViewedSource (toInput)

namespace Leb128

/-! ## Numbers -/

/-- The number that groups of seven bits encode: their sum, each group at its place, and
in the signed form the sum as a two's complement number of all these bits. -/
def encodedNumber (signed : Bool) (bytes : List UInt8) : Int :=
  let sum := ∑ index : Fin bytes.length, bytes[index].toNat % 128 * 128 ^ (index : Nat)
  if signed then (BitVec.ofNat (7 * bytes.length) sum).toInt else sum

theorem groupSum_eq_sum (bytes : List UInt8) :
    groupSum bytes =
      ∑ index : Fin bytes.length, bytes[index].toNat % 128 * 128 ^ (index : Nat) := by
  induction bytes with
  | nil => rfl
  | cons byte bytes ih =>
      have hshifted :
          128 * groupSum bytes = ∑ index : Fin bytes.length,
            bytes[index].toNat % 128 * 128 ^ ((index : Nat) + 1) := by
        rw [ih, Finset.mul_sum]
        apply Finset.sum_congr rfl
        intro index _
        ring
      change byte.toNat % 128 + 128 * groupSum bytes =
        ∑ index : Fin (bytes.length + 1), _
      rw [Fin.sum_univ_succ, hshifted]
      simp

theorem encodedNumber_unsigned (bytes : List UInt8) :
    encodedNumber false bytes = groupSum bytes := by
  rw [groupSum_eq_sum]
  rfl

theorem encodedNumber_signed (bytes : List UInt8) :
    encodedNumber true bytes = signedSum bytes := by
  have hwidth : 2 ^ (7 * bytes.length) = 128 ^ bytes.length := by
    rw [pow_mul]
    norm_num
  rw [signedSum, groupSum_eq_sum, ← hwidth]
  exact BitVec.toInt_ofNat' _

theorem readValue_eq_ofInt (width : Nat) (signed : Bool) (bytes : List UInt8) :
    readValue width signed 0 0 bytes =
      BitVec.ofInt width (encodedNumber signed bytes) := by
  cases signed with
  | false => simp [readValue, encodedNumber_unsigned]
  | true => simp [readValue, encodedNumber_signed]

theorem toNat_ofInt_congr (width : Nat) (number : Int) :
    ((BitVec.ofInt width number).toNat : Int) ≡ number [ZMOD 2 ^ width] := by
  have hpositive : (0 : Int) < 2 ^ width := by positivity
  rw [BitVec.toNat_ofInt, Nat.cast_pow, Nat.cast_ofNat,
    Int.toNat_of_nonneg (Int.emod_nonneg _ hpositive.ne')]
  exact Int.mod_modEq _ _

theorem toInt_ofInt_congr (width : Nat) (number : Int) :
    (BitVec.ofInt width number).toInt ≡ number [ZMOD 2 ^ width] := by
  rw [BitVec.toInt_ofInt, Int.modEq_comm, Int.modEq_iff_dvd]
  simpa using Int.dvd_bmod_sub_self (x := number) (m := 2 ^ width)

/-! ## Endings -/

section Endings

variable {width : Nat} (signed : Bool) {groups : List UInt8} {input after : Input}

/-- A byte that is not the last one leaves one group less to read. -/
theorem readGroups_more
    {byte : UInt8} (hbyte : 128 ≤ byte.toNat) (hconsumed : input.Consumed [byte] after)
    (count shift : Nat) (value : BitVec width) :
    readGroups width signed shiftWord (count + 1) shift value input =
      readGroups width signed shiftWord count (shift + 7) (value ||| group width shift byte)
        after := by
  have hnext : Reader.nextByte input = (.ok byte, after) :=
    (Reader.recognizes_nextByte _ _ _).mpr ⟨[byte], rfl, hconsumed⟩
  have hcontinues : continues byte = true := by simpa [continues] using hbyte
  rw [readGroups_succ, bind_apply, hnext]
  simp only [hcontinues, if_true]

theorem exists_readGroups_eq
    (hgroups : ∀ byte ∈ groups, 128 ≤ byte.toNat)
    (hconsumed : input.Consumed groups after)
    (count shift : Nat) (value : BitVec width) :
    ∃ soFar, readGroups width signed shiftWord (groups.length + count) shift value input =
      readGroups width signed shiftWord count (shift + 7 * groups.length) soFar after := by
  induction groups generalizing input shift value with
  | nil =>
      rw [Input.consumed_nil_iff.mp hconsumed]
      exact ⟨value, by simp⟩
  | cons byte groups ih =>
      rw [List.forall_mem_cons] at hgroups
      have hboth : input.Consumed ([byte] ++ groups) after := hconsumed
      obtain ⟨middle, hfirst, hmore⟩ := hboth.split
      obtain ⟨soFar, hrest⟩ := ih hgroups.2 hmore (shift + 7)
        (value ||| group width shift byte)
      refine ⟨soFar, ?_⟩
      rw [List.length_cons, Nat.add_right_comm, readGroups_more signed hgroups.1 hfirst,
        hrest]
      congr 1
      omega

theorem readBits_overlong
    (hlength : groups.length = maxGroups width)
    (hgroups : ∀ byte ∈ groups, 128 ≤ byte.toNat)
    (hconsumed : input.Consumed groups after) :
    readBits width signed input =
      (.error ⟨after.position, .overlongInteger width⟩, after) := by
  obtain ⟨soFar, hrest⟩ :=
    exists_readGroups_eq signed hgroups hconsumed 0 0 (0 : BitVec width)
  rw [Nat.add_zero, hlength] at hrest
  rw [readBits, hrest]
  rfl

theorem readBits_unfinished
    (hlength : groups.length < maxGroups width)
    (hgroups : ∀ byte ∈ groups, 128 ≤ byte.toNat)
    (hconsumed : input.Consumed groups after) (hrest : after.rest = []) :
    readBits width signed input = (.error (after.shortage 1), after) := by
  obtain ⟨count, hcount⟩ := Nat.exists_eq_add_of_lt hlength
  obtain ⟨soFar, hmore⟩ :=
    exists_readGroups_eq signed hgroups hconsumed (count + 1) 0 (0 : BitVec width)
  rw [readBits, hcount, Nat.add_assoc, hmore, readGroups_succ, bind_apply,
    Reader.nextByte_nil hrest]

/-- Bytes start with a form, or they go on throughout as many bytes as it may have. -/
theorem exists_form_or_continues (most : Nat) (bytes : List UInt8) :
    (∃ front rest, bytes = front ++ rest ∧ Form most front) ∨
      ∀ byte ∈ bytes.take most, 128 ≤ byte.toNat := by
  induction most generalizing bytes with
  | zero => simp
  | succ most ih =>
      cases bytes with
      | nil => simp
      | cons byte bytes =>
          by_cases hlast : byte.toNat < 128
          · exact .inl ⟨[byte], bytes, rfl, form_cons_iff.mpr (.inl ⟨hlast, rfl⟩)⟩
          · have hmore : 128 ≤ byte.toNat := Nat.le_of_not_lt hlast
            rcases ih bytes with ⟨front, rest, rfl, hform⟩ | hcontinues
            · exact .inl ⟨byte :: front, rest, rfl,
                form_cons_iff.mpr (.inr ⟨hmore, hform⟩)⟩
            · rw [List.take_succ_cons, List.forall_mem_cons]
              exact .inr ⟨hmore, hcontinues⟩

end Endings

/-! ## Shifts -/

/-- A shift that is right for every amount below the width. -/
def ShiftsBelow {σ : Type} (width : Nat)
    (shiftLeft : BitVec width → Nat → Reader σ (BitVec width)) : Prop :=
  ∀ bits amount, amount < width → shiftLeft bits amount = pure (bits <<< amount)

/-- The groups that a width allows are read by shifts below the width. -/
theorem readGroups_eq_of_shiftsBelow
    {σ : Type} [ByteSource σ] {width : Nat} (signed : Bool)
    {shiftLeft : BitVec width → Nat → Reader σ (BitVec width)}
    (hshift : ShiftsBelow width shiftLeft) {count shift : Nat}
    (hcount : shift + 7 * count < width + 7) (value : BitVec width) :
    readGroups width signed shiftLeft count shift value =
      readGroups width signed shiftWord count shift value := by
  induction count generalizing shift value with
  | zero => rfl
  | succ count ih =>
      unfold readGroups
      apply bind_congr
      intro byte
      rw [hshift _ shift (by omega), shiftWord, pure_bind, pure_bind]
      dsimp only
      split
      next => exact ih (by omega) _
      next =>
        split
        next habove => rw [hshift _ (shift + 7) habove.2.1, shiftWord]
        next => rfl

theorem readBits_eq_of_shiftsBelow
    {σ : Type} [ByteSource σ] {width : Nat} (signed : Bool)
    {shiftLeft : BitVec width → Nat → Reader σ (BitVec width)}
    (hshift : ShiftsBelow width shiftLeft) :
    readBits width signed =
      readGroups width signed shiftLeft (maxGroups width) 0 0 := by
  have hgroups : 7 * maxGroups width ≤ width + 6 := Nat.mul_div_le _ _
  exact (readGroups_eq_of_shiftsBelow signed hshift (by omega) 0).symm

/-! ## Integers of a width -/

/-- A reader takes the first form of an integer there is, and makes a number of a width
of it.  Without such a form it fails behind as many groups as the width allows, or at
the end of the bytes. -/
structure ReadsInteger {σ α : Type} [ViewedSource σ] (width : Nat) (signed : Bool)
    (ofBits : BitVec width → α) (toInt : α → Int) (reader : Reader σ α) : Prop where
  complete : ∀ source bytes rest, (toInput source).rest = bytes ++ rest →
    Terminated bytes → bytes.length ≤ maxGroups width →
      ∃ value, reader.viewed source = (.ok value, (toInput source).advance bytes.length) ∧
        toInt value ≡ encodedNumber signed bytes [ZMOD 2 ^ width]
  overlong : ∀ source, maxGroups width ≤ ByteSource.remaining source →
    (∀ byte ∈ (toInput source).rest.take (maxGroups width), 128 ≤ byte.toNat) →
      reader.viewed source =
        (.error ⟨ByteSource.position source + maxGroups width, .overlongInteger width⟩,
          (toInput source).advance (maxGroups width))
  unfinished : ∀ source,
    (¬ ∃ bytes rest, (toInput source).rest = bytes ++ rest ∧
      Form (maxGroups width) bytes) →
    ¬ (maxGroups width ≤ ByteSource.remaining source ∧
      ∀ byte ∈ (toInput source).rest.take (maxGroups width), 128 ≤ byte.toNat) →
      reader.viewed source =
        (.error ⟨ByteSource.position source + ByteSource.remaining source, .endOfInput 1⟩,
          (toInput source).advance (ByteSource.remaining source))
  shifts : ∀ shiftLeft, ShiftsBelow width shiftLeft →
    reader = do
      return ofBits (← readGroups width signed shiftLeft (maxGroups width) 0 0)

theorem viewed_readBits
    {σ α : Type} [ViewedSource σ] {width : Nat} (signed : Bool) (ofBits : BitVec width → α)
    (source : σ) :
    Reader.viewed (do return ofBits (← readBits width signed)) source =
      (do return ofBits (← readBits width signed) : Reader Input α) (toInput source) :=
  ((ViewedSource.tracks.readBits width signed).map ofBits).viewed_eq source

theorem readsInteger
    {σ α : Type} [ViewedSource σ] {width : Nat} (signed : Bool) {ofBits : BitVec width → α}
    {toInt : α → Int}
    (hvalue : ∀ number, toInt (ofBits (BitVec.ofInt width number)) ≡ number
      [ZMOD 2 ^ width]) :
    ReadsInteger width signed ofBits toInt
      (do return ofBits (← readBits width signed) : Reader σ α) where
  complete := by
    intro source bytes rest hrest hterminated hshort
    rw [viewed_readBits]
    generalize toInput source = input at hrest ⊢
    have hconsumed : input.Consumed bytes (input.advance bytes.length) := by
      have htaken := input.consumed_advance bytes.length
      rwa [hrest, List.take_left] at htaken
    refine ⟨_, (Reader.recognizes_ofBits width signed ofBits _ _ _).mpr
      ⟨bytes, ⟨⟨hterminated, hshort⟩, rfl⟩, hconsumed⟩, ?_⟩
    rw [readValue_eq_ofInt]
    exact hvalue _
  overlong := by
    intro source hlength hgroups
    rw [ViewedSource.remaining_eq] at hlength
    rw [viewed_readBits, ViewedSource.position_eq]
    generalize toInput source = input at hlength hgroups ⊢
    have hconsumed := input.consumed_advance (maxGroups width)
    have hcount : (input.rest.take (maxGroups width)).length = maxGroups width :=
      List.length_take_of_le hlength
    have hposition := hconsumed.position
    rw [hcount] at hposition
    rw [bind_apply, readBits_overlong signed hcount hgroups hconsumed, hposition]
  unfinished := by
    intro source hform hmany
    rw [ViewedSource.remaining_eq] at hmany ⊢
    rw [viewed_readBits, ViewedSource.position_eq]
    generalize toInput source = input at hform hmany ⊢
    have hgroups : ∀ byte ∈ input.rest.take (maxGroups width), 128 ≤ byte.toNat := by
      rcases exists_form_or_continues (maxGroups width) input.rest with
        hexists | hcontinues
      · exact absurd hexists hform
      · exact hcontinues
    have hfew : input.remaining < maxGroups width := by
      by_contra hnot
      exact hmany ⟨Nat.le_of_not_lt hnot, hgroups⟩
    have hwhole : input.rest.take (maxGroups width) = input.rest :=
      List.take_of_length_le hfew.le
    rw [hwhole] at hgroups
    have hconsumed : input.Consumed input.rest (input.advance input.remaining) := by
      have htaken := input.consumed_advance input.remaining
      rwa [Input.remaining, List.take_length] at htaken
    have hrest : (input.advance input.remaining).rest = [] := List.drop_length
    rw [bind_apply, readBits_unfinished signed hfew hgroups hconsumed hrest,
      Input.shortage, hconsumed.position]
    rfl
  shifts := by
    intro shiftLeft hshift
    rw [readBits_eq_of_shiftsBelow signed hshift]

end Leb128

open Leb128

/-- Each reader of integers returns the number that the groups up to the first byte
below 128 encode, reduced to its width, and consumes just these groups.  It fails if
there are too many of them or if they do not end, and it shifts by less than its width. -/
theorem integers_are_read_group_by_group {σ : Type} [ViewedSource σ] :
    ReadsInteger (σ := σ) 32 false UInt32.ofBitVec (fun value => value.toNat) Reader.u32 ∧
      ReadsInteger (σ := σ) 64 false UInt64.ofBitVec (fun value => value.toNat) Reader.u64 ∧
      ReadsInteger (σ := σ) 32 true Int32.ofBitVec Int32.toInt Reader.i32 ∧
      ReadsInteger (σ := σ) 64 true Int64.ofBitVec Int64.toInt Reader.i64 :=
  ⟨readsInteger false (toNat_ofInt_congr 32), readsInteger false (toNat_ofInt_congr 64),
    readsInteger true (toInt_ofInt_congr 32), readsInteger true (toInt_ofInt_congr 64)⟩

/-- A last group that reaches over the width: its upper bits are dropped, and the sign
of the number is the highest bit within the width. -/
example :
    (Reader.u32 (StreamSource.ofBytes [0xFF, 0xFF, 0xFF, 0xFF, 0x77])).1 = .ok 0x7FFFFFFF ∧
      (Reader.i32 (StreamSource.ofBytes [0xFF, 0xFF, 0xFF, 0xFF, 0x77])).1 = .ok 2147483647 ∧
      (Reader.i32 (StreamSource.ofBytes [0x80, 0x80, 0x80, 0x80, 0x38])).1 = .ok (-2147483648) := by
  decide

end Disassembly
