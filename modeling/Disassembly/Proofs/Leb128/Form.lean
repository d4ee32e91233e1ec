import Disassembly.Proofs.Recognition

/-!
# Forms of LEB128 integers

The bytes of an integer carry seven bits each, the lowest ones first.  Their
sum is the value of the unsigned form.  The signed form takes the same sum as a
two's complement number of as many bits as the bytes carry.  A form ends at the
first byte below 128 and has a limited number of bytes.

The readers recognize these forms and reduce the value to their width.  No bit
of an earlier group is touched by a later one, since the groups read so far
stay below the next shift.
-/

namespace Disassembly

namespace Leb128

/-- The number that groups of seven bits make up, the lowest group first. -/
def groupSum : List UInt8 → Nat
  | [] => 0
  | byte :: more => byte.toNat % 128 + 128 * groupSum more

/-- The sum as a two's complement number of seven bits a byte. -/
def signedSum (bytes : List UInt8) : Int :=
  (groupSum bytes : Int).bmod (128 ^ bytes.length)

/-- The first byte below 128 is the last one. -/
inductive Terminated : List UInt8 → Prop
  | last {byte : UInt8} (hbyte : byte.toNat < 128) : Terminated [byte]
  | more {byte : UInt8} {bytes : List UInt8}
      (hbyte : 128 ≤ byte.toNat) (hbytes : Terminated bytes) :
      Terminated (byte :: bytes)

/-- The encodings of an integer in at most `most` bytes. -/
structure Form (most : Nat) (bytes : List UInt8) : Prop where
  terminated : Terminated bytes
  short : bytes.length ≤ most

theorem Terminated.ne_nil {bytes : List UInt8} (hbytes : Terminated bytes) :
    bytes ≠ [] := by
  cases hbytes <;> simp

theorem Terminated.length_pos {bytes : List UInt8}
    (hbytes : Terminated bytes) : 0 < bytes.length :=
  List.length_pos_iff.mpr hbytes.ne_nil

theorem not_form_zero (bytes : List UInt8) : ¬ Form 0 bytes := by
  intro hform
  have hpos := hform.terminated.length_pos
  have hshort := hform.short
  omega

theorem form_cons_iff {most : Nat} {byte : UInt8} {bytes : List UInt8} :
    Form (most + 1) (byte :: bytes) ↔
      byte.toNat < 128 ∧ bytes = [] ∨
        128 ≤ byte.toNat ∧ Form most bytes := by
  constructor
  · rintro ⟨hterminated, hshort⟩
    cases hterminated with
    | last hbyte => exact .inl ⟨hbyte, rfl⟩
    | more hbyte hbytes =>
        exact .inr ⟨hbyte, hbytes, by simpa using hshort⟩
  · rintro (⟨hbyte, rfl⟩ | ⟨hbyte, hbytes⟩)
    · exact ⟨.last hbyte, by simp⟩
    · exact ⟨.more hbyte hbytes.terminated, by simpa using hbytes.short⟩

/-! ## Signed sums -/

theorem signedSum_singleton (byte : UInt8) :
    signedSum [byte] =
      if 64 ≤ byte.toNat % 128 then (byte.toNat % 128 : Int) - 128
      else byte.toNat % 128 := by
  simp only [signedSum, groupSum, List.length_singleton, Int.bmod_def]
  split <;> split <;> omega

theorem signedSum_cons (byte : UInt8) {bytes : List UInt8} (hbytes : bytes ≠ []) :
    signedSum (byte :: bytes) = byte.toNat % 128 + 128 * signedSum bytes := by
  obtain ⟨count, hcount⟩ :=
    Nat.exists_eq_succ_of_ne_zero (List.length_pos_iff.mpr hbytes).ne'
  have heven : 128 ^ bytes.length = 128 * 128 ^ count := by
    rw [hcount, pow_succ']
  have hpositive : 0 < 128 ^ bytes.length := by positivity
  simp only [signedSum, groupSum, List.length_cons, pow_succ']
  generalize 128 ^ bytes.length = modulus at heven hpositive ⊢
  have hlow := Int.le_bmod (x := groupSum bytes) hpositive
  have hhigh := Int.bmod_lt (x := groupSum bytes) hpositive
  have hmultiple :
      (modulus : Int) ∣ (groupSum bytes : Int).bmod modulus - groupSum bytes :=
    Int.dvd_bmod_sub_self
  rw [Int.bmod_eq_iff (by omega)]
  refine ⟨by omega, by omega, ?_⟩
  have hdifference :
      (byte.toNat % 128 + 128 * (groupSum bytes : Int).bmod modulus) -
          ((byte.toNat % 128 + 128 * groupSum bytes : Nat) : Int) =
        128 * ((groupSum bytes : Int).bmod modulus - groupSum bytes) := by
    push_cast
    ring
  rw [hdifference, Nat.cast_mul]
  exact mul_dvd_mul_left _ hmultiple

/-! ## Reading groups -/

/-- The seven bits of a byte, in place at a shift. -/
def group (width shift : Nat) (byte : UInt8) : BitVec width :=
  BitVec.ofNat width (byte.toNat % 128) <<< shift

/-- The sign bits above the last group, if the group is negative and they are within the
width. -/
def signBits (width shift : Nat) (last : UInt8) : BitVec width :=
  if shift < width ∧ 64 ≤ last.toNat % 128 then BitVec.allOnes width <<< shift else 0

/-- What reading does with the next byte, where nothing can go wrong with a shift. -/
theorem readGroups_succ
    (width : Nat) (signed : Bool) (count shift : Nat) (value : BitVec width) :
    (readGroups width signed shiftWord (count + 1) shift value :
        Reader Input (BitVec width)) = do
      let byte ← Reader.nextByte
      let value := value ||| group width shift byte
      if continues byte then
        readGroups width signed shiftWord count (shift + 7) value
      else
        return if signed then value ||| signBits width (shift + 7) byte else value := by
  rw [readGroups]
  apply bind_congr
  intro byte
  simp only [shiftWord, pure_bind, group, signBits]
  split
  next => rfl
  next =>
    by_cases habove : shift + 7 < width ∧ 64 ≤ byte.toNat % 128 <;>
      cases signed <;> simp [habove]

theorem or_shifted
    {width shift sum : Nat} (hsum : sum < 2 ^ shift) (value : Nat) :
    BitVec.ofNat width sum ||| BitVec.ofNat width value <<< shift =
      BitVec.ofNat width (sum + 2 ^ shift * value) := by
  apply BitVec.eq_of_getLsbD_eq
  intro index hindex
  rw [Nat.add_comm]
  simp only [BitVec.getLsbD_or, BitVec.getLsbD_shiftLeft, BitVec.getLsbD_ofNat,
    Nat.testBit_two_pow_mul_add _ hsum]
  by_cases hlow : index < shift
  · simp [hindex, hlow]
  · have hclear : sum.testBit index = false :=
      Nat.testBit_lt_two_pow
        (hsum.trans_le (Nat.pow_le_pow_right (by decide) (by omega)))
    simp [hindex, hlow, hclear, show index - shift < width by omega]

theorem or_group
    {width shift sum : Nat} (hsum : sum < 2 ^ shift) (byte : UInt8) :
    BitVec.ofNat width sum ||| group width shift byte =
      BitVec.ofNat width (sum + 2 ^ shift * (byte.toNat % 128)) :=
  or_shifted hsum _

theorem ofInt_congr
    {width : Nat} {first second : Int}
    (hdvd : (2 : Int) ^ width ∣ first - second) :
    BitVec.ofInt width first = BitVec.ofInt width second := by
  apply BitVec.eq_of_toNat_eq
  rw [BitVec.toNat_ofInt, BitVec.toNat_ofInt]
  congr 1
  rw [Int.emod_eq_emod_iff_emod_sub_eq_zero]
  exact Int.emod_eq_zero_of_dvd (by exact_mod_cast hdvd)

/-- Sign bits subtract the place value of the next group.  Behind the width that
is a multiple of the modulus, and there are no bits to set. -/
theorem or_signBits
    {width shift sum : Nat} (hsum : sum < 2 ^ shift) (last : UInt8) :
    BitVec.ofNat width sum ||| signBits width shift last =
      BitVec.ofInt width
        (if 64 ≤ last.toNat % 128 then (sum : Int) - 2 ^ shift else sum) := by
  unfold signBits
  by_cases hsign : 64 ≤ last.toNat % 128
  · by_cases hshift : shift < width
    · have hones : BitVec.allOnes width = BitVec.ofNat width (2 ^ width - 1) := by
        apply BitVec.eq_of_toNat_eq
        simp
      rw [if_pos ⟨hshift, hsign⟩, if_pos hsign, hones, or_shifted hsum,
        ← BitVec.ofInt_natCast]
      apply ofInt_congr
      refine ⟨2 ^ shift, ?_⟩
      push_cast [Nat.one_le_two_pow]
      ring
    · rw [if_neg (fun hboth => hshift hboth.1), if_pos hsign]
      have hdvd : (2 : Int) ^ width ∣ sum - (sum - 2 ^ shift) := by
        rw [sub_sub_cancel]
        exact pow_dvd_pow 2 (by omega)
      rw [← ofInt_congr hdvd]
      simp
  · simp [hsign]

/-- The value of a form on top of the groups before it. -/
def readValue (width : Nat) (signed : Bool) (shift sum : Nat)
    (bytes : List UInt8) : BitVec width :=
  if signed then BitVec.ofInt width (sum + 2 ^ shift * signedSum bytes)
  else BitVec.ofNat width (sum + 2 ^ shift * groupSum bytes)

theorem next_sum_lt
    {shift sum : Nat} (hsum : sum < 2 ^ shift) (byte : UInt8) :
    sum + 2 ^ shift * (byte.toNat % 128) < 2 ^ (shift + 7) := by
  have hseven : byte.toNat % 128 < 128 := Nat.mod_lt _ (by decide)
  rw [pow_add]
  nlinarith

theorem readValue_singleton
    (width : Nat) (signed : Bool) {shift sum : Nat} (hsum : sum < 2 ^ shift)
    (byte : UInt8) :
    readValue width signed shift sum [byte] =
      let value := BitVec.ofNat width sum ||| group width shift byte
      if signed then value ||| signBits width (shift + 7) byte else value := by
  simp only [readValue, or_group hsum, or_signBits (next_sum_lt hsum byte)]
  cases signed
  · simp [groupSum]
  · rw [if_pos rfl, if_pos rfl, signedSum_singleton]
    congr 1
    split
    · push_cast
      ring
    · push_cast
      ring

theorem readValue_cons
    (width : Nat) (signed : Bool) (shift sum : Nat) (byte : UInt8)
    {bytes : List UInt8} (hbytes : bytes ≠ []) :
    readValue width signed shift sum (byte :: bytes) =
      readValue width signed (shift + 7)
        (sum + 2 ^ shift * (byte.toNat % 128)) bytes := by
  unfold readValue
  cases signed
  · simp only [groupSum, pow_add, Bool.false_eq_true, if_false]
    congr 1
    ring
  · simp only [signedSum_cons byte hbytes, pow_add, if_true]
    congr 1
    push_cast
    ring

theorem recognizes_lastGroup
    (width : Nat) (signed : Bool) (most shift sum : Nat)
    {byte : UInt8} (hbyte : byte.toNat < 128) :
    Reader.Recognizes (pure (readValue width signed shift sum [byte]))
      fun bytes value => Form (most + 1) (byte :: bytes) ∧
        value = readValue width signed shift sum (byte :: bytes) := by
  refine (Reader.recognizes_pure _).congr ?_
  intro bytes value
  rw [form_cons_iff]
  constructor
  · rintro ⟨rfl, rfl⟩
    exact ⟨.inl ⟨hbyte, rfl⟩, rfl⟩
  · rintro ⟨⟨_, rfl⟩ | ⟨hmore, _⟩, rfl⟩
    · exact ⟨rfl, rfl⟩
    · omega

theorem recognizes_moreGroups
    {width : Nat} {signed : Bool} {most shift sum : Nat} {byte : UInt8}
    (hbyte : 128 ≤ byte.toNat) {reader : Reader Input (BitVec width)}
    (hreader : reader.Recognizes fun bytes value => Form most bytes ∧
      value = readValue width signed (shift + 7)
        (sum + 2 ^ shift * (byte.toNat % 128)) bytes) :
    reader.Recognizes fun bytes value => Form (most + 1) (byte :: bytes) ∧
      value = readValue width signed shift sum (byte :: bytes) := by
  refine hreader.congr ?_
  intro bytes value
  rw [form_cons_iff]
  constructor
  · rintro ⟨hform, rfl⟩
    exact ⟨.inr ⟨hbyte, hform⟩,
      (readValue_cons width signed shift sum byte
        hform.terminated.ne_nil).symm⟩
  · rintro ⟨⟨hlast, _⟩ | ⟨_, hform⟩, rfl⟩
    · omega
    · exact ⟨hform, readValue_cons width signed shift sum byte
        hform.terminated.ne_nil⟩

/-- Reading goes through the groups and keeps those read so far below the next
shift. -/
theorem readGroups_recognizes
    (width : Nat) (signed : Bool) (most : Nat) {shift sum : Nat}
    (hsum : sum < 2 ^ shift) :
    (readGroups width signed shiftWord most shift (BitVec.ofNat width sum)).Recognizes
      fun bytes value =>
        Form most bytes ∧ value = readValue width signed shift sum bytes := by
  induction most generalizing shift sum with
  | zero =>
      intro input value after
      constructor
      · intro hread
        cases hread
      · rintro ⟨bytes, ⟨hform, _⟩, _⟩
        exact absurd hform (not_form_zero bytes)
  | succ most ih =>
      rw [readGroups_succ]
      refine (Reader.recognizes_nextByte.bind fun byte =>
        show Reader.Recognizes _ fun bytes value =>
          Form (most + 1) (byte :: bytes) ∧
            value = readValue width signed shift sum (byte :: bytes)
          from ?_).congr ?_
      · by_cases hcontinues : 128 ≤ byte.toNat
        · rw [if_pos (by simpa [continues] using hcontinues), or_group hsum]
          exact recognizes_moreGroups hcontinues (ih (next_sum_lt hsum byte))
        · have hlast : byte.toNat < 128 := by omega
          rw [if_neg (by simpa [continues] using hlast),
            ← readValue_singleton width signed hsum byte]
          exact recognizes_lastGroup width signed most shift sum hlast
      · intro bytes value
        constructor
        · rintro ⟨byte, first, second, rfl, hform, rfl⟩
          exact hform
        · rintro ⟨hform, hvalue⟩
          cases bytes with
          | nil => exact absurd rfl hform.terminated.ne_nil
          | cons byte more =>
              exact ⟨byte, [byte], more, rfl, ⟨hform, hvalue⟩, rfl⟩

theorem readBits_recognizes (width : Nat) (signed : Bool) :
    (readBits width signed).Recognizes fun bytes value =>
      Form (maxGroups width) bytes ∧
        value = readValue width signed 0 0 bytes :=
  readGroups_recognizes width signed (maxGroups width) (by decide : 0 < 2 ^ 0)

end Leb128

/-! ## Integers of a width -/

namespace Reader

open Leb128

theorem recognizes_ofBits
    {α : Type} (width : Nat) (signed : Bool) (ofBits : BitVec width → α) :
    Recognizes (do return ofBits (← readBits width signed))
      fun bytes value =>
        Form (maxGroups width) bytes ∧
          value = ofBits (readValue width signed 0 0 bytes) := by
  refine ((readBits_recognizes width signed).map ofBits).congr ?_
  intro bytes value
  constructor
  · rintro ⟨bits, ⟨hform, rfl⟩, rfl⟩
    exact ⟨hform, rfl⟩
  · rintro ⟨hform, rfl⟩
    exact ⟨_, ⟨hform, rfl⟩, rfl⟩

theorem recognizes_u32 :
    u32.Recognizes fun bytes value =>
      Form 5 bytes ∧ value = UInt32.ofNat (groupSum bytes) := by
  refine (recognizes_ofBits 32 false UInt32.ofBitVec).congr ?_
  intro bytes value
  simp [maxGroups, readValue, UInt32.ofNat]

theorem recognizes_i32 :
    i32.Recognizes fun bytes value =>
      Form 5 bytes ∧ value = Int32.ofInt (signedSum bytes) := by
  refine (recognizes_ofBits 32 true Int32.ofBitVec).congr ?_
  intro bytes value
  simp [maxGroups, readValue, Int32.ofBitVec, Int32.ofInt]

theorem recognizes_i64 :
    i64.Recognizes fun bytes value =>
      Form 10 bytes ∧ value = Int64.ofInt (signedSum bytes) := by
  refine (recognizes_ofBits 64 true Int64.ofBitVec).congr ?_
  intro bytes value
  simp [maxGroups, readValue, Int64.ofBitVec, Int64.ofInt]

end Reader

end Disassembly
