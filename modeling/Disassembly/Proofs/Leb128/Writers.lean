import Disassembly.Proofs.Leb128.Form

/-!
# What the LEB128 writers write

The writers write terminated groups whose sum is the value that was given to
them.  The number of groups is bounded by the size of the value, so that an
integer of a width is written in a form that its reader takes.
-/

namespace Disassembly

namespace Leb128

/-! ## Unsigned integers -/

theorem writeUnsigned_of_lt {value : Nat} (hvalue : value < 128) :
    writeUnsigned value = [UInt8.ofNat value] := by
  rw [writeUnsigned, if_pos hvalue]

theorem writeUnsigned_of_le {value : Nat} (hvalue : 128 ≤ value) :
    writeUnsigned value =
      UInt8.ofNat (value % 128 + 128) :: writeUnsigned (value / 128) := by
  rw [writeUnsigned, if_neg (by omega)]

theorem terminated_writeUnsigned (value : Nat) :
    Terminated (writeUnsigned value) := by
  induction value using Nat.strong_induction_on with
  | _ value ih =>
      by_cases hvalue : value < 128
      · rw [writeUnsigned_of_lt hvalue]
        exact .last (by rw [UInt8.toNat_ofNat']; omega)
      · rw [writeUnsigned_of_le (by omega)]
        refine .more ?_ (ih (value / 128) (by omega))
        rw [UInt8.toNat_ofNat']
        omega

theorem groupSum_writeUnsigned (value : Nat) :
    groupSum (writeUnsigned value) = value := by
  induction value using Nat.strong_induction_on with
  | _ value ih =>
      by_cases hvalue : value < 128
      · rw [writeUnsigned_of_lt hvalue]
        simp only [groupSum, UInt8.toNat_ofNat']
        omega
      · rw [writeUnsigned_of_le (by omega)]
        simp only [groupSum, UInt8.toNat_ofNat', ih (value / 128) (by omega)]
        omega

theorem length_writeUnsigned_le {value most : Nat} (hvalue : value < 128 ^ (most + 1)) :
    (writeUnsigned value).length ≤ most + 1 := by
  induction most generalizing value with
  | zero => simp [writeUnsigned_of_lt (by simpa using hvalue)]
  | succ most ih =>
      by_cases hsmall : value < 128
      · simp [writeUnsigned_of_lt hsmall]
      · rw [writeUnsigned_of_le (by omega), List.length_cons]
        have hrest : value / 128 < 128 ^ (most + 1) := by
          rw [Nat.div_lt_iff_lt_mul (by decide), ← pow_succ]
          exact hvalue
        have hlength := ih hrest
        omega

theorem form_writeUnsigned {value most : Nat} (hvalue : value < 128 ^ (most + 1)) :
    Form (most + 1) (writeUnsigned value) :=
  ⟨terminated_writeUnsigned value, length_writeUnsigned_le hvalue⟩

/-! ## Signed integers -/

theorem writeSigned_of_small {value : Int} (hvalue : -64 ≤ value ∧ value < 64) :
    writeSigned value = [UInt8.ofNat (value % 128).toNat] := by
  rw [writeSigned, if_pos hvalue]

theorem writeSigned_of_large {value : Int} (hvalue : ¬ (-64 ≤ value ∧ value < 64)) :
    writeSigned value =
      UInt8.ofNat ((value % 128).toNat + 128) :: writeSigned (value / 128) := by
  rw [writeSigned, if_neg hvalue]

theorem natAbs_div_lt {value : Int} (hvalue : ¬ (-64 ≤ value ∧ value < 64)) :
    (value / 128).natAbs < value.natAbs := by
  omega

/-- What holds of values in one group, and of a value if it does without the lowest
group, holds of all values. -/
theorem signed_induction
    {motive : Int → Prop}
    (hsmall : ∀ value, -64 ≤ value ∧ value < 64 → motive value)
    (hlarge : ∀ value, ¬ (-64 ≤ value ∧ value < 64) → motive (value / 128) →
      motive value) (value : Int) : motive value := by
  induction hsize : value.natAbs using Nat.strong_induction_on generalizing value with
  | _ size ih =>
      by_cases hvalue : -64 ≤ value ∧ value < 64
      · exact hsmall value hvalue
      · exact hlarge value hvalue
          (ih _ (hsize ▸ natAbs_div_lt hvalue) (value / 128) rfl)

theorem terminated_writeSigned (value : Int) : Terminated (writeSigned value) := by
  induction value using signed_induction with
  | hsmall value hvalue =>
      rw [writeSigned_of_small hvalue]
      exact .last (by rw [UInt8.toNat_ofNat']; omega)
  | hlarge value hvalue ih =>
      rw [writeSigned_of_large hvalue]
      exact .more (by rw [UInt8.toNat_ofNat']; omega) ih

theorem signedSum_writeSigned (value : Int) :
    signedSum (writeSigned value) = value := by
  induction value using signed_induction with
  | hsmall value hvalue =>
      rw [writeSigned_of_small hvalue, signedSum_singleton, UInt8.toNat_ofNat']
      split <;> omega
  | hlarge value hvalue ih =>
      rw [writeSigned_of_large hvalue,
        signedSum_cons _ (terminated_writeSigned _).ne_nil, ih,
        UInt8.toNat_ofNat']
      omega

theorem length_writeSigned_le
    {value : Int} {most : Nat}
    (hvalue : -(64 * 128 ^ most) ≤ value ∧ value < 64 * 128 ^ most) :
    (writeSigned value).length ≤ most + 1 := by
  induction most generalizing value with
  | zero => simp [writeSigned_of_small (by simpa using hvalue)]
  | succ most ih =>
      by_cases hsmall : -64 ≤ value ∧ value < 64
      · simp [writeSigned_of_small hsmall]
      · rw [writeSigned_of_large hsmall, List.length_cons]
        rw [pow_succ] at hvalue
        have hlength : (writeSigned (value / 128)).length ≤ most + 1 :=
          ih (by omega)
        omega

theorem form_writeSigned
    {value : Int} {most : Nat}
    (hvalue : -(64 * 128 ^ most) ≤ value ∧ value < 64 * 128 ^ most) :
    Form (most + 1) (writeSigned value) :=
  ⟨terminated_writeSigned value, length_writeSigned_le hvalue⟩

/-! ## Integers of a width -/

theorem form_u32 (value : UInt32) : Form 5 (writeUnsigned value.toNat) := by
  have hvalue := value.toNat_lt
  exact form_writeUnsigned (by omega)

theorem form_i32 (value : Int32) : Form 5 (writeSigned value.toInt) := by
  have hlow := value.le_toInt
  have hhigh := value.toInt_lt
  exact form_writeSigned (by omega)

theorem form_i64 (value : Int64) : Form 10 (writeSigned value.toInt) := by
  have hlow := value.le_toInt
  have hhigh := value.toInt_lt
  exact form_writeSigned (by omega)

end Leb128

end Disassembly
