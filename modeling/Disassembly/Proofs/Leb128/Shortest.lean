import Disassembly.Proofs.Leb128.Writers

/-!
# Shortest forms

Among the forms that are read as a value, the written one has the fewest bytes.
With every group the numbers that a form can encode grow by seven bits, and a writer
adds a group only when the value does not fit into fewer.  Reducing a number to a
width does not move it away from zero, so the forms with bits above the width are
not shorter either.
-/

namespace Disassembly

namespace Leb128

variable {bytes : List UInt8}

theorem groupSum_lt (bytes : List UInt8) : groupSum bytes < 128 ^ bytes.length := by
  induction bytes with
  | nil => decide
  | cons byte bytes ih =>
      have hgroup : byte.toNat % 128 < 128 := Nat.mod_lt _ (by decide)
      rw [groupSum, List.length_cons, pow_succ]
      omega

theorem signedSum_bounds {count : Nat} (hlength : bytes.length = count + 1) :
    -(64 * 128 ^ count) ≤ signedSum bytes ∧ signedSum bytes < 64 * 128 ^ count := by
  have hpositive : 0 < 128 ^ bytes.length := by positivity
  have hlow := Int.le_bmod (x := groupSum bytes) hpositive
  have hhigh := Int.bmod_lt (x := groupSum bytes) hpositive
  rw [← signedSum] at hlow hhigh
  rw [hlength, pow_succ] at hlow hhigh
  push_cast at hlow hhigh
  omega

/-- Numbers around zero stay there when they are reduced to a width. -/
theorem bmod_bounds {number bound : Int} {modulus : Nat} (hmodulus : 0 < modulus)
    (hnumber : -bound ≤ number ∧ number < bound) :
    -bound ≤ number.bmod modulus ∧ number.bmod modulus < bound := by
  have hlow := Int.le_bmod (x := number) hmodulus
  have hhigh := Int.bmod_lt (x := number) hmodulus
  by_cases hfits : -((modulus : Int) / 2) ≤ number ∧ number < ((modulus : Int) + 1) / 2
  · rwa [Int.bmod_eq_of_le hfits.1 hfits.2]
  · omega

theorem length_writeUnsigned_groupSum_le (hbytes : bytes ≠ []) (modulus : Nat) :
    (writeUnsigned (groupSum bytes % modulus)).length ≤ bytes.length := by
  obtain ⟨count, hcount⟩ :=
    Nat.exists_eq_succ_of_ne_zero (List.length_pos_iff.mpr hbytes).ne'
  have hsum := groupSum_lt bytes
  rw [hcount] at hsum ⊢
  exact length_writeUnsigned_le ((Nat.mod_le _ _).trans_lt hsum)

theorem length_writeSigned_signedSum_le
    (hbytes : bytes ≠ []) {modulus : Nat} (hmodulus : 0 < modulus) :
    (writeSigned ((signedSum bytes).bmod modulus)).length ≤ bytes.length := by
  obtain ⟨count, hcount⟩ :=
    Nat.exists_eq_succ_of_ne_zero (List.length_pos_iff.mpr hbytes).ne'
  rw [hcount]
  exact length_writeSigned_le (bmod_bounds hmodulus (signedSum_bounds hcount))

end Leb128

/-! ## Readers -/

namespace Reader

open Leb128

variable {input after : Input}

theorem length_writeUnsigned_le_of_u32
    {value : UInt32} (hread : u32 input = (.ok value, after)) :
    (writeUnsigned value.toNat).length ≤ input.remaining := by
  obtain ⟨bytes, ⟨hform, rfl⟩, hbytes⟩ := (recognizes_u32 _ _ _).mp hread
  calc (writeUnsigned (UInt32.ofNat (groupSum bytes)).toNat).length
      = (writeUnsigned (groupSum bytes % 2 ^ 32)).length := by
        rw [UInt32.toNat_ofNat']
    _ ≤ bytes.length := length_writeUnsigned_groupSum_le hform.terminated.ne_nil _
    _ ≤ input.remaining := by
        rw [hbytes.remaining]
        exact Nat.le_add_right _ _

theorem length_writeSigned_le_of_i64
    {value : Int64} (hread : i64 input = (.ok value, after)) :
    (writeSigned value.toInt).length ≤ input.remaining := by
  obtain ⟨bytes, ⟨hform, rfl⟩, hbytes⟩ := (recognizes_i64 _ _ _).mp hread
  calc (writeSigned (Int64.ofInt (signedSum bytes)).toInt).length
      = (writeSigned ((signedSum bytes).bmod Int64.size)).length := by
        rw [Int64.toInt_ofInt]
    _ ≤ bytes.length :=
        length_writeSigned_signedSum_le hform.terminated.ne_nil (by decide)
    _ ≤ input.remaining := by
        rw [hbytes.remaining]
        exact Nat.le_add_right _ _

end Reader

end Disassembly
