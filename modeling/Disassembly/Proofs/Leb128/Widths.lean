import Disassembly.Proofs.Appending
import Disassembly.Proofs.Leb128.Reading

/-!
# Readers of another width

The form of an integer says nothing about a width.  Whoever reads it with another
width gets the same number as long as the number has a place in that width, and the
number reduced to the width otherwise.  The width also limits the groups: the five
groups that a reader of 32 bits takes hold 35 bits, so that the numbers behind them
are refused instead of reduced.

An integer of 32 bits has no writer of its own and is written as one of 64 bits.  The
reader of 32 bits gives it back.
-/

namespace Disassembly

open Leb128

namespace Leb128

/-- All bytes of an integer but the last one announce another byte. -/
theorem Terminated.continues_of_mem_take
    {bytes : List UInt8} (hbytes : Terminated bytes) {count : Nat}
    (hcount : count < bytes.length) : ∀ byte ∈ bytes.take count, 128 ≤ byte.toNat := by
  induction hbytes generalizing count with
  | last hbyte =>
      obtain rfl : count = 0 := by simpa using hcount
      simp
  | more hbyte hbytes ih =>
      cases count with
      | zero => simp
      | succ count =>
          rw [List.take_succ_cons, List.forall_mem_cons]
          exact ⟨hbyte, ih (by simpa using hcount)⟩

/-- A number that does not fit into some groups is written in more of them. -/
theorem lt_length_writeSigned
    {value : Int} {most : Nat}
    (hvalue : ¬ (-(64 * 128 ^ most) ≤ value ∧ value < 64 * 128 ^ most)) :
    most + 1 < (writeSigned value).length := by
  by_contra hshort
  obtain ⟨count, hcount⟩ :=
    Nat.exists_eq_succ_of_ne_zero (terminated_writeSigned value).length_pos.ne'
  have hbounds := signedSum_bounds hcount
  rw [signedSum_writeSigned] at hbounds
  have hgrows : (128 : Int) ^ count ≤ 128 ^ most :=
    pow_le_pow_right₀ (by decide) (by omega)
  omega

end Leb128

/-! ## Readers -/

namespace Reader

variable {input after : Input}

theorem recognizes_u64 :
    u64.Recognizes fun bytes value =>
      Form 10 bytes ∧ value = UInt64.ofNat (groupSum bytes) := by
  refine (recognizes_ofBits 64 false UInt64.ofBitVec).congr ?_
  intro bytes value
  simp [maxGroups, readValue, UInt64.ofNat]

theorem u64_of_writtenU32 {value : UInt32}
    (hbytes : input.Consumed (writeUnsigned value.toNat) after) :
    u64 input = (.ok value.toUInt64, after) := by
  apply (recognizes_u64 _ _ _).mpr
  have hform := form_u32 value
  refine ⟨_, ⟨⟨hform.terminated, hform.short.trans (by decide)⟩, ?_⟩, hbytes⟩
  rw [groupSum_writeUnsigned, UInt64.ofNat_uInt32ToNat]

theorem i32_of_writtenSigned {value : Int} (hvalue : -2 ^ 34 ≤ value ∧ value < 2 ^ 34)
    (hbytes : input.Consumed (writeSigned value) after) :
    i32 input = (.ok (Int32.ofInt value), after) := by
  apply (recognizes_i32 _ _ _).mpr
  refine ⟨_, ⟨form_writeSigned (by omega), ?_⟩, hbytes⟩
  rw [signedSum_writeSigned]

theorem i32_of_writtenBeyond {value : Int} (hvalue : ¬ (-2 ^ 34 ≤ value ∧ value < 2 ^ 34))
    (hbytes : input.Consumed (writeSigned value) after) :
    i32 input = (.error ⟨input.position + 5, .overlongInteger 32⟩, input.advance 5) := by
  have hlength : 5 < (writeSigned value).length := lt_length_writeSigned (by omega)
  have htake : input.rest.take 5 = (writeSigned value).take 5 := by
    rw [hbytes.rest, List.take_append_of_le_length hlength.le]
  have hconsumed := input.consumed_advance 5
  rw [htake] at hconsumed
  have hcount : ((writeSigned value).take 5).length = maxGroups 32 :=
    List.length_take_of_le hlength.le
  have hgroups : ∀ byte ∈ (writeSigned value).take 5, 128 ≤ byte.toNat :=
    (terminated_writeSigned value).continues_of_mem_take hlength
  have hposition : (input.advance 5).position = input.position + 5 := by
    rw [hconsumed.position, hcount]
    rfl
  unfold i32
  rw [bind_apply, readBits_overlong true hcount hgroups hconsumed, hposition]

end Reader

/-! ## Buffers -/

/-- What a buffer holds behind its old end can be read from there. -/
theorem Buffer.exists_iterator_append (buffer : Buffer) (bytes behind : List UInt8) :
    ∃ iterator after,
      ((buffer.append bytes).append behind).iterator buffer.size = .ok iterator ∧
        iterator.toInput.Consumed bytes after ∧
        after.position = (buffer.append bytes).size := by
  have hinside : buffer.size ≤ ((buffer.append bytes).append behind).size := by
    rw [append_append, size_append]
    exact Nat.le_add_right _ _
  obtain ⟨iterator, hiterator, hinput⟩ := exists_iterator _ hinside
  have hrest : iterator.toInput.rest = bytes ++ behind := by
    rw [hinput, append_append]
    exact List.drop_left
  have hconsumed := Input.consumed_of_rest hrest
  refine ⟨iterator, _, hiterator, hconsumed, ?_⟩
  rw [hconsumed.position, hinput, size_append]

/-- What the reader of 32 bits makes of an integer of 64 bits whose bytes start at an
iterator and end at the position `next`. -/
structure Reader.ReadsNarrowed (value : Int64) (iterator : BufferIterator) (next : Nat) :
    Prop where
  kept : -2 ^ 31 ≤ value.toInt → value.toInt < 2 ^ 31 →
    ∃ narrow after, i32 iterator = (.ok narrow, after) ∧
      narrow.toInt = value.toInt ∧ after.position = next
  reduced : -2 ^ 34 ≤ value.toInt → value.toInt < 2 ^ 34 →
    ∃ narrow after, i32 iterator = (.ok narrow, after) ∧
      narrow.toInt ≡ value.toInt [ZMOD 2 ^ 32] ∧ after.position = next
  refused : value.toInt < -2 ^ 34 ∨ 2 ^ 34 ≤ value.toInt →
    ∃ after, i32 iterator =
        (.error ⟨iterator.position + 5, .overlongInteger 32⟩, after) ∧
      after.toInput = iterator.toInput.advance 5

theorem Reader.readsNarrowed_of_written
    {value : Int64} {iterator : BufferIterator} {after : Input}
    (hbytes : iterator.toInput.Consumed (writeSigned value.toInt) after) :
    ReadsNarrowed value iterator after.position where
  kept := by
    intro hlow hhigh
    obtain ⟨last, hread, hlast⟩ := BufferIterator.exists_read_eq BufferIterator.tracks.i32
      (i32_of_writtenSigned (by omega) hbytes)
    refine ⟨_, last, hread, ?_, congrArg Input.position hlast⟩
    rw [Int32.toInt_ofInt]
    exact Int.bmod_eq_of_le (by simpa using hlow) (by simpa using hhigh)
  reduced := by
    intro hlow hhigh
    obtain ⟨last, hread, hlast⟩ := BufferIterator.exists_read_eq BufferIterator.tracks.i32
      (i32_of_writtenSigned ⟨hlow, hhigh⟩ hbytes)
    exact ⟨_, last, hread, toInt_ofInt_congr 32 value.toInt, congrArg Input.position hlast⟩
  refused := by
    intro hbeyond
    exact BufferIterator.exists_read_eq BufferIterator.tracks.i32
      (i32_of_writtenBeyond (by omega) hbytes)

/-- An unsigned integer of 32 bits is read back by the reader of 64 bits.  A signed one
of 64 bits is read by the reader of 32 bits as itself if it has a place there, as its
residue if it fits into five groups, and not at all otherwise. -/
theorem integers_are_read_across_widths (buffer : Buffer) (behind : List UInt8) :
    (∀ value, ∃ iterator after,
      ((buffer.appendU32 value).append behind).iterator buffer.size = .ok iterator ∧
        Reader.u64 iterator = (.ok value.toUInt64, after) ∧
        after.position = (buffer.appendU32 value).size) ∧
      ∀ value, ∃ iterator,
        ((buffer.appendI64 value).append behind).iterator buffer.size = .ok iterator ∧
          Reader.ReadsNarrowed value iterator (buffer.appendI64 value).size := by
  constructor
  · intro value
    obtain ⟨iterator, after, hiterator, hbytes, hposition⟩ :=
      buffer.exists_iterator_append (writeUnsigned value.toNat) behind
    obtain ⟨last, hread, hlast⟩ := BufferIterator.exists_read_eq BufferIterator.tracks.u64
      (Reader.u64_of_writtenU32 hbytes)
    exact ⟨iterator, last, hiterator, hread, (congrArg Input.position hlast).trans hposition⟩
  · intro value
    obtain ⟨iterator, after, hiterator, hbytes, hposition⟩ :=
      buffer.exists_iterator_append (writeSigned value.toInt) behind
    have hreads := Reader.readsNarrowed_of_written hbytes
    rw [hposition] at hreads
    exact ⟨iterator, hiterator, hreads⟩

/-- The greatest number of five groups loses its upper bits, the next one is refused, and
the least number of 32 bits is kept. -/
theorem narrowed_at_the_boundaries :
    (∃ iterator, ((Buffer.appendI64 ⟨[0xAA]⟩ 17179869183).append [0xBB]).iterator 1 =
        .ok iterator ∧
      ∃ narrow after, Reader.i32 iterator = (.ok narrow, after) ∧
        narrow.toInt ≡ 17179869183 [ZMOD 2 ^ 32] ∧ after.position = 6) ∧
      (∃ iterator, ((Buffer.appendI64 ⟨[0xAA]⟩ 17179869184).append []).iterator 1 =
        .ok iterator ∧
        ∃ after, Reader.i32 iterator =
            (.error ⟨iterator.position + 5, .overlongInteger 32⟩, after) ∧
          after.toInput = iterator.toInput.advance 5) ∧
      ∃ iterator, ((Buffer.appendI64 ⟨[]⟩ (-2147483648)).append [0x80]).iterator 0 =
        .ok iterator ∧
        ∃ narrow after, Reader.i32 iterator = (.ok narrow, after) ∧
          narrow.toInt = -2147483648 ∧ after.position = 5 := by
  refine ⟨?_, ?_, ?_⟩
  · obtain ⟨iterator, hiterator, hreads⟩ :=
      (integers_are_read_across_widths ⟨[0xAA]⟩ [0xBB]).2 17179869183
    have hsize : (Buffer.appendI64 ⟨[0xAA]⟩ 17179869183).size = 6 := by cbv
    rw [hsize] at hreads
    exact ⟨iterator, hiterator, hreads.reduced (by decide) (by decide)⟩
  · obtain ⟨iterator, hiterator, hreads⟩ :=
      (integers_are_read_across_widths ⟨[0xAA]⟩ []).2 17179869184
    exact ⟨iterator, hiterator, hreads.refused (.inr (by decide))⟩
  · obtain ⟨iterator, hiterator, hreads⟩ :=
      (integers_are_read_across_widths ⟨[]⟩ [0x80]).2 (-2147483648)
    have hsize : (Buffer.appendI64 ⟨[]⟩ (-2147483648)).size = 5 := by cbv
    rw [hsize] at hreads
    exact ⟨iterator, hiterator, hreads.kept (by decide) (by decide)⟩

end Disassembly
