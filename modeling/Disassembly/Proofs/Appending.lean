import Disassembly.Proofs.Encoding.RoundTrip
import Disassembly.Proofs.Leb128.Shortest

/-!
# Reading what was appended

Bytes and integers are appended to a buffer one after the other, and each of them is
written behind what is there.  Whoever reads from the old end of the buffer and asks
for the same kinds in the same order gets the same values, and then stands at the new
end.  The integers take as few bytes as any bytes that are read as them.
-/

namespace Disassembly

open Leb128

/-! ## Items -/

namespace Buffer

/-- What can be appended to a buffer. -/
inductive Item where
  | byte (value : UInt8)
  | u32 (value : UInt32)
  | i64 (value : Int64)
deriving DecidableEq, Repr

inductive ItemKind where
  | byte
  | u32
  | i64
deriving DecidableEq, Repr

def Item.kind : Item → ItemKind
  | .byte _ => .byte
  | .u32 _ => .u32
  | .i64 _ => .i64

/-- The bytes that are written for an item. -/
def Item.bytes : Item → List UInt8
  | .byte value => [value]
  | .u32 value => writeUnsigned value.toNat
  | .i64 value => writeSigned value.toInt

def appendItem (buffer : Buffer) : Item → Buffer
  | .byte value => buffer.appendByte value
  | .u32 value => buffer.appendU32 value
  | .i64 value => buffer.appendI64 value

def appendAll (buffer : Buffer) (items : List Item) : Buffer :=
  items.foldl appendItem buffer

theorem appendItem_eq (buffer : Buffer) (item : Item) :
    buffer.appendItem item = buffer.append item.bytes := by
  cases item <;> rfl

theorem appendAll_eq (buffer : Buffer) (items : List Item) :
    buffer.appendAll items = buffer.append (items.flatMap Item.bytes) := by
  induction items generalizing buffer with
  | nil => exact buffer.append_nil.symm
  | cons item items ih =>
      change (buffer.appendItem item).appendAll items = _
      rw [ih, appendItem_eq, append_append, List.flatMap_cons]

end Buffer

/-! ## Reading items -/

namespace Reader

open Buffer (Item ItemKind)

variable {σ : Type} [ByteSource σ]

/-- Reads an item of a kind. -/
def item : ItemKind → Reader σ Item
  | .byte => return .byte (← nextByte)
  | .u32 => return .u32 (← u32)
  | .i64 => return .i64 (← i64)

/-- Reads items of the given kinds, one after the other. -/
def items (kinds : List ItemKind) : Reader σ (List Item) :=
  kinds.mapM item

theorem follows_items (kinds : List ItemKind) :
    Follows BufferIterator.AmountsTo (items kinds) (items kinds) := by
  refine .mapM (fun kind => ?_) kinds
  cases kind with
  | byte => exact BufferIterator.tracks.nextByte.map _
  | u32 => exact BufferIterator.tracks.u32.map _
  | i64 => exact BufferIterator.tracks.i64.map _

variable {input after : Input}

theorem u32_of_written {value : UInt32}
    (hbytes : input.Consumed (writeUnsigned value.toNat) after) :
    u32 input = (.ok value, after) := by
  apply (recognizes_u32 _ _ _).mpr
  refine ⟨_, ⟨form_u32 value, ?_⟩, hbytes⟩
  rw [groupSum_writeUnsigned, UInt32.ofNat_toNat]

theorem i64_of_written {value : Int64}
    (hbytes : input.Consumed (writeSigned value.toInt) after) :
    i64 input = (.ok value, after) := by
  apply (recognizes_i64 _ _ _).mpr
  refine ⟨_, ⟨form_i64 value, ?_⟩, hbytes⟩
  rw [signedSum_writeSigned, Int64.ofInt_toInt]

theorem item_of_written {written : Item}
    (hbytes : input.Consumed written.bytes after) :
    item written.kind input = (.ok written, after) := by
  cases written with
  | byte value =>
      have hread : nextByte input = (.ok value, after) :=
        (recognizes_nextByte _ _ _).mpr ⟨[value], rfl, hbytes⟩
      exact bind_eq_ok_iff.mpr ⟨value, after, hread, rfl⟩
  | u32 value => exact bind_eq_ok_iff.mpr ⟨value, after, u32_of_written hbytes, rfl⟩
  | i64 value => exact bind_eq_ok_iff.mpr ⟨value, after, i64_of_written hbytes, rfl⟩

theorem items_of_written {written : List Item}
    (hbytes : input.Consumed (written.flatMap Item.bytes) after) :
    items (written.map Item.kind) input = (.ok written, after) := by
  induction written generalizing input with
  | nil =>
      rw [Input.consumed_nil_iff.mp hbytes]
      rfl
  | cons first more ih =>
      rw [List.flatMap_cons] at hbytes
      obtain ⟨middle, hfirst, hmore⟩ := hbytes.split
      have hread : items (more.map Item.kind) middle = (.ok more, after) := ih hmore
      unfold items
      rw [List.map_cons, List.mapM_cons]
      refine bind_eq_ok_iff.mpr ⟨first, middle, item_of_written hfirst, ?_⟩
      exact bind_eq_ok_iff.mpr ⟨more, after, hread, rfl⟩

end Reader

/-! ## Appending -/

/-- A value is appended in at most `most` bytes, and no fewer bytes are read as it. -/
structure Buffer.Shortest {α : Type} (append : Buffer → α → Buffer)
    (reader : Reader BufferIterator α) (most : Nat) (value : α) : Prop where
  bounded : ∀ buffer : Buffer, (append buffer value).size ≤ buffer.size + most
  minimal : ∀ (buffer : Buffer) (iterator : BufferIterator),
    buffer.size + iterator.remaining < (append buffer value).size →
      (reader iterator).1 ≠ .ok value

theorem Buffer.size_append (buffer : Buffer) (bytes : List UInt8) :
    (buffer.append bytes).size = buffer.size + bytes.length :=
  List.length_append

theorem Buffer.shortest_appendU32 (value : UInt32) :
    Shortest appendU32 Reader.u32 5 value where
  bounded buffer := by
    rw [appendU32, size_append]
    exact Nat.add_le_add_left (form_u32 value).short _
  minimal := by
    intro buffer iterator hfewer hread
    rw [appendU32, size_append, ← iterator.length_rest] at hfewer
    rw [(BufferIterator.tracks.u32 rfl).1] at hread
    have hlength : (writeUnsigned value.toNat).length ≤ iterator.toInput.rest.length :=
      Reader.length_writeUnsigned_le_of_u32 (Prod.ext hread rfl)
    omega

theorem Buffer.shortest_appendI64 (value : Int64) :
    Shortest appendI64 Reader.i64 10 value where
  bounded buffer := by
    rw [appendI64, size_append]
    exact Nat.add_le_add_left (form_i64 value).short _
  minimal := by
    intro buffer iterator hfewer hread
    rw [appendI64, size_append, ← iterator.length_rest] at hfewer
    rw [(BufferIterator.tracks.i64 rfl).1] at hread
    have hlength : (writeSigned value.toInt).length ≤ iterator.toInput.rest.length :=
      Reader.length_writeSigned_le_of_i64 (Prod.ext hread rfl)
    omega

/-- What is appended leaves the bytes before it alone and is read back from there up to
the end.  Integers are appended in the fewest bytes that are read as them. -/
theorem appended_items_are_read_back (buffer : Buffer) (items : List Buffer.Item) :
    (buffer.appendAll items).bytes.take buffer.size = buffer.bytes ∧
      (∃ iterator after, (buffer.appendAll items).iterator buffer.size = .ok iterator ∧
        Reader.items (items.map Buffer.Item.kind) iterator = (.ok items, after) ∧
        after.position = (buffer.appendAll items).size) ∧
      (∀ value, Buffer.Shortest Buffer.appendU32 Reader.u32 5 value) ∧
      ∀ value, Buffer.Shortest Buffer.appendI64 Reader.i64 10 value := by
  rw [buffer.appendAll_eq]
  have hrest : (buffer.append (items.flatMap Buffer.Item.bytes)).bytes.drop buffer.size =
      items.flatMap Buffer.Item.bytes := List.drop_left
  have hinside : buffer.size ≤ (buffer.append (items.flatMap Buffer.Item.bytes)).size := by
    rw [Buffer.size_append]
    exact Nat.le_add_right _ _
  refine ⟨List.take_left, ?_, Buffer.shortest_appendU32, Buffer.shortest_appendI64⟩
  obtain ⟨iterator, hiterator, hinput⟩ := Buffer.exists_iterator _ hinside
  rw [hrest] at hinput
  have hwhole : iterator.toInput.rest = items.flatMap Buffer.Item.bytes ++ [] := by
    rw [hinput, List.append_nil]
  obtain ⟨last, hread, hlast⟩ := BufferIterator.exists_read_eq
    (Reader.follows_items (items.map Buffer.Item.kind))
    (Reader.items_of_written (Input.consumed_of_rest hwhole))
  refine ⟨iterator, last, hiterator, hread, ?_⟩
  rw [Buffer.size_append]
  rw [hinput] at hlast
  exact congrArg Input.position hlast

end Disassembly
