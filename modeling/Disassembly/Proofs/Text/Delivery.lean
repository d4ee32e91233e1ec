import Disassembly.Proofs.Text.Layout

/-!
# Texts that are delivered as bytes

A stream delivers the bytes of a text, and it may break down before their end.
Lines are taken from it one after the other.  The bytes in front of a line feed
are a line on any stream, but those behind the last line feed are a line only if
the stream comes to its end.  The bytes that were delivered tell which lines were
complete.
-/

namespace Disassembly

namespace Text

/-- The byte of a line feed. -/
def lineFeed : UInt8 := 0x0A

variable {bytes line unfinished rest : List UInt8} {lines : List (List UInt8)} {size : Nat}

/-! ## Bytes and characters -/

theorem toNat_charOfByte (byte : UInt8) : (Char.ofNat byte.toNat).toNat = byte.toNat := by
  have hbyte := byte.toNat_lt
  have hvalid : byte.toNat.isValidChar := .inl (by omega)
  rw [Char.ofNat, dif_pos hvalid]
  rfl

/-- A text is as good as its bytes. -/
theorem bytes_ofBytes (bytes : List UInt8) : Text.bytes (ofBytes bytes) = bytes := by
  rw [Text.bytes, ofBytes, String.toList_ofList, List.map_map]
  refine List.map_id'' (fun byte => ?_) bytes
  rw [Function.comp_apply, toNat_charOfByte, UInt8.ofNat_toNat]

theorem charOfByte_injective : Function.Injective fun byte : UInt8 => Char.ofNat byte.toNat := by
  intro first second hsame
  have hcode := congrArg Char.toNat hsame
  rw [toNat_charOfByte, toNat_charOfByte] at hcode
  exact UInt8.toNat_inj.mp hcode

theorem lineFeed_mem_ofBytes_iff : '\n' ∈ (ofBytes bytes).toList ↔ lineFeed ∈ bytes := by
  have hfeed : '\n' = Char.ofNat lineFeed.toNat := rfl
  rw [ofBytes, String.toList_ofList, hfeed]
  exact List.mem_map_of_injective charOfByte_injective

/-- The bytes of lines that end in a line feed. -/
def ended (lines : List (List UInt8)) : List UInt8 :=
  lines.flatMap (· ++ [lineFeed])

theorem splitLines_append {pieces : List (List Char)} {last : List Char}
    (hpieces : ∀ piece ∈ pieces, '\n' ∉ piece) (hlast : '\n' ∉ last) :
    splitLines (pieces.flatMap (· ++ ['\n']) ++ last) = (pieces, last) := by
  induction pieces with
  | nil => exact splitLines_of_notMem hlast
  | cons piece pieces ih =>
      obtain ⟨hpiece, hpieces⟩ := List.forall_mem_cons.mp hpieces
      rw [List.flatMap_cons, List.append_assoc, List.append_assoc, List.singleton_append,
        splitLines_append_lineFeed hpiece, ih hpieces]

/-- The lines of a text are those of its bytes. -/
theorem splitLines_ofBytes (hlines : ∀ line ∈ lines, lineFeed ∉ line)
    (hrest : lineFeed ∉ rest) :
    splitLines (ofBytes (ended lines ++ rest)).toList =
      (lines.map fun line => (ofBytes line).toList, (ofBytes rest).toList) := by
  have hchars : (ofBytes (ended lines ++ rest)).toList =
      (lines.map fun line => (ofBytes line).toList).flatMap (· ++ ['\n']) ++
        (ofBytes rest).toList := by
    have hfeed : Char.ofNat lineFeed.toNat = '\n' := rfl
    simp only [ofBytes, ended, String.toList_ofList, List.map_append, List.map_flatMap,
      List.flatMap_map, List.map_cons, List.map_nil, hfeed]
  rw [hchars]
  refine splitLines_append ?_ (mt lineFeed_mem_ofBytes_iff.mp hrest)
  simpa [lineFeed_mem_ofBytes_iff] using hlines

theorem completeLines_ofBytes (hlines : ∀ line ∈ lines, lineFeed ∉ line)
    (hrest : lineFeed ∉ rest) :
    completeLines (ofBytes (ended lines ++ rest)) = lines.map ofBytes := by
  rw [completeLines, splitLines_ofBytes hlines hrest]
  simp

/-- The first bytes of a text are those of complete lines and of one that is unfinished. -/
structure BreaksOff (bytes : List UInt8) (size : Nat) (lines : List (List UInt8))
    (unfinished : List UInt8) : Prop where
  delivered : bytes.take size = ended lines ++ unfinished
  complete : ∀ line ∈ lines, lineFeed ∉ line
  unfinished : lineFeed ∉ unfinished

theorem BreaksOff.completeLines_eq (hbreaks : BreaksOff bytes size lines unfinished) :
    completeLines (firstBytes size (ofBytes bytes)) = lines.map ofBytes := by
  have hfirst : firstBytes size (ofBytes bytes) = ofBytes (ended lines ++ unfinished) := by
    rw [firstBytes, ofBytes, ofBytes, String.toList_ofList, ← List.map_take, hbreaks.delivered]
  rw [hfirst, completeLines_ofBytes hbreaks.complete hbreaks.unfinished]

/-! ## Streams -/

/-- What a stream still delivers, and whether it breaks down behind that. -/
structure Stream where
  bytes : List UInt8
  breaks : Bool

namespace Stream

variable {stream after : Stream} {text : String} {breaks : Bool}

end Stream

end Text

end Disassembly
