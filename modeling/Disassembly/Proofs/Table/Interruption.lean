import Disassembly.Proofs.Table.Legality
import Disassembly.Proofs.Text.Delivery

/-!
# Sources that break down

A table is read from a stream line by line, and the first line that does not
fit is blamed.  A stream that breaks down is noticed when no further line can be
taken from it.  By then its complete lines have been added, so that a fault of
one of them is reported as if the stream had ended behind them.  If they have no
fault, the table is refused because of the stream, whether or not it maps the
end of blocks.  What the stream delivered behind its last line feed is never
looked at.

Lines are counted in words.  A word names the line itself as long as there are
fewer lines than words, and a source of more lines can be refused without any
line.
-/

namespace Disassembly

open Text (ofBytes lineFeed ended Stream BreaksOff)

namespace Row

end Row

namespace Table

variable {table grown : Table} {source line : String} {stream after : Stream}
variable {number : UInt32} {size : Nat} {bytes unfinished : List UInt8}
variable {lines : List (List UInt8)} {texts : List String}

/-! ## Steps -/

/-- The outcome is that of the complete lines, unless they fit. -/
theorem ofBrokenText_of_breaksOff (hbreaks : BreaksOff bytes size lines unfinished) :
    ofBrokenText source (ofBytes bytes) size =
      (addAll addLine (empty source) (numbered 1 (lines.map ofBytes))).bind fun _ =>
        .error ⟨source, UInt32.ofNat lines.length, .unreadable⟩ := by
  rw [ofBrokenText, hbreaks.completeLines_eq, List.length_map]
  rfl

/-- Empty lines are added without a change. -/
theorem addAll_blank (table : Table) (first : UInt32) (count : Nat) :
    addAll addLine table (numbered first (List.replicate count "")) = .ok table := by
  have hblank : table.addLine "" = .ok table := rfl
  induction count generalizing first with
  | zero => rfl
  | succ count ih =>
      rw [List.replicate_succ, numbered, addAll]
      simp only [hblank]
      exact ih (first + 1)

/-- A source that breaks down behind empty lines is refused with the word of their number. -/
theorem ofBrokenText_blank (source : String) (count : Nat) :
    ofBrokenText source (ofBytes (List.replicate count lineFeed)) count =
      .error ⟨source, UInt32.ofNat count, .unreadable⟩ := by
  have hended (count : Nat) :
      List.replicate count lineFeed = ended (List.replicate count []) := by
    induction count with
    | zero => rfl
    | succ count ih =>
        rw [List.replicate_succ, List.replicate_succ, ih]
        rfl
  have hbreaks : BreaksOff (List.replicate count lineFeed) count (List.replicate count []) [] := by
    refine ⟨?_, ?_, by simp⟩
    · rw [List.append_nil, ← hended, List.take_replicate, Nat.min_self]
    · intro line hline
      simp [List.eq_of_mem_replicate hline]
  rw [ofBrokenText_of_breaksOff hbreaks, List.map_replicate, List.length_replicate]
  have hempty : ofBytes [] = "" := rfl
  rw [hempty, addAll_blank]
  rfl

/-- Behind as many lines as there are words the breakdown is blamed on no line. -/
theorem overlong_sources_lose_their_line :
    ofBrokenText "long" (ofBytes (List.replicate (2 ^ 32) lineFeed)) (2 ^ 32) =
        .error ⟨"long", 0, .unreadable⟩ ∧
      (0 : UInt32).toNat ≠ 2 ^ 32 := by
  have hwraps : UInt32.ofNat (2 ^ 32) = 0 := by decide
  rw [ofBrokenText_blank, hwraps]
  exact ⟨rfl, by decide⟩

end Table

end Disassembly
