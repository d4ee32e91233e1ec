import Disassembly.Proofs.Table.ReadBack
import Disassembly.Proofs.Text.Layout
import Disassembly.Proofs.Text.Numerals

/-!
# Renderings of rows as text

A text renders a list of rows if it has a line for each of them, in their
order, and besides that only blank lines and comments.  On its line a row is
spelled out in words, which may be laid out freely.  Whether a table is read
from the text or built from the rows makes no difference, except that a fault
of a row is reported with the number of the row in one case and with the number
of its line in the other one.

The faults of a row do not depend on how it is written because the words of its
fields are joined and split again on both ways.
-/

namespace Disassembly

open Text (isWord)

namespace Row

/-- A row whose words can be told apart when they stand on a line. -/
structure Writable (row : Row) : Prop where
  name : isWord row.name
  words : ∀ word ∈ row.words, isWord word
  apart : row.opcode.second? = none → Numeral.byte? row.name = none

/-- A line on which the bytes, the name and the fields of a row are spelled out. -/
def WrittenOn (row : Row) (line : String) : Prop :=
  ∃ spelled,
    List.Forall₂ (fun word byte => Numeral.Spells word byte.toNat) spelled
      row.opcode.bytes ∧
    Text.OnLine (spelled ++ row.name :: row.words) line

/-- Rows on lines, with the numbers of their lines when the first line has number `first`. -/
inductive Rendered : (first : Nat) → List String → List Row → List Nat → Prop where
  | done {first : Nat} : Rendered first [] [] []
  | blank {first : Nat} {line : String} {lines : List String} {rows : List Row}
      {numbers : List Nat} (hline : Text.OnLine [] line)
      (hlines : Rendered (first + 1) lines rows numbers) :
      Rendered first (line :: lines) rows numbers
  | row {first : Nat} {line : String} {lines : List String} {row : Row}
      {rows : List Row} {numbers : List Nat} (hline : row.WrittenOn line)
      (hlines : Rendered (first + 1) lines rows numbers) :
      Rendered first (line :: lines) (row :: rows) (first :: numbers)

variable {row : Row} {line : String}

/-! ## Lines -/

theorem ofLine?_of_blank (hline : Text.OnLine [] line) : ofLine? line = .ok none := by
  unfold ofLine?
  rw [hline.words_eq (by simp)]
  rfl

theorem Writable.forall_isWord (hrow : row.Writable) {spelled : List String}
    (hspelled :
      List.Forall₂ (fun word byte => Numeral.Spells word byte.toNat) spelled
        row.opcode.bytes) :
    ∀ word ∈ spelled ++ row.name :: row.words, isWord word := by
  rw [List.forall_mem_append, List.forall_mem_cons]
  refine ⟨?_, hrow.name, hrow.words⟩
  intro word hword
  obtain ⟨byte, _, hspells⟩ := Table.exists_of_forall₂_of_mem hspelled hword
  exact hspells.isWord

theorem WrittenOn.lineFeed_notMem (hline : row.WrittenOn line) (hrow : row.Writable) :
    '\n' ∉ line.toList := by
  obtain ⟨spelled, hspelled, hwords⟩ := hline
  exact hwords.lineFeed_notMem (hrow.forall_isWord hspelled)

/-- A line is read as the row that is written on it, with its words put together anew. -/
theorem WrittenOn.ofLine?_eq (hline : row.WrittenOn line) (hrow : row.Writable) :
    ofLine? line =
      .ok (some ⟨row.opcode, row.name, String.intercalate " " row.words⟩) := by
  obtain ⟨spelled, hspelled, hwords⟩ := hline
  unfold ofLine?
  rw [hwords.words_eq (hrow.forall_isWord hspelled)]
  have happart := hrow.apart
  rcases row with ⟨⟨lead, second?⟩, name, fields⟩
  -- The word behind the first byte is tried as a byte before it is taken as a name.
  cases second? with
  | none =>
      obtain ⟨first, more, hfirst, hmore, rfl⟩ := List.forall₂_cons_right_iff.mp hspelled
      rw [Option.toList_none, List.forall₂_nil_right_iff] at hmore
      subst hmore
      simp [hfirst.byte?_eq, happart rfl, pure, Except.pure]
  | some second =>
      obtain ⟨first, more, hfirst, hmore, rfl⟩ := List.forall₂_cons_right_iff.mp hspelled
      obtain ⟨next, rest, hnext, hrest, rfl⟩ := List.forall₂_cons_right_iff.mp hmore
      rw [List.forall₂_nil_right_iff] at hrest
      subst hrest
      simp [hfirst.byte?_eq, hnext.byte?_eq, pure, Except.pure]

end Row

namespace Table

variable {table : Table} {row : Row} {line : String}

/-! ## Adding lines and rows -/

theorem insertRow_words (hrow : row.Writable) :
    table.insertRow ⟨row.opcode, row.name, String.intercalate " " row.words⟩ =
      table.insertRow row := by
  have hwords : Text.words (String.intercalate " " row.words) = Text.words row.fields :=
    Text.words_intercalate hrow.words
  simp only [insertRow, Entry.ofRow, hwords]

theorem addLine_of_blank (hline : Text.OnLine [] line) :
    table.addLine line = .ok table := by
  rw [addLine, Row.ofLine?_of_blank hline]
  rfl

theorem addLine_of_writtenOn (hline : row.WrittenOn line) (hrow : row.Writable) :
    table.addLine line = table.insertRow row := by
  rw [addLine, hline.ofLine?_eq hrow, ← insertRow_words hrow]
  rfl

/-- Lines add the rows that are written on them under the words of their numbers. -/
theorem addAll_addLine {first : Nat} {lines : List String} {rows : List Row}
    {numbers : List Nat} (hlines : Row.Rendered first lines rows numbers)
    (hrows : ∀ row ∈ rows, row.Writable) :
    addAll addLine table (numbered (UInt32.ofNat first) lines) =
      addAll insertRow table (rows.zip (numbers.map UInt32.ofNat)) := by
  have hnext (first : Nat) : UInt32.ofNat first + 1 = UInt32.ofNat (first + 1) :=
    (UInt32.ofNat_add first 1).symm
  induction hlines generalizing table with
  | done => rfl
  | blank hline _ ih =>
      rw [numbered, addAll, addLine_of_blank hline, hnext]
      exact ih hrows
  | row hline _ ih =>
      obtain ⟨hrow, hrows⟩ := List.forall_mem_cons.mp hrows
      rw [numbered, List.map_cons, List.zip_cons_cons, addAll, addAll,
        addLine_of_writtenOn hline hrow, hnext]
      split
      next => exact ih hrows
      next => rfl

theorem addAll_append_empty {lines : List String} {first : UInt32} :
    addAll addLine table (numbered first (lines ++ [""])) =
      addAll addLine table (numbered first lines) := by
  have hempty (table : Table) (number : UInt32) :
      addAll addLine table (numbered number [""]) = .ok table := rfl
  rw [numbered_append, addAll_append]
  cases addAll addLine table (numbered first lines) with
  | ok grown => exact hempty grown (first + UInt32.ofNat lines.length)
  | error error => rfl

theorem addAll_of_isMadeOf {lines : List String} {text : String} {first : UInt32}
    (htext : Text.IsMadeOf text lines) (hlines : ∀ line ∈ lines, '\n' ∉ line.toList) :
    addAll addLine table (numbered first (Text.lines text)) =
      addAll addLine table (numbered first lines) := by
  obtain ⟨common, hread, hmade⟩ := htext.lines_eq hlines
  calc
    addAll addLine table (numbered first (Text.lines text))
    _ = addAll addLine table (numbered first common) := by
      rcases hread with hread | hread
      · rw [hread]
      · rw [hread, addAll_append_empty]
    _ = addAll addLine table (numbered first lines) := by
      rcases hmade with hmade | hmade
      · rw [hmade]
      · rw [hmade, addAll_append_empty]

/-! ## Numbers of rows and of lines -/

end Table

theorem Row.Rendered.lineFeed_notMem {first : Nat} {lines : List String} {rows : List Row}
    {numbers : List Nat} (hlines : Row.Rendered first lines rows numbers)
    (hrows : ∀ row ∈ rows, row.Writable) :
    ∀ line ∈ lines, '\n' ∉ line.toList := by
  induction hlines with
  | done => simp
  | blank hline _ ih =>
      exact List.forall_mem_cons.mpr ⟨hline.lineFeed_notMem (by simp), ih hrows⟩
  | row hline _ ih =>
      obtain ⟨hrow, hrows⟩ := List.forall_mem_cons.mp hrows
      exact List.forall_mem_cons.mpr ⟨hline.lineFeed_notMem hrow, ih hrows⟩

namespace Table

section Agreement

variable {lines : List String} {rows : List Row} {numbers : List Nat}
variable {text textSource rowSource : String}

end Agreement

theorem rendered_behind_blank (first count : Nat) (hline : row.WrittenOn line) :
    Row.Rendered first (List.replicate count "" ++ [line]) [row] [first + count] := by
  induction count generalizing first with
  | zero => exact .row hline .done
  | succ count ih =>
      have hlater := ih (first + 1)
      rw [Nat.add_assoc, Nat.add_comm 1] at hlater
      exact .blank (.plain (.none [] (by simp))) hlater

/-- Behind as many blank lines as there are words, the first line is blamed for a row. -/
theorem overlong_texts_misname_lines :
    let row : Row := ⟨.single 0x01, "foo", ""⟩
    let lines := List.replicate (2 ^ 32) "" ++ ["1 foo"]
    row.Writable ∧ Row.Rendered 1 lines [row] [1 + 2 ^ 32] ∧
      ∀ text, Text.IsMadeOf text lines →
        ofText "long" text = .error ⟨"long", 1, .unknownInstruction "foo"⟩ := by
  intro row lines
  have hrow : row.Writable := ⟨by decide, by decide, by decide⟩
  have hspace : Text.isBlank ' ' := rfl
  have hlead : Numeral.Spells "1" 1 := .decimal [1] (by decide) (by decide)
  have hline : row.WrittenOn "1 foo" := by
    have hspelled : Text.OnLine ["1", "foo"] "1 foo" :=
      .plain (.word [] (by simp) (by simp [hspace])
        (.word [' '] (by simp [hspace]) (by simp) (.none [] (by simp))))
    have hwords : row.words = [] := by decide
    refine ⟨["1"], .cons hlead .nil, ?_⟩
    rw [hwords]
    exact hspelled
  have hlines : Row.Rendered 1 lines [row] [1 + 2 ^ 32] := rendered_behind_blank 1 (2 ^ 32) hline
  refine ⟨hrow, hlines, fun text htext => ?_⟩
  have hrows : ∀ other ∈ [row], other.Writable := by simpa using hrow
  have hword : [1 + 2 ^ 32].map UInt32.ofNat = [1] := by decide
  have hfirst : UInt32.ofNat 1 = 1 := rfl
  rw [ofText, addAll_of_isMadeOf htext (hlines.lineFeed_notMem hrows), ← hfirst,
    addAll_addLine hlines hrows, hword]
  rfl

end Table

end Disassembly
