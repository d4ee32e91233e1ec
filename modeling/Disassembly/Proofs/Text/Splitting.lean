import Disassembly.Text
import Mathlib.Data.List.TakeWhile
import Mathlib.Tactic

/-!
# Texts that are put together from words and lines

A text that was put together from words, with a space between any two of them,
is split into the same words again, and one that was put together from lines is
split into the same lines.  This asks of a word that it has characters, none of
which is a blank, and of a line that it holds no line feed.  A word that holds
no number sign either does not start a comment.
-/

namespace Disassembly

/-- What ends the front of a list is found where it comes first. -/
theorem append_cons_inj {α : Type} {stop : α} {first second more others : List α}
    (hfirst : stop ∉ first) (hsecond : stop ∉ second)
    (hlists : first ++ stop :: more = second ++ stop :: others) :
    first = second ∧ more = others := by
  induction first generalizing second with
  | nil =>
      cases second with
      | nil => exact ⟨rfl, (List.cons.inj hlists).2⟩
      | cons other second =>
          exact absurd (List.mem_cons.mpr (.inl (List.cons.inj hlists).1)) hsecond
  | cons head first ih =>
      rw [List.mem_cons, not_or] at hfirst
      cases second with
      | nil => exact absurd (List.cons.inj hlists).1.symm hfirst.1
      | cons other second =>
          rw [List.mem_cons, not_or] at hsecond
          obtain ⟨hhead, hmore⟩ := List.cons.inj hlists
          obtain ⟨hsame, hrest⟩ := ih hfirst.2 hsecond.2 hmore
          exact ⟨by rw [hhead, hsame], hrest⟩

namespace Text

/-! ## Words -/

/-- A character that ends neither a word nor a line, and starts no comment. -/
def isPlain (c : Char) : Bool :=
  !isBlank c && c != '#' && c != '\n'

def isWord (word : String) : Bool :=
  !word.toList.isEmpty && word.toList.all isPlain

variable {word : String} {words : List String}

theorem isPlain_iff {c : Char} :
    isPlain c ↔ isBlank c = false ∧ c ≠ '#' ∧ c ≠ '\n' := by
  simp [isPlain, and_assoc]

/-- The characters that are not plain come no later than the number sign. -/
theorem isPlain_of_lt_toNat {c : Char} (hc : 35 < c.toNat) : isPlain c := by
  have hother : ∀ other ∈ [' ', '\t', '\r', '#', '\n'], c ≠ other := by
    rintro other hmem rfl
    revert hc
    simp at hmem
    rcases hmem with rfl | rfl | rfl | rfl | rfl <;> decide
  simp_all [isPlain, isBlank]

theorem isWord_iff :
    isWord word ↔ word.toList ≠ [] ∧ ∀ c ∈ word.toList, isPlain c := by
  simp [isWord]

theorem wordsFrom_append
    {piece : List Char} (hpiece : ∀ c ∈ piece, isBlank c = false)
    (current rest : List Char) :
    wordsFrom current (piece ++ rest) =
      wordsFrom (piece.reverse ++ current) rest := by
  induction piece generalizing current with
  | nil => simp
  | cons c piece ih =>
      obtain ⟨hblank, hpiece⟩ := List.forall_mem_cons.mp hpiece
      rw [List.cons_append, wordsFrom, if_neg (by simp [hblank]), ih hpiece]
      simp

/-- A space ends the word in front of it. -/
theorem wordsFrom_append_space
    {piece : List Char} (hnonempty : piece ≠ [])
    (hpiece : ∀ c ∈ piece, isBlank c = false) (rest : List Char) :
    wordsFrom [] (piece ++ ' ' :: rest) = piece :: wordsFrom [] rest := by
  have hspace : isBlank ' ' = true := rfl
  rw [wordsFrom_append hpiece, wordsFrom, if_pos hspace]
  simp [hnonempty]

theorem wordsFrom_intercalate {pieces : List (List Char)}
    (hpieces : ∀ piece ∈ pieces,
      piece ≠ [] ∧ ∀ c ∈ piece, isBlank c = false) :
    wordsFrom [] ([' '].intercalate pieces) = pieces := by
  induction pieces with
  | nil => rfl
  | cons piece pieces ih =>
      obtain ⟨⟨hnonempty, hpiece⟩, hpieces⟩ := List.forall_mem_cons.mp hpieces
      cases pieces with
      | nil =>
          have hlast := wordsFrom_append hpiece [] []
          simpa [wordsFrom, hnonempty] using hlast
      | cons next pieces =>
          rw [List.intercalate_cons_cons, List.append_assoc, List.singleton_append,
            wordsFrom_append_space hnonempty hpiece, ih hpieces]

/-- Words that were put together are split again. -/
theorem words_intercalate (hwords : ∀ word ∈ words, isWord word) :
    Text.words (String.intercalate " " words) = words := by
  have hpieces : ∀ piece ∈ words.map String.toList,
      piece ≠ [] ∧ ∀ c ∈ piece, isBlank c = false := by
    intro piece hpiece
    obtain ⟨word, hword, rfl⟩ := List.mem_map.mp hpiece
    obtain ⟨hnonempty, hplain⟩ := isWord_iff.mp (hwords word hword)
    exact ⟨hnonempty, fun c hc => (isPlain_iff.mp (hplain c hc)).1⟩
  calc
    Text.words (String.intercalate " " words)
    _ = (wordsFrom [] ([' '].intercalate (words.map String.toList))).map
          String.ofList := by
      rw [Text.words, String.toList_intercalate]
      rfl
    _ = (words.map String.toList).map String.ofList := by
      rw [wordsFrom_intercalate hpieces]
    _ = words := by simp

/-- What is put together from words has spaces besides the characters of the words. -/
theorem mem_intercalate (hwords : ∀ word ∈ words, isWord word)
    {c : Char} (hc : c ∈ (String.intercalate " " words).toList) :
    c = ' ' ∨ isPlain c := by
  induction words with
  | nil => simp at hc
  | cons word words ih =>
      obtain ⟨hword, hwords⟩ := List.forall_mem_cons.mp hwords
      have hplain := (isWord_iff.mp hword).2
      cases words with
      | nil => exact .inr (hplain c (by simpa using hc))
      | cons next words =>
          rw [String.intercalate_cons_cons] at hc
          simp only [String.toList_append, List.mem_append] at hc
          rcases hc with (hfirst | hspace) | hmore
          · exact .inr (hplain c hfirst)
          · exact .inl (by simpa using hspace)
          · exact ih hwords hmore

/-! ## Lines -/

theorem withoutComment_of_notMem {line : String} (hline : '#' ∉ line.toList) :
    withoutComment line = line := by
  have hall : line.toList.takeWhile (· ≠ '#') = line.toList := by
    rw [List.takeWhile_eq_self_iff]
    intro c hc
    have hne : c ≠ '#' := by
      rintro rfl
      exact hline hc
    simpa using hne
  rw [withoutComment, hall, String.ofList_toList]

/-- A line feed ends the line in front of it. -/
theorem splitLines_append_lineFeed
    {line : List Char} (hline : '\n' ∉ line) (rest : List Char) :
    splitLines (line ++ '\n' :: rest) =
      (line :: (splitLines rest).1, (splitLines rest).2) := by
  induction line with
  | nil => simp [splitLines]
  | cons c line ih =>
      rw [List.mem_cons, not_or] at hline
      simp [splitLines, ih hline.2, Ne.symm hline.1]

theorem splitLines_flatMap {lines : List (List Char)}
    (hlines : ∀ line ∈ lines, '\n' ∉ line) :
    splitLines (lines.flatMap (· ++ ['\n'])) = (lines, []) := by
  induction lines with
  | nil => rfl
  | cons line lines ih =>
      obtain ⟨hline, hlines⟩ := List.forall_mem_cons.mp hlines
      rw [List.flatMap_cons, List.append_assoc, List.singleton_append,
        splitLines_append_lineFeed hline, ih hlines]

/-- Lines that were put together are split again. -/
theorem lines_join {lines : List String}
    (hlines : ∀ line ∈ lines, '\n' ∉ line.toList) :
    Text.lines (String.join (lines.map (· ++ "\n"))) = lines := by
  have hsplit :
      splitLines (String.join (lines.map (· ++ "\n"))).toList =
        (lines.map String.toList, []) := by
    rw [← splitLines_flatMap (by simpa using hlines)]
    simp [List.flatMap_map]
  rw [Text.lines, hsplit]
  simp

end Text

end Disassembly
