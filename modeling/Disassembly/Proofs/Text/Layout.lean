import Disassembly.Proofs.Text.Splitting

/-!
# Layouts of words on lines

Words may be laid out on a line with any blanks between and around them, as
long as two words do not touch, and with a comment behind them.  Lines are put
together with a line feed between any two of them.  No layout makes a
difference to what is read: the words of a line are the words that were laid
out on it, and the lines are those that were put together, except that an empty
line at the very end leaves no trace.
-/

namespace Disassembly

namespace Text

/-- The characters of words with blanks around them. -/
inductive Spaced : List String → List Char → Prop where
  | none (gap : List Char) (hgap : ∀ c ∈ gap, isBlank c) : Spaced [] gap
  | word {word : String} {words : List String} {rest : List Char} (gap : List Char)
      (hgap : ∀ c ∈ gap, isBlank c) (happart : ∀ c ∈ rest.head?, isBlank c)
      (hrest : Spaced words rest) :
      Spaced (word :: words) (gap ++ word.toList ++ rest)

/-- A line on which words are laid out, with or without a comment. -/
inductive OnLine : List String → String → Prop where
  | plain {words : List String} {cs : List Char} (hwords : Spaced words cs) :
      OnLine words (String.ofList cs)
  | commented {words : List String} {cs : List Char} (comment : List Char)
      (hcomment : '\n' ∉ comment) (hwords : Spaced words cs) :
      OnLine words (String.ofList (cs ++ '#' :: comment))

/-- A text of lines, with or without a line feed behind the last one. -/
def IsMadeOf (text : String) (lines : List String) : Prop :=
  text = String.intercalate "\n" lines ∨ text = String.intercalate "\n" lines ++ "\n"

variable {words lines : List String} {cs gap rest : List Char} {line last text : String}

/-! ## Words -/

theorem wordsFrom_blanks (hgap : ∀ c ∈ gap, isBlank c) (rest : List Char) :
    wordsFrom [] (gap ++ rest) = wordsFrom [] rest := by
  induction gap with
  | nil => rfl
  | cons c gap ih =>
      obtain ⟨hblank, hgap⟩ := List.forall_mem_cons.mp hgap
      rw [List.cons_append, wordsFrom, if_pos hblank, ih hgap]
      rfl

theorem wordsFrom_word {word : List Char} (hsome : word ≠ [])
    (hword : ∀ c ∈ word, isBlank c = false) (happart : ∀ c ∈ rest.head?, isBlank c) :
    wordsFrom [] (word ++ rest) = word :: wordsFrom [] rest := by
  rw [wordsFrom_append hword, List.append_nil]
  cases rest with
  | nil => simp [wordsFrom, hsome]
  | cons c rest =>
      have hblank : isBlank c := happart c rfl
      simp [wordsFrom, hblank, hsome]

theorem Spaced.wordsFrom_eq (hspaced : Spaced words cs)
    (hwords : ∀ word ∈ words, isWord word) :
    wordsFrom [] cs = words.map String.toList := by
  induction hspaced with
  | none gap hgap => simpa [wordsFrom] using wordsFrom_blanks hgap []
  | word gap hgap happart _ ih =>
      obtain ⟨hword, hwords⟩ := List.forall_mem_cons.mp hwords
      obtain ⟨hsome, hplain⟩ := isWord_iff.mp hword
      rw [List.append_assoc, wordsFrom_blanks hgap,
        wordsFrom_word hsome (fun c hc => (isPlain_iff.mp (hplain c hc)).1) happart,
        ih hwords, List.map_cons]

theorem Spaced.blank_or_plain (hspaced : Spaced words cs)
    (hwords : ∀ word ∈ words, isWord word) {c : Char} (hc : c ∈ cs) :
    isBlank c ∨ isPlain c := by
  induction hspaced with
  | none gap hgap => exact .inl (hgap c hc)
  | word gap hgap _ _ ih =>
      obtain ⟨hword, hwords⟩ := List.forall_mem_cons.mp hwords
      simp only [List.mem_append] at hc
      rcases hc with (hgap' | hword') | hrest
      · exact .inl (hgap c hgap')
      · exact .inr ((isWord_iff.mp hword).2 c hword')
      · exact ih hwords hrest

theorem Spaced.notMem (hspaced : Spaced words cs)
    (hwords : ∀ word ∈ words, isWord word)
    {c : Char} (hblank : isBlank c = false) (hplain : isPlain c = false) : c ∉ cs := by
  intro hc
  simpa [hblank, hplain] using hspaced.blank_or_plain hwords hc

theorem Spaced.takeWhile_eq (hspaced : Spaced words cs)
    (hwords : ∀ word ∈ words, isWord word) (hrest : ∀ c ∈ rest.head?, c = '#') :
    (cs ++ rest).takeWhile (· ≠ '#') = cs := by
  have hinside : ∀ c ∈ cs, decide (c ≠ '#') = true := by
    intro c hc
    simpa using ne_of_mem_of_not_mem hc (hspaced.notMem hwords rfl rfl)
  have hstop : rest.takeWhile (· ≠ '#') = [] := by
    cases rest with
    | nil => rfl
    | cons c rest => simp [hrest c rfl]
  rw [List.takeWhile_append_of_pos hinside, hstop, List.append_nil]

/-- The words of a line are the words that were laid out on it. -/
theorem OnLine.words_eq (hline : OnLine words line)
    (hwords : ∀ word ∈ words, isWord word) :
    Text.words (withoutComment line) = words := by
  have hread {cs : List Char} (hspaced : Spaced words cs) (rest : List Char)
      (hrest : ∀ c ∈ rest.head?, c = '#') :
      Text.words (withoutComment (String.ofList (cs ++ rest))) = words := by
    rw [withoutComment, String.toList_ofList, hspaced.takeWhile_eq hwords hrest,
      Text.words, String.toList_ofList, hspaced.wordsFrom_eq hwords]
    simp
  cases hline with
  | plain hspaced => simpa using hread hspaced [] (by simp)
  | commented comment _ hspaced => exact hread hspaced _ (by simp)

theorem OnLine.lineFeed_notMem (hline : OnLine words line)
    (hwords : ∀ word ∈ words, isWord word) : '\n' ∉ line.toList := by
  cases hline with
  | plain hspaced =>
      rw [String.toList_ofList]
      exact hspaced.notMem hwords rfl rfl
  | commented comment hcomment hspaced =>
      have hnone := hspaced.notMem hwords (c := '\n') rfl rfl
      simp [hnone, hcomment]

/-! ## Lines -/

theorem splitLines_of_notMem (hline : '\n' ∉ cs) : splitLines cs = ([], cs) := by
  induction cs with
  | nil => rfl
  | cons c cs ih =>
      rw [List.mem_cons, not_or] at hline
      simp [splitLines, ih hline.2, Ne.symm hline.1]

theorem splitLines_intercalate {lines : List (List Char)} {last : List Char}
    (hlines : ∀ line ∈ lines, '\n' ∉ line) (hlast : '\n' ∉ last) :
    splitLines (['\n'].intercalate (lines ++ [last])) = (lines, last) := by
  induction lines with
  | nil => simpa using splitLines_of_notMem hlast
  | cons line lines ih =>
      obtain ⟨hline, hlines⟩ := List.forall_mem_cons.mp hlines
      rw [List.cons_append, List.intercalate_cons_of_ne_nil (by simp),
        List.append_assoc, List.singleton_append, splitLines_append_lineFeed hline,
        ih hlines]

/-- An empty line behind the last line feed is not a line. -/
theorem lines_intercalate (hlines : ∀ line ∈ lines, '\n' ∉ line.toList)
    (hlast : '\n' ∉ last.toList) :
    Text.lines (String.intercalate "\n" (lines ++ [last])) =
      if last = "" then lines else lines ++ [last] := by
  have hsplit :
      splitLines (String.intercalate "\n" (lines ++ [last])).toList =
        (lines.map String.toList, last.toList) := by
    rw [← splitLines_intercalate (by simpa using hlines) hlast]
    simp [String.toList_intercalate]
  rw [Text.lines, hsplit]
  by_cases hempty : last = ""
  · simp [hempty]
  · simp [hempty]

theorem intercalate_append_lineFeed :
    String.intercalate "\n" (lines ++ [last]) ++ "\n" =
      String.intercalate "\n" ((lines ++ [last]) ++ [""]) := by
  have hsome : lines ++ [last] ≠ [] := by simp
  rw [String.intercalate_append_of_ne_nil hsome (List.cons_ne_nil "" []),
    String.intercalate_singleton, String.append_empty]

/-- The lines of a text are those that it is made of, up to an empty last one. -/
theorem IsMadeOf.lines_eq (htext : IsMadeOf text lines)
    (hlines : ∀ line ∈ lines, '\n' ∉ line.toList) :
    ∃ common, (Text.lines text = common ∨ Text.lines text = common ++ [""]) ∧
      (lines = common ∨ lines = common ++ [""]) := by
  rcases List.eq_nil_or_concat lines with rfl | ⟨front, last, rfl⟩
  · refine ⟨[], ?_, .inl rfl⟩
    rcases htext with rfl | rfl
    · exact .inl rfl
    · exact .inr rfl
  · rw [List.concat_eq_append] at htext hlines ⊢
    obtain ⟨hfront, hlast⟩ := List.forall_mem_append.mp hlines
    rw [List.forall_mem_singleton] at hlast
    rcases htext with rfl | rfl
    · rw [lines_intercalate hfront hlast]
      by_cases hempty : last = ""
      · exact ⟨front, .inl (if_pos hempty), .inr (by rw [hempty])⟩
      · exact ⟨front ++ [last], .inl (if_neg hempty), .inl rfl⟩
    · rw [intercalate_append_lineFeed, lines_intercalate hlines (by simp)]
      exact ⟨front ++ [last], .inl (if_pos rfl), .inl rfl⟩

end Text

end Disassembly
