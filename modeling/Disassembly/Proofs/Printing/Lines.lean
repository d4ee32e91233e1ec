import Disassembly.Proofs.Conformance.Access
import Disassembly.Proofs.Text.Splitting

/-!
# The lines of a print

A print consists of lines.  A line has an indentation and words with a space between
any two of them, and both can be told from its text.  An instruction has a line with
its name and its operands.  The lines of a nested sequence come after it, indented by
one level, and a line with a single word behind each sequence tells whether there is
another one.

This is how instructions are printed whose operands have the form that their type is
bound to and that hold sequences nowhere else.
-/

namespace Disassembly

open Text (isWord)
open Printout (write)

/-! ## Texts of lines -/

/-- A line of a print. -/
structure Line where
  indent : Nat
  words : List String
deriving DecidableEq, Repr

namespace Line

def text (line : Line) : String :=
  Instruction.indentation line.indent ++ String.intercalate " " line.words

/-- The line with a text. -/
def ofText (text : String) : Line :=
  let words := Text.words text
  ⟨(text.length - (String.intercalate " " words).length) / 2, words⟩

/-- The text of lines, each of which ends in a line feed. -/
def textOfAll (lines : List Line) : String :=
  String.join (lines.map fun line => line.text ++ "\n")

def Legible (line : Line) : Prop :=
  ∀ word ∈ line.words, isWord word

variable {line : Line} {lines : List Line}

theorem toList_indentation (indent : Nat) :
    (Instruction.indentation indent).toList = List.replicate (2 * indent) ' ' := by
  induction indent with
  | zero => rfl
  | succ indent ih =>
      rw [Instruction.indentation, List.replicate_succ, String.join_cons,
        String.toList_append, ← Instruction.indentation, ih]
      rfl

theorem wordsFrom_replicate_space (count : Nat) (rest : List Char) :
    Text.wordsFrom [] (List.replicate count ' ' ++ rest) = Text.wordsFrom [] rest := by
  have hspace : Text.isBlank ' ' = true := rfl
  induction count with
  | zero => rfl
  | succ count ih =>
      rw [List.replicate_succ, List.cons_append, Text.wordsFrom, if_pos hspace, ih]
      rfl

theorem Legible.words_text (hline : line.Legible) : Text.words line.text = line.words := by
  calc Text.words line.text
      = Text.words (String.intercalate " " line.words) := by
        rw [text, Text.words, String.toList_append, toList_indentation,
          wordsFrom_replicate_space]
        rfl
    _ = line.words := Text.words_intercalate hline

theorem Legible.ofText_text (hline : line.Legible) : ofText line.text = line := by
  have hlength : line.text.length =
      2 * line.indent + (String.intercalate " " line.words).length := by
    rw [text, String.length_append, ← String.length_toList, toList_indentation,
      List.length_replicate]
  rw [ofText, hline.words_text, hlength, Nat.add_sub_cancel,
    Nat.mul_div_cancel_left _ Nat.two_pos]

theorem Legible.lineFeed_notMem_text (hline : line.Legible) :
    '\n' ∉ line.text.toList := by
  rw [text, String.toList_append, toList_indentation, List.mem_append]
  rintro (hspace | hword)
  · exact absurd (List.eq_of_mem_replicate hspace) (by decide)
  · rcases Text.mem_intercalate hline hword with hspace | hplain
    · exact absurd hspace (by decide)
    · exact absurd hplain (by decide)

/-- Lines are told from their text. -/
theorem map_ofText_textOfAll (hlines : ∀ line ∈ lines, line.Legible) :
    (Text.lines (textOfAll lines)).map ofText = lines := by
  have hfeeds : ∀ printed ∈ lines.map text, '\n' ∉ printed.toList := by
    intro printed hprinted
    obtain ⟨line, hline, rfl⟩ := List.mem_map.mp hprinted
    exact (hlines line hline).lineFeed_notMem_text
  have hread : Text.lines (textOfAll lines) = lines.map text := by
    rw [textOfAll, ← Text.lines_join hfeeds, List.map_map]
    rfl
  calc (Text.lines (textOfAll lines)).map ofText
      = lines.map (ofText ∘ text) := by rw [hread, List.map_map]
    _ = lines.map id := List.map_congr_left fun line hline =>
        (hlines line hline).ofText_text
    _ = lines := List.map_id _

theorem textOfAll_append (first second : List Line) :
    textOfAll (first ++ second) = textOfAll first ++ textOfAll second := by
  rw [textOfAll, List.map_append, String.join_append]
  rfl

end Line

/-! ## Lines of instructions -/

/-- The words of an operand.  A vector stands in brackets, and the default label is
in front of the other ones. -/
def Operand.words : Operand → List String
  | .u32 value => [Numeral.decimal value.toNat]
  | .i32 value => [Numeral.signedDecimal value.toInt]
  | .i64 value => [Numeral.signedDecimal value.toInt]
  | .f32 bits => [BinaryFormat.binary32.generalText bits.toNat]
  | .f64 bits => [BinaryFormat.binary64.generalText bits.toNat]
  | .index _ value => [Numeral.decimal value.toNat]
  | .blockType type => [type.name]
  | .valueType type => [type.name]
  | .valueTypes types => "[" :: types.map ValueType.name ++ ["]"]
  | .labels targets =>
    "default:" :: targets.getLast?.toList.map labelText ++
      "[" :: targets.dropLast.map labelText ++ ["]"]
  | .instructions _ => []
where
  labelText (label : UInt32) : String := Numeral.decimal label.toNat

mutual

/-- The lines of an instruction at an indentation. -/
def Instruction.lines (indent : Nat) : Instruction → List Line
  | .mk type operands =>
    ⟨indent, type.name :: operands.flatMap Operand.words⟩ ::
      match operands with
      | [_, .instructions body] =>
        Instruction.linesOfAll (indent + 1) body ++ [⟨indent, [InstructionType.blockEnd.name]⟩]
      | [_, .instructions body, .instructions arm] =>
        Instruction.linesOfAll (indent + 1) body ++
          (if arm.isEmpty then []
          else ⟨indent, [InstructionType.otherwise.name]⟩ ::
            Instruction.linesOfAll (indent + 1) arm) ++
          [⟨indent, [InstructionType.blockEnd.name]⟩]
      | _ => []
  termination_by structural instruction => instruction

def Instruction.linesOfAll (indent : Nat) : List Instruction → List Line
  | [] => []
  | instruction :: more =>
    Instruction.lines indent instruction ++ Instruction.linesOfAll indent more
  termination_by structural instructions => instructions

end

/-- The fields whose values can be told from their words on a line. -/
def Field.Exact (field : Field) : Prop :=
  field ≠ .f32 ∧ field ≠ .f64 ∧ field ≠ .instructions

/-! ## Complete prints -/

/-- A print that breaks off nowhere and consists of a text. -/
structure Printout.Writes (printout : Printout) (text : String) : Prop where
  complete : printout.fault? = none
  text : printout.text = text

namespace Printout

variable {first second : Printout} {firstText secondText : String}

theorem writes_write (text : String) : (write text).Writes text :=
  ⟨rfl, by simp [Printout.text, write]⟩

theorem Writes.append (hfirst : first.Writes firstText) (hsecond : second.Writes secondText) :
    (first ++ second).Writes (firstText ++ secondText) := by
  refine ⟨?_, ?_⟩
  · rw [fault?_append, hfirst.complete, hsecond.complete]
    rfl
  · change (Printout.append first second).text = _
    rw [← hfirst.text, ← hsecond.text, Printout.append, hfirst.complete]
    exact String.join_append

theorem Writes.congr (hfirst : first.Writes firstText) (htext : firstText = secondText) :
    first.Writes secondText :=
  htext ▸ hfirst

end Printout

/-- Words with a space in front of each of them. -/
def spaced (words : List String) : String :=
  String.join (words.map (" " ++ ·))

theorem spaced_append (first second : List String) :
    spaced (first ++ second) = spaced first ++ spaced second := by
  rw [spaced, List.map_append, String.join_append]
  rfl

theorem spaced_cons (word : String) (words : List String) :
    spaced (word :: words) = " " ++ word ++ spaced words := by
  rw [spaced, List.map_cons, String.join_cons]
  rfl

theorem intercalate_eq_spaced (word : String) (words : List String) :
    String.intercalate " " (word :: words) = word ++ spaced words := by
  induction words generalizing word with
  | nil => simp [spaced]
  | cons next words ih =>
      rw [String.intercalate_cons_cons, ih, spaced_cons, String.append_assoc,
        String.append_assoc]

theorem Line.textOfAll_cons (indent : Nat) (word : String) (words : List String)
    (more : List Line) :
    textOfAll (⟨indent, word :: words⟩ :: more) =
      Instruction.indentation indent ++ (word ++ spaced words) ++ "\n" ++ textOfAll more := by
  rw [textOfAll, List.map_cons, String.join_cons, text, intercalate_eq_spaced]
  rfl

namespace Operand

open Printout (writes_write)

theorem plainText_valueTypes (types : List ValueType) :
    (valueTypes types).plainText = spaced (valueTypes types).words := by
  rw [words, List.cons_append, spaced_cons, spaced_append, plainText, spaced, List.map_map]
  rfl

theorem plainText_labels (targets : List UInt32) :
    (labels targets).plainText = spaced ("[" :: targets.map words.labelText ++ ["]"]) := by
  rw [List.cons_append, spaced_cons, spaced_append, plainText, spaced, List.map_map]
  rfl

theorem writes_printOperand {field : Field} (hfield : field.Exact) {operand : Operand}
    (hfits : field.Fits operand) (indent : Nat) :
    (Instruction.printOperand indent operand).Writes (spaced operand.words) := by
  have hsingle : ∀ word, " " ++ word = spaced [word] := by simp [spaced]
  cases hfits with
  | valueTypes =>
      rw [← plainText_valueTypes]
      exact writes_write _
  | instructions => exact absurd rfl hfield.2.2
  | _ => exact (writes_write _).congr (hsingle _)

theorem writes_printOperands {fields : List Field} (hfields : ∀ field ∈ fields, field.Exact)
    {operands : List Operand} (hfits : List.Forall₂ Field.Fits fields operands)
    (indent : Nat) :
    (Instruction.printOperands indent operands).Writes
      (spaced (operands.flatMap Operand.words)) := by
  induction hfits with
  | nil => exact writes_write ""
  | cons hfirst _ ih =>
      rw [List.forall_mem_cons] at hfields
      rw [List.flatMap_cons, spaced_append]
      exact (writes_printOperand hfields.1 hfirst indent).append (ih hfields.2)

end Operand

namespace Instruction

open Printout (writes_write)

variable {table : Table} {indent : Nat}

theorem not_mem_of_exact {fields : List Field} (hfields : ∀ field ∈ fields, field.Exact)
    {operands : List Operand} (hfits : List.Forall₂ Field.Fits fields operands) :
    ∀ body, .instructions body ∉ operands := by
  intro body hbody
  obtain ⟨field, hfield, hbody⟩ := Table.exists_of_forall₂_of_mem hfits.flip hbody
  cases hbody
  exact (hfields _ hfield).2.2 rfl

theorem lines_plain {type : InstructionType} {operands : List Operand}
    (hoperands : ∀ body, .instructions body ∉ operands) :
    lines indent ⟨type, operands⟩ =
      [⟨indent, type.name :: operands.flatMap Operand.words⟩] := by
  unfold lines
  split
  next _ body => exact absurd (by simp) (hoperands body)
  next _ body _ => exact absurd (by simp) (hoperands body)
  next => rfl

theorem lines_block {type : InstructionType} {result : BlockType} {body : List Instruction} :
    lines indent ⟨type, [.blockType result, .instructions body]⟩ =
      ⟨indent, [type.name, result.name]⟩ ::
        (linesOfAll (indent + 1) body ++ [⟨indent, [InstructionType.blockEnd.name]⟩]) := by
  unfold lines
  rfl

/-- The lines of the second arm of a conditional. -/
def elseLines (indent : Nat) (arm : List Instruction) : List Line :=
  if arm.isEmpty then []
  else ⟨indent, [InstructionType.otherwise.name]⟩ :: linesOfAll (indent + 1) arm

theorem lines_conditional {result : BlockType} {first second : List Instruction} :
    lines indent
        ⟨.conditional, [.blockType result, .instructions first, .instructions second]⟩ =
      ⟨indent, [InstructionType.conditional.name, result.name]⟩ ::
        (linesOfAll (indent + 1) first ++ elseLines indent second ++
          [⟨indent, [InstructionType.blockEnd.name]⟩]) := by
  unfold lines
  rfl

/-- An instruction is printed as its lines, at any indentation. -/
def PrintedAsLines (item : Instruction) : Prop :=
  ∀ indent, (item.print indent).Writes (Line.textOfAll (item.lines indent))

theorem writes_printList {body : List Instruction}
    (hbody : ∀ child ∈ body, child.PrintedAsLines) (indent : Nat) :
    (printList indent body).Writes (Line.textOfAll (linesOfAll indent body)) := by
  induction body with
  | nil => exact writes_write ""
  | cons child body ih =>
      rw [List.forall_mem_cons] at hbody
      unfold printList linesOfAll
      rw [Line.textOfAll_append]
      exact (hbody.1 indent).append (ih hbody.2)

theorem writes_printSequence {body : List Instruction}
    (hbody : ∀ child ∈ body, child.PrintedAsLines) (indent : Nat) :
    (printOperand indent (.instructions body)).Writes
      ("\n" ++ Line.textOfAll (linesOfAll (indent + 1) body)) := by
  unfold printOperand
  exact (writes_write _).append (writes_printList hbody (indent + 1))

theorem writes_printElse {arm : List Instruction}
    (harm : ∀ child ∈ arm, child.PrintedAsLines) (indent : Nat) :
    (printElse indent [.instructions arm]).Writes (Line.textOfAll (elseLines indent arm)) := by
  unfold printElse elseLines
  split
  next => exact writes_write ""
  next =>
    refine ((writes_write _).append (writes_printList harm (indent + 1))).congr ?_
    rw [Line.textOfAll_cons]
    simp [spaced]

theorem writes_branchTable {targets : List UInt32} (htargets : targets ≠ []) :
    PrintedAsLines ⟨.branchTable, [.labels targets]⟩ := by
  intro indent
  have hlast := List.getLast?_eq_some_getLast htargets
  have hdefault : " default: " = " " ++ "default:" ++ " " := rfl
  rw [lines_plain (by simp), Line.textOfAll_cons]
  unfold print
  rw [if_pos rfl]
  change (write (indentation indent) ++ branchTableLine targets).Writes _
  rw [branchTableLine, hlast]
  refine ((writes_write _).append ((writes_write _).append (writes_write _))).congr ?_
  rw [Operand.plainText_labels]
  simp [Operand.words, Operand.words.labelText, hlast, hdefault, spaced_cons, spaced_append,
    Line.textOfAll, String.append_assoc, -String.reduceAppend]

theorem writes_plain {type : InstructionType} (hbranch : type ≠ .branchTable)
    (hblock : ¬ type.isBlock) {fields : List Field} (hfields : ∀ field ∈ fields, field.Exact)
    {operands : List Operand} (hfits : List.Forall₂ Field.Fits fields operands) :
    PrintedAsLines ⟨type, operands⟩ := by
  intro indent
  rw [lines_plain (not_mem_of_exact hfields hfits), print_plain hbranch hblock, Line.textOfAll_cons]
  have hwords := Operand.writes_printOperands hfields hfits indent
  refine ((writes_write _).append
    (((writes_write _).append hwords).append (writes_write _))).congr ?_
  simp [Line.textOfAll, String.append_assoc]

theorem print_block {type : InstructionType} (hblock : type.isBlock)
    {first second : Operand} {more : List Operand} {indent : Nat} :
    print indent ⟨type, first :: second :: more⟩ =
      write (indentation indent) ++ (write type.name ++
        (printOperand indent first ++ printOperand indent second ++
          (if type = .conditional then printElse indent more else write "") ++
          write (indentation indent ++ InstructionType.blockEnd.name ++ "\n"))) := by
  have hbranch : type ≠ .branchTable := by
    rintro rfl
    cases hblock
  unfold print
  rw [if_neg hbranch, if_pos hblock]

theorem writes_block {type : InstructionType} (htype : type = .block ∨ type = .loop)
    {result : BlockType} {body : List Instruction}
    (hbody : ∀ child ∈ body, child.PrintedAsLines) :
    PrintedAsLines ⟨type, [.blockType result, .instructions body]⟩ := by
  intro indent
  have hother : type ≠ .conditional := by
    rcases htype with rfl | rfl <;> decide
  rw [lines_block, Line.textOfAll_cons, Line.textOfAll_append, Line.textOfAll_cons,
    print_block (isBlock_iff.mpr (.inl htype)), if_neg hother]
  refine ((writes_write _).append ((writes_write _).append
    ((((writes_write _).append (writes_printSequence hbody indent)).append
      (writes_write _)).append (writes_write _)))).congr ?_
  simp [Line.textOfAll, Operand.plainText, spaced, String.append_assoc]

theorem writes_conditional {result : BlockType} {first second : List Instruction}
    (hfirst : ∀ child ∈ first, child.PrintedAsLines)
    (hsecond : ∀ child ∈ second, child.PrintedAsLines) :
    PrintedAsLines
      ⟨.conditional, [.blockType result, .instructions first, .instructions second]⟩ := by
  intro indent
  rw [lines_conditional, Line.textOfAll_cons, Line.textOfAll_append, Line.textOfAll_append,
    Line.textOfAll_cons, print_block rfl, if_pos rfl]
  refine ((writes_write _).append ((writes_write _).append
    ((((writes_write _).append (writes_printSequence hfirst indent)).append
      (writes_printElse hsecond indent)).append (writes_write _)))).congr ?_
  simp [Line.textOfAll, Operand.plainText, spaced, String.append_assoc]

end Instruction

end Disassembly
