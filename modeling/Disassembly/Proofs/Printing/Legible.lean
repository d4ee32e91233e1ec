import Disassembly.Proofs.Printing.Lines
import Disassembly.Proofs.Table.ReadBack

/-!
# Trees that their lines can be told from

A table nests in blocks if only its blocks and loops have a field that holds
instructions.  The instructions of a tree that conforms to such a table have one of
four forms: plain ones without nested sequences, branch tables, blocks and
conditionals.  A tree without floating-point numbers is printed as its lines, and as
these are made of words, they are found again in the print.
-/

namespace Disassembly

open Text (isPlain isWord isWord_iff)

/-! ## Forms of instructions -/

/-- Only the blocks and the loops of a table have a field that holds instructions. -/
def Table.NestsInBlocks (table : Table) : Prop :=
  ∀ entry ∈ table.entries, .instructions ∈ entry.layout.fields →
    entry.type = .block ∨ entry.type = .loop

/-- No instruction of a tree has a floating-point number for an operand. -/
def Instruction.FloatFree (tree : Instruction) : Prop :=
  ∀ depth item, tree.Within depth item →
    ∀ operand ∈ item.operands, operand.kind ≠ .f32 ∧ operand.kind ≠ .f64

/-- An instruction that its line can be told from. -/
structure Instruction.Legible (table : Table) (item : Instruction) : Prop where
  shaped : item.Shaped table
  inner : ¬ item.isTerminator
  exact : ∀ operand ∈ item.operands, operand.kind ≠ .f32 ∧ operand.kind ≠ .f64

namespace Instruction

variable {table : Table} {item : Instruction} {levels : Nat}

theorem Conforms.legible (hitem : item.Conforms table levels)
    (hinner : ¬ item.isTerminator) (hfloats : item.FloatFree) :
    item.Throughout (Legible table) levels := by
  intro depth inner hwithin
  obtain ⟨hdepth, hshaped, hsequences⟩ := hitem depth inner hwithin
  refine ⟨hdepth, ⟨hshaped, ?_, hfloats depth inner hwithin⟩, hsequences⟩
  clear hdepth hshaped hsequences hfloats
  induction hwithin generalizing levels with
  | root => exact hinner
  | nested hbody hchild _ ih =>
      obtain ⟨fewer, _, hfewer⟩ := hitem.children hbody
      exact ih (hfewer _ hchild) (hitem.root.closed _ hbody _ hchild)

theorem Shaped.fits_blockType (hitem : item.Shaped table) {result : BlockType}
    (hresult : .blockType result ∈ item.operands) :
    Field.blockType.Fits (.blockType result) := by
  obtain ⟨entry, _, hfits⟩ := hitem.fits
  generalize item.operands = operands at hfits hresult
  generalize entry.layout = layout at hfits
  cases hfits with
  | inOrder hoperands =>
      obtain ⟨field, _, hfits⟩ := Table.exists_of_forall₂_of_mem hoperands.flip hresult
      cases hfits with
      | blockType htype => exact .blockType htype
  | conditional htype =>
      obtain rfl : result = _ := by simpa using hresult
      exact htype
  | branchTable => simp at hresult

/-- What legible instructions look like. -/
inductive Form (table : Table) : Instruction → Prop
  | plain {entry : Entry} {fields : List Field} {operands : List Operand}
      (hentry : entry ∈ table.entries) (hlayout : entry.layout = .inOrder fields)
      (hbranch : entry.type ≠ .branchTable) (hblock : ¬ entry.type.isBlock)
      (hfields : ∀ field ∈ fields, field.Exact)
      (hfits : List.Forall₂ Field.Fits fields operands) :
      Form table ⟨entry.type, operands⟩
  | branchTable {targets : List UInt32} (htargets : targets ≠ []) :
      Form table ⟨.branchTable, [.labels targets]⟩
  | block {type : InstructionType} {result : BlockType} {body : List Instruction}
      (htype : type = .block ∨ type = .loop) :
      Form table ⟨type, [.blockType result, .instructions body]⟩
  | conditional {result : BlockType} {first second : List Instruction} :
      Form table
        ⟨.conditional, [.blockType result, .instructions first, .instructions second]⟩

/-- A field that holds instructions makes a block of an instruction. -/
theorem Legible.exact_fields (hnests : table.NestsInBlocks) (hitem : item.Legible table)
    (hblock : ¬ item.type.isBlock) {entry : Entry} (hentry : entry ∈ table.entries)
    (htype : entry.type = item.type) {fields : List Field}
    (hlayout : entry.layout = .inOrder fields)
    (hfits : List.Forall₂ Field.Fits fields item.operands) :
    ∀ field ∈ fields, field.Exact := by
  intro field hfield
  obtain ⟨operand, hoperand, hfits⟩ := Table.exists_of_forall₂_of_mem hfits hfield
  obtain ⟨hsingle, hdouble⟩ := hitem.exact operand hoperand
  refine ⟨?_, ?_, ?_⟩
  · rintro rfl
    cases hfits
    exact hsingle rfl
  · rintro rfl
    cases hfits
    exact hdouble rfl
  · rintro rfl
    have hnested := hnests entry hentry (by simpa [hlayout, Layout.fields] using hfield)
    rw [htype] at hnested
    exact hblock (isBlock_iff.mpr (.inl hnested))

theorem Legible.form (htable : table.Coherent) (hnests : table.NestsInBlocks)
    (hitem : item.Legible table) : item.Form table := by
  obtain ⟨entry, hentry, hfits⟩ := hitem.shaped.fits
  obtain ⟨hmem, htype⟩ := htable.entryOf?_eq_some_iff.mp hentry
  have hbound := Entry.misfit?_eq_none_iff_bound.mp (htable.suited entry hmem)
  rcases item with ⟨type, operands⟩
  obtain rfl : entry.type = type := htype
  change entry.layout.Fits operands at hfits
  generalize hlayout : entry.layout = layout at hfits
  cases hfits with
  | conditional =>
      rw [hbound.conditional.mp hlayout]
      exact .conditional
  | branchTable htargets =>
      rw [hbound.branchTable.mp hlayout]
      exact .branchTable htargets
  | inOrder hfits =>
      by_cases hblock : entry.type.isBlock
      · rcases isBlock_iff.mp hblock with hplain | hconditional
        · obtain ⟨result, body, hoperands⟩ := hitem.shaped.block hplain
          obtain rfl : operands = [.blockType result, .instructions body] := hoperands
          exact .block hplain
        · rw [hbound.conditional.mpr hconditional] at hlayout
          cases hlayout
      · have hbranch : entry.type ≠ .branchTable := by
          intro hbranch
          rw [hbound.branchTable.mpr hbranch] at hlayout
          cases hlayout
        have hfields := hitem.exact_fields hnests hblock hmem rfl hlayout hfits
        exact .plain hmem hlayout hbranch hblock hfields hfits

end Instruction

/-! ## Words -/

namespace Numeral

theorem isWord_decimal (value : Nat) : isWord (decimal value) := by
  rw [isWord_iff, decimal, String.toList_ofList]
  refine ⟨Nat.toDigits_ne_nil, ?_⟩
  intro c hc
  have hdigit : c.isDigit := Nat.isDigit_of_mem_toDigits (by decide) (by decide) hc
  have hlow : 48 ≤ c.val.toNat :=
    UInt32.le_iff_toNat_le.mp (of_decide_eq_true (Bool.and_eq_true_iff.mp hdigit).1)
  exact Text.isPlain_of_lt_toNat (Nat.lt_of_lt_of_le (by decide) hlow)

theorem isWord_signedDecimal (value : Int) : isWord (signedDecimal value) := by
  have hdigits := isWord_decimal value.natAbs
  unfold signedDecimal
  split
  next =>
    have hsign : isPlain '-' = true := rfl
    rw [isWord_iff] at hdigits ⊢
    rw [String.toList_append]
    refine ⟨by simp, ?_⟩
    intro c hc
    rcases List.mem_append.mp hc with hc | hc
    · rw [show c = '-' by simpa using hc]
      exact hsign
    · exact hdigits.2 c hc
  next => exact hdigits

end Numeral

theorem ValueType.isWord_name {type : ValueType} (htype : type ∈ all) :
    isWord type.name := by
  have hall : ∀ type ∈ all, isWord type.name := by decide
  exact hall type htype

theorem InstructionType.isWord_name {type : InstructionType}
    (hnamed : ofName? type.name = some type) : isWord type.name := by
  apply isWord_of_mem_mnemonics
  rw [← ofName?_isSome_iff, hnamed]
  rfl

theorem isWord_of_mem_brackets {words : List String} (hwords : ∀ word ∈ words, isWord word)
    {word : String} (hword : word ∈ "[" :: words ++ ["]"]) : isWord word := by
  have hcases : word = "[" ∨ word ∈ words ∨ word = "]" := by simpa using hword
  rcases hcases with rfl | hword | rfl
  · decide
  · exact hwords word hword
  · decide

namespace Operand

theorem isWord_of_mem_words {field : Field} (hfield : field.Exact) {operand : Operand}
    (hfits : field.Fits operand) : ∀ word ∈ operand.words, isWord word := by
  cases hfits with
  | u32 | index => simpa [words] using Numeral.isWord_decimal _
  | i32 | i64 => simpa [words] using Numeral.isWord_signedDecimal _
  | f32 => exact absurd rfl hfield.1
  | f64 => exact absurd rfl hfield.2.1
  | blockType htype =>
      rename_i type
      cases type with
      | none => decide
      | some result =>
          have hname : isWord result.name := ValueType.isWord_name (htype result rfl)
          simpa [words, BlockType.name] using hname
  | referenceType htype => rcases htype with rfl | rfl <;> decide
  | valueTypes htypes =>
      intro word hword
      refine isWord_of_mem_brackets ?_ hword
      intro name hname
      obtain ⟨type, htype, rfl⟩ := List.mem_map.mp hname
      exact ValueType.isWord_name (htypes type htype)
  | instructions => exact absurd rfl hfield.2.2

theorem isWord_of_mem_words_labels (targets : List UInt32) :
    ∀ word ∈ (labels targets).words, isWord word := by
  have hlabels : ∀ (labels : List UInt32), ∀ word ∈ labels.map words.labelText,
      isWord word := by
    intro labels word hword
    obtain ⟨label, _, rfl⟩ := List.mem_map.mp hword
    exact Numeral.isWord_decimal _
  intro word hword
  rw [words, List.cons_append, List.cons_append, List.mem_cons, List.append_assoc,
    List.mem_append] at hword
  rcases hword with rfl | hword | hword
  · decide
  · exact hlabels _ word hword
  · exact isWord_of_mem_brackets (hlabels _) hword

end Operand

/-! ## Legible trees are printed as their lines -/

namespace Instruction

variable {table : Table} {item : Instruction} {indent levels : Nat}

theorem Form.printedAsLines (hform : item.Form table)
    (hchildren : ∀ body, .instructions body ∈ item.operands →
      ∀ child ∈ body, child.PrintedAsLines) : item.PrintedAsLines := by
  cases hform with
  | plain _ _ hbranch hblock hfields hfits =>
      exact writes_plain hbranch hblock hfields hfits
  | branchTable htargets => exact writes_branchTable htargets
  | @block _ _ body htype => exact writes_block htype (hchildren body (by simp [operands]))
  | @conditional _ first second =>
      exact writes_conditional (hchildren first (by simp [operands]))
        (hchildren second (by simp [operands]))

/-- A legible tree is printed as its lines. -/
theorem Throughout.printedAsLines (htable : table.Coherent) (hnests : table.NestsInBlocks)
    (hitem : item.Throughout (Legible table) levels) : item.PrintedAsLines := by
  refine hitem.induction (motive := fun _ inner => inner.PrintedAsLines) ?_
  intro levels inner hinner hchildren
  apply (hinner.form htable hnests).printedAsLines
  intro body hbody
  obtain ⟨_, _, hprinted⟩ := hchildren body hbody
  exact hprinted

/-! ## Lines are made of words -/

theorem Shaped.named (htable : table.Accepted) (hitem : item.Shaped table) :
    InstructionType.ofName? item.type.name = some item.type := by
  obtain ⟨entry, hentry, _⟩ := hitem.fits
  obtain ⟨hmem, htype⟩ :=
    htable.wellFormed.toCoherent.entryOf?_eq_some_iff.mp hentry
  rw [← htype]
  exact (htable.readable hmem).named

theorem Legible.isWord_of_mem_operands (hitem : item.Legible table)
    (hform : item.Form table) {operand : Operand} (hoperand : operand ∈ item.operands) :
    ∀ word ∈ operand.words, isWord word := by
  have hexact : Field.blockType.Exact := ⟨by decide, by decide, by decide⟩
  cases hform with
  | plain _ _ _ _ hfields hfits =>
      obtain ⟨field, hfield, hfits⟩ := Table.exists_of_forall₂_of_mem hfits.flip hoperand
      exact Operand.isWord_of_mem_words (hfields field hfield) hfits
  | branchTable =>
      rw [List.mem_singleton.mp hoperand]
      exact Operand.isWord_of_mem_words_labels _
  | block | conditional =>
      cases operand with
      | blockType result =>
          exact Operand.isWord_of_mem_words hexact (hitem.shaped.fits_blockType hoperand)
      | instructions => simp [Operand.words]
      | _ => simp [operands] at hoperand

def LinesLegible (item : Instruction) : Prop :=
  ∀ indent, ∀ line ∈ item.lines indent, line.Legible

theorem legible_linesOfAll {body : List Instruction}
    (hbody : ∀ child ∈ body, child.LinesLegible) (indent : Nat) :
    ∀ line ∈ linesOfAll indent body, line.Legible := by
  induction body with
  | nil => simp [linesOfAll]
  | cons child body ih =>
      rw [List.forall_mem_cons] at hbody
      unfold linesOfAll
      rw [List.forall_mem_append]
      exact ⟨hbody.1 indent, ih hbody.2⟩

theorem legible_closing {type : InstructionType} (htype : type.isTerminator) (indent : Nat) :
    Line.Legible ⟨indent, [type.name]⟩ := by
  have hname : isWord type.name := by
    rcases InstructionType.isTerminator_iff.mp htype with rfl | rfl <;> decide
  simpa [Line.Legible] using hname

theorem legible_elseLines {arm : List Instruction}
    (harm : ∀ child ∈ arm, child.LinesLegible) (indent : Nat) :
    ∀ line ∈ elseLines indent arm, line.Legible := by
  unfold elseLines
  split
  next => simp
  next =>
    rw [List.forall_mem_cons]
    exact ⟨legible_closing rfl indent, legible_linesOfAll harm (indent + 1)⟩

theorem Legible.linesLegible (htable : table.Accepted) (hitem : item.Legible table)
    (hform : item.Form table)
    (hchildren : ∀ body, .instructions body ∈ item.operands →
      ∀ child ∈ body, child.LinesLegible) : item.LinesLegible := by
  intro indent
  have hhead : Line.Legible ⟨indent, item.type.name :: item.operands.flatMap Operand.words⟩ := by
    rw [Line.Legible, List.forall_mem_cons]
    refine ⟨InstructionType.isWord_name (hitem.shaped.named htable), ?_⟩
    intro word hword
    obtain ⟨operand, hoperand, hword⟩ := List.mem_flatMap.mp hword
    exact hitem.isWord_of_mem_operands hform hoperand word hword
  have hend : Line.Legible ⟨indent, [InstructionType.blockEnd.name]⟩ :=
    legible_closing rfl indent
  cases hform with
  | plain _ _ _ _ hfields hfits =>
      rw [lines_plain (not_mem_of_exact hfields hfits), List.forall_mem_singleton]
      exact hhead
  | branchTable =>
      rw [lines_plain (by simp), List.forall_mem_singleton]
      exact hhead
  | @block _ _ body =>
      have hbody := hchildren body (by simp [operands])
      rw [lines_block, List.forall_mem_cons, List.forall_mem_append,
        List.forall_mem_singleton]
      exact ⟨hhead, legible_linesOfAll hbody _, hend⟩
  | @conditional _ first second =>
      have hfirst := hchildren first (by simp [operands])
      have hsecond := hchildren second (by simp [operands])
      rw [lines_conditional, List.forall_mem_cons, List.forall_mem_append,
        List.forall_mem_append, List.forall_mem_singleton]
      exact ⟨hhead, ⟨legible_linesOfAll hfirst _, legible_elseLines hsecond _⟩, hend⟩

theorem Throughout.linesLegible (htable : table.Accepted) (hnests : table.NestsInBlocks)
    (hitem : item.Throughout (Legible table) levels) : item.LinesLegible := by
  refine hitem.induction (motive := fun _ inner => inner.LinesLegible) ?_
  intro levels inner hinner hchildren
  apply hinner.linesLegible htable (hinner.form htable.wellFormed.toCoherent hnests)
  intro body hbody
  obtain ⟨_, _, hlegible⟩ := hchildren body hbody
  exact hlegible

/-- The lines of legible trees are found again in their print. -/
theorem map_ofText_printList (htable : table.Accepted) (hnests : table.NestsInBlocks)
    {body : List Instruction}
    (hbody : ∀ child ∈ body, ∃ levels, child.Throughout (Legible table) levels)
    (indent : Nat) :
    (Text.lines (printList indent body).text).map Line.ofText = linesOfAll indent body := by
  have hprinted : ∀ child ∈ body, child.PrintedAsLines := by
    intro child hchild
    obtain ⟨_, hlegible⟩ := hbody child hchild
    exact hlegible.printedAsLines htable.wellFormed.toCoherent hnests
  have hlines : ∀ child ∈ body, child.LinesLegible := by
    intro child hchild
    obtain ⟨_, hlegible⟩ := hbody child hchild
    exact hlegible.linesLegible htable hnests
  rw [(writes_printList hprinted indent).text,
    Line.map_ofText_textOfAll (legible_linesOfAll hlines indent)]

end Instruction

end Disassembly
