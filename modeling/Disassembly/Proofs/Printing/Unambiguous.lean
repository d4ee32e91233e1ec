import Disassembly.Proofs.Printing.Legible

/-!
# Prints are unambiguous

Two sequences with the same print are the same sequence.  The first line of an
instruction tells its type and with it the fields that its operands belong to, and the
words of the line tell the operands.  The lines of a nested sequence go on up to a line
with the name of a terminator, which no instruction in a sequence has, and the name
tells whether there is a second arm.

Floating-point numbers are left out: their texts keep only some of the digits.  The
same holds of fields with instructions that do not belong to a block, whose lines have
nothing that tells where they end.
-/

namespace Disassembly

/-! ## Words tell operands -/

namespace Numeral

theorem decimal_injective : Function.Injective decimal := by
  intro first second hwords
  exact Nat.repr_inj.mp hwords

theorem signedDecimal_injective : Function.Injective signedDecimal := by
  have hsign : ∀ first second, "-" ++ decimal first ≠ decimal second := by
    intro first second hwords
    have hminus : '-' ∈ (decimal second).toList := by simp [← hwords]
    rw [decimal, String.toList_ofList] at hminus
    exact absurd (Nat.isDigit_of_mem_toDigits (by decide) (by decide) hminus) (by decide)
  intro first second hwords
  unfold signedDecimal at hwords
  split at hwords <;> split at hwords
  next =>
    have habs := decimal_injective (String.append_right_inj "-" |>.mp hwords)
    omega
  next => exact absurd hwords (hsign _ _)
  next => exact absurd hwords.symm (hsign _ _)
  next =>
    have habs := decimal_injective hwords
    omega

end Numeral

theorem ValueType.eq_of_name_eq {first second : ValueType} (hfirst : first ∈ all)
    (hsecond : second ∈ all) (hname : first.name = second.name) : first = second := by
  have hall : ∀ first ∈ all, ∀ second ∈ all, first.name = second.name → first = second := by
    decide
  exact hall first hfirst second hsecond hname

theorem ValueType.name_ne {type : ValueType} (htype : type ∈ all) :
    type.name ≠ "None" ∧ type.name ≠ "]" := by
  have hall : ∀ type ∈ all, type.name ≠ "None" ∧ type.name ≠ "]" := by decide
  exact hall type htype

theorem ValueType.eq_of_map_name_eq {first second : List ValueType}
    (hfirst : ∀ type ∈ first, type ∈ all) (hsecond : ∀ type ∈ second, type ∈ all)
    (hnames : first.map name = second.map name) : first = second := by
  induction first generalizing second with
  | nil => exact (List.map_eq_nil_iff.mp hnames.symm).symm
  | cons type first ih =>
      cases second with
      | nil => cases hnames
      | cons other second =>
          rw [List.forall_mem_cons] at hfirst hsecond
          obtain ⟨hname, hmore⟩ := List.cons.inj hnames
          rw [eq_of_name_eq hfirst.1 hsecond.1 hname, ih hfirst.2 hsecond.2 hmore]

namespace Operand

theorem blockType_eq_of_name_eq {first second : BlockType}
    (hfirst : ∀ result, first = some result → result ∈ ValueType.all)
    (hsecond : ∀ result, second = some result → result ∈ ValueType.all)
    (hname : first.name = second.name) : first = second := by
  cases first with
  | none =>
      cases second with
      | none => rfl
      | some result => exact absurd hname.symm (ValueType.name_ne (hsecond result rfl)).1
  | some type =>
      cases second with
      | none => exact absurd hname (ValueType.name_ne (hfirst type rfl)).1
      | some result =>
          rw [ValueType.eq_of_name_eq (hfirst type rfl) (hsecond result rfl) hname]

theorem eq_of_words_append {field : Field} (hexact : field.Exact) {first second : Operand}
    (hfirst : field.Fits first) (hsecond : field.Fits second) {more others : List String}
    (hwords : first.words ++ more = second.words ++ others) :
    first = second ∧ more = others := by
  cases hfirst with
  | u32 =>
      cases hsecond with
      | u32 =>
          obtain ⟨hword, hmore⟩ := List.cons.inj hwords
          rw [UInt32.toNat_inj.mp (Numeral.decimal_injective hword)]
          exact ⟨rfl, hmore⟩
  | i32 =>
      cases hsecond with
      | i32 =>
          obtain ⟨hword, hmore⟩ := List.cons.inj hwords
          rw [Int32.toInt_inj.mp (Numeral.signedDecimal_injective hword)]
          exact ⟨rfl, hmore⟩
  | i64 =>
      cases hsecond with
      | i64 =>
          obtain ⟨hword, hmore⟩ := List.cons.inj hwords
          rw [Int64.toInt_inj.mp (Numeral.signedDecimal_injective hword)]
          exact ⟨rfl, hmore⟩
  | f32 => exact absurd rfl hexact.1
  | f64 => exact absurd rfl hexact.2.1
  | index =>
      cases hsecond with
      | index =>
          obtain ⟨hword, hmore⟩ := List.cons.inj hwords
          rw [UInt64.toNat_inj.mp (Numeral.decimal_injective hword)]
          exact ⟨rfl, hmore⟩
  | blockType hfirst =>
      cases hsecond with
      | blockType hsecond =>
          obtain ⟨hword, hmore⟩ := List.cons.inj hwords
          rw [blockType_eq_of_name_eq hfirst hsecond hword]
          exact ⟨rfl, hmore⟩
  | referenceType hfirst =>
      cases hsecond with
      | referenceType hsecond =>
          have hall : ∀ type, type = .funcRef ∨ type = .externRef → type ∈ ValueType.all := by
            rintro type (rfl | rfl) <;> decide
          obtain ⟨hword, hmore⟩ := List.cons.inj hwords
          rw [ValueType.eq_of_name_eq (hall _ hfirst) (hall _ hsecond) hword]
          exact ⟨rfl, hmore⟩
  | @valueTypes types hfirst =>
      cases hsecond with
      | @valueTypes other hsecond =>
          have hbracket : ∀ types : List ValueType, (∀ type ∈ types, type ∈ ValueType.all) →
              "]" ∉ types.map ValueType.name := by
            intro types htypes hmem
            obtain ⟨type, htype, hname⟩ := List.mem_map.mp hmem
            exact (ValueType.name_ne (htypes type htype)).2 hname
          have hbrackets : types.map ValueType.name ++ "]" :: more =
              other.map ValueType.name ++ "]" :: others := by
            simpa [words] using hwords
          obtain ⟨hnames, hmore⟩ :=
            append_cons_inj (hbracket _ hfirst) (hbracket _ hsecond) hbrackets
          rw [ValueType.eq_of_map_name_eq hfirst hsecond hnames]
          exact ⟨rfl, hmore⟩
  | instructions => exact absurd rfl hexact.2.2

theorem eq_of_flatMap_words {fields : List Field} (hfields : ∀ field ∈ fields, field.Exact)
    {first second : List Operand} (hfirst : List.Forall₂ Field.Fits fields first)
    (hsecond : List.Forall₂ Field.Fits fields second)
    (hwords : first.flatMap words = second.flatMap words) : first = second := by
  induction hfirst generalizing second with
  | nil =>
      cases hsecond
      rfl
  | cons hoperand _ ih =>
      rw [List.forall_mem_cons] at hfields
      cases hsecond with
      | cons hother hothers =>
          rw [List.flatMap_cons, List.flatMap_cons] at hwords
          obtain ⟨hsame, hmore⟩ := eq_of_words_append hfields.1 hoperand hother hwords
          rw [hsame, ih hfields.2 hothers hmore]

/-- The default label comes first, but is the last one of the vector. -/
theorem labels_eq_of_words_eq {first second : List UInt32} (hfirst : first ≠ [])
    (hsecond : second ≠ []) (hwords : (labels first).words = (labels second).words) :
    first = second := by
  have hlabel : Function.Injective words.labelText := fun _ _ hsame =>
    UInt32.toNat_inj.mp (Numeral.decimal_injective hsame)
  have hparts : words.labelText (first.getLast hfirst) =
      words.labelText (second.getLast hsecond) ∧
      first.dropLast.map words.labelText = second.dropLast.map words.labelText := by
    simpa [words, List.getLast?_eq_some_getLast hfirst,
      List.getLast?_eq_some_getLast hsecond] using hwords
  rw [← List.dropLast_append_getLast hfirst, ← List.dropLast_append_getLast hsecond,
    hlabel hparts.1, List.map_injective_iff.mpr hlabel hparts.2]

end Operand

/-! ## Names tell types -/

theorem InstructionType.eq_of_name_eq {first second : InstructionType}
    (hfirst : ofName? first.name = some first) (hsecond : ofName? second.name = some second)
    (hname : first.name = second.name) : first = second := by
  rw [hname, hsecond] at hfirst
  exact (Option.some.inj hfirst).symm

theorem InstructionType.named_of_isTerminator {type : InstructionType}
    (htype : type.isTerminator) : ofName? type.name = some type := by
  rcases isTerminator_iff.mp htype with rfl | rfl <;> decide

namespace Instruction

variable {table : Table} {item other : Instruction} {indent levels : Nat}
  {rest otherRest : List Line}

theorem exists_lines_eq (item : Instruction) (indent : Nat) :
    ∃ more, item.lines indent =
      ⟨indent, item.type.name :: item.operands.flatMap Operand.words⟩ :: more := by
  cases item
  unfold lines
  exact ⟨_, rfl⟩

/-- The first of the lines closes a sequence, if there are any. -/
def Closing (lines : List Line) : Prop :=
  ∀ line ∈ lines.head?, ∃ type : InstructionType, type.isTerminator ∧
    line.words = [type.name]

theorem closing_cons {type : InstructionType} (htype : type.isTerminator) :
    Closing (⟨indent, [type.name]⟩ :: rest) := by
  intro line hline
  obtain rfl := Option.some.inj hline
  exact ⟨type, htype, rfl⟩

theorem Legible.not_closing (htable : table.Accepted) (hitem : item.Legible table) :
    ¬ Closing (item.lines indent ++ rest) := by
  intro hclosing
  obtain ⟨more, hlines⟩ := exists_lines_eq item indent
  rw [hlines] at hclosing
  obtain ⟨type, htype, hwords⟩ := hclosing _ rfl
  have hsame : item.type = type :=
    InstructionType.eq_of_name_eq (hitem.shaped.named htable)
      (InstructionType.named_of_isTerminator htype) (List.cons.inj hwords).1
  apply hitem.inner
  change item.type.isTerminator
  rwa [hsame]

/-- The first lines tell the types and the words of the operands. -/
theorem Legible.head_eq (htable : table.Accepted) (hitem : item.Legible table)
    (hother : other.Legible table)
    (hlines : item.lines indent ++ rest = other.lines indent ++ otherRest) :
    item.type = other.type ∧
      item.operands.flatMap Operand.words = other.operands.flatMap Operand.words := by
  obtain ⟨more, hitemLines⟩ := exists_lines_eq item indent
  obtain ⟨others, hotherLines⟩ := exists_lines_eq other indent
  rw [hitemLines, hotherLines] at hlines
  obtain ⟨hname, hwords⟩ :=
    List.cons.inj (congrArg Line.words (List.cons.inj hlines).1)
  exact ⟨InstructionType.eq_of_name_eq (hitem.shaped.named htable)
    (hother.shaped.named htable) hname, hwords⟩

/-- No other legible tree has the same lines, whatever follows. -/
def Unmistakable (table : Table) (item : Instruction) : Prop :=
  ∀ ⦃other : Instruction⦄ ⦃levels indent : Nat⦄ ⦃rest otherRest : List Line⦄,
    other.Throughout (Legible table) levels →
    item.lines indent ++ rest = other.lines indent ++ otherRest →
      item = other ∧ rest = otherRest

/-- Sequences whose instructions can be told apart end at the same line. -/
theorem eq_of_linesOfAll (htable : table.Accepted) {body others : List Instruction}
    (hbody : ∀ child ∈ body, child.Legible table ∧ child.Unmistakable table)
    (hothers : ∀ child ∈ others, ∃ levels, child.Throughout (Legible table) levels)
    (hrest : Closing rest) (hotherRest : Closing otherRest)
    (hlines : linesOfAll indent body ++ rest = linesOfAll indent others ++ otherRest) :
    body = others ∧ rest = otherRest := by
  -- If one sequence were shorter, a closing line would stand where the other one has the
  -- first line of an instruction.
  induction body generalizing others with
  | nil =>
      cases others with
      | nil => exact ⟨rfl, hlines⟩
      | cons other others =>
          obtain ⟨_, hother⟩ := hothers other List.mem_cons_self
          unfold linesOfAll at hlines
          rw [List.nil_append, List.append_assoc] at hlines
          rw [hlines] at hrest
          exact absurd hrest (hother.root.not_closing htable)
  | cons child body ih =>
      rw [List.forall_mem_cons] at hbody
      cases others with
      | nil =>
          unfold linesOfAll at hlines
          rw [List.nil_append, List.append_assoc] at hlines
          rw [← hlines] at hotherRest
          exact absurd hotherRest (hbody.1.1.not_closing htable)
      | cons other others =>
          rw [List.forall_mem_cons] at hothers
          obtain ⟨⟨_, hother⟩, hothers⟩ := hothers
          unfold linesOfAll at hlines
          rw [List.append_assoc, List.append_assoc] at hlines
          obtain ⟨hchild, hmore⟩ := hbody.1.2 hother hlines
          obtain ⟨hsame, hend⟩ := ih hbody.2 hothers hmore
          exact ⟨by rw [hchild, hsame], hend⟩

theorem closing_elseLines (arm : List Instruction) :
    Closing (elseLines indent arm ++ ⟨indent, [InstructionType.blockEnd.name]⟩ :: rest) := by
  unfold elseLines
  split
  next => exact closing_cons rfl
  next => exact closing_cons rfl

/-- The line after the first arm tells whether there is a second one. -/
theorem eq_of_elseLines (htable : table.Accepted) {arm others : List Instruction}
    (harm : ∀ child ∈ arm, child.Legible table ∧ child.Unmistakable table)
    (hothers : ∀ child ∈ others, ∃ levels, child.Throughout (Legible table) levels)
    (hlines : elseLines indent arm ++ ⟨indent, [InstructionType.blockEnd.name]⟩ :: rest =
      elseLines indent others ++ ⟨indent, [InstructionType.blockEnd.name]⟩ :: otherRest) :
    arm = others ∧ rest = otherRest := by
  have hnames : InstructionType.otherwise.name ≠ InstructionType.blockEnd.name := by decide
  unfold elseLines at hlines
  cases arm with
  | nil =>
      cases others with
      | nil => exact ⟨rfl, (List.cons.inj hlines).2⟩
      | cons other others =>
          have hline := (List.cons.inj (congrArg Line.words (List.cons.inj hlines).1)).1
          exact absurd hline.symm hnames
  | cons child arm =>
      cases others with
      | nil =>
          have hline := (List.cons.inj (congrArg Line.words (List.cons.inj hlines).1)).1
          exact absurd hline hnames
      | cons other others =>
          obtain ⟨hsame, hend⟩ := eq_of_linesOfAll htable harm hothers (closing_cons rfl)
            (closing_cons rfl) (List.cons.inj hlines).2
          exact ⟨hsame, (List.cons.inj hend).2⟩

/-- The operands that a block starts with are told by its first line. -/
theorem Legible.result_eq (hitem : item.Legible table) (hother : other.Legible table)
    {result otherResult : BlockType} {operands others : List Operand}
    (hoperands : item.operands = .blockType result :: operands)
    (hothers : other.operands = .blockType otherResult :: others)
    (hwords : item.operands.flatMap Operand.words = other.operands.flatMap Operand.words) :
    result = otherResult := by
  have hexact : Field.blockType.Exact := ⟨by decide, by decide, by decide⟩
  have hfirst := hitem.shaped.fits_blockType (hoperands ▸ List.mem_cons_self)
  have hsecond := hother.shaped.fits_blockType (hothers ▸ List.mem_cons_self)
  rw [hoperands, hothers, List.flatMap_cons, List.flatMap_cons] at hwords
  exact Operand.blockType.inj (Operand.eq_of_words_append hexact hfirst hsecond hwords).1

theorem Throughout.exists_children (hitem : item.Throughout (Legible table) levels)
    {body : List Instruction} (hbody : .instructions body ∈ item.operands) :
    ∀ child ∈ body, ∃ levels, child.Throughout (Legible table) levels := by
  intro child hchild
  obtain ⟨fewer, _, hfewer⟩ := hitem.children hbody
  exact ⟨fewer, hfewer child hchild⟩

theorem Legible.eq_of_plain (htable : table.Coherent) {entry : Entry}
    (hentry : entry ∈ table.entries) {fields : List Field}
    (hlayout : entry.layout = .inOrder fields) (hfields : ∀ field ∈ fields, field.Exact)
    {operands : List Operand} (hfits : List.Forall₂ Field.Fits fields operands)
    (hother : other.Legible table) (htype : entry.type = other.type)
    (hwords : operands.flatMap Operand.words = other.operands.flatMap Operand.words) :
    ⟨entry.type, operands⟩ = other := by
  obtain ⟨otherEntry, hotherEntry, hotherFits⟩ := hother.shaped.fits
  have hfound : table.entryOf? other.type = some entry :=
    htable.entryOf?_eq_some_iff.mpr ⟨hentry, htype⟩
  obtain rfl : otherEntry = entry := Option.some.inj (hotherEntry.symm.trans hfound)
  rw [hlayout] at hotherFits
  rcases other with ⟨otherType, others⟩
  obtain rfl : otherEntry.type = otherType := htype
  cases hotherFits with
  | inOrder hotherFits =>
      rw [Operand.eq_of_flatMap_words hfields hfits hotherFits hwords]
      rfl

theorem Legible.eq_of_branchTable {targets : List UInt32} (htargets : targets ≠ [])
    (hother : other.Legible table) (htype : .branchTable = other.type)
    (hwords : [.labels targets].flatMap Operand.words =
      other.operands.flatMap Operand.words) :
    ⟨.branchTable, [.labels targets]⟩ = other := by
  obtain ⟨otherTargets, hotherTargets, hoperands⟩ := hother.shaped.branchTable htype.symm
  have hlabels : (Operand.labels targets).words = (Operand.labels otherTargets).words := by
    simpa [hoperands] using hwords
  rcases other with ⟨otherType, others⟩
  obtain rfl : .branchTable = otherType := htype
  obtain rfl : others = [.labels otherTargets] := hoperands
  rw [Operand.labels_eq_of_words_eq htargets hotherTargets hlabels]

theorem unmistakable_block (htable : table.Accepted) {type : InstructionType}
    {result : BlockType} {body : List Instruction}
    (hitem : Legible table ⟨type, [.blockType result, .instructions body]⟩)
    (htype : type = .block ∨ type = .loop)
    (hbody : ∀ child ∈ body, child.Legible table ∧ child.Unmistakable table) :
    Unmistakable table ⟨type, [.blockType result, .instructions body]⟩ := by
  intro other levels indent rest otherRest hother hlines
  obtain ⟨hsame, hwords⟩ := hitem.head_eq htable hother.root hlines
  rcases other with ⟨otherType, others⟩
  obtain rfl : type = otherType := hsame
  obtain ⟨otherResult, otherBody, hoperands⟩ := hother.root.shaped.block htype
  obtain rfl : others = [.blockType otherResult, .instructions otherBody] := hoperands
  obtain rfl := hitem.result_eq hother.root rfl rfl hwords
  have hmem : .instructions otherBody ∈ operands
      ⟨type, [.blockType result, .instructions otherBody]⟩ := by simp [operands]
  rw [lines_block, lines_block, List.cons_append, List.cons_append,
    List.append_assoc, List.append_assoc] at hlines
  obtain ⟨rfl, hend⟩ := eq_of_linesOfAll htable hbody (hother.exists_children hmem)
    (closing_cons rfl) (closing_cons rfl) (List.cons.inj hlines).2
  exact ⟨rfl, (List.cons.inj hend).2⟩

theorem unmistakable_conditional (htable : table.Accepted) {result : BlockType}
    {first second : List Instruction}
    (hitem : Legible table
      ⟨.conditional, [.blockType result, .instructions first, .instructions second]⟩)
    (hfirst : ∀ child ∈ first, child.Legible table ∧ child.Unmistakable table)
    (hsecond : ∀ child ∈ second, child.Legible table ∧ child.Unmistakable table) :
    Unmistakable table
      ⟨.conditional, [.blockType result, .instructions first, .instructions second]⟩ := by
  intro other levels indent rest otherRest hother hlines
  obtain ⟨hsame, hwords⟩ := hitem.head_eq htable hother.root hlines
  obtain ⟨otherResult, otherFirst, otherSecond, hoperands⟩ :=
    hother.root.shaped.conditional hsame.symm
  rcases other with ⟨otherType, others⟩
  obtain rfl : .conditional = otherType := hsame
  obtain rfl : others = [.blockType otherResult, .instructions otherFirst,
    .instructions otherSecond] := hoperands
  obtain rfl := hitem.result_eq hother.root rfl rfl hwords
  have hmem : ∀ arm, arm = otherFirst ∨ arm = otherSecond → .instructions arm ∈
      operands ⟨.conditional, [.blockType result, .instructions otherFirst,
        .instructions otherSecond]⟩ := by
    simp [operands]
  have hotherFirst := hother.exists_children (hmem otherFirst (.inl rfl))
  have hotherSecond := hother.exists_children (hmem otherSecond (.inr rfl))
  rw [lines_conditional, lines_conditional, List.cons_append, List.cons_append,
    List.append_assoc, List.append_assoc, List.append_assoc, List.append_assoc] at hlines
  obtain ⟨rfl, helse⟩ := eq_of_linesOfAll htable hfirst hotherFirst
    (closing_elseLines second) (closing_elseLines otherSecond) (List.cons.inj hlines).2
  obtain ⟨rfl, hend⟩ := eq_of_elseLines htable hsecond hotherSecond helse
  exact ⟨rfl, hend⟩

theorem Legible.unmistakable (htable : table.Accepted) (hitem : item.Legible table)
    (hform : item.Form table)
    (hchildren : ∀ body, .instructions body ∈ item.operands →
      ∀ child ∈ body, child.Legible table ∧ child.Unmistakable table) :
    item.Unmistakable table := by
  cases hform with
  | plain hentry hlayout _ _ hfields hfits =>
      intro other levels indent rest otherRest hother hlines
      obtain ⟨htype, hwords⟩ := hitem.head_eq htable hother.root hlines
      obtain rfl := eq_of_plain htable.wellFormed.toCoherent hentry hlayout hfields hfits
        hother.root htype hwords
      exact ⟨rfl, List.append_cancel_left hlines⟩
  | branchTable htargets =>
      intro other levels indent rest otherRest hother hlines
      obtain ⟨htype, hwords⟩ := hitem.head_eq htable hother.root hlines
      obtain rfl := eq_of_branchTable htargets hother.root htype hwords
      exact ⟨rfl, List.append_cancel_left hlines⟩
  | @block _ _ body htype =>
      exact unmistakable_block htable hitem htype (hchildren body (by simp [operands]))
  | @conditional _ first second =>
      exact unmistakable_conditional htable hitem (hchildren first (by simp [operands]))
        (hchildren second (by simp [operands]))

theorem Throughout.unmistakable (htable : table.Accepted) (hnests : table.NestsInBlocks)
    (hitem : item.Throughout (Legible table) levels) : item.Unmistakable table := by
  have hboth : item.Legible table ∧ item.Unmistakable table := by
    refine hitem.induction
      (motive := fun _ inner => inner.Legible table ∧ inner.Unmistakable table) ?_
    intro levels inner hinner hchildren
    have hform := hinner.form htable.wellFormed.toCoherent hnests
    refine ⟨hinner, hinner.unmistakable htable hform ?_⟩
    intro body hbody
    obtain ⟨_, _, hfewer⟩ := hchildren body hbody
    exact hfewer
  exact hboth.2

theorem eq_of_printList_eq (htable : table.Accepted) (hnests : table.NestsInBlocks)
    {first second : List Instruction}
    (hfirst : ∀ child ∈ first, ∃ levels, child.Throughout (Legible table) levels)
    (hsecond : ∀ child ∈ second, ∃ levels, child.Throughout (Legible table) levels)
    (htext : (printList indent first).text = (printList indent second).text) :
    first = second := by
  have hlines : linesOfAll indent first = linesOfAll indent second := by
    rw [← map_ofText_printList htable hnests hfirst indent, htext,
      map_ofText_printList htable hnests hsecond indent]
  have hchildren : ∀ child ∈ first, child.Legible table ∧ child.Unmistakable table := by
    intro child hchild
    obtain ⟨_, hlegible⟩ := hfirst child hchild
    exact ⟨hlegible.root, hlegible.unmistakable htable hnests⟩
  have hnothing : Closing [] := by
    intro line hline
    cases hline
  have hends : linesOfAll indent first ++ [] = linesOfAll indent second ++ [] := by
    rw [hlines]
  exact (eq_of_linesOfAll htable hchildren hsecond hnothing hnothing hends).1

end Instruction

/-! ## Decoded blocks -/

theorem Instruction.FloatFree.of_children {item : Instruction}
    (hoperands : ∀ operand ∈ item.operands, operand.kind ≠ .f32 ∧ operand.kind ≠ .f64)
    (hchildren : ∀ body, .instructions body ∈ item.operands →
      ∀ child ∈ body, child.FloatFree) : item.FloatFree := by
  intro depth inner hinner
  cases hinner with
  | root => exact hoperands
  | nested hbody hchild hinner => exact hchildren _ hbody _ hchild _ _ hinner

theorem Decoder.legible_of_decodeBlock {decoder : Decoder} (htable : decoder.table.Coherent)
    {input : Input} {content : Block}
    (hcontent : (decoder.decodeBlock input).result = .ok content)
    (hfloats : ∀ item ∈ content.instructions, item.FloatFree) :
    ∀ item ∈ content.instructions,
      ∃ levels, item.Throughout (Instruction.Legible decoder.table) levels := by
  intro item hitem
  obtain ⟨hinner, hconforms⟩ := decodeBlock_conforms htable hcontent item hitem
  exact ⟨_, hconforms.legible hinner (hfloats item hitem)⟩

/-- Decoded blocks without floating-point numbers are told from their prints, if only
blocks and loops have fields that hold instructions. -/
theorem prints_of_blocks_are_unambiguous
    {σ τ : Type} [ViewedSource σ] [ViewedSource τ]
    (table : Table) (htable : table.Accepted) (hnests : table.NestsInBlocks)
    {limit otherLimit : Nat} {watched otherWatched : Bool} {source : σ} {otherSource : τ}
    {content otherContent : Block}
    (hcontent : (Decoder.decodeBlock ⟨table, limit, watched⟩ source).result = .ok content)
    (hother : (Decoder.decodeBlock ⟨table, otherLimit, otherWatched⟩ otherSource).result =
      .ok otherContent)
    (hfloats : ∀ item ∈ content.instructions, item.FloatFree)
    (hotherFloats : ∀ item ∈ otherContent.instructions, item.FloatFree)
    (indent : Nat)
    (htext : (Instruction.printList indent content.instructions).text =
      (Instruction.printList indent otherContent.instructions).text) :
    content.instructions = otherContent.instructions := by
  have hcoherent := htable.wellFormed.toCoherent
  rw [Decoder.result_decodeBlock] at hcontent hother
  exact Instruction.eq_of_printList_eq htable hnests
    (Decoder.legible_of_decodeBlock hcoherent hcontent hfloats)
    (Decoder.legible_of_decodeBlock hcoherent hother hotherFloats) htext

/-- A conditional whose second arm is empty, closed by `end`, and the same one without a
second arm, closed by `else`. -/
theorem told_without_second_arm :
    let item : Instruction := ⟨.conditional, [.blockType none,
      .instructions [⟨⟨61⟩, [.i32 1]⟩], .instructions []]⟩
    let decoder : Decoder := ⟨Table.sample, 1, false⟩
    let source : StreamSource := .ofBytes [0x04, 0x40, 0x41, 0x81, 0x00, 0x05, 0x0B, 0x0B]
    let otherSource : StreamSource := .ofBytes [0x04, 0x40, 0x41, 0x01, 0x0B, 0x05]
    Table.sample.Accepted ∧ Table.sample.NestsInBlocks ∧ item.FloatFree ∧
      (decoder.decodeBlock source).result = .ok ⟨[item], false⟩ ∧
      (decoder.decodeBlock otherSource).result = .ok ⟨[item], true⟩ ∧
      (⟨[item], false⟩ : Block).instructions = (⟨[item], true⟩ : Block).instructions := by
  intro item decoder source otherSource
  have hnests : Table.sample.NestsInBlocks := by
    unfold Table.NestsInBlocks
    decide
  have hcontent : (decoder.decodeBlock source).result = .ok ⟨[item], false⟩ := by cbv
  have hother : (decoder.decodeBlock otherSource).result = .ok ⟨[item], true⟩ := by cbv
  have hconstant : Instruction.FloatFree ⟨⟨61⟩, [.i32 1]⟩ := by
    apply Instruction.FloatFree.of_children
    · simp [Instruction.operands, Operand.kind]
    · simp [Instruction.operands]
  have hfloats : item.FloatFree := by
    apply Instruction.FloatFree.of_children
    · simp [item, Instruction.operands, Operand.kind]
    · simpa [item, Instruction.operands] using hconstant
  have hall : ∀ child ∈ [item], child.FloatFree := by simpa using hfloats
  exact ⟨Table.accepted_sample, hnests, hfloats, hcontent, hother,
    prints_of_blocks_are_unambiguous Table.sample Table.accepted_sample hnests hcontent hother
      hall hall 0 rfl⟩

end Disassembly
