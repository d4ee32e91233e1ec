import Disassembly.Proofs.FieldCode
import Disassembly.Proofs.Table.Describing
import Disassembly.Table.Containers

/-!
# Entries and how they are stored

An entry is stored with a rule and a list of fields, both by number.  The two are
filled in word by word, and only the finished entry is checked against its type.
What is stored for a row is the entry that the row describes, and a row is
refused for the same fault.
-/

namespace Disassembly

/-- The form in which an entry is stored. -/
def Entry.stored (entry : Entry) : StoredEntry :=
  ⟨entry.opcode.lead, entry.opcode.second?, entry.type, entry.layout.rule,
    entry.layout.fields.map Field.code⟩

variable {entry : Entry} {layout : Layout} {word : String} {words : List String} {count : Nat}

theorem Entry.stored_injective : Function.Injective Entry.stored := by
  intro first second hstored
  obtain ⟨⟨lead, second?⟩, type, layout⟩ := first
  obtain ⟨⟨otherLead, otherSecond?⟩, otherType, otherLayout⟩ := second
  simp only [stored, StoredEntry.mk.injEq] at hstored
  obtain ⟨rfl, rfl, rfl, hrule, hfields⟩ := hstored
  rw [← layout.layout_rule_fields, ← otherLayout.layout_rule_fields, hrule,
    Field.code_injective.list_map hfields]

namespace StoredEntry

/-! ## Words -/

theorem text_stored (entry : Entry) : entry.stored.text = entry.text := by
  have hwords : entry.stored.operandWords = entry.layout.names := by
    unfold operandWords Entry.stored
    split
    next hrule =>
      obtain ⟨fields, hlayout⟩ := Layout.rule_eq_inOrder_iff.mp hrule
      have hnames : fields.map (FieldCode.name ∘ Field.code) = fields.map Field.name :=
        List.map_congr_left fun field _ => field.name_code
      rw [hlayout, Layout.fields, List.map_map, hnames, Layout.names]
    next hrule => exact (Layout.names_eq_directive hrule).symm
  rw [text, Entry.text, hwords]
  rfl

theorem addWord_of_directive {directive : Directive}
    (hword : Directive.ofName? word = some directive) (entry : StoredEntry) :
    addWord count entry word =
      if count = 1 then .ok { entry with rule := .ofDirective directive }
      else .error (.mixedDirective word) := by
  rw [addWord, if_pos (Directive.head?_of_ofName? hword), Rule.ofName?, hword, Option.map_some]

theorem addWord_of_field (hword : Directive.ofName? word = none) (entry : StoredEntry) :
    addWord count entry word =
      (Field.ofWord word).map fun field =>
        { entry with fields := entry.fields ++ [field.code] } := by
  rw [addWord, Field.ofWord]
  split
  next => simp [Rule.ofName?, hword, Except.map]
  next =>
    rw [FieldCode.ofName?]
    cases Field.ofName? word <;> rfl

/-- Among several words each one has to name a field. -/
theorem foldlM_addWord (hcount : count ≠ 1) (entry : StoredEntry) :
    words.foldlM (addWord count) entry =
      (words.mapM Field.ofWord).map fun fields =>
        { entry with fields := entry.fields ++ fields.map Field.code } := by
  induction words generalizing entry with
  | nil => simp [pure, Except.pure, Except.map]
  | cons word words ih =>
      rw [List.foldlM_cons, List.mapM_cons]
      cases hdirective : Directive.ofName? word with
      | some directive =>
          have hpercent := Directive.head?_of_ofName? hdirective
          rw [addWord_of_directive hdirective, if_neg hcount, Field.ofWord, if_pos hpercent,
            hdirective, Option.isSome_some, if_pos rfl]
          rfl
      | none =>
          rw [addWord_of_field hdirective]
          cases Field.ofWord word with
          | error fault => rfl
          | ok field =>
              have hrest := ih { entry with fields := entry.fields ++ [field.code] }
              simp only [bind, Except.bind, Except.map] at hrest ⊢
              rw [hrest]
              cases words.mapM Field.ofWord with
              | error fault => rfl
              | ok fields => simp [pure, Except.pure]

/-- The words of a row fill in the rule and the fields of its layout. -/
theorem foldlM_addWord_eq (opcode : Opcode) (type : InstructionType) :
    words.foldlM (addWord words.length) ⟨opcode.lead, opcode.second?, type, .inOrder, []⟩ =
      (Layout.ofWords words).map fun layout => Entry.stored ⟨opcode, type, layout⟩ := by
  by_cases hone : words.length = 1
  · obtain ⟨word, rfl⟩ := List.length_eq_one_iff.mp hone
    rw [List.foldlM_cons, Layout.ofWords, List.length_singleton]
    cases hdirective : Directive.ofName? word with
    | some directive =>
        rw [addWord_of_directive hdirective, if_pos rfl]
        rfl
    | none =>
        rw [addWord_of_field hdirective]
        cases Field.ofWord word <;> rfl
  · have hfields : Layout.ofWords words = (words.mapM Field.ofWord).map .inOrder := by
      refine Layout.ofWords_fields fun directive hwords => hone ?_
      rw [hwords, List.length_singleton]
    rw [foldlM_addWord hone, hfields]
    cases words.mapM Field.ofWord <;> rfl

/-! ## Checks -/

theorem isEqv_code_iff {fields others : List Field} :
    (fields.map Field.code).isEqv (others.map Field.code) FieldCode.denotesSame = true ↔
      fields = others := by
  induction fields generalizing others with
  | nil => cases others <;> simp
  | cons field fields ih =>
      cases others with
      | nil => simp
      | cons other others =>
          rw [List.map_cons, List.map_cons, List.isEqv_cons_cons, Bool.and_eq_true, ih,
            Field.denotesSame_code_iff, List.cons.injEq]

theorem misfit?_stored (entry : Entry) : entry.stored.misfit? = entry.misfit? := by
  obtain ⟨opcode, type, layout⟩ := entry
  have hspecial (directive : Directive) :
      layout.rule = .ofDirective directive ↔ layout = .special directive :=
    Layout.rule_eq_ofDirective_iff
  have hconditional := hspecial .conditional
  have hbranches := hspecial .branchTable
  simp only [Rule.ofDirective] at hconditional hbranches
  have hblock : layout.rule = .inOrder ∧
      (layout.fields.map Field.code).isEqv blockFields FieldCode.denotesSame = true ↔
        layout = .inOrder [.blockType, .instructions] := by
    have hfields : blockFields = [Field.blockType, Field.instructions].map Field.code := rfl
    rw [Layout.rule_eq_inOrder_iff, hfields, isEqv_code_iff]
    constructor
    · rintro ⟨⟨fields, rfl⟩, hsame⟩
      exact congrArg Layout.inOrder hsame
    · rintro rfl
      exact ⟨⟨_, rfl⟩, rfl⟩
  simp only [misfit?, Entry.stored, hconditional, hbranches, hblock, Entry.misfit?,
    InstructionType.requiredLayout?]
  cases layout with
  | special directive =>
      have hother : InstructionType.branchTable ≠ .conditional := by decide
      cases directive with
      | conditional =>
          by_cases htype : type = .conditional <;>
            simp [htype, Option.filter_some, Layout.directive?, Directive.subject, eq_comm]
      | branchTable =>
          by_cases htype : type = .branchTable <;>
            simp [htype, hother, Option.filter_some, Layout.directive?, Directive.subject, eq_comm]
  | unknown rule =>
      simp only [Layout.directive?, reduceCtorEq, false_and, if_false, Option.filter_none]
      split_ifs <;> simp_all [Option.filter_some]
  | inOrder fields =>
      simp only [Layout.directive?, reduceCtorEq, false_and, if_false, Option.filter_none]
      by_cases hfields : fields = [.blockType, .instructions]
      · split_ifs <;> simp_all
      · split_ifs <;> simp_all [Option.filter_some, Ne.symm hfields]

/-- The entry that is stored for a row is the one that the row describes. -/
theorem ofRow_eq (row : Row) : ofRow row = (Entry.ofRow row).map Entry.stored := by
  unfold ofRow Entry.ofRow
  cases InstructionType.ofName? row.name with
  | none => rfl
  | some type =>
      dsimp only
      rw [foldlM_addWord_eq]
      cases Layout.ofWords (Text.words row.fields) with
      | error fault => rfl
      | ok layout =>
          simp only [bind, Except.bind, Except.map, misfit?_stored]
          cases Entry.misfit? ⟨row.opcode, type, layout⟩ <;> rfl

end StoredEntry

/-! ## Bound entries -/

/-- The rule and the fields that an entry stores are known, and those that its type asks for. -/
structure StoredEntry.Bound (entry : StoredEntry) : Prop where
  conditional : entry.rule = .conditional ↔ entry.type = .conditional
  branchTable : entry.rule = .branchTable ↔ entry.type = .branchTable
  block : entry.type = .block ∨ entry.type = .loop →
    entry.rule = .inOrder ∧ entry.fields = blockFields
  known : entry.rule = .inOrder ∨ entry.rule = .conditional ∨ entry.rule = .branchTable
  named : ∀ field ∈ entry.fields, field.field ∈ Field.all
  bare : entry.rule ≠ .inOrder → entry.fields = []

theorem Entry.Bound.stored {entry : Entry} (hentry : entry.Bound)
    (hknown : entry.layout.Known) : entry.stored.Bound where
  conditional := by
    have hrule : entry.layout.rule = .ofDirective .conditional ↔ _ :=
      Layout.rule_eq_ofDirective_iff
    exact hrule.trans hentry.conditional
  branchTable := by
    have hrule : entry.layout.rule = .ofDirective .branchTable ↔ _ :=
      Layout.rule_eq_ofDirective_iff
    exact hrule.trans hentry.branchTable
  block htype := by
    rw [Entry.stored, hentry.block htype]
    exact ⟨rfl, rfl⟩
  known := by
    unfold Entry.stored
    cases hlayout : entry.layout with
    | inOrder => exact .inl rfl
    | special directive =>
        cases directive with
        | conditional => exact .inr (.inl rfl)
        | branchTable => exact .inr (.inr rfl)
    | unknown rule =>
        rw [hlayout] at hknown
        exact hknown.elim
  named := by
    simp only [Entry.stored, List.forall_mem_map, Field.field_code]
    cases hlayout : entry.layout with
    | inOrder fields =>
        rw [hlayout] at hknown
        exact hknown
    | special directive => exact List.forall_mem_nil _
    | unknown rule => exact List.forall_mem_nil _
  bare hrule := by
    unfold Entry.stored at hrule ⊢
    cases hlayout : entry.layout with
    | inOrder => simp [hlayout, Layout.rule] at hrule
    | special directive => rfl
    | unknown rule => rfl

end Disassembly
