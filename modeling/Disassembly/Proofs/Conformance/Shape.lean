import Disassembly.Proofs.Grammar.Derivation
import Disassembly.Proofs.Table.Invariant

/-!
# Trees that conform to a table

An instruction has the shape of a table if the table maps its type and its
operands fit the layout of the entry.  Three types and the branch table have
operands of a known form in every table, and no sequence holds a terminator.

A tree conforms to a table if every instruction in it has such a shape and not
too many sequences lie in each other.  It conforms if its root has the shape and
the instructions of its sequences conform with one level less.
-/

namespace Disassembly

/-! ## Operands of a layout -/

/-- The values that a field can have. -/
inductive Field.Fits : Field → Operand → Prop
  | u32 (value : UInt32) : Fits .u32 (.u32 value)
  | i32 (value : Int32) : Fits .i32 (.i32 value)
  | i64 (value : Int64) : Fits .i64 (.i64 value)
  | f32 (bits : UInt32) : Fits .f32 (.f32 bits)
  | f64 (bits : UInt64) : Fits .f64 (.f64 bits)
  | index (space : IndexSpace) {value : UInt64}
      (hvalue : value.toNat < 2 ^ 32) : Fits (.index space) (.index space value)
  | blockType {type : BlockType}
      (htype : ∀ result, type = some result → result ∈ ValueType.all) :
      Fits .blockType (.blockType type)
  | referenceType {type : ValueType}
      (htype : type = .funcRef ∨ type = .externRef) :
      Fits .referenceType (.valueType type)
  | valueTypes {types : List ValueType}
      (htypes : ∀ type ∈ types, type ∈ ValueType.all) :
      Fits .valueTypes (.valueTypes types)
  | instructions (body : List Instruction) :
      Fits .instructions (.instructions body)

/-- The operands that a layout can have: one for each field, or those of the
directive. -/
inductive Layout.Fits : Layout → List Operand → Prop
  | inOrder {fields : List Field} {operands : List Operand}
      (hoperands : List.Forall₂ Field.Fits fields operands) :
      Fits (.inOrder fields) operands
  | conditional {type : BlockType} (htype : Field.blockType.Fits (.blockType type))
      (first second : List Instruction) :
      Fits (.special .conditional)
        [.blockType type, .instructions first, .instructions second]
  | branchTable {targets : List UInt32} (htargets : targets ≠ []) :
      Fits (.special .branchTable) [.labels targets]

/-! ## Instructions and trees -/

/-- An instruction in a tree, under a number of nested sequences. -/
inductive Instruction.Within : Instruction → Nat → Instruction → Prop
  | root (root : Instruction) : Within root 0 root
  | nested {root child item : Instruction} {levels : Nat}
      {body : List Instruction} (hbody : .instructions body ∈ root.operands)
      (hchild : child ∈ body) (hitem : Within child levels item) :
      Within root (levels + 1) item

/-- The shape that a table asks of an instruction. -/
structure Instruction.Shaped (table : Table) (item : Instruction) : Prop where
  fits : ∃ entry, table.entryOf? item.type = some entry ∧
    entry.layout.Fits item.operands
  conditional : item.type = .conditional → ∃ type first second,
    item.operands =
      [.blockType type, .instructions first, .instructions second]
  branchTable : item.type = .branchTable → ∃ targets, targets ≠ [] ∧
    item.operands = [.labels targets]
  block : item.type = .block ∨ item.type = .loop → ∃ type body,
    item.operands = [.blockType type, .instructions body]
  closed : ∀ body, .instructions body ∈ item.operands →
    ∀ child ∈ body, ¬ child.isTerminator

/-- Every instruction of a tree fulfils a condition and lies under at most `levels`
sequences, and no more than `levels` sequences lie in each other. -/
def Instruction.Throughout
    (holds : Instruction → Prop) (levels : Nat) (tree : Instruction) : Prop :=
  ∀ depth item, tree.Within depth item →
    depth ≤ levels ∧ holds item ∧
      ∀ body, .instructions body ∈ item.operands → depth + 1 ≤ levels

/-- Every instruction of a tree has the shape of the table, and at most `levels`
sequences lie in each other. -/
def Instruction.Conforms
    (table : Table) (levels : Nat) (tree : Instruction) : Prop :=
  tree.Throughout (Shaped table) levels

/-- A sequence without terminators whose instructions conform. -/
def Instruction.AllConform
    (table : Table) (levels : Nat) (body : List Instruction) : Prop :=
  ∀ item ∈ body, ¬ item.isTerminator ∧ item.Conforms table levels

namespace Instruction

variable {holds : Instruction → Prop} {levels : Nat} {item : Instruction}

theorem Throughout.root (hitem : item.Throughout holds levels) : holds item :=
  (hitem 0 item (.root item)).2.1

theorem Throughout.children
    (hitem : item.Throughout holds levels) {body : List Instruction}
    (hbody : .instructions body ∈ item.operands) :
    ∃ fewer, levels = fewer + 1 ∧
      ∀ child ∈ body, child.Throughout holds fewer := by
  have hpositive := (hitem 0 item (.root item)).2.2 body hbody
  obtain ⟨fewer, rfl⟩ := Nat.exists_eq_add_of_le' hpositive
  refine ⟨fewer, rfl, ?_⟩
  intro child hchild depth inner hinner
  obtain ⟨hdepth, hholds, hsequences⟩ :=
    hitem _ _ (.nested hbody hchild hinner)
  refine ⟨by omega, hholds, ?_⟩
  intro other hother
  have hlevel := hsequences other hother
  omega

theorem Throughout.of_children
    (hroot : holds item)
    (hchildren : ∀ body, .instructions body ∈ item.operands →
      ∃ fewer, levels = fewer + 1 ∧
        ∀ child ∈ body, child.Throughout holds fewer) :
    item.Throughout holds levels := by
  intro depth inner hinner
  cases hinner with
  | root =>
      refine ⟨Nat.zero_le _, hroot, ?_⟩
      intro body hbody
      obtain ⟨fewer, rfl, _⟩ := hchildren body hbody
      omega
  | nested hbody hchild hinner =>
      obtain ⟨fewer, rfl, hfewer⟩ := hchildren _ hbody
      obtain ⟨hdepth, hholds, hsequences⟩ := hfewer _ hchild _ _ hinner
      refine ⟨by omega, hholds, ?_⟩
      intro other hother
      have hlevel := hsequences other hother
      omega

/-- What an instruction inherits from the instructions of its sequences holds of
every tree. -/
theorem Throughout.induction
    {motive : Nat → Instruction → Prop}
    (hstep : ∀ levels item, holds item →
      (∀ body, .instructions body ∈ item.operands →
        ∃ fewer, levels = fewer + 1 ∧ ∀ child ∈ body, motive fewer child) →
      motive levels item)
    (hitem : item.Throughout holds levels) : motive levels item := by
  induction levels generalizing item with
  | zero =>
      refine hstep 0 item hitem.root ?_
      intro body hbody
      obtain ⟨fewer, hfewer, _⟩ := hitem.children hbody
      cases hfewer
  | succ levels ih =>
      refine hstep (levels + 1) item hitem.root ?_
      intro body hbody
      obtain ⟨fewer, hfewer, hinner⟩ := hitem.children hbody
      obtain rfl : levels = fewer := Nat.succ.inj hfewer
      exact ⟨levels, rfl, fun child hchild => ih (hinner child hchild)⟩

theorem Throughout.within
    (hitem : item.Throughout holds levels) {inner : Instruction} {depth : Nat}
    (hinner : item.Within depth inner) :
    ∃ fewer, inner.Throughout holds fewer := by
  induction hinner generalizing levels with
  | root => exact ⟨levels, hitem⟩
  | nested hbody hchild _ ih =>
      obtain ⟨fewer, _, hfewer⟩ := hitem.children hbody
      exact ih (hfewer _ hchild)

end Instruction

/-! ## Bound layouts -/

namespace Table

variable {table : Table} {entry : Entry}

theorem Coherent.layout_eq_of_required
    (htable : table.Coherent) (hentry : entry ∈ table.entries)
    {layout : Layout} (hrequired : entry.type.requiredLayout? = some layout) :
    entry.layout = layout :=
  (Entry.misfit?_eq_none_iff.mp (htable.suited entry hentry)).2 layout hrequired

/-- Operands that fit their entry have the form that their type is bound to. -/
theorem Coherent.shaped
    (htable : table.Coherent) (hentry : entry ∈ table.entries)
    {operands : List Operand} (hfits : entry.layout.Fits operands)
    (hclosed : ∀ body, .instructions body ∈ operands →
      ∀ child ∈ body, ¬ child.isTerminator) :
    Instruction.Shaped table ⟨entry.type, operands⟩ := by
  refine ⟨⟨entry, htable.entryOf?_eq_some_iff.mpr ⟨hentry, rfl⟩, hfits⟩,
    ?_, ?_, ?_, hclosed⟩
  · intro (htype : entry.type = .conditional)
    rw [htable.layout_eq_of_required hentry (by rw [htype]; rfl)] at hfits
    cases hfits with
    | conditional _ first second => exact ⟨_, first, second, rfl⟩
  · intro (htype : entry.type = .branchTable)
    rw [htable.layout_eq_of_required hentry (by rw [htype]; rfl)] at hfits
    cases hfits with
    | branchTable htargets => exact ⟨_, htargets, rfl⟩
  · intro (htype : entry.type = .block ∨ entry.type = .loop)
    have hrequired :
        entry.type.requiredLayout? = some (.inOrder [.blockType, .instructions]) := by
      rcases htype with htype | htype <;> rw [htype] <;> rfl
    rw [htable.layout_eq_of_required hentry hrequired] at hfits
    rcases hfits with ⟨_ | ⟨hfirst, _ | ⟨hsecond, _ | _⟩⟩⟩
    cases hfirst
    cases hsecond
    exact ⟨_, _, rfl⟩

end Table

end Disassembly
