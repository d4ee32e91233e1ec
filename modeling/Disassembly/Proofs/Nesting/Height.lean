import Disassembly.Proofs.Grammar.Derivation
import Disassembly.Proofs.Table.Invariant

/-!
# Heights of trees

The height of a tree is the number of sequences that lie in each other at its
deepest place.  Both arms of a conditional are sequences of the conditional, and
so they count as one level.

The levels that a phrase needs are those of the tree that it stands for, except
that the terminator of a block leaves no trace in the tree.  Where terminators
hold no blocks, a phrase is a phrase under a limit exactly if its tree is not
higher than what the limit leaves.
-/

namespace Disassembly

mutual

/-- The most sequences of an instruction that lie in each other. -/
def Instruction.height : Instruction → Nat
  | .mk _ operands => Operand.heightOfAll operands
  termination_by structural instruction => instruction

def Operand.height : Operand → Nat
  | .instructions body => Instruction.heightOfAll body + 1
  | _ => 0
  termination_by structural operand => operand

def Operand.heightOfAll : List Operand → Nat
  | [] => 0
  | operand :: more => max (Operand.height operand) (Operand.heightOfAll more)
  termination_by structural operands => operands

def Instruction.heightOfAll : List Instruction → Nat
  | [] => 0
  | instruction :: more =>
    max (Instruction.height instruction) (Instruction.heightOfAll more)
  termination_by structural instructions => instructions

end

/-- The height of a block is that of its highest instruction. -/
def Block.height (block : Block) : Nat :=
  Instruction.heightOfAll block.instructions

/-- No terminator of the table holds a block of its own. -/
def Table.TerminatorsFlat (table : Table) : Prop :=
  ∀ entry ∈ table.entries, entry.type.isTerminator →
    .instructions ∉ entry.layout.fields

namespace Grammar

variable {table : Table} {limit level : Nat} {bytes : List UInt8}

/-- The height of what a phrase stands for. -/
def Phrase.height : Phrase → Nat
  | .instruction item => item.height
  | .operands _ values => Operand.heightOfAll values
  | .field _ value => value.height
  | .block content => content.height

theorem Scalar.height_eq {field : Field} {value : Operand}
    (hvalue : Scalar field bytes value) : value.height = 0 := by
  cases hvalue <;> rfl

/-- The levels of a phrase are within the limit that it was derived under. -/
theorem Derives.height_le {phrase : Phrase}
    (hphrase : Derives table limit level bytes phrase) (hlevel : level ≤ limit) :
    level + phrase.height ≤ limit := by
  induction hphrase with
  | instruction _ _ ih => exact ih hlevel
  | noFields => exact hlevel
  | nextField _ _ hfirst hmore =>
      have hfirst := hfirst hlevel
      have hmore := hmore hlevel
      simp only [Phrase.height, Operand.heightOfAll] at hfirst hmore ⊢
      omega
  | oneArm _ hdeeper _ hfirst =>
      have hfirst := hfirst hdeeper
      simp only [Phrase.height, Block.height] at hfirst
      simp only [Phrase.height, Operand.heightOfAll, Operand.height,
        Instruction.heightOfAll]
      omega
  | twoArms _ hdeeper _ _ hfirst hsecond =>
      have hfirst := hfirst hdeeper
      have hsecond := hsecond hdeeper
      simp only [Phrase.height, Block.height] at hfirst hsecond
      simp only [Phrase.height, Operand.heightOfAll, Operand.height]
      omega
  | branchTable => simpa [Phrase.height, Operand.heightOfAll, Operand.height]
  | scalar hvalue => simpa [Phrase.height, hvalue.height_eq]
  | nested hdeeper _ hcontent =>
      have hcontent := hcontent hdeeper
      simp only [Phrase.height, Block.height] at hcontent
      simp only [Phrase.height, Operand.height]
      omega
  | close => simpa [Phrase.height, Block.height, Instruction.heightOfAll]
  | next _ _ _ hitem hcontent =>
      have hitem := hitem hlevel
      have hcontent := hcontent hlevel
      simp only [Phrase.height, Block.height, Instruction.heightOfAll]
        at hitem hcontent ⊢
      omega

/-- Fields without blocks hold no sequences. -/
theorem Derives.height_eq_of_flat {fields : List Field} {values : List Operand}
    (hvalues : Derives table limit level bytes (.operands (.inOrder fields) values))
    (hflat : .instructions ∉ fields) : Operand.heightOfAll values = 0 := by
  induction fields generalizing bytes values with
  | nil =>
      obtain ⟨_, rfl⟩ := derives_noFields_iff.mp hvalues
      rfl
  | cons field fields ih =>
      rw [List.mem_cons, not_or] at hflat
      obtain ⟨value, first, second, hvalue, ⟨more, hmore, rfl⟩, rfl⟩ :=
        derives_nextField_iff.mp hvalues
      have hscalar := (derives_scalar_iff (Ne.symm hflat.1)).mp hvalue
      rw [Operand.heightOfAll, hscalar.height_eq, ih hmore hflat.2]
      rfl

theorem Derives.terminator_height
    (htable : table.Coherent) (hflat : table.TerminatorsFlat) {item : Instruction}
    (hitem : Derives table limit level bytes (.instruction item))
    (hterminator : item.isTerminator) : item.height = 0 := by
  obtain ⟨entry, hentry, rest, values, hvalues, rfl, rfl⟩ :=
    derives_instruction_iff.mp hitem
  have hfields := hflat entry hentry hterminator
  obtain ⟨fields, hlayout⟩ := htable.exists_fields_of_isTerminator hentry hterminator
  rw [hlayout] at hvalues hfields
  exact hvalues.height_eq_of_flat hfields

/-- A phrase whose tree is low enough is a phrase under a lower limit. -/
theorem Derives.of_height_le
    (htable : table.Coherent) (hflat : table.TerminatorsFlat) {low : Nat}
    {phrase : Phrase} (hphrase : Derives table limit level bytes phrase)
    (hheight : level + phrase.height ≤ low) :
    Derives table low level bytes phrase := by
  induction hphrase with
  | instruction hentry _ ih => exact .instruction hentry (ih hheight)
  | noFields => exact .noFields
  | nextField _ _ hfirst hmore =>
      simp only [Phrase.height, Operand.heightOfAll] at hfirst hmore hheight
      exact .nextField (hfirst (by omega)) (hmore (by omega))
  | oneArm htype _ _ hfirst =>
      simp only [Phrase.height, Operand.heightOfAll, Operand.height,
        Block.height] at hfirst hheight
      exact .oneArm htype (by omega) (hfirst (by omega))
  | twoArms htype _ _ _ hfirst hsecond =>
      simp only [Phrase.height, Operand.heightOfAll, Operand.height,
        Block.height] at hfirst hsecond hheight
      exact .twoArms htype (by omega) (hfirst (by omega)) (hsecond (by omega))
  | branchTable htargets => exact .branchTable htargets
  | scalar hvalue => exact .scalar hvalue
  | nested _ _ hcontent =>
      simp only [Phrase.height, Operand.height, Block.height] at hcontent hheight
      exact .nested (by omega) (hcontent (by omega))
  | close hitem hterminator ih =>
      have hlow := hitem.terminator_height htable hflat hterminator
      simp only [Phrase.height] at ih
      simp only [Phrase.height, Block.height] at hheight
      exact .close (ih (by omega)) hterminator
  | next _ hinner _ hitem hcontent =>
      simp only [Phrase.height, Block.height, Instruction.heightOfAll]
        at hitem hcontent hheight
      exact .next (hitem (by omega)) hinner (hcontent (by omega))

end Grammar

end Disassembly
