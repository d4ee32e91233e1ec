import Disassembly.Proofs.Printing.Violations

/-!
# Where a print breaks off

The order of the places in a tree is the order of its print.  The print breaks off at
the first violation with the fault of this violation, and a tree without violations is
printed to its end.  Both are shown for every part of a print, and parts that are
printed one after the other are put together from left to right.
-/

namespace Disassembly

open Printout

/-! ## Parts of a print -/

/-- A part of a print breaks off with the first violation in its part of the tree, or
not at all if there is none. -/
structure Explains (violates : List Nat → AccessError → Prop)
    (fault? : Option AccessError) : Prop where
  complete : fault? = none → ∀ place fault, ¬ violates place fault
  broken : ∀ fault, fault? = some fault → ∃ place, violates place fault ∧
    ∀ other otherFault, violates other otherFault → place ≤ other

namespace Explains

variable {violates others : List Nat → AccessError → Prop}
  {fault? other? : Option AccessError}

theorem congr (hexplains : Explains violates fault?)
    (hsame : ∀ place fault, violates place fault ↔ others place fault) :
    Explains others fault? := by
  obtain rfl : violates = others := by
    funext place fault
    exact propext (hsame place fault)
  exact hexplains

theorem of_none (hnone : ∀ place fault, ¬ violates place fault) :
    Explains violates none :=
  ⟨fun _ => hnone, fun _ hfault => by cases hfault⟩

theorem of_first {place : List Nat} {fault : AccessError} (hfirst : violates place fault)
    (hleast : ∀ other otherFault, violates other otherFault → place ≤ other) :
    Explains violates (some fault) := by
  constructor
  · intro hnone
    cases hnone
  · rintro _ ⟨⟩
    exact ⟨place, hfirst, hleast⟩

/-- Two parts of a print, the first of which comes first in the tree. -/
theorem or (hfirst : Explains violates fault?) (hsecond : Explains others other?)
    (hordered : ∀ place fault other otherFault, violates place fault →
      others other otherFault → place ≤ other) :
    Explains (fun place fault => violates place fault ∨ others place fault)
      (fault?.or other?) := by
  cases fault? with
  | some fault =>
      obtain ⟨place, hplace, hleast⟩ := hfirst.broken fault rfl
      refine of_first (.inl hplace) ?_
      rintro other otherFault (hother | hother)
      · exact hleast other otherFault hother
      · exact hordered place fault other otherFault hplace hother
  | none =>
      refine hsecond.congr ?_
      intro place fault
      simp [hfirst.complete rfl place fault]

/-- Everything in a part of the tree stands behind the index of the part. -/
theorem below (hexplains : Explains violates fault?) (index : Nat) :
    Explains (fun place fault => ∃ rest, place = index :: rest ∧ violates rest fault)
      fault? where
  complete := by
    rintro hnone _ fault ⟨rest, rfl, hrest⟩
    exact hexplains.complete hnone rest fault hrest
  broken := by
    intro fault hfault
    obtain ⟨place, hplace, hleast⟩ := hexplains.broken fault hfault
    refine ⟨index :: place, ⟨place, rfl, hplace⟩, ?_⟩
    rintro _ otherFault ⟨rest, rfl, hrest⟩
    exact List.cons_le_cons index (hleast rest otherFault hrest)

/-- The parts of a list are printed one after the other. -/
theorem cons {α : Type} {violates : α → List Nat → AccessError → Prop} {part : α}
    {parts : List α} {start : Nat} (hfirst : Explains (violates part) fault?)
    (hmore : Explains (Among violates (start + 1) parts) other?) :
    Explains (Among violates start (part :: parts)) (fault?.or other?) := by
  refine ((hfirst.below start).or hmore ?_).congr ?_
  · rintro _ _ _ _ ⟨first, rfl, _⟩ ⟨index, _, rest, _, rfl, _⟩
    exact (List.cons_lt_cons_iff.mpr (.inl (by omega))).le
  · intro place fault
    constructor
    · rintro (⟨rest, rfl, hrest⟩ | ⟨index, other, rest, hother, rfl, hrest⟩)
      · exact ⟨0, part, rest, rfl, rfl, hrest⟩
      · exact ⟨index + 1, other, rest, hother, by rw [Nat.add_right_comm]; rfl, hrest⟩
    · rintro ⟨index, other, rest, hother, rfl, hrest⟩
      cases index with
      | zero =>
          obtain rfl : part = other := Option.some.inj hother
          exact .inl ⟨rest, rfl, hrest⟩
      | succ index =>
          exact .inr ⟨index, other, rest, hother, by rw [Nat.add_right_comm]; rfl, hrest⟩

end Explains

theorem explains_among_nil {α : Type} (violates : α → List Nat → AccessError → Prop)
    (start : Nat) : Explains (Among violates start []) none := by
  apply Explains.of_none
  rintro place fault ⟨index, part, rest, hpart, _⟩
  cases hpart

theorem among_range_iff {violates : List Nat → AccessError → Prop} {count : Nat}
    {place : List Nat} {fault : AccessError} :
    Among (fun position rest fault => violates (position :: rest) fault) 0
        (List.range count) place fault ↔
      ∃ position rest, position < count ∧ place = position :: rest ∧
        violates place fault := by
  constructor
  · rintro ⟨index, position, rest, hposition, rfl, hviolates⟩
    obtain ⟨hindex, rfl⟩ := List.getElem?_eq_some_iff.mp hposition
    rw [List.getElem_range] at hviolates
    rw [List.length_range] at hindex
    exact ⟨index, rest, hindex, by rw [Nat.zero_add], by rwa [Nat.zero_add]⟩
  · rintro ⟨position, rest, hposition, rfl, hviolates⟩
    exact ⟨position, position, rest, List.getElem?_range hposition,
      by rw [Nat.zero_add], hviolates⟩

namespace Instruction

/-- The print of an instruction breaks off as its violations say, at any indentation. -/
def Explained (item : Instruction) : Prop :=
  ∀ indent, Explains item.Violates (item.print indent).fault?

variable {type : InstructionType} {operands : List Operand}

theorem explains_printList {body : List Instruction}
    (hbody : ∀ child ∈ body, child.Explained) (indent start : Nat) :
    Explains (Among Violates start body) (printList indent body).fault? := by
  induction body generalizing start with
  | nil => exact explains_among_nil _ start
  | cons child body ih =>
      rw [List.forall_mem_cons] at hbody
      simp only [printList]
      rw [fault?_append]
      exact (hbody.1 indent).cons (ih hbody.2 (start + 1))

theorem explains_printOperand {operand : Operand}
    (hoperand : ∀ body, .instructions body = operand → ∀ child ∈ body, child.Explained)
    (indent : Nat) :
    Explains operand.Violates (printOperand indent operand).fault? := by
  cases operand with
  | instructions body =>
      have hbody := explains_printList (hoperand body rfl) (indent + 1) 0
      simp only [printOperand]
      rw [fault?_append]
      refine hbody.congr ?_
      intro place fault
      simp [Operand.Violates]
  | _ =>
      apply Explains.of_none
      rintro place fault ⟨body, hbody, _⟩
      cases hbody

theorem explains_printOperands {operands : List Operand}
    (hoperands : ∀ body, .instructions body ∈ operands → ∀ child ∈ body, child.Explained)
    (indent start : Nat) :
    Explains (Among Operand.Violates start operands) (printOperands indent operands).fault? := by
  induction operands generalizing start with
  | nil => exact explains_among_nil _ start
  | cons operand operands ih =>
      simp only [printOperands]
      rw [fault?_append]
      apply Explains.cons
      · apply explains_printOperand
        intro body hbody
        exact hoperands body (hbody ▸ List.mem_cons_self)
      · exact ih (fun body hbody => hoperands body (List.mem_cons_of_mem _ hbody)) _

/-! ## Instructions -/

theorem explained_branchTable : Explained ⟨.branchTable, operands⟩ := by
  intro indent
  have hbroken : ∀ fault, Lacks ⟨.branchTable, operands⟩ 0 fault →
      Explains (Violates ⟨.branchTable, operands⟩) (some fault) :=
    fun fault hlacks => .of_first (.here hlacks) fun _ _ => first_place_le
  unfold print
  rw [if_pos rfl, fault?_append, fault?_write, Option.none_or]
  rcases operands with _ | ⟨operand, more⟩
  · exact hbroken _ (.operand Nat.one_pos rfl)
  · cases operand with
    | labels targets =>
        by_cases htargets : targets = []
        · subst htargets
          exact hbroken _ (.defaultLabel rfl)
        · simp only [branchTableLine, List.getLast?_eq_some_getLast htargets]
          apply Explains.of_none
          intro place fault hviolates
          rcases violates_iff.mp hviolates with ⟨position, _, hlacks⟩ | ⟨_, _, _, hshows, _⟩
          · exact not_lacks_of_labels htargets hlacks
          · exact hshows.1 rfl
    | _ => exact hbroken _ (.labels rfl (by simp [Operand.kind]))

theorem explained_plain (hbranch : type ≠ .branchTable) (hblock : ¬ type.isBlock)
    (hchildren : ∀ body, .instructions body ∈ operands → ∀ child ∈ body, child.Explained) :
    Explained ⟨type, operands⟩ := by
  intro indent
  rw [print_plain hbranch hblock]
  simp only [fault?_append, fault?_write, Option.none_or, Option.or_none]
  refine (explains_printOperands hchildren indent 0).congr ?_
  intro place fault
  rw [violates_iff]
  constructor
  · rintro ⟨position, operand, rest, hoperand, rfl, hviolates⟩
    exact .inr ⟨position, operand, rest, shows_of_plain hbranch hblock position, hoperand,
      by rw [Nat.zero_add], hviolates⟩
  · rintro (⟨position, rfl, hlacks⟩ |
      ⟨position, operand, rest, _, hoperand, rfl, hviolates⟩)
    · exact absurd hlacks (not_lacks_of_plain hbranch hblock)
    · exact ⟨position, operand, rest, hoperand, by rw [Nat.zero_add], hviolates⟩

/-- The print of the operand at a position that has to be there. -/
def printPosition (indent : Nat) (operands : List Operand) (position : Nat) : Printout :=
  match operands[position]? with
  | none => stop .missingOperand
  | some operand => printOperand indent operand

theorem fault?_print_positions (hblock : type.isBlock) (indent : Nat) :
    (print indent ⟨type, operands⟩).fault? =
      (printPosition indent operands 0).fault?.or
        ((printPosition indent operands 1).fault?.or
          (if type = .conditional then (printElse indent (operands.drop 2)).fault?
            else none)) := by
  have hbranch : type ≠ .branchTable := by
    rintro rfl
    cases hblock
  unfold print
  rw [if_neg hbranch, if_pos hblock, fault?_append, fault?_append, fault?_write,
    Option.none_or, fault?_write, Option.none_or]
  rcases operands with _ | ⟨first, _ | ⟨second, more⟩⟩
  · rfl
  · simp only [fault?_append]
    rfl
  · simp only [fault?_append, fault?_write, Option.or_none, Option.or_assoc]
    split
    · rfl
    · rfl

/-- The operands at the first two positions of a block may be of any kind. -/
theorem explains_printPosition (hblock : type.isBlock)
    (hchildren : ∀ body, .instructions body ∈ operands → ∀ child ∈ body, child.Explained)
    {position : Nat} (hposition : position < 2) (indent : Nat) :
    Explains (fun rest fault => Violates ⟨type, operands⟩ (position :: rest) fault)
      (printPosition indent operands position).fault? := by
  have hshows : type.Shows position :=
    shows_of_isBlock hblock (hposition.trans_le (two_le_demanded hblock))
  simp only [violates_cons_iff, lacks_iff_of_isBlock hblock hposition, printPosition]
  cases hoperand : operands[position]? with
  | none =>
      exact .of_first (.inl ⟨rfl, rfl, rfl⟩) fun other _ _ =>
        le_of_not_gt (List.not_lt_nil other)
  | some operand =>
      have hbodies : ∀ body, .instructions body = operand → ∀ child ∈ body, child.Explained :=
        fun body hbody => hchildren body (hbody ▸ List.mem_of_getElem? hoperand)
      refine (explains_printOperand hbodies indent).congr ?_
      simp [hshows]

/-- An empty second arm is left out, and has nothing that could be violated. -/
theorem fault?_printElse_instructions (indent : Nat) (arm : List Instruction)
    (more : List Operand) :
    (printElse indent (.instructions arm :: more)).fault? =
      (printOperand indent (.instructions arm)).fault? := by
  simp only [printElse, printOperand]
  rw [fault?_append, fault?_write, Option.none_or]
  split
  next hempty =>
    rw [List.isEmpty_iff.mp hempty]
    rfl
  next => rw [fault?_append, fault?_write, Option.none_or]

/-- The operand at the third position of a conditional has to be a sequence. -/
theorem explains_printElse
    (hchildren : ∀ body, .instructions body ∈ operands → ∀ child ∈ body, child.Explained)
    (indent : Nat) :
    Explains (fun rest fault => Violates ⟨.conditional, operands⟩ (2 :: rest) fault)
      (printElse indent (operands.drop 2)).fault? := by
  have hbroken : ∀ fault, Lacks ⟨.conditional, operands⟩ 2 fault →
      Explains (fun rest fault => Violates ⟨.conditional, operands⟩ (2 :: rest) fault)
        (some fault) :=
    fun fault hlacks => .of_first (.here hlacks) fun other _ _ =>
      le_of_not_gt (List.not_lt_nil other)
  have hshows : InstructionType.conditional.Shows 2 := shows_of_isBlock rfl (by decide)
  have hhead : (operands.drop 2).head? = operands[2]? := List.head?_drop
  generalize operands.drop 2 = rest at hhead
  rcases rest with _ | ⟨operand, more⟩
  · exact hbroken _ (.operand (by decide) hhead.symm)
  · cases operand with
    | instructions arm =>
        have hbodies : ∀ body, Operand.instructions body = .instructions arm →
            ∀ child ∈ body, child.Explained :=
          fun body hbody => hchildren body (hbody ▸ List.mem_of_getElem? hhead.symm)
        rw [fault?_printElse_instructions]
        refine (explains_printOperand hbodies indent).congr ?_
        intro place fault
        simp [violates_cons_iff, hshows, not_lacks_of_arm hhead.symm, ← hhead]
    | _ => exact hbroken _ (.secondArm hhead.symm (by simp [Operand.kind]))

theorem explained_block (hblock : type.isBlock)
    (hchildren : ∀ body, .instructions body ∈ operands → ∀ child ∈ body, child.Explained) :
    Explained ⟨type, operands⟩ := by
  intro indent
  have hfirst := explains_printPosition hblock hchildren Nat.two_pos indent
  have hsecond := explains_printPosition hblock hchildren Nat.one_lt_two indent
  have hwhole : ∀ {fault? : Option AccessError},
      Explains (Among (fun position rest fault => Violates ⟨type, operands⟩
        (position :: rest) fault) 0 (List.range type.demanded)) fault? →
        Explains (Violates ⟨type, operands⟩) fault? := by
    intro fault? hexplains
    refine hexplains.congr fun place fault => ?_
    rw [among_range_iff]
    constructor
    · rintro ⟨position, rest, _, rfl, hviolates⟩
      exact hviolates
    · intro hviolates
      obtain ⟨position, rest, hdemanded, rfl⟩ := hviolates.exists_position hblock
      exact ⟨position, rest, hdemanded, rfl, hviolates⟩
  apply hwhole
  rw [fault?_print_positions hblock]
  rcases isBlock_iff.mp hblock with hplain | rfl
  · have hother : type ≠ .conditional := by
      rcases hplain with rfl | rfl <;> decide
    have htwo : type.demanded = 2 := by
      rcases hplain with rfl | rfl <;> decide
    rw [if_neg hother, htwo]
    exact hfirst.cons (hsecond.cons (explains_among_nil _ 2))
  · rw [if_pos rfl, ← (printElse indent (operands.drop 2)).fault?.or_none]
    exact hfirst.cons (hsecond.cons ((explains_printElse hchildren indent).cons
      (explains_among_nil _ 3)))

theorem explained (item : Instruction) : item.Explained := by
  induction item using induction_on_sequences with
  | hstep item hchildren =>
      rcases item with ⟨type, operands⟩
      by_cases hbranch : type = .branchTable
      · rw [hbranch]
        exact explained_branchTable
      · by_cases hblock : type.isBlock
        · exact explained_block hblock hchildren
        · exact explained_plain hbranch hblock hchildren

end Instruction

/-- The print of a tree reaches its end exactly if the tree has all operands that the
print asks for.  Otherwise it breaks off with the fault of the first violation. -/
theorem printing_fails_at_the_first_violation (item : Instruction) (indent : Nat) :
    ((item.print indent).fault? = none ↔ item.Presentable) ∧
      ∀ fault, (item.print indent).fault? = some fault → item.FirstViolation fault := by
  have hexplained := item.explained indent
  refine ⟨⟨?_, ?_⟩, hexplained.broken⟩
  · intro hcomplete
    exact Instruction.presentable_of_not_violates (hexplained.complete hcomplete)
  · intro hitem
    cases hfault : (item.print indent).fault? with
    | none => rfl
    | some fault =>
        obtain ⟨place, hviolates, _⟩ := hexplained.broken fault hfault
        exact absurd hviolates (hitem.not_violates place fault)

/-- A branch table without labels in the first arm of a conditional that has no second
one: the labels are missed before the arm. -/
theorem labels_missed_before_the_arm :
    let item : Instruction := ⟨.conditional,
      [.blockType none, .instructions [⟨.branchTable, [.labels []]⟩]]⟩
    ¬ item.Presentable ∧ item.FirstViolation .missingDefaultLabel := by
  intro item
  have hprint := printing_fails_at_the_first_violation item 0
  have hfault : (item.print 0).fault? = some .missingDefaultLabel := rfl
  refine ⟨?_, hprint.2 _ hfault⟩
  rw [← hprint.1, hfault]
  exact Option.some_ne_none _

end Disassembly
