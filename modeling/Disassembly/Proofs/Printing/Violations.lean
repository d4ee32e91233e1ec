import Disassembly.Proofs.Conformance.Access

/-!
# Trees that cannot be printed

A tree that was put together by hand may lack operands that its print asks for, or
hold operands of another kind in their places.  Every such violation has a place in
the tree: the position of an operand, or the position of a sequence and the place in
one of its instructions.  A tree is presentable if all of its instructions that a
print gets to have the operands that are asked for, which means that it has no
violations at all.
-/

namespace Disassembly

/-- The number of operands that the print of a type asks for by their positions. -/
def InstructionType.demanded (type : InstructionType) : Nat :=
  if type = branchTable then 1
  else if type = conditional then 3
  else if type.isBlock then 2
  else 0

/-- The operand at a position is printed with the instructions that it may hold. -/
def InstructionType.Shows (type : InstructionType) (position : Nat) : Prop :=
  type ≠ branchTable ∧ (type.isBlock → position < type.demanded)

namespace Instruction

/-- An operand that the print of an instruction asks for and does not find. -/
inductive Lacks : Instruction → Nat → AccessError → Prop
  | operand {type : InstructionType} {operands : List Operand} {position : Nat}
      (hdemanded : position < type.demanded) (hmissing : operands[position]? = none) :
      Lacks ⟨type, operands⟩ position .missingOperand
  | defaultLabel {operands : List Operand}
      (hlabels : operands[0]? = some (.labels [])) :
      Lacks ⟨.branchTable, operands⟩ 0 .missingDefaultLabel
  | labels {operands : List Operand} {other : Operand}
      (hother : operands[0]? = some other) (hkind : other.kind ≠ .labels) :
      Lacks ⟨.branchTable, operands⟩ 0 .otherKind
  | secondArm {operands : List Operand} {other : Operand}
      (hother : operands[2]? = some other) (hkind : other.kind ≠ .instructions) :
      Lacks ⟨.conditional, operands⟩ 2 .otherKind

/-- The violations of a tree with their places. -/
inductive Violates : Instruction → List Nat → AccessError → Prop
  | here {item : Instruction} {position : Nat} {fault : AccessError}
      (hlacks : item.Lacks position fault) : Violates item [position] fault
  | inside {item child : Instruction} {position index : Nat} {body : List Instruction}
      {place : List Nat} {fault : AccessError} (hshows : item.type.Shows position)
      (hbody : item.operands[position]? = some (.instructions body))
      (hchild : body[index]? = some child) (hviolates : Violates child place fault) :
      Violates item (position :: index :: place) fault

/-- No other violation of the tree comes before one with this fault. -/
def FirstViolation (item : Instruction) (fault : AccessError) : Prop :=
  ∃ place, item.Violates place fault ∧
    ∀ other otherFault, item.Violates other otherFault → place ≤ other

/-- A tree has all operands that its print asks for. -/
inductive Presentable : Instruction → Prop
  | branchTable {targets : List UInt32} {more : List Operand} (htargets : targets ≠ []) :
      Presentable ⟨.branchTable, .labels targets :: more⟩
  | block {type : InstructionType} {first second : Operand} {more : List Operand}
      (htype : type = .block ∨ type = .loop)
      (hfirst : ∀ body, first = .instructions body → ∀ child ∈ body, Presentable child)
      (hsecond : ∀ body, second = .instructions body → ∀ child ∈ body, Presentable child) :
      Presentable ⟨type, first :: second :: more⟩
  | conditional {first second : Operand} {arm : List Instruction} {more : List Operand}
      (hfirst : ∀ body, first = .instructions body → ∀ child ∈ body, Presentable child)
      (hsecond : ∀ body, second = .instructions body → ∀ child ∈ body, Presentable child)
      (harm : ∀ child ∈ arm, Presentable child) :
      Presentable ⟨.conditional, first :: second :: .instructions arm :: more⟩
  | plain {type : InstructionType} {operands : List Operand} (hbranch : type ≠ .branchTable)
      (hblock : ¬ type.isBlock)
      (hoperands : ∀ body, .instructions body ∈ operands →
        ∀ child ∈ body, Presentable child) :
      Presentable ⟨type, operands⟩

/-- What an instruction inherits from all instructions of its sequences holds of every
instruction. -/
theorem induction_on_sequences {motive : Instruction → Prop}
    (hstep : ∀ item : Instruction, (∀ body, .instructions body ∈ item.operands →
      ∀ child ∈ body, motive child) → motive item)
    (item : Instruction) : motive item := by
  apply hstep item
  intro body hbody child hchild
  have hless : sizeOf child < sizeOf item := by
    rcases item with ⟨type, operands⟩
    have hlist := List.sizeOf_lt_of_mem hbody
    have hitem := List.sizeOf_lt_of_mem hchild
    simp only [Instruction.operands, Operand.instructions.sizeOf_spec,
      Instruction.mk.sizeOf_spec] at hlist ⊢
    omega
  exact induction_on_sequences hstep child
termination_by sizeOf item

end Instruction

/-- The violations in a list, behind the index at which they are found. -/
def Among {α : Type} (violates : α → List Nat → AccessError → Prop) (start : Nat)
    (parts : List α) (place : List Nat) (fault : AccessError) : Prop :=
  ∃ index part rest, parts[index]? = some part ∧ place = (start + index) :: rest ∧
    violates part rest fault

/-- The violations in the sequence that an operand may hold. -/
def Operand.Violates (operand : Operand) (place : List Nat) (fault : AccessError) : Prop :=
  ∃ body, operand = .instructions body ∧ Among Instruction.Violates 0 body place fault

namespace Instruction

variable {type : InstructionType} {operands : List Operand}

/-! ## Missing operands -/

theorem not_lacks_of_labels {targets : List UInt32} (htargets : targets ≠ [])
    {more : List Operand} {position : Nat} {fault : AccessError} :
    ¬ Lacks ⟨.branchTable, .labels targets :: more⟩ position fault := by
  intro hlacks
  generalize hoperands : Operand.labels targets :: more = operands at hlacks
  generalize htype : InstructionType.branchTable = type at hlacks
  cases hlacks with
  | operand hdemanded hmissing =>
      subst htype
      obtain rfl : position = 0 := Nat.lt_one_iff.mp hdemanded
      rw [← hoperands] at hmissing
      cases hmissing
  | defaultLabel hlabels =>
      rw [← hoperands] at hlabels
      cases hlabels
      exact htargets rfl
  | labels hother hkind =>
      rw [← hoperands] at hother
      cases hother
      exact hkind rfl
  | secondArm => cases htype

theorem not_lacks_of_plain (hbranch : type ≠ .branchTable) (hblock : ¬ type.isBlock)
    {position : Nat} {fault : AccessError} : ¬ Lacks ⟨type, operands⟩ position fault := by
  intro hlacks
  have hconditional : type ≠ .conditional := by
    rintro rfl
    exact hblock rfl
  cases hlacks with
  | operand hdemanded => simp [InstructionType.demanded, *] at hdemanded
  | defaultLabel => exact hbranch rfl
  | labels => exact hbranch rfl
  | secondArm => exact hconditional rfl

theorem shows_of_plain (hbranch : type ≠ .branchTable) (hblock : ¬ type.isBlock)
    (position : Nat) : type.Shows position :=
  ⟨hbranch, fun hother => absurd hother hblock⟩

theorem not_lacks_of_arm {arm : List Instruction} {fault : AccessError}
    (harm : operands[2]? = some (.instructions arm)) :
    ¬ Lacks ⟨.conditional, operands⟩ 2 fault := by
  intro hlacks
  cases hlacks with
  | operand _ hmissing =>
      rw [harm] at hmissing
      cases hmissing
  | secondArm hother hkind =>
      rw [harm] at hother
      cases hother
      exact hkind rfl

theorem two_le_demanded (hblock : type.isBlock) : 2 ≤ type.demanded := by
  rcases isBlock_iff.mp hblock with (rfl | rfl) | rfl <;> decide

theorem shows_of_isBlock (hblock : type.isBlock) {position : Nat}
    (hposition : position < type.demanded) : type.Shows position := by
  refine ⟨?_, fun _ => hposition⟩
  rintro rfl
  cases hblock

theorem lacks_iff_of_isBlock (hblock : type.isBlock) {position : Nat}
    (hposition : position < 2) {fault : AccessError} :
    Lacks ⟨type, operands⟩ position fault ↔
      operands[position]? = none ∧ fault = .missingOperand := by
  constructor
  · intro hlacks
    cases hlacks with
    | operand _ hmissing => exact ⟨hmissing, rfl⟩
    | defaultLabel => cases hblock
    | labels => cases hblock
    | secondArm => omega
  · rintro ⟨hmissing, rfl⟩
    exact .operand (hposition.trans_le (two_le_demanded hblock)) hmissing

/-! ## Places -/

theorem violates_iff {place : List Nat} {fault : AccessError} :
    Violates ⟨type, operands⟩ place fault ↔
      (∃ position, place = [position] ∧ Lacks ⟨type, operands⟩ position fault) ∨
        ∃ position operand rest, type.Shows position ∧
          operands[position]? = some operand ∧ place = position :: rest ∧
          operand.Violates rest fault := by
  constructor
  · rintro (⟨hlacks⟩ | ⟨hshows, hbody, hchild, hviolates⟩)
    · exact .inl ⟨_, rfl, hlacks⟩
    · exact .inr ⟨_, _, _, hshows, hbody, rfl, _, rfl, _, _, _, hchild,
        by rw [Nat.zero_add], hviolates⟩
  · rintro (⟨position, rfl, hlacks⟩ |
      ⟨position, _, _, hshows, hoperand, rfl, body, rfl, index, child, rest, hchild, rfl,
        hviolates⟩)
    · exact .here hlacks
    · rw [Nat.zero_add]
      exact .inside hshows hoperand hchild hviolates

theorem violates_cons_iff {position : Nat} {rest : List Nat} {fault : AccessError} :
    Violates ⟨type, operands⟩ (position :: rest) fault ↔
      rest = [] ∧ Lacks ⟨type, operands⟩ position fault ∨
        type.Shows position ∧ ∃ operand, operands[position]? = some operand ∧
          operand.Violates rest fault := by
  rw [violates_iff]
  constructor
  · rintro (⟨_, ⟨⟩, hlacks⟩ | ⟨_, operand, _, hshows, hoperand, ⟨⟩, hviolates⟩)
    · exact .inl ⟨rfl, hlacks⟩
    · exact .inr ⟨hshows, operand, hoperand, hviolates⟩
  · rintro (⟨rfl, hlacks⟩ | ⟨hshows, operand, hoperand, hviolates⟩)
    · exact .inl ⟨position, rfl, hlacks⟩
    · exact .inr ⟨position, operand, rest, hshows, hoperand, rfl, hviolates⟩

theorem first_place_le {place : List Nat} {fault : AccessError}
    (hviolates : Violates ⟨type, operands⟩ place fault) : [0] ≤ place := by
  have hleast : ∀ position rest, [0] ≤ position :: rest := by
    intro position rest
    rcases Nat.eq_zero_or_pos position with rfl | hpositive
    · exact List.cons_le_cons 0 (le_of_not_gt (List.not_lt_nil rest))
    · exact (List.cons_lt_cons_iff.mpr (.inl hpositive)).le
  rcases violates_iff.mp hviolates with ⟨position, rfl, _⟩ | ⟨position, _, rest, _, _, rfl, _⟩
  · exact hleast position []
  · exact hleast position rest

theorem Violates.exists_position (hblock : type.isBlock) {place : List Nat}
    {fault : AccessError} (hviolates : Violates ⟨type, operands⟩ place fault) :
    ∃ position rest, position < type.demanded ∧ place = position :: rest := by
  rcases violates_iff.mp hviolates with
    ⟨position, rfl, hlacks⟩ | ⟨position, _, rest, hshows, _, rfl, _⟩
  · refine ⟨position, [], ?_, rfl⟩
    cases hlacks with
    | operand hdemanded => exact hdemanded
    | defaultLabel => cases hblock
    | labels => cases hblock
    | secondArm => decide
  · exact ⟨position, rest, hshows.2 hblock, rfl⟩

/-! ## Presentable trees -/

theorem not_operand_violates {operand : Operand}
    (hoperand : ∀ body, operand = .instructions body →
      ∀ child ∈ body, ∀ place fault, ¬ child.Violates place fault)
    (place : List Nat) (fault : AccessError) : ¬ operand.Violates place fault := by
  rintro ⟨body, hbody, index, child, rest, hchild, _, hviolates⟩
  exact hoperand body hbody child (List.mem_of_getElem? hchild) rest fault hviolates

/-- A block has no violations if it has an operand without violations at every position
that is asked for. -/
theorem not_violates_of_isBlock (hblock : type.isBlock)
    (hlacks : ∀ position fault, ¬ Lacks ⟨type, operands⟩ position fault)
    (hoperands : ∀ position < type.demanded, ∀ operand, operands[position]? = some operand →
      ∀ place fault, ¬ operand.Violates place fault)
    (place : List Nat) (fault : AccessError) :
    ¬ Violates ⟨type, operands⟩ place fault := by
  intro hviolates
  rcases violates_iff.mp hviolates with
    ⟨position, _, hlack⟩ | ⟨position, operand, rest, hshows, hoperand, _, hinside⟩
  · exact hlacks position fault hlack
  · exact hoperands position (hshows.2 hblock) operand hoperand rest fault hinside

theorem Presentable.not_violates {item : Instruction} (hitem : item.Presentable)
    (place : List Nat) (fault : AccessError) : ¬ item.Violates place fault := by
  induction hitem generalizing place fault with
  | branchTable htargets =>
      intro hviolates
      rcases violates_iff.mp hviolates with ⟨_, _, hlacks⟩ | ⟨_, _, _, hshows, _⟩
      · exact not_lacks_of_labels htargets hlacks
      · exact hshows.1 rfl
  | @block type first second more htype _ _ hfirst hsecond =>
      have htwo : type.demanded = 2 := by
        rcases htype with rfl | rfl <;> decide
      refine not_violates_of_isBlock (isBlock_iff.mpr (.inl htype)) ?_ ?_ place fault
      · intro position fault hlacks
        cases hlacks with
        | operand hdemanded hmissing =>
            rw [List.getElem?_eq_none_iff, List.length_cons, List.length_cons] at hmissing
            omega
        | _ => rcases htype with htype | htype <;> cases htype
      · intro position hdemanded operand hoperand
        apply not_operand_violates
        rw [htwo] at hdemanded
        rcases position with _ | _ | position
        · obtain rfl : first = operand := Option.some.inj hoperand
          exact hfirst
        · obtain rfl : second = operand := Option.some.inj hoperand
          exact hsecond
        · omega
  | @conditional first second arm more _ _ _ hfirst hsecond harm =>
      refine not_violates_of_isBlock rfl ?_ ?_ place fault
      · intro position fault hlacks
        cases hlacks with
        | operand hdemanded hmissing =>
            have hthree : position < 3 := hdemanded
            rw [List.getElem?_eq_none_iff, List.length_cons, List.length_cons,
              List.length_cons] at hmissing
            omega
        | secondArm hother hkind =>
            cases hother
            exact hkind rfl
      · intro position hdemanded operand hoperand
        have hthree : position < 3 := hdemanded
        apply not_operand_violates
        rcases position with _ | _ | _ | position
        · obtain rfl : first = operand := Option.some.inj hoperand
          exact hfirst
        · obtain rfl : second = operand := Option.some.inj hoperand
          exact hsecond
        · obtain rfl : .instructions arm = operand := Option.some.inj hoperand
          rintro _ ⟨⟩
          exact harm
        · omega
  | plain hbranch hblock _ hoperands =>
      intro hviolates
      rcases violates_iff.mp hviolates with
        ⟨_, _, hlacks⟩ | ⟨_, operand, rest, _, hoperand, _, hinside⟩
      · exact not_lacks_of_plain hbranch hblock hlacks
      · refine not_operand_violates ?_ rest fault hinside
        rintro body rfl
        exact hoperands body (List.mem_of_getElem? hoperand)

/-- Instructions without violations around them have none inside them. -/
theorem not_violates_child {item child : Instruction}
    (hnone : ∀ place fault, ¬ item.Violates place fault) {position : Nat}
    (hshows : item.type.Shows position) {body : List Instruction}
    (hbody : item.operands[position]? = some (.instructions body)) (hchild : child ∈ body)
    (place : List Nat) (fault : AccessError) : ¬ child.Violates place fault := by
  intro hviolates
  obtain ⟨index, hindex⟩ := List.mem_iff_getElem?.mp hchild
  exact hnone _ fault (.inside hshows hbody hindex hviolates)

theorem presentable_of_isBlock (hblock : type.isBlock)
    (hlacks : ∀ position fault, ¬ Lacks ⟨type, operands⟩ position fault)
    (hchildren : ∀ position < type.demanded, ∀ body,
      operands[position]? = some (.instructions body) → ∀ child ∈ body, child.Presentable) :
    Presentable ⟨type, operands⟩ := by
  have htwo := two_le_demanded hblock
  rcases operands with _ | ⟨first, _ | ⟨second, more⟩⟩
  · exact absurd (.operand (Nat.zero_lt_of_lt htwo) rfl) (hlacks 0 .missingOperand)
  · exact absurd (.operand htwo rfl) (hlacks 1 .missingOperand)
  · have hfirst : ∀ body, first = .instructions body → ∀ child ∈ body, child.Presentable :=
      fun body hbody => hchildren 0 (Nat.zero_lt_of_lt htwo) body (hbody ▸ rfl)
    have hsecond : ∀ body, second = .instructions body → ∀ child ∈ body, child.Presentable :=
      fun body hbody => hchildren 1 htwo body (hbody ▸ rfl)
    rcases isBlock_iff.mp hblock with hplain | rfl
    · exact .block hplain hfirst hsecond
    · rcases more with _ | ⟨third, more⟩
      · exact absurd (.operand (by decide) rfl) (hlacks 2 .missingOperand)
      · cases third with
        | instructions arm =>
            exact .conditional hfirst hsecond (hchildren 2 (by decide) arm rfl)
        | _ => exact absurd (.secondArm rfl (by simp [Operand.kind])) (hlacks 2 .otherKind)

theorem presentable_of_not_violates {item : Instruction}
    (hnone : ∀ place fault, ¬ item.Violates place fault) : item.Presentable := by
  induction item using induction_on_sequences with
  | hstep item ih =>
      rcases item with ⟨type, operands⟩
      have hchildren : ∀ position, type.Shows position → ∀ body,
          operands[position]? = some (.instructions body) →
            ∀ child ∈ body, child.Presentable :=
        fun position hshows body hbody child hchild =>
          ih body (List.mem_of_getElem? hbody) child hchild
            (not_violates_child hnone hshows hbody hchild)
      have hlacks : ∀ position fault, ¬ Lacks ⟨type, operands⟩ position fault :=
        fun position fault hlacks => hnone [position] fault (.here hlacks)
      by_cases hbranch : type = .branchTable
      · subst hbranch
        rcases operands with _ | ⟨operand, more⟩
        · exact absurd (.operand Nat.one_pos rfl) (hlacks 0 .missingOperand)
        · cases operand with
          | labels targets =>
              apply Presentable.branchTable
              rintro rfl
              exact hlacks 0 _ (.defaultLabel rfl)
          | _ => exact absurd (.labels rfl (by simp [Operand.kind])) (hlacks 0 .otherKind)
      · by_cases hblock : type.isBlock
        · exact presentable_of_isBlock hblock hlacks fun position hdemanded =>
            hchildren position (shows_of_isBlock hblock hdemanded)
        · refine .plain hbranch hblock ?_
          intro body hbody
          obtain ⟨position, hposition⟩ := List.mem_iff_getElem?.mp hbody
          exact hchildren position (shows_of_plain hbranch hblock position) body hposition

end Instruction

end Disassembly
