import Disassembly.Decoder.Event
import Mathlib.Data.List.Basic

/-!
# Accounts of what was decoded

A decoder that is watched tells of every instruction when it is complete, the
blocks inside it included, and of every block right after the terminator that
closes it.  An account is the list of events that belongs to an instruction or to
a block at a level.  Of a conditional it has one block or two, and two exactly if
the first arm was closed by `else`.

A terminator is told of, but it is not part of the tree.  Without the terminators
an account lists the instructions of the tree, each one behind those inside it,
and their levels.
-/

namespace Disassembly

/-- What an account may be about. -/
inductive Finished where
  | instruction (item : Instruction)
  | operands (values : List Operand)
  | sequence (items : List Instruction)
  | block (content : Block)

/-- The events that are told at a level. -/
inductive Accounts : Nat → Finished → List Event → Prop
  | noOperands {level : Nat} : Accounts level (.operands []) []
  | scalar {level : Nat} {value : Operand} {values : List Operand} {events : List Event}
      (hvalue : ∀ body, value ≠ .instructions body)
      (hvalues : Accounts level (.operands values) events) :
      Accounts level (.operands (value :: values)) events
  | nested {level : Nat} {content : Block} {values : List Operand}
      {first second : List Event}
      (hcontent : Accounts (level + 1) (.block content) first)
      (hvalues : Accounts level (.operands values) second) :
      Accounts level (.operands (.instructions content.instructions :: values))
        (first ++ second)
  | instruction {level : Nat} {item : Instruction} {events : List Event}
      (htype : item.type ≠ .conditional)
      (hvalues : Accounts level (.operands item.operands) events) :
      Accounts level (.instruction item) (events ++ [.instruction level item])
  | oneArm {level : Nat} {type : BlockType} {first : List Instruction} {item : Instruction}
      {events : List Event}
      (hitem : item = ⟨.conditional,
        [.blockType type, .instructions first, .instructions []]⟩)
      (hfirst : Accounts (level + 1) (.block ⟨first, false⟩) events) :
      Accounts level (.instruction item) (events ++ [.instruction level item])
  | twoArms {level : Nat} {type : BlockType} {first second : List Instruction}
      {item : Instruction} {events more : List Event}
      (hitem : item = ⟨.conditional,
        [.blockType type, .instructions first, .instructions second]⟩)
      (hfirst : Accounts (level + 1) (.block ⟨first, true⟩) events)
      (hsecond : Accounts (level + 1) (.block ⟨second, false⟩) more) :
      Accounts level (.instruction item)
        (events ++ more ++ [.instruction level item])
  | noItems {level : Nat} : Accounts level (.sequence []) []
  | nextItem {level : Nat} {item : Instruction} {items : List Instruction}
      {first second : List Event}
      (hinner : ¬ item.isTerminator)
      (hitem : Accounts level (.instruction item) first)
      (hitems : Accounts level (.sequence items) second) :
      Accounts level (.sequence (item :: items)) (first ++ second)
  | block {level : Nat} {items : List Instruction} {closing : Instruction} {content : Block}
      {events : List Event}
      (hcontent : content = ⟨items, closing.type = .otherwise⟩)
      (hterminator : closing.isTerminator)
      (hitems : Accounts level (.sequence items) events) :
      Accounts level (.block content)
        (events ++ [.instruction level closing, .block level content])

/-! ## Instructions in the order of their completion -/

mutual

/-- An instruction with its level, behind the instructions inside it. -/
def Instruction.postOrder (level : Nat) : Instruction → List (Nat × Instruction)
  | .mk type operands =>
    Operand.postOrderAll level operands ++ [(level, .mk type operands)]
  termination_by structural instruction => instruction

def Operand.postOrder (level : Nat) : Operand → List (Nat × Instruction)
  | .instructions body => Instruction.postOrderAll (level + 1) body
  | _ => []
  termination_by structural operand => operand

def Operand.postOrderAll (level : Nat) : List Operand → List (Nat × Instruction)
  | [] => []
  | operand :: more => Operand.postOrder level operand ++ Operand.postOrderAll level more
  termination_by structural operands => operands

def Instruction.postOrderAll (level : Nat) : List Instruction → List (Nat × Instruction)
  | [] => []
  | instruction :: more =>
    Instruction.postOrder level instruction ++ Instruction.postOrderAll level more
  termination_by structural instructions => instructions

end

/-- The instruction of an event, unless it closes a block, with its level. -/
def Event.inner? : Event → Option (Nat × Instruction)
  | .instruction level item => if item.isTerminator then none else some (level, item)
  | _ => none

/-- The instructions of a tree that an account has to list. -/
def Finished.postOrder (level : Nat) : Finished → List (Nat × Instruction)
  | .instruction item =>
    Operand.postOrderAll level item.operands ++
      if item.isTerminator then [] else [(level, item)]
  | .operands values => Operand.postOrderAll level values
  | .sequence items => Instruction.postOrderAll level items
  | .block content => Instruction.postOrderAll level content.instructions

variable {level : Nat} {item : Instruction}

theorem Operand.postOrder_eq_nil {value : Operand}
    (hvalue : ∀ body, value ≠ .instructions body) : value.postOrder level = [] := by
  cases value with
  | instructions body => exact absurd rfl (hvalue body)
  | _ => rfl

theorem Instruction.postOrder_eq :
    item.postOrder level = Operand.postOrderAll level item.operands ++ [(level, item)] := by
  cases item
  rw [postOrder, operands]

theorem Finished.postOrder_of_inner (hinner : ¬ item.isTerminator) :
    (Finished.instruction item).postOrder level = item.postOrder level := by
  simp [postOrder, hinner, Instruction.postOrder_eq]

theorem Event.filterMap_instruction :
    [Event.instruction level item].filterMap inner? =
      if item.isTerminator then [] else [(level, item)] := by
  by_cases hterminator : item.isTerminator
  · simp [inner?, hterminator]
  · simp [inner?, hterminator]

/-- Without terminators, an account lists the instructions of the tree. -/
theorem Accounts.filterMap_inner? {what : Finished} {events : List Event}
    (haccount : Accounts level what events) :
    events.filterMap Event.inner? = what.postOrder level := by
  induction haccount with
  | noOperands => rfl
  | scalar hvalue _ ih =>
      rw [ih, Finished.postOrder, Finished.postOrder, Operand.postOrderAll,
        Operand.postOrder_eq_nil hvalue, List.nil_append]
  | nested _ _ hfirst hsecond =>
      rw [List.filterMap_append, hfirst, hsecond, Finished.postOrder, Finished.postOrder,
        Finished.postOrder, Operand.postOrderAll, Operand.postOrder]
  | instruction _ _ ih =>
      rw [List.filterMap_append, ih, Event.filterMap_instruction]
      rfl
  | oneArm hitem _ ih =>
      rw [List.filterMap_append, ih, Event.filterMap_instruction, Finished.postOrder, hitem]
      simp [Finished.postOrder, Instruction.operands, Operand.postOrderAll, Operand.postOrder,
        Instruction.postOrderAll]
  | twoArms hitem _ _ hfirst hsecond =>
      rw [List.filterMap_append, List.filterMap_append, hfirst, hsecond,
        Event.filterMap_instruction, hitem]
      simp [Finished.postOrder, Instruction.operands, Operand.postOrderAll, Operand.postOrder]
  | noItems => rfl
  | nextItem hinner _ _ hitem hitems =>
      rw [List.filterMap_append, hitem, hitems, Finished.postOrder_of_inner hinner]
      simp [Finished.postOrder, Instruction.postOrderAll]
  | block hcontent hterminator _ ih =>
      rw [List.filterMap_append, ih, hcontent]
      simp [Finished.postOrder, Event.inner?, hterminator]

/-! ## Blocks behind their terminators -/

/-- Every block is told of right behind a terminator at its level, and with its kind. -/
def Event.BlocksFollow (events : List Event) : Prop :=
  ∀ front depth content back, events = front ++ .block depth content :: back →
    ∃ earlier closing, front = earlier ++ [.instruction depth closing] ∧
      closing.isTerminator ∧ content.closedByElse = decide (closing.type = .otherwise)

namespace Event

theorem blocksFollow_nil : BlocksFollow [] := by
  intro front depth content back hevents
  simp at hevents

theorem BlocksFollow.append {first second : List Event}
    (hfirst : BlocksFollow first) (hsecond : BlocksFollow second) :
    BlocksFollow (first ++ second) := by
  intro front depth content back hevents
  rcases List.append_eq_append_iff.mp hevents with
    ⟨middle, hfront, hrest⟩ | ⟨middle, hwhole, hrest⟩
  · obtain ⟨earlier, closing, rfl, hclosing⟩ := hsecond middle depth content back hrest
    exact ⟨first ++ earlier, closing, by rw [hfront, List.append_assoc], hclosing⟩
  · cases middle with
    | nil =>
        obtain ⟨earlier, closing, hnone, _⟩ := hsecond [] depth content back hrest.symm
        simp at hnone
    | cons event middle =>
        rw [List.cons_append, List.cons.injEq] at hrest
        obtain ⟨rfl, _⟩ := hrest
        exact hfirst front depth content middle hwhole

theorem blocksFollow_instruction : BlocksFollow [.instruction level item] := by
  intro front depth content back hevents
  cases front with
  | nil => cases hevents
  | cons event front => simp at hevents

theorem blocksFollow_closed {closing : Instruction} {content : Block}
    (hterminator : closing.isTerminator)
    (hkind : content.closedByElse = decide (closing.type = .otherwise)) :
    BlocksFollow [.instruction level closing, .block level content] := by
  intro front depth other back hevents
  cases front with
  | nil => cases hevents
  | cons event front =>
      rw [List.cons_append, List.cons.injEq] at hevents
      obtain ⟨rfl, hrest⟩ := hevents
      cases front with
      | nil =>
          cases hrest
          exact ⟨[], closing, rfl, hterminator, hkind⟩
      | cons event front => simp at hrest

end Event

theorem Accounts.blocksFollow {what : Finished} {events : List Event}
    (haccount : Accounts level what events) : Event.BlocksFollow events := by
  induction haccount with
  | noOperands => exact Event.blocksFollow_nil
  | scalar _ _ ih => exact ih
  | nested _ _ hfirst hsecond => exact hfirst.append hsecond
  | instruction _ _ ih => exact ih.append Event.blocksFollow_instruction
  | oneArm _ _ ih => exact ih.append Event.blocksFollow_instruction
  | twoArms _ _ _ hfirst hsecond =>
      exact (hfirst.append hsecond).append Event.blocksFollow_instruction
  | noItems => exact Event.blocksFollow_nil
  | nextItem _ _ _ hitem hitems => exact hitem.append hitems
  | block hcontent hterminator _ ih =>
      exact ih.append (Event.blocksFollow_closed hterminator (by rw [hcontent]))

end Disassembly
