import Disassembly.Instruction.Equality
import Disassembly.Proofs.Grammar.Acceptance
import Disassembly.Proofs.Printing.Violations

/-!
# Equal trees

Trees are compared like their operands, and only floating-point operands are not
compared by what they are: a NaN is equal to nothing, and the two zeros are
equal.  A tree with a NaN anywhere in it is therefore equal to nothing either,
and two trees without one are equal exactly if they are the same tree once every
zero has lost its sign.

This makes equality symmetric and transitive.  It is reflexive for the trees
without a NaN only, even for two trees that were decoded from the same bytes.
-/

namespace Disassembly

open ViewedSource (toInput)

/-! ## Numbers -/

namespace BinaryFormat

theorem sameNumber_iff {format : BinaryFormat} {first second : Nat} :
    format.sameNumber first second ↔ ¬ format.isNaN first ∧ ¬ format.isNaN second ∧
      (first = second ∨ format.isZero first ∧ format.isZero second) := by
  simp [sameNumber, and_assoc]

theorem binary32_isZero_iff {bits : UInt32} :
    binary32.isZero bits.toNat ↔ bits = 0 ∨ bits = 0x80000000 := by
  have hfields : binary32.isZero bits.toNat ↔
      bits.toNat / 2 ^ 23 % 2 ^ 8 = 0 ∧ bits.toNat % 2 ^ 23 = 0 := by
    rw [isZero, Bool.and_eq_true, decide_eq_true_eq, decide_eq_true_eq]
    rfl
  have hbits := bits.toNat_lt
  rw [hfields, ← UInt32.toNat_inj, ← UInt32.toNat_inj]
  change _ ↔ bits.toNat = 0 ∨ bits.toNat = 2 ^ 31
  omega

theorem binary64_isZero_iff {bits : UInt64} :
    binary64.isZero bits.toNat ↔ bits = 0 ∨ bits = 0x8000000000000000 := by
  have hfields : binary64.isZero bits.toNat ↔
      bits.toNat / 2 ^ 52 % 2 ^ 11 = 0 ∧ bits.toNat % 2 ^ 52 = 0 := by
    rw [isZero, Bool.and_eq_true, decide_eq_true_eq, decide_eq_true_eq]
    rfl
  have hbits := bits.toNat_lt
  rw [hfields, ← UInt64.toNat_inj, ← UInt64.toNat_inj]
  change _ ↔ bits.toNat = 0 ∨ bits.toNat = 2 ^ 63
  omega

/-- Patterns that are equal or both a zero are equal once a negative zero is a positive one. -/
theorem eq_or_zeros_iff {α : Type} [DecidableEq α] {zero negative first second : α} :
    first = second ∨
        (first = zero ∨ first = negative) ∧ (second = zero ∨ second = negative) ↔
      (if first = negative then zero else first) =
        if second = negative then zero else second := by
  by_cases hfirst : first = negative
  · by_cases hsecond : second = negative
    · simp [hfirst, hsecond]
    · simp [hfirst, hsecond, Ne.symm hsecond, eq_comm]
  · by_cases hsecond : second = negative
    · simp [hfirst, hsecond]
    · simp only [hfirst, hsecond, or_false, if_false]
      constructor
      · rintro (hsame | ⟨hzero, hother⟩)
        · exact hsame
        · exact hzero.trans hother.symm
      · exact .inl

end BinaryFormat

mutual

/-- The same tree with a positive zero in place of every negative one. -/
def Instruction.withPositiveZeros : Instruction → Instruction
  | .mk type operands => .mk type (Operand.withPositiveZerosInAll operands)
  termination_by structural instruction => instruction

def Operand.withPositiveZeros : Operand → Operand
  | .f32 bits => .f32 (if bits = 0x80000000 then 0 else bits)
  | .f64 bits => .f64 (if bits = 0x8000000000000000 then 0 else bits)
  | .instructions body => .instructions (Instruction.withPositiveZerosInAll body)
  | operand => operand
  termination_by structural operand => operand

def Operand.withPositiveZerosInAll : List Operand → List Operand
  | [] => []
  | operand :: more => operand.withPositiveZeros :: Operand.withPositiveZerosInAll more
  termination_by structural operands => operands

def Instruction.withPositiveZerosInAll : List Instruction → List Instruction
  | [] => []
  | instruction :: more =>
    instruction.withPositiveZeros :: Instruction.withPositiveZerosInAll more
  termination_by structural instructions => instructions

end

/-- An operand that is not a number although it is of a kind of numbers. -/
def Operand.IsNaN : Operand → Prop
  | .f32 bits => BinaryFormat.binary32.isNaN bits.toNat
  | .f64 bits => BinaryFormat.binary64.isNaN bits.toNat
  | _ => False

/-- No instruction of a tree has a NaN for an operand. -/
def Instruction.NaNFree (tree : Instruction) : Prop :=
  ∀ depth item, tree.Within depth item → ∀ operand ∈ item.operands, ¬ operand.IsNaN

/-- An operand is no NaN, and none is in its instructions. -/
def Operand.NaNFree (operand : Operand) : Prop :=
  ¬ operand.IsNaN ∧ ∀ body, operand = .instructions body → ∀ child ∈ body, child.NaNFree

namespace Operand

theorem withPositiveZerosInAll_eq (operands : List Operand) :
    withPositiveZerosInAll operands = operands.map withPositiveZeros := by
  induction operands with
  | nil => rfl
  | cons operand operands ih => rw [withPositiveZerosInAll, ih, List.map_cons]

theorem equalLists_iff {operands others : List Operand} :
    equalLists operands others ↔
      List.Forall₂ (fun operand other => operand.equal other) operands others := by
  induction operands generalizing others with
  | nil => cases others <;> simp [equalLists]
  | cons operand operands ih => cases others <;> simp [equalLists, ih]

end Operand

namespace Instruction

theorem withPositiveZerosInAll_eq (items : List Instruction) :
    withPositiveZerosInAll items = items.map withPositiveZeros := by
  induction items with
  | nil => rfl
  | cons item items ih => rw [withPositiveZerosInAll, ih, List.map_cons]

theorem equalLists_iff {items others : List Instruction} :
    equalLists items others ↔
      List.Forall₂ (fun item other => item.equal other) items others := by
  induction items generalizing others with
  | nil => cases others <;> simp [equalLists]
  | cons item items ih => cases others <;> simp [equalLists, ih]

theorem nanFree_iff {type : InstructionType} {operands : List Operand} :
    NaNFree ⟨type, operands⟩ ↔ ∀ operand ∈ operands, operand.NaNFree := by
  constructor
  · intro htree operand hoperand
    refine ⟨htree 0 _ (.root _) operand hoperand, ?_⟩
    rintro body rfl child hchild depth item hitem
    exact htree (depth + 1) item (.nested hoperand hchild hitem)
  · intro hoperands depth item hitem
    cases hitem with
    | root => exact fun operand hoperand => (hoperands operand hoperand).1
    | nested hbody hchild hitem =>
        exact (hoperands _ hbody).2 _ rfl _ hchild _ _ hitem

end Instruction

/-- Lists of which the pairs are compared to a condition on each of them and a common form are
compared likewise. -/
theorem List.forall₂_iff_of_common {α β : Type} {same : α → α → Prop} {free : α → Prop}
    {form : α → β} {first : List α}
    (hsame : ∀ item ∈ first, ∀ other,
      same item other ↔ free item ∧ free other ∧ form item = form other)
    (second : List α) :
    List.Forall₂ same first second ↔
      (∀ item ∈ first, free item) ∧ (∀ other ∈ second, free other) ∧
        first.map form = second.map form := by
  induction first generalizing second with
  | nil => cases second <;> simp
  | cons item first ih =>
      obtain ⟨hitem, hfirst⟩ := List.forall_mem_cons.mp hsame
      cases second with
      | nil => simp
      | cons other second =>
          rw [List.forall₂_cons, hitem, ih hfirst]
          simp only [List.forall_mem_cons, List.map_cons, List.cons.injEq]
          tauto

namespace Operand

variable {operand other : Operand}

theorem kind_withPositiveZeros : operand.withPositiveZeros.kind = operand.kind := by
  cases operand <;> rfl

theorem kind_eq_of_equal (hequal : operand.equal other) : operand.kind = other.kind := by
  cases operand <;> cases other <;> simp [equal, kind] at hequal ⊢

/-- Operands are compared as numbers or as trees, or by what they are. -/
theorem equal_iff (hbody : ∀ body, operand = .instructions body →
      ∀ child ∈ body, ∀ other, child.equal other ↔
        child.NaNFree ∧ other.NaNFree ∧ child.withPositiveZeros = other.withPositiveZeros) :
    operand.equal other ↔ operand.NaNFree ∧ other.NaNFree ∧
      operand.withPositiveZeros = other.withPositiveZeros := by
  by_cases hkind : operand.kind = other.kind
  · cases operand with
    | f32 bits =>
        cases other <;> cases hkind
        simp only [equal, BinaryFormat.sameNumber_iff, UInt32.toNat_inj,
          BinaryFormat.binary32_isZero_iff, BinaryFormat.eq_or_zeros_iff]
        simp [NaNFree, IsNaN, withPositiveZeros]
    | f64 bits =>
        cases other <;> cases hkind
        simp only [equal, BinaryFormat.sameNumber_iff, UInt64.toNat_inj,
          BinaryFormat.binary64_isZero_iff, BinaryFormat.eq_or_zeros_iff]
        simp [NaNFree, IsNaN, withPositiveZeros]
    | instructions body =>
        cases other <;> cases hkind
        rw [equal, Instruction.equalLists_iff, List.forall₂_iff_of_common (hbody body rfl)]
        simp [NaNFree, IsNaN, withPositiveZeros, Instruction.withPositiveZerosInAll_eq]
    | _ =>
        cases other <;> cases hkind
        simp [equal, NaNFree, IsNaN, withPositiveZeros]
  · refine iff_of_false (mt kind_eq_of_equal hkind) ?_
    rintro ⟨-, -, hform⟩
    apply hkind
    rw [← kind_withPositiveZeros, hform, kind_withPositiveZeros]

end Operand

/-! ## Trees -/

namespace Instruction

theorem equal_iff (item other : Instruction) :
    item.equal other ↔ item.NaNFree ∧ other.NaNFree ∧
      item.withPositiveZeros = other.withPositiveZeros := by
  induction item using induction_on_sequences generalizing other with
  | hstep item hchildren =>
      rcases item with ⟨type, operands⟩
      rcases other with ⟨otherType, otherOperands⟩
      have hoperands : ∀ operand ∈ operands, ∀ other, operand.equal other ↔
          operand.NaNFree ∧ other.NaNFree ∧
            operand.withPositiveZeros = other.withPositiveZeros := by
        intro operand hoperand other
        refine Operand.equal_iff ?_
        rintro body rfl
        exact hchildren body hoperand
      rw [equal, Bool.and_eq_true, decide_eq_true_eq, Operand.equalLists_iff,
        List.forall₂_iff_of_common hoperands, nanFree_iff, nanFree_iff, withPositiveZeros,
        withPositiveZeros, Operand.withPositiveZerosInAll_eq, Operand.withPositiveZerosInAll_eq,
        mk.injEq]
      tauto

theorem equal_self_iff (item : Instruction) : item.equal item ↔ item.NaNFree := by
  simp [equal_iff]

theorem equalLists_self_iff (items : List Instruction) :
    equalLists items items ↔ ∀ item ∈ items, item.NaNFree := by
  rw [equalLists_iff, List.forall₂_iff_of_common fun item _ => item.equal_iff]
  simp

end Instruction

/-! ## Decoded trees -/

/-- What is decoded depends on the bytes alone, not on where they come from. -/
theorem Outcome.result_of_rest {α : Type} {decode : Input → Outcome Input α}
    {form : List UInt8 → Prop} {value : α} {first second : Input}
    (hdecode : ∀ {input after : Input},
      (decode input).result = .ok value ∧ (decode input).input = after ↔
        ∃ bytes, form bytes ∧ input.Consumed bytes after)
    (hrest : second.rest = first.rest) (hfirst : (decode first).result = .ok value) :
    (decode second).result = .ok value := by
  obtain ⟨bytes, hform, hbytes⟩ := hdecode.mp ⟨hfirst, rfl⟩
  have hagain := Input.consumed_of_rest (hrest.trans hbytes.rest)
  exact (hdecode.mpr ⟨bytes, hform, hagain⟩).1

/-- Equality is a comparison of trees in a common form, from which only those with a NaN are
left out, and a tree that is decoded again is equal to itself unless it has one. -/
theorem equality_is_structural_up_to_floats
    {σ τ : Type} [ViewedSource σ] [ViewedSource τ] :
    (∀ item other : Instruction, item == other ↔ item.NaNFree ∧ other.NaNFree ∧
      item.withPositiveZeros = other.withPositiveZeros) ∧
    (∀ item other : Instruction, item == other → other == item) ∧
    (∀ first second third : Instruction, first == second → second == third → first == third) ∧
    (∀ item : Instruction, item == item ↔ item.NaNFree) ∧
    ∀ decoder : Decoder, decoder.table.Accepted → ∀ (first : σ) (second : τ),
      (toInput second).rest = (toInput first).rest →
      (∀ item, (decoder.decodeOne first).result = .ok item →
        ∃ again, (decoder.decodeOne second).result = .ok again ∧
          (item == again ↔ item.NaNFree)) ∧
      ∀ content, (decoder.decodeBlock first).result = .ok content →
        ∃ again, (decoder.decodeBlock second).result = .ok again ∧
          (Instruction.equalLists content.instructions again.instructions ↔
            ∀ item ∈ content.instructions, item.NaNFree) := by
  refine ⟨Instruction.equal_iff, ?_, ?_, Instruction.equal_self_iff, ?_⟩
  · intro item other hequal
    obtain ⟨hitem, hother, hform⟩ := (item.equal_iff other).mp hequal
    exact (other.equal_iff item).mpr ⟨hother, hitem, hform.symm⟩
  · intro first second third hfirst hsecond
    obtain ⟨hfree, -, hform⟩ := (first.equal_iff second).mp hfirst
    obtain ⟨-, hlast, hagain⟩ := (second.equal_iff third).mp hsecond
    exact (first.equal_iff third).mpr ⟨hfree, hlast, hform.trans hagain⟩
  · intro decoder htable first second hrest
    have hcoherent := htable.wellFormed.toCoherent
    rw [decoder.result_decodeOne first, decoder.result_decodeOne second,
      decoder.result_decodeBlock first, decoder.result_decodeBlock second]
    constructor
    · intro item hitem
      exact ⟨item, Outcome.result_of_rest (Decoder.decodeOne_eq_ok_iff hcoherent) hrest hitem,
        item.equal_self_iff⟩
    · intro content hcontent
      exact ⟨content,
        Outcome.result_of_rest (Decoder.decodeBlock_eq_ok_iff hcoherent) hrest hcontent,
        Instruction.equalLists_self_iff content.instructions⟩

/-- The two zeros are equal, and a NaN that is decoded from a buffer is not equal to the same
NaN from a stream. -/
theorem equal_zeros_and_unequal_nan :
    let table : Table := ⟨"floats",
      [⟨.single 0x43, ⟨63⟩, .inOrder [.f32]⟩, ⟨.single 0x0B, .blockEnd, .inOrder []⟩]⟩
    let decoder : Decoder := ⟨table, 0, false⟩
    let stored : BufferIterator := ⟨#[0x43, 0x01, 0x00, 0x80, 0x7F], 0, Nat.zero_le 5⟩
    let streamed : StreamSource := .ofBytes [0x43, 0x01, 0x00, 0x80, 0x7F]
    let nan : Instruction := ⟨⟨63⟩, [.f32 0x7F800001]⟩
    table.Accepted ∧ Instruction.mk ⟨63⟩ [.f32 0x80000000] == ⟨⟨63⟩, [.f32 0]⟩ ∧
      (decoder.decodeOne stored).result = .ok nan ∧
      ∃ again, (decoder.decodeOne streamed).result = .ok again ∧ ¬ nan == again := by
  intro table decoder stored streamed nan
  have htable : table.Accepted :=
    .inl ⟨"floats", [⟨.single 0x43, "f32.const", "f32"⟩, ⟨.single 0x0B, "end", ""⟩], rfl⟩
  have hnan : (decoder.decodeOne stored).result = .ok nan := by cbv
  have hbad : ¬ nan.NaNFree := by
    intro hfree
    exact hfree 0 nan (.root nan) _ (.head _) (by decide : BinaryFormat.binary32.isNaN 0x7F800001)
  have hzeros (zero : UInt32) (hzero : zero = 0 ∨ zero = 0x80000000) :
      Instruction.NaNFree ⟨⟨63⟩, [.f32 zero]⟩ := by
    rw [Instruction.nanFree_iff, List.forall_mem_singleton]
    refine ⟨?_, fun _ hbody => by cases hbody⟩
    change ¬ BinaryFormat.binary32.isNaN zero.toNat
    rcases hzero with rfl | rfl <;> decide
  obtain ⟨hequal, -, -, -, hdecoded⟩ :=
    equality_is_structural_up_to_floats (σ := BufferIterator) (τ := StreamSource)
  obtain ⟨again, hagain, hself⟩ :=
    (hdecoded decoder htable stored streamed rfl).1 nan hnan
  exact ⟨htable, (hequal _ _).mpr ⟨hzeros _ (.inr rfl), hzeros _ (.inl rfl), rfl⟩, hnan,
    again, hagain, mt hself.mp hbad⟩

end Disassembly
