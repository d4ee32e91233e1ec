import Disassembly.FieldCode
import Mathlib.Tactic

/-!
# Fields and their numbers

A number of a kind and a number of a space stand for a field.  The space is lost if
the kind is not that of an index, and two numbered fields are compared accordingly:
they are the same exactly if they stand for one field.  Names do not depend on the
form either, and a name is found under the number of its field.  In the same way a
layout is made up of the number of its rule and of its fields.
-/

namespace Disassembly

namespace Rule

theorem directive_ofDirective (directive : Directive) :
    (ofDirective directive).directive = directive.name := by
  cases directive <;> rfl

/-- The layout of fields that are read by a rule. -/
def layout (rule : Rule) (fields : List Field) : Layout :=
  if hcode : rule.code.toNat < 3 then
    if rule = inOrder then .inOrder fields
    else if rule = conditional then .special .conditional
    else .special .branchTable
  else .unknown ⟨rule.code, Nat.le_of_not_lt hcode⟩

theorem layout_inOrder (fields : List Field) : inOrder.layout fields = .inOrder fields := rfl

theorem layout_ofDirective (directive : Directive) (fields : List Field) :
    (ofDirective directive).layout fields = .special directive := by
  cases directive <;> rfl

end Rule

namespace Layout

variable {layout : Layout}

/-- A layout is made up of its rule and its fields. -/
theorem layout_rule_fields (layout : Layout) : layout.rule.layout layout.fields = layout := by
  cases layout with
  | inOrder fields => rfl
  | special directive => exact Rule.layout_ofDirective directive []
  | unknown rule => exact dif_neg (Nat.not_lt.mpr rule.beyond)

theorem rule_eq_ofDirective_iff {directive : Directive} :
    layout.rule = .ofDirective directive ↔ layout = .special directive := by
  constructor
  · intro hrule
    rw [← layout.layout_rule_fields, hrule, Rule.layout_ofDirective]
  · rintro rfl
    rfl

theorem rule_eq_inOrder_iff : layout.rule = .inOrder ↔ ∃ fields, layout = .inOrder fields := by
  constructor
  · intro hrule
    refine ⟨layout.fields, ?_⟩
    rw [← Rule.layout_inOrder, ← hrule, layout.layout_rule_fields]
  · rintro ⟨fields, rfl⟩
    rfl

/-- The name that stands for a layout in place of fields. -/
theorem names_eq_directive (hlayout : layout.rule ≠ .inOrder) :
    layout.names = [layout.rule.directive] := by
  cases layout with
  | inOrder fields => exact absurd rfl hlayout
  | special directive => rw [rule, Rule.directive_ofDirective, names]
  | unknown other =>
      have hspecial (directive : Directive) : (unknown other).rule ≠ .ofDirective directive := by
        rw [Ne, rule_eq_ofDirective_iff]
        intro hlayout
        cases hlayout
      have hconditional : (unknown other).rule ≠ .conditional := hspecial .conditional
      have hbranches : (unknown other).rule ≠ .branchTable := hspecial .branchTable
      rw [Rule.directive, if_neg hconditional, if_neg hbranches, names]

end Layout

namespace FieldCode

/-- Numbered fields are the same if nothing tells them apart. -/
theorem denotesSame_iff {first second : FieldCode} :
    first.denotesSame second ↔
      first.kind = second.kind ∧ (first.kind = indexKind → first.space = second.space) := by
  simp [denotesSame, imp_iff_not_or]

/-- The kinds in the order of their numbers, given the space of an index. -/
def kinds : List (IndexSpace → Field) := [
  fun _ => .u32, fun _ => .i32, fun _ => .i64, fun _ => .f32, fun _ => .f64, .index,
  fun _ => .blockType, fun _ => .referenceType, fun _ => .valueTypes, fun _ => .instructions]

/-- The field that the numbers stand for. -/
def field (code : FieldCode) : Field :=
  if hkind : code.kind.toNat < kinds.length then kinds[code.kind.toNat] code.space
  else .unknown ⟨code.kind, Nat.le_of_not_lt hkind⟩

/-- The number of a field keeps the kind, and of the space what matters. -/
theorem code_field (code : FieldCode) :
    code.field.code = if code.kind = indexKind then code else ⟨code.kind, .types⟩ := by
  obtain ⟨kind, space⟩ := code
  by_cases hkind : kind.toNat < 10
  · obtain ⟨number, hnumber, rfl⟩ : ∃ number < 10, kind = UInt32.ofNat number :=
      ⟨kind.toNat, hkind, (UInt32.ofNat_toNat).symm⟩
    interval_cases number <;> rfl
  · have hindex : kind ≠ indexKind := by
      rintro rfl
      exact hkind (by decide)
    have hfield : field ⟨kind, space⟩ = .unknown ⟨kind, Nat.le_of_not_lt hkind⟩ := dif_neg hkind
    rw [if_neg hindex, hfield]
    rfl

end FieldCode

namespace Field

theorem field_code (field : Field) : field.code.field = field := by
  cases field with
  | unknown kind => exact dif_neg (Nat.not_lt.mpr kind.beyond)
  | _ => rfl

theorem code_injective : Function.Injective code :=
  Function.LeftInverse.injective field_code

/-- Numbered fields are the same exactly if they stand for the same field. -/
theorem denotesSame_iff_field_eq {first second : FieldCode} :
    first.denotesSame second ↔ first.field = second.field := by
  rw [FieldCode.denotesSame_iff, ← code_injective.eq_iff, first.code_field, second.code_field]
  constructor
  · rintro ⟨hkind, hspace⟩
    by_cases hindex : first.kind = FieldCode.indexKind
    · rw [if_pos hindex, if_pos (hkind ▸ hindex)]
      exact FieldCode.mk.injEq .. ▸ ⟨hkind, hspace hindex⟩
    · rw [if_neg hindex, if_neg (hkind ▸ hindex), hkind]
  · intro hcode
    have hkind : first.kind = second.kind := by
      have hkinds := congrArg FieldCode.kind hcode
      split at hkinds <;> split at hkinds <;> exact hkinds
    refine ⟨hkind, fun hindex => ?_⟩
    rw [if_pos hindex, if_pos (hkind ▸ hindex)] at hcode
    exact congrArg FieldCode.space hcode

/-- Fields are the same exactly if their numbers denote the same. -/
theorem denotesSame_code_iff {first second : Field} :
    first.code.denotesSame second.code ↔ first = second := by
  rw [denotesSame_iff_field_eq, field_code, field_code]

theorem name_code (field : Field) : field.code.name = field.name := by
  cases field with
  | unknown kind =>
      have hindex : kind.code ≠ FieldCode.indexKind := by
        intro hindex
        have hbeyond := kind.beyond
        rw [hindex] at hbeyond
        exact absurd hbeyond (by decide)
      have hnone : FieldCode.kindNames[kind.code.toNat]? = none :=
        List.getElem?_eq_none kind.beyond
      rw [FieldCode.name, code, if_neg hindex, FieldCode.kindName, FieldCode.nameOfKind, hnone]
      rfl
  | _ => rfl

theorem name_field (code : FieldCode) : code.field.name = code.name := by
  rw [← name_code, code.code_field]
  split
  next => rfl
  next hindex =>
    rw [FieldCode.name, FieldCode.name, if_neg hindex, if_neg hindex]
    rfl

/-- A name is found under the number of its field. -/
theorem ofName?_name_code {field : Field} (hfield : field ∈ all) :
    FieldCode.ofName? field.code.name = some field.code := by
  rw [name_code, FieldCode.ofName?, ofName?_name hfield, Option.map_some]

end Field

end Disassembly
