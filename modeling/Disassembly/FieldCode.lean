import Disassembly.Field

/-!
# Numbers of fields

Fields and rules are also known by number, and by number they are stored.  A number
beyond the last item is allowed and has a placeholder for its name.  The space counts
only for index fields: all other fields are the same field whatever the space is.
-/

namespace Disassembly

/-- How operands are read, by number: field by field, or by a directive. -/
structure Rule where
  code : UInt32
deriving DecidableEq, Repr

namespace Rule

def inOrder : Rule := ⟨0⟩
def conditional : Rule := ⟨1⟩
def branchTable : Rule := ⟨2⟩

def ofDirective : Directive → Rule
  | .conditional => conditional
  | .branchTable => branchTable

/-- The rule that a directive calls for by its name. -/
def ofName? (name : String) : Option Rule :=
  (Directive.ofName? name).map ofDirective

/-- The name of the directive that calls for a rule; a plain list of fields has none. -/
def directive (rule : Rule) : String :=
  if rule = conditional then Directive.conditional.name
  else if rule = branchTable then Directive.branchTable.name
  else ""

end Rule

/-- The rule by which a layout is read. -/
def Layout.rule : Layout → Rule
  | inOrder _ => .inOrder
  | special directive => .ofDirective directive
  | unknown rule => ⟨rule.code⟩

/-- A field by the number of its kind and its index space. -/
structure FieldCode where
  kind : UInt32
  space : IndexSpace
deriving DecidableEq, Repr

namespace FieldCode

/-- The names of the kinds in the order of their numbers. -/
def kindNames : List String :=
  ["u32", "i32", "i64", "f32", "f64", "idx", "blocktype", "reftype", "valtype*", "instr*"]

def nameOfKind (kind : UInt32) : String :=
  kindNames[kind.toNat]?.getD "<unknown field kind>"

/-- The kind that all index fields share. -/
def indexKind : UInt32 := 5

def kindName (code : FieldCode) : String :=
  nameOfKind code.kind

def name (code : FieldCode) : String :=
  if code.kind = indexKind then code.space.fieldName else code.kindName

/-- Whether two numbered fields are the same field. -/
def denotesSame (first second : FieldCode) : Bool :=
  first.kind = second.kind && (first.kind ≠ indexKind || first.space = second.space)

end FieldCode

/-- A field without an index carries the first space. -/
def Field.code : Field → FieldCode
  | .u32 => ⟨0, .types⟩
  | .i32 => ⟨1, .types⟩
  | .i64 => ⟨2, .types⟩
  | .f32 => ⟨3, .types⟩
  | .f64 => ⟨4, .types⟩
  | .index space => ⟨FieldCode.indexKind, space⟩
  | .blockType => ⟨6, .types⟩
  | .referenceType => ⟨7, .types⟩
  | .valueTypes => ⟨8, .types⟩
  | .instructions => ⟨9, .types⟩
  | .unknown kind => ⟨kind.code, .types⟩

def FieldCode.ofName? (name : String) : Option FieldCode :=
  (Field.ofName? name).map Field.code

end Disassembly
