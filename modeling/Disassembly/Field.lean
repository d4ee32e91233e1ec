/-!
# Fields

An entry of an opcode table says how the bytes after an opcode are read: either
field by field, in order, or by one of two directives that read an operand
layout of their own.  Every field and every directive has a name, by which a
table in text form mentions it.

Kinds of fields, index spaces and rules are numbers in the end.  A number beyond the
last one is possible in an entry that is put together by hand.  No name leads to it.
-/

namespace Disassembly

/-- What an index counts, by number. -/
structure IndexSpace where
  code : UInt32
deriving DecidableEq, Repr

namespace IndexSpace

def types : IndexSpace := ⟨0⟩
def functions : IndexSpace := ⟨1⟩
def tables : IndexSpace := ⟨2⟩
def locals : IndexSpace := ⟨3⟩
def globals : IndexSpace := ⟨4⟩
def labels : IndexSpace := ⟨5⟩
def elements : IndexSpace := ⟨6⟩
def dataSegments : IndexSpace := ⟨7⟩
def memories : IndexSpace := ⟨8⟩

def all : List IndexSpace :=
  [types, functions, tables, locals, globals, labels, elements, dataSegments, memories]

/-- The names of the fields that hold indices, in the order of their numbers. -/
def fieldNames : List String :=
  ["typeidx", "funcidx", "tableidx", "localidx", "globalidx", "labelidx", "elemidx", "dataidx",
    "memidx"]

/-- The name of a field that holds an index into the space. -/
def fieldName (space : IndexSpace) : String :=
  fieldNames[space.code.toNat]?.getD "<unknown index field>"

def ofFieldName? (name : String) : Option IndexSpace :=
  all.find? fun space => space.fieldName == name

theorem ofFieldName?_fieldName {space : IndexSpace} (hspace : space ∈ all) :
    ofFieldName? space.fieldName = some space := by
  revert space
  decide

end IndexSpace

/-- The number of no kind of field. -/
structure UnknownKind where
  code : UInt32
  beyond : 10 ≤ code.toNat
deriving DecidableEq, Repr

/-- One piece of an encoded instruction. -/
inductive Field where
  | u32
  | i32
  | i64
  | f32
  | f64
  | index (space : IndexSpace)
  | blockType
  | referenceType
  | valueTypes
  | instructions
  | unknown (kind : UnknownKind)
deriving DecidableEq, Repr

namespace Field

/-- The fields that have a name of their own. -/
def all : List Field :=
  [u32, i32, i64, f32, f64, blockType, referenceType, valueTypes, instructions] ++
    IndexSpace.all.map index

def name : Field → String
  | u32 => "u32"
  | i32 => "i32"
  | i64 => "i64"
  | f32 => "f32"
  | f64 => "f64"
  | index space => space.fieldName
  | blockType => "blocktype"
  | referenceType => "reftype"
  | valueTypes => "valtype*"
  | instructions => "instr*"
  | unknown _ => "<unknown field kind>"

def ofName? (name : String) : Option Field :=
  all.find? fun field => field.name == name

theorem ofName?_name {field : Field} (hfield : field ∈ all) :
    ofName? field.name = some field := by
  revert field
  decide

end Field

/-- A rule that reads the operands of one particular instruction type. -/
inductive Directive where
  | conditional
  | branchTable
deriving DecidableEq, Repr

namespace Directive

def name : Directive → String
  | conditional => "%conditional"
  | branchTable => "%branchtable"

def ofName? (name : String) : Option Directive :=
  [conditional, branchTable].find? fun directive => directive.name == name

theorem ofName?_name (directive : Directive) : ofName? directive.name = some directive := by
  cases directive <;> decide

end Directive

/-- The number of no rule by which operands are read. -/
structure UnknownRule where
  code : UInt32
  beyond : 3 ≤ code.toNat
deriving DecidableEq, Repr

/-- How the operands of an instruction are read. -/
inductive Layout where
  | inOrder (fields : List Field)
  | special (directive : Directive)
  | unknown (rule : UnknownRule)
deriving DecidableEq, Repr

namespace Layout

/-- The names that stand for the layout in a table. -/
def names : Layout → List String
  | inOrder fields => fields.map Field.name
  | special directive => [directive.name]
  | unknown _ => [""]

def fields : Layout → List Field
  | inOrder fields => fields
  | special _ => []
  | unknown _ => []

def directive? : Layout → Option Directive
  | inOrder _ => none
  | special directive => some directive
  | unknown _ => none

end Layout

end Disassembly
