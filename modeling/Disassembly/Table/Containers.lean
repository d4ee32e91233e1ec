import Disassembly.FieldCode
import Disassembly.FiniteMap
import Disassembly.Table.Text

/-!
# Stored tables

A table is stored in three kinds of maps and a counter.  The primary map has a
slot for each first byte of an opcode, which holds an entry or a map of the
entries by their second bytes.  The reverse map has the opcode of each
instruction type.

An entry is inserted in steps.  A step that refuses the entry leaves behind what
the steps before it have changed.  The map of second bytes is there before it is
known whether the second byte is free.
-/

namespace Disassembly

/-- An entry in the form in which it is stored. -/
structure StoredEntry where
  lead : UInt8
  second? : Option UInt8
  type : InstructionType
  rule : Rule
  fields : List FieldCode
deriving DecidableEq, Repr

namespace StoredEntry

def opcode (entry : StoredEntry) : Opcode :=
  ⟨entry.lead, entry.second?⟩

/-- The words behind the name of an entry: its directive or its fields. -/
def operandWords (entry : StoredEntry) : List String :=
  if entry.rule = .inOrder then entry.fields.map FieldCode.name else [entry.rule.directive]

def text (entry : StoredEntry) : String :=
  String.intercalate " " (entry.opcode.text :: entry.type.name :: entry.operandWords)

/-- Adds what one of `count` words calls for. -/
def addWord (count : Nat) (entry : StoredEntry) (word : String) :
    Except TableFault StoredEntry :=
  if word.toList.head? = some '%' then
    match Rule.ofName? word with
    | none => .error (.unknownDirective word)
    | some rule =>
      if count = 1 then .ok { entry with rule := rule } else .error (.mixedDirective word)
  else
    match FieldCode.ofName? word with
    | none => .error (.unknownField word)
    | some field => .ok { entry with fields := entry.fields ++ [field] }

/-- The fields of the instructions that hold one block. -/
def blockFields : List FieldCode :=
  [Field.blockType.code, Field.instructions.code]

/-- Why the rule and the fields of an entry do not suit its instruction type. -/
def misfit? (entry : StoredEntry) : Option TableFault :=
  if entry.rule = .conditional ∧ entry.type ≠ .conditional then
    some (.strayDirective .conditional)
  else if entry.rule = .branchTable ∧ entry.type ≠ .branchTable then
    some (.strayDirective .branchTable)
  else if entry.type = .conditional then
    if entry.rule = .conditional then none
    else some (.requiresLayout entry.type (.special .conditional))
  else if entry.type = .branchTable then
    if entry.rule = .branchTable then none
    else some (.requiresLayout entry.type (.special .branchTable))
  else if entry.type = .block ∨ entry.type = .loop then
    if entry.rule = .inOrder ∧ entry.fields.isEqv blockFields FieldCode.denotesSame then none
    else some (.requiresLayout entry.type (.inOrder [.blockType, .instructions]))
  else none

/-- The entry that a row asks for. -/
def ofRow (row : Row) : Except TableFault StoredEntry := do
  let some type := InstructionType.ofName? row.name
    | throw (.unknownInstruction row.name)
  let words := Text.words row.fields
  let plain : StoredEntry := ⟨row.opcode.lead, row.opcode.second?, type, .inOrder, []⟩
  let entry ← words.foldlM (addWord words.length) plain
  match entry.misfit? with
  | some fault => throw fault
  | none => return entry

end StoredEntry

/-- The entries of longer opcodes with one lead byte, by their second bytes. -/
abbrev SecondaryMap := FiniteMap UInt8 StoredEntry

inductive PrimarySlot where
  | terminal (entry : StoredEntry)
  | extended (entries : SecondaryMap)
deriving DecidableEq, Repr

/-- Adds an entry to the longer opcodes of a slot. -/
def PrimarySlot.emplace (second : UInt8) (entry : StoredEntry) : PrimarySlot → PrimarySlot
  | terminal owner => terminal owner
  | extended entries => extended (entries.emplace second entry)

/-- How an access to a stored table can go wrong. -/
inductive StorageFault where
  | missingSlot
  | otherAlternative
deriving DecidableEq, Repr

structure Containers where
  source : String
  primary : FiniteMap UInt8 PrimarySlot
  opcodes : FiniteMap UInt32 (UInt8 × Option UInt8)
  count : Nat
deriving DecidableEq, Repr

/-- Why no table is stored: it is refused, or an access goes wrong. -/
inductive StorageError where
  | refused (error : TableError)
  | broken (fault : StorageFault)
deriving DecidableEq, Repr

namespace Containers

/-- A stored table without entries. -/
def empty (source : String) : Containers :=
  ⟨source, .empty, .empty, 0⟩

/-! ## Lookups -/

section Lookups

variable (containers : Containers)

def slot? (lead : UInt8) : Option PrimarySlot :=
  containers.primary.find? lead

def extended? (lead second : UInt8) : Option StoredEntry :=
  match containers.slot? lead with
  | some (.extended entries) => entries.find? second
  | some (.terminal _) => none
  | none => none

/-- The entry of an instruction type, which is looked up by the opcode of the type.  A type with
an opcode of one byte has to have a slot, and the slot has to hold an entry. -/
def entryOf (type : InstructionType) : Except StorageFault (Option StoredEntry) :=
  match containers.opcodes.find? type.code with
  | none => .ok none
  | some (lead, some second) => .ok (containers.extended? lead second)
  | some (lead, none) =>
    match containers.slot? lead with
    | none => .error .missingSlot
    | some (.extended _) => .error .otherAlternative
    | some (.terminal entry) => .ok (some entry)

/-- The entries whose opcodes start with a byte, in order. -/
def orderedAt (lead : UInt8) : List StoredEntry :=
  match containers.slot? lead with
  | none => []
  | some (.terminal entry) => [entry]
  | some (.extended entries) => allBytes.filterMap entries.find?

/-- The entries in the order of their opcodes. -/
def ordered : List StoredEntry :=
  allBytes.flatMap containers.orderedAt

def text : String :=
  String.join (containers.ordered.map fun entry => entry.text ++ "\n")

end Lookups

/-! ## Building -/

/-- A step of building a stored table, which may refuse to go on. -/
abbrev Building (α : Type) := ExceptT TableFault (StateM Containers) α

def insertEntry (entry : StoredEntry) : Building Unit := do
  if (← get).opcodes.contains entry.type.code then
    throw (.mappedTwice entry.type)
  match (← get).slot? entry.lead, entry.second? with
  | some (.terminal owner), none => throw (.opcodeTaken entry.opcode owner.type)
  | some (.extended _), none => throw (.usedAsLead entry.lead)
  | none, none =>
    modify fun containers =>
      { containers with primary := containers.primary.emplace entry.lead (.terminal entry) }
  | slot?, some second =>
    if slot?.isNone then
      modify fun containers =>
        { containers with primary := containers.primary.emplace entry.lead (.extended .empty) }
    match slot?.getD (.extended .empty) with
    | .terminal owner => throw (.leadTaken entry.lead owner.type)
    | .extended entries =>
      if let some owner := entries.find? second then
        throw (.opcodeTaken entry.opcode owner.type)
      modify fun containers =>
        { containers with
          primary := containers.primary.change entry.lead (PrimarySlot.emplace second entry) }
  modify fun containers =>
    { containers with
      opcodes := containers.opcodes.emplace entry.type.code (entry.lead, entry.second?)
      count := containers.count + 1 }

def insertRow (row : Row) : Building Unit := do
  insertEntry (← StoredEntry.ofRow row)

def addLine (line : String) : Building Unit := do
  match ← Row.ofLine? line with
  | none => return ()
  | some row => insertRow row

/-- Adds numbered pieces one after the other, and names the number of the first faulty one. -/
def addAll {α : Type} (add : α → Building Unit) (containers : Containers) :
    List (α × UInt32) → Except StorageError Containers
  | [] => .ok containers
  | (piece, line) :: more =>
    match add piece containers with
    | (.ok (), grown) => addAll add grown more
    | (.error fault, _) => .error (.refused ⟨containers.source, line, fault⟩)

/-- Refuses a table in which no block could end. -/
def finish (containers : Containers) : Except StorageError Containers :=
  match containers.entryOf .blockEnd with
  | .ok (some _) => .ok containers
  | .ok none => .error (.refused ⟨containers.source, 0, .missingEnd⟩)
  | .error fault => .error (.broken fault)

def ofRows (source : String) (rows : List Row) : Except StorageError Containers := do
  finish (← addAll insertRow (empty source) (Table.numbered 1 rows))

def ofText (source text : String) : Except StorageError Containers := do
  finish (← addAll addLine (empty source) (Table.numbered 1 (Text.lines text)))

/-- Stores a table from a source that breaks down after `size` bytes of its text. -/
def ofBrokenText (source text : String) (size : Nat) : Except StorageError Containers := do
  let lines := Text.completeLines (Text.firstBytes size text)
  let _ ← addAll addLine (empty source) (Table.numbered 1 lines)
  throw (.refused ⟨source, UInt32.ofNat lines.length, .unreadable⟩)

end Containers

end Disassembly
