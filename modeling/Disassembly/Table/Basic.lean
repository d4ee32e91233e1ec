import Disassembly.Table.Fault

/-!
# Opcode tables

A table lists entries.  It is built entry by entry, and an entry is refused if
its instruction type or its opcode is taken already, or if a byte would become
an opcode by itself and the lead byte of longer opcodes at once.  A finished
table maps the instruction that ends a block.

A row is an entry in words: the name of the instruction, and the names of the
fields or of a directive, separated by blanks.
-/

namespace Disassembly

structure Table where
  source : String
  entries : List Entry
deriving DecidableEq, Repr

/-- What a byte at the start of an instruction stands for. -/
inductive Slot where
  | single (entry : Entry)
  | extended
deriving DecidableEq, Repr

/-- All bytes in ascending order. -/
def allBytes : List UInt8 :=
  (List.range 256).map UInt8.ofNat

namespace Table

variable (table : Table)

def empty (source : String) : Table :=
  ⟨source, []⟩

def size : Nat :=
  table.entries.length

/-- The entries whose opcodes start with a byte. -/
def entriesAt (lead : UInt8) : List Entry :=
  table.entries.filter fun entry => entry.opcode.lead = lead

def slot? (lead : UInt8) : Option Slot :=
  match table.entriesAt lead with
  | [] => none
  | entry :: _ => if entry.opcode.second? = none then some (.single entry) else some .extended

def extended? (lead second : UInt8) : Option Entry :=
  (table.entriesAt lead).find? fun entry => entry.opcode.second? = some second

/-- The second bytes that continue a lead byte, in ascending order. -/
def secondBytes (lead : UInt8) : List UInt8 :=
  let group := table.entriesAt lead
  allBytes.filter fun second => group.any fun entry => entry.opcode.second? = some second

def entryOf? (type : InstructionType) : Option Entry :=
  table.entries.find? fun entry => entry.type = type

/-- Why an entry does not fit beside the entries of a table. -/
def conflict? (entry : Entry) : Option TableFault :=
  if (table.entryOf? entry.type).isSome then some (.mappedTwice entry.type)
  else
    match table.slot? entry.opcode.lead, entry.opcode.second? with
    | none, _ => none
    | some (.single owner), none => some (.opcodeTaken entry.opcode owner.type)
    | some .extended, none => some (.usedAsLead entry.opcode.lead)
    | some (.single owner), some _ => some (.leadTaken entry.opcode.lead owner.type)
    | some .extended, some second =>
      (table.extended? entry.opcode.lead second).map fun owner =>
        .opcodeTaken entry.opcode owner.type

def insert (entry : Entry) : Except TableFault Table :=
  match table.conflict? entry with
  | some fault => .error fault
  | none => .ok { table with entries := table.entries ++ [entry] }

end Table

/-- An entry in words. -/
structure Row where
  opcode : Opcode
  name : String
  fields : String
deriving DecidableEq, Repr

/-- The field of a name among other fields. -/
def Field.ofWord (word : String) : Except TableFault Field :=
  if word.toList.head? = some '%' then
    if (Directive.ofName? word).isSome then .error (.mixedDirective word)
    else .error (.unknownDirective word)
  else
    match Field.ofName? word with
    | some field => .ok field
    | none => .error (.unknownField word)

/-- The layout that words name: a single directive, or fields. -/
def Layout.ofWords (words : List String) : Except TableFault Layout :=
  match words with
  | [word] =>
    match Directive.ofName? word with
    | some directive => .ok (.special directive)
    | none => (Field.ofWord word).map fun field => .inOrder [field]
  | _ => (words.mapM Field.ofWord).map .inOrder

namespace Entry

/-- Why the layout of an entry does not suit its instruction type. -/
def misfit? (entry : Entry) : Option TableFault :=
  match entry.layout.directive?.filter fun directive => directive.subject ≠ entry.type with
  | some directive => some (.strayDirective directive)
  | none =>
    (entry.type.requiredLayout?.filter fun layout => layout ≠ entry.layout).map fun layout =>
      .requiresLayout entry.type layout

/-- The entry that a row describes. -/
def ofRow (row : Row) : Except TableFault Entry := do
  let some type := InstructionType.ofName? row.name
    | throw (.unknownInstruction row.name)
  let layout ← Layout.ofWords (Text.words row.fields)
  let entry : Entry := ⟨row.opcode, type, layout⟩
  match entry.misfit? with
  | some fault => throw fault
  | none => return entry

end Entry

namespace Table

def insertRow (table : Table) (row : Row) : Except TableFault Table := do
  table.insert (← Entry.ofRow row)

/-- Pieces with their numbers, which start over behind the largest word. -/
def numbered {α : Type} (first : UInt32) : List α → List (α × UInt32)
  | [] => []
  | piece :: more => (piece, first) :: numbered (first + 1) more

/-- Adds numbered pieces one after the other, and names the number of the first faulty one. -/
def addAll {α : Type} (add : Table → α → Except TableFault Table) (table : Table) :
    List (α × UInt32) → Except TableError Table
  | [] => .ok table
  | (piece, line) :: more =>
    match add table piece with
    | .ok grown => addAll add grown more
    | .error fault => .error ⟨table.source, line, fault⟩

/-- Refuses a table in which no block could end. -/
def finish (table : Table) : Except TableError Table :=
  if (table.entryOf? .blockEnd).isSome then .ok table
  else .error ⟨table.source, 0, .missingEnd⟩

def ofRows (source : String) (rows : List Row) : Except TableError Table := do
  finish (← addAll insertRow (empty source) (numbered 1 rows))

end Table

end Disassembly
