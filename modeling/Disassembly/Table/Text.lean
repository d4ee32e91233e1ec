import Disassembly.Table.Basic

/-!
# Tables in text form

A table is written with one entry on a line, in the order of the opcodes.  It is
read from lines that hold an opcode byte, perhaps a second one, the name of an
instruction, and names of fields.  Blank lines and comments are skipped.

A source of text may break down before its end.  The lines that were complete
by then are read, and the table is refused all the same.
-/

namespace Disassembly

namespace Row

/-- The row on a line, or nothing if the line is blank. -/
def ofLine? (line : String) : Except TableFault (Option Row) := do
  match Text.words (Text.withoutComment line) with
  | [] => return none
  | first :: more =>
    let some lead := Numeral.byte? first
      | throw (.expectedOpcode first)
    let second? := more.head?.bind Numeral.byte?
    match if second?.isSome then more.tail else more with
    | [] => throw .missingName
    | name :: fields => return some ⟨⟨lead, second?⟩, name, String.intercalate " " fields⟩

end Row

namespace Table

def addLine (table : Table) (line : String) : Except TableFault Table := do
  match ← Row.ofLine? line with
  | none => return table
  | some row => table.insertRow row

/-- Reads a table from text. -/
def ofText (source text : String) : Except TableError Table := do
  finish (← addAll addLine (empty source) (numbered 1 (Text.lines text)))

/-- Reads a table from a source that breaks down after `size` bytes of its text. -/
def ofBrokenText (source text : String) (size : Nat) : Except TableError Table := do
  let lines := Text.completeLines (Text.firstBytes size text)
  let _ ← addAll addLine (empty source) (numbered 1 lines)
  throw ⟨source, UInt32.ofNat lines.length, .unreadable⟩

/-- The entries in the order of their opcodes. -/
def ordered (table : Table) : List Entry :=
  allBytes.flatMap fun lead =>
    match table.slot? lead with
    | none => []
    | some (.single entry) => [entry]
    | some .extended => (table.secondBytes lead).filterMap (table.extended? lead)

def text (table : Table) : String :=
  String.join (table.ordered.map fun entry => entry.text ++ "\n")

end Table

end Disassembly
