import Disassembly.Bytes.Buffer
import Disassembly.CommandLine.Options
import Disassembly.Instruction.Printer
import Disassembly.Table.Standard
import Disassembly.Table.Text

/-!
# A run of the command line

A run depends on the arguments, on the files and on what is piped in.  It
answers with an exit code and two texts.  The exit code is two if the arguments
are refused, one if the run fails, and zero otherwise.
-/

namespace Disassembly

namespace CommandLine

/-- A file that can be opened: the bytes that are read from it, and what is said when
reading breaks down behind them. -/
structure File where
  bytes : List UInt8
  breakdown? : Option String := none
deriving DecidableEq, Repr

/-- The files that a run can open. -/
abbrev Files := String → Option File

structure Response where
  exitCode : UInt32
  stdout : String
  stderr : String
deriving DecidableEq, Repr

/-- Why a run fails. -/
inductive Failure where
  | table (error : TableError)
  | unopened (path : String)
  | unread (reason : String)
  | offset (error : OffsetError)
  | decoding (error : DecodeError)
  | printing (error : AccessError)
deriving DecidableEq, Repr

def Failure.report : Failure → String
  | table error => "Caught decoder error: " ++ error.report ++ "\n"
  | unopened path => "Caught generic error: Could not open file '" ++ path ++ "'\n"
  | unread reason => "Caught generic error: " ++ reason ++ "\n"
  | offset error => "Caught generic error: " ++ error.message ++ "\n"
  | decoding error =>
    if error.fault.isInternal then "Caught generic error: " ++ error.message ++ "\n"
    else "Caught decoder error: " ++ error.report ++ "\n"
  | printing error => "Caught generic error: " ++ error.message?.getD "Missing operand" ++ "\n"

def usage : String :=
  "Usage: wasm-disassembler [options] <file | ->\n" ++
  "Decodes a block of instructions and prints it as an instruction tree.\n\n" ++
  "Options:\n" ++
  "  --table <file>     Load the opcode table from a text file\n" ++
  "  --dump-table       Print the opcode table and exit\n" ++
  "  --offset <n>       Start decoding at byte offset n\n" ++
  "  --max-depth <n>    Maximum block nesting depth (default " ++
    Numeral.decimal defaultDepthLimit ++ ")\n" ++
  "  --single           Decode a single instruction instead of a block\n" ++
  "  --verbose          Log decoding progress\n"

/-- Reads a table from a file. -/
def readTable (path : String) (file : File) : Except TableError Table :=
  match file.breakdown? with
  | none => Table.ofText path (Text.ofBytes file.bytes)
  | some _ => Table.ofBrokenText path (Text.ofBytes file.bytes) file.bytes.length

def loadTable (options : Options) (files : Files) : Except Failure Table :=
  match options.tablePath? with
  | none => .ok Table.standard
  | some path =>
    match files path with
    | none => .error (.table ⟨path, 0, .unopened⟩)
    | some file => (readTable path file).mapError .table

/-- The bytes of the input, which have to be there as a whole. -/
def readInput (options : Options) (files : Files) (piped : List UInt8) :
    Except Failure (List UInt8) :=
  let path := options.input?.getD ""
  if path = "-" then .ok piped else
    match files path with
    | none => .error (.unopened path)
    | some file =>
      match file.breakdown? with
      | none => .ok file.bytes
      | some reason => .error (.unread reason)

/-- Opens the input at its offset. -/
def openInput (options : Options) (files : Files) (piped : List UInt8) :
    Except Failure BufferIterator := do
  let bytes ← readInput options files piped
  ((Buffer.mk bytes).iterator options.offset).mapError .offset

/-- Decodes an instruction or a block, and prints it. -/
def disassemble (options : Options) (decoder : Decoder) (input : BufferIterator) :
    Outcome BufferIterator Printout :=
  if options.single then
    (decoder.decodeOne input).map (Instruction.print 0)
  else
    (decoder.decodeBlock input).map fun block =>
      Instruction.printList 0 block.instructions ++
        Printout.write ("; terminated by '" ++ block.terminator ++ "'\n")

/-- The last line, on the bytes that were decoded and those that were not. -/
def summary (options : Options) (input : BufferIterator) : String :=
  "; decoded " ++ Numeral.decimal (input.position - options.offset) ++ " bytes, " ++
    Numeral.decimal input.remaining ++ " bytes remaining\n"

/-- Carries out options that ask for a disassembly. -/
def answer (options : Options) (table : Table) (input : BufferIterator) : Response :=
  let decoder : Decoder := ⟨table, options.depthLimit, options.verbose⟩
  let outcome := disassemble options decoder input
  let log := LogStyle.render ⟨true, true⟩ outcome.events
  match outcome.result with
  | .error error => ⟨1, "", log ++ (Failure.decoding error).report⟩
  | .ok printout =>
    let printed := printout ++ Printout.write (summary options outcome.input)
    match printed.fault? with
    | none => ⟨0, printed.text, log⟩
    | some fault => ⟨1, printed.text, log ++ (Failure.printing fault).report⟩

def execute (options : Options) (files : Files) (piped : List UInt8) : Response :=
  match loadTable options files with
  | .error failure => ⟨1, "", failure.report⟩
  | .ok table =>
    if options.dumpTable then ⟨0, table.text, ""⟩
    else
      match openInput options files piped with
      | .error failure => ⟨1, "", failure.report⟩
      | .ok input => answer options table input

def run (arguments : List String) (files : Files) (piped : List UInt8) : Response :=
  match Options.parse arguments with
  | .error refusal => ⟨2, "", refusal.message ++ usage⟩
  | .ok options => execute options files piped

end CommandLine

end Disassembly
