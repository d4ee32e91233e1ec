import Disassembly.Decoder.Basic

/-!
# Command-line options

Arguments are read from left to right.  An option with a value takes the next
argument, whatever it looks like; an option that is given again replaces its
earlier value.  Any other argument that is a single dash or does not start with
a dash is the input, of which there is at most one.  An input has to be given
unless the table is only dumped.
-/

namespace Disassembly

namespace CommandLine

structure Options where
  input? : Option String := none
  tablePath? : Option String := none
  offset : Nat := 0
  depthLimit : Nat := defaultDepthLimit
  single : Bool := false
  dumpTable : Bool := false
  verbose : Bool := false
deriving DecidableEq, Repr

/-- Why a command line is not carried out. -/
inductive Refusal where
  | help
  | missingValue (option : String)
  | invalidNumber (value option : String)
  | secondInput
  | unknownOption (argument : String)
  | noInput
deriving DecidableEq, Repr

namespace Refusal

def message : Refusal → String
  | help => ""
  | missingValue option => "Missing value for option '" ++ option ++ "'\n"
  | invalidNumber value option =>
    "Invalid number '" ++ value ++ "' for option '" ++ option ++ "'\n"
  | secondInput => "Only a single input may be given\n"
  | unknownOption argument => "Unknown option '" ++ argument ++ "'\n"
  | noInput => "No input given\n"

end Refusal

/-- An option without a value. -/
inductive Flag where
  | single
  | dumpTable
  | verbose
deriving DecidableEq, Repr

namespace Flag

def word : Flag → String
  | single => "--single"
  | dumpTable => "--dump-table"
  | verbose => "--verbose"

def ofWord? (word : String) : Option Flag :=
  [single, dumpTable, verbose].find? fun flag => flag.word == word

def set (options : Options) : Flag → Options
  | single => { options with single := true }
  | dumpTable => { options with dumpTable := true }
  | verbose => { options with verbose := true }

end Flag

/-- An option with a value. -/
inductive Setting where
  | table
  | offset
  | depthLimit
deriving DecidableEq, Repr

namespace Setting

def word : Setting → String
  | table => "--table"
  | offset => "--offset"
  | depthLimit => "--max-depth"

def ofWord? (word : String) : Option Setting :=
  [table, offset, depthLimit].find? fun setting => setting.word == word

/-- Reads the number that a setting takes. -/
def number (setting : Setting) (bound : Nat) (value : String) : Except Refusal Nat :=
  match Numeral.readAtMost? bound value with
  | some number => .ok number
  | none => .error (.invalidNumber value setting.word)

def set (options : Options) (value : String) : Setting → Except Refusal Options
  | table => .ok { options with tablePath? := some value }
  | offset => do return { options with offset := ← number offset 0xFFFFFFFFFFFFFFFF value }
  | depthLimit => do return { options with depthLimit := ← number depthLimit 0xFFFFFFFF value }

end Setting

def isHelp (argument : String) : Bool :=
  argument == "--help" || argument == "-h"

def isInput (argument : String) : Bool :=
  argument == "-" || argument.toList.head? ≠ some '-'

namespace Options

/-- Reads arguments on top of the options read before. -/
def scan (options : Options) : List String → Except Refusal Options
  | [] => .ok options
  | argument :: rest =>
    match Setting.ofWord? argument with
    | some setting =>
      match rest with
      | [] => .error (.missingValue argument)
      | value :: more =>
        match setting.set options value with
        | .ok changed => scan changed more
        | .error refusal => .error refusal
    | none =>
      match Flag.ofWord? argument with
      | some flag => scan (flag.set options) rest
      | none =>
        if isHelp argument then .error .help
        else if isInput argument then
          if options.input?.isSome then .error .secondInput
          else scan { options with input? := some argument } rest
        else .error (.unknownOption argument)

def parse (arguments : List String) : Except Refusal Options := do
  let options ← scan {} arguments
  if options.input?.isNone && !options.dumpTable then throw .noInput
  return options

end Options

end CommandLine

end Disassembly
