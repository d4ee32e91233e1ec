import Disassembly.CommandLine.Run

/-!
# The program

Reads the files that the arguments mention and what is piped in, and hands them
to a run of the command line.  Outside the program text is in UTF-8, and inside
it is a string of bytes.
-/

open Disassembly CommandLine

/-- The bytes of a text from outside. -/
def received (text : String) : String :=
  Text.ofBytes text.toUTF8.toList

partial def readAll (stream : IO.FS.Stream) (earlier : ByteArray) : IO ByteArray := do
  let chunk ← stream.read 65536
  if chunk.isEmpty then return earlier else readAll stream (earlier ++ chunk)

/-- Reads a file up to its end, or up to where reading breaks down. -/
partial def readFile (handle : IO.FS.Handle) (earlier : ByteArray) : IO File := do
  match ← (handle.read 65536).toBaseIO with
  | .ok chunk =>
    if chunk.isEmpty then return ⟨earlier.toList, none⟩
    else readFile handle (earlier ++ chunk)
  | .error reason =>
    let message := "basic_filebuf::underflow error reading the file: " ++ reason.toString
    return ⟨earlier.toList, some (received message)⟩

/-- The file at a path, if it can be opened. -/
def openFile? (path : String) : IO (Option File) := do
  match ← (IO.FS.Handle.mk path .read).toBaseIO with
  | .ok handle => return some (← readFile handle ByteArray.empty)
  | .error _ => return none

/-- The files that options mention, by their paths. -/
def openFiles (options : Options) : IO (List (String × File)) := do
  let paths := options.tablePath?.toList ++ options.input?.toList
  let mut found := []
  for path in paths do
    if let some outside := String.fromUTF8? ⟨(Text.bytes path).toArray⟩ then
      if let some file ← openFile? outside then
        found := (path, file) :: found
  return found

/-- Writes a string of bytes. -/
def send (stream : IO.FS.Stream) (text : String) : IO Unit :=
  stream.write ⟨(Text.bytes text).toArray⟩

def main (outside : List String) : IO UInt32 := do
  let arguments := outside.map received
  let mut found := []
  let mut piped := []
  match Options.parse arguments with
  | .ok options =>
    found ← openFiles options
    if options.input? = some "-" then
      piped := (← readAll (← IO.getStdin) ByteArray.empty).toList
  | .error _ => pure ()
  let files : Files := fun path => found.lookup path
  let response := run arguments files piped
  send (← IO.getStdout) response.stdout
  send (← IO.getStderr) response.stderr
  return response.exitCode
