/-!
# Text

A text is read line by line and word by word.  A line ends at a line feed; what
follows the last line feed is a line only if it is not empty.  Words are the
maximal runs of characters other than space, tab and carriage return.

Text is a string of bytes: each character stands for the byte of its number.  No
byte has a meaning beyond itself, so that names are quoted as they were written,
whatever their encoding is.
-/

namespace Disassembly

namespace Text

def isBlank (c : Char) : Bool :=
  c = ' ' || c = '\t' || c = '\r'

/-- The words of a text, where `current` is the reversed start of the first one. -/
def wordsFrom (current : List Char) : List Char → List (List Char)
  | [] => if current.isEmpty then [] else [current.reverse]
  | c :: cs =>
    if isBlank c then
      (if current.isEmpty then [] else [current.reverse]) ++ wordsFrom [] cs
    else
      wordsFrom (c :: current) cs

def words (text : String) : List String :=
  (wordsFrom [] text.toList).map String.ofList

/-- The lines that end in a line feed, and the characters after the last one. -/
def splitLines : List Char → List (List Char) × List Char
  | [] => ([], [])
  | c :: cs =>
    match splitLines cs with
    | (lines, rest) =>
      if c = '\n' then ([] :: lines, rest)
      else match lines with
        | [] => ([], c :: rest)
        | line :: more => ((c :: line) :: more, rest)

def completeLines (text : String) : List String :=
  (splitLines text.toList).1.map String.ofList

def lines (text : String) : List String :=
  match splitLines text.toList with
  | (complete, []) => complete.map String.ofList
  | (complete, rest) => (complete ++ [rest]).map String.ofList

/-- The part of a line before its comment. -/
def withoutComment (line : String) : String :=
  String.ofList (line.toList.takeWhile (· ≠ '#'))

/-- The text of a list of bytes. -/
def ofBytes (bytes : List UInt8) : String :=
  String.ofList (bytes.map fun byte => Char.ofNat byte.toNat)

/-- The bytes of a text. -/
def bytes (text : String) : List UInt8 :=
  text.toList.map fun c => UInt8.ofNat c.toNat

/-- The beginning of a text that its first `size` bytes make up. -/
def firstBytes (size : Nat) (text : String) : String :=
  String.ofList (text.toList.take size)

/-- The text before the first NUL character. -/
def beforeNul (text : String) : String :=
  String.ofList (text.toList.takeWhile (· ≠ '\x00'))

end Text

end Disassembly
