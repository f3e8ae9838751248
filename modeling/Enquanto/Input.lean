import Enquanto.Decimal
import Enquanto.Text.Blank

/-!
# Input

A running program reads words from a stream of bytes. The stream is taken line by line; the words of
a line wait until they are read. A line that is not valid UTF-8 has no words: reading it fails,
once, and goes on behind it.

* `Input.next` takes the next word;
* `Input.readInt` takes the next word and reads it as an integer; a word that is none is lost.
-/

namespace Enquanto

/-- Bytes with the lines that they make. A line keeps its line feed; the last one may have none. -/
def splitLines (bytes : List UInt8) : List (List UInt8) :=
  bytes.foldr (fun b lines =>
    if b = 10 then [b] :: lines
    else
      match lines with
      | [] => [[b]]
      | line :: rest => (b :: line) :: rest) []

/-- What is left of an input: the words waiting, and the lines behind them. -/
structure Input where
  waiting : List String
  lines : List (List UInt8)
  deriving DecidableEq, Repr, Inhabited

/-- Why no integer could be read. -/
inductive ReadError where
  /-- No word is left. -/
  | exhausted
  /-- The word is no integer of 32 bits. -/
  | malformed (word : String)
  | failed (message : String)
  deriving DecidableEq, Repr

/-- How a line that is no text is reported. -/
def invalidLineMessage : String := "stream did not contain valid UTF-8"

namespace Input

def ofBytes (bytes : ByteArray) : Input := ⟨[], splitLines bytes.toList⟩

def ofString (text : String) : Input := ofBytes text.toUTF8

/-- The words of a line, if it is text. -/
def lineWords (line : List UInt8) : Option (List String) :=
  (String.fromUTF8? ⟨line.toArray⟩).map fun text => (Text.words text.toList).map String.ofList

/-- Takes the next word off lines, of which the first that has words keeps the others waiting. There
is no word at the end; a line that is no text is taken off and fails. -/
def nextOfLines : List (List UInt8) → Except String (Option String) × Input
  | [] => (.ok none, ⟨[], []⟩)
  | line :: lines =>
    match lineWords line with
    | none => (.error invalidLineMessage, ⟨[], lines⟩)
    | some [] => nextOfLines lines
    | some (word :: waiting) => (.ok (some word), ⟨waiting, lines⟩)

/-- Takes the next word. -/
def next (input : Input) : Except String (Option String) × Input :=
  match input.waiting with
  | word :: waiting => (.ok (some word), { input with waiting })
  | [] => nextOfLines input.lines

/-- Takes the next word as an integer. -/
def readInt (input : Input) : Except ReadError Int32 × Input :=
  match input.next with
  | (.error message, rest) => (.error (.failed message), rest)
  | (.ok none, rest) => (.error .exhausted, rest)
  | (.ok (some word), rest) =>
    match Decimal.parse? word.toList with
    | some value => (.ok value, rest)
    | none => (.error (.malformed word), rest)

end Input

end Enquanto
