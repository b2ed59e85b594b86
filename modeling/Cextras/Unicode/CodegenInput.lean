/-
How the generator of the width tables (lib/unicode/codegen/char_width.c)
reads its input, a file of the Unicode character database: `parse_range`
takes a line apart, and the loops of `find_max` and `generate_flat_table`
go over the lines.

The file could be opened and `getline` gets the memory it asks for. Both
loops read the file from its beginning and make the same of every line, so
it is read once here.
-/
import Cextras.Lib.CText
import Cextras.Unicode.Codegen

namespace Cextras.Unicode

open Lib

/-- What the field is compared with: the width of EastAsianWidth.txt, and
the categories of UnicodeData.txt. -/
def selectedFields : List (List Byte) :=
  [chars [' ', 'W', ' ', ' '], chars ['C', 'c'], chars ['C', 'f'],
    chars ['M', 'n'], chars ['M', 'e']]

/-- What `sscanf` assigned. A number that does not fit an `unsigned int` is
undefined, as overflow is. -/
def assigned (values : List Nat) : Except Fault (List Nat) :=
  if values.all fun v => decide (v < 2 ^ 32) then pure values
  else throw .signedOverflow

/-- The two calls of `sscanf`. -/
def scanRange (line : List Byte) : Except Fault (Option Range) := do
  match ← assigned (sscanf [.hex, .literal 46, .literal 46, .hex] line) with
  | [start, stop] => pure (some ⟨start, stop⟩)
  | _ =>
      match ← assigned (sscanf [.hex] line) with
      | [start] => pure (some ⟨start, start⟩)
      | _ => pure none

/-- `line` after `n` turns of `line = strtok(NULL, ";#")`. -/
def nextFields : Nat → Option (List Byte) → List Byte → Option (List Byte)
  | 0, line, _ => line
  | n + 1, _, rest =>
      match strtok [59, 35] rest with
      | some (line, rest) => nextFields n (some line) rest
      | none => nextFields n none []

/-- The range of a line, if it is selected. -/
def parseRange (fieldNbr : Int) (line : List Byte) :
    Except Fault (Option Range) :=
  match strtok [59] (cString line) with
  | none => throw .nullDeref
  | some (line, rest) => do
      match ← scanRange line with
      | none => pure none
      | some range =>
          match nextFields fieldNbr.toNat (some line) rest with
          | none => throw .nullDeref
          | some line =>
              pure (if selectedFields.contains line then some range else none)

/-- What `parse_range` makes of the lines. -/
def readRanges (fieldNbr : Int) (file : List Byte) :
    Except Fault (List (Option Range)) :=
  (getlines file).mapM (parseRange fieldNbr)

/-- `main`, on a file with these bytes. -/
def charWidthFile (file : List Byte) (fieldNbr : Int) (radix : Nat) :
    Except Fault Source := do
  let ranges ← readRanges fieldNbr file
  charWidth ranges radix

end Cextras.Unicode
