/-
The generator of the width tables (lib/unicode/codegen/char_width.c): it
collects the ranges of code points its input file selects in a flat
table, and prints that as C source with two levels, in which second-level
blocks that are all set or all clear are shared.

A file is the list of what `parse_range` makes of its lines: a range, or
nothing. `calloc` grants what is asked for; a build in which it does not
has no tables.
-/
import Cextras.Unicode.Width

namespace Cextras.Unicode

open Lib

/-- `struct Range`; `stop` is its `end`. -/
structure Range where
  start : Nat
  stop : Nat
deriving DecidableEq

-- ============================================================== flat table

def findMaxStep (codepointSize : Nat) : Option Range → Nat
  | none => codepointSize
  | some range =>
      if range.stop > codepointSize then range.stop
      else if range.start > codepointSize then range.start
      else codepointSize

/-- Code points are below the result, an `int`. -/
def findMax (file : List (Option Range)) : Int :=
  Int.bmod (file.foldl findMaxStep 0 + 1 : Nat) (2 ^ 32)

def setEntry (table : List Bool) (i : Nat) : Except Fault (List Bool) :=
  if i < table.length then pure (table.set i true) else throw .outOfBounds

/-- The loop over the code points of a range. -/
def setRange (table : List Bool) (start stop : Nat) :
    Except Fault (List Bool) :=
  (List.range' start (stop + 1 - start)).foldlM setEntry table

def generateFlatTable (file : List (Option Range)) (codepointSize : Int) :
    Except Fault (List Bool) :=
  if codepointSize < 0 then throw .nullDeref
  else
    file.foldlM (fun table line =>
      match line with
      | none => pure table
      | some range => setRange table range.start range.stop)
      (List.replicate codepointSize.toNat false)

-- ============================================================ radix table

def divideCeil (x y : Nat) : Nat := x / y + if x % y ≠ 0 then 1 else 0

/-- `table[k]`, read below the table's length only. -/
def flag (table : List Bool) (k : Nat) : Bool := table[k]?.getD false

/-- What stands for a second-level block in the printed source. -/
inductive TblName where
  | block (i : Nat)
  | full
  | null
deriving DecidableEq

/-- The printed source. -/
structure Source where
  /-- the `#define`s -/
  defines : List (TblName × Nat)
  tbl : List Byte
  lookup : List TblName
  size : Nat
  radix : Nat

section
variable (table : List Bool) (codepointSize radixNum : Nat)

def blockFlagsStep (i : Nat) (flags : Bool × Bool) (j : Nat) : Bool × Bool :=
  let (allUnset, allSet) := flags
  if i * radixNum + j ≥ codepointSize then (allUnset, allSet)
  else if flag table (i * radixNum + j) then (false, allSet)
  else (allUnset, false)

/-- `all_unset` and `all_set` of block `i`. -/
def blockFlags (i : Nat) : Bool × Bool :=
  (List.range radixNum).foldl (blockFlagsStep table codepointSize radixNum i)
    (true, true)

/-- One turn of the loop that prints block `i`. -/
def printBit (i : Nat) (out : List Byte × Byte) (j : Nat) : List Byte × Byte :=
  let (printed, currentByte) := out
  let currentByte :=
    if i * radixNum + j < codepointSize then
      currentByte ||| if flag table (i * radixNum + j)
        then UInt8.ofNat (1 <<< (j % 8)) else 0
    else currentByte
  if j % 8 = 7 then (printed ++ [currentByte], 0) else (printed, currentByte)

/-- The bytes of block `i`. -/
def printBlock (i : Nat) : List Byte :=
  ((List.range radixNum).foldl (printBit table codepointSize radixNum i)
    ([], 0)).1

/-- The variables of the loop over the first level, and what it printed. -/
structure Level1 where
  tableIndex : Nat
  allSetMap : List Bool
  allUnsetMap : List Bool
  needNull : Bool
  needFull : Bool
  defines : List (TblName × Nat)
  tbl : List Byte

/-- Prints a block and `#define`s its name as its number. -/
def Level1.printNumbered (st : Level1) (name : TblName) (bytes : List Byte) :
    Level1 :=
  { st with
    defines := st.defines ++ [(name, st.tableIndex)]
    tableIndex := st.tableIndex + 1
    tbl := st.tbl ++ bytes }

def printLevel1Step (st : Level1) (i : Nat) : Level1 :=
  let (allUnset, allSet) := blockFlags table codepointSize radixNum i
  let st := { st with
    allSetMap := st.allSetMap ++ [allSet]
    allUnsetMap := st.allUnsetMap ++ [allUnset]
    needNull := st.needNull || allUnset
    needFull := st.needFull || allSet }
  if allSet || allUnset then st
  else
    st.printNumbered (.block i) (printBlock table codepointSize radixNum i)

/-- The mixed blocks. -/
def printLevel1 (level1Size : Nat) : Level1 :=
  (List.range level1Size).foldl (printLevel1Step table codepointSize radixNum)
    ⟨0, [], [], false, false, [], []⟩

end

/-- A block all of whose bytes are `byte`, if it is needed. -/
def printShared (need : Bool) (name : TblName) (byte : Byte) (level2Size : Nat)
    (st : Level1) : Level1 :=
  if need then st.printNumbered name (List.replicate level2Size byte)
  else st

/-- The initialiser of entry `i` of the lookup array. -/
def lookupName (st : Level1) (i : Nat) : TblName :=
  if flag st.allSetMap i then .full
  else if flag st.allUnsetMap i then .null
  else .block i

def printRadixTable (table : List Bool) (codepointSize radix : Nat) :
    Except Fault Source :=
  if radix ≥ 31 then throw .signedOverflow
  else
    let radixNum := 1 <<< radix
    let level1Size := divideCeil codepointSize radixNum
    let level2Size := radixNum / 8
    let st := printLevel1 table codepointSize radixNum level1Size
    let st := printShared st.needFull .full 0xff level2Size st
    let st := printShared st.needNull .null 0x00 level2Size st
    pure {
      defines := st.defines
      tbl := st.tbl
      lookup := (List.range level1Size).map (lookupName st)
      size := codepointSize
      radix := radix }

/-- `main`, on a file it could open. -/
def charWidth (file : List (Option Range)) (radix : Nat) :
    Except Fault Source := do
  let codepointSize := findMax file
  let table ← generateFlatTable file codepointSize
  printRadixTable table codepointSize.toNat radix

-- ============================================================ compilation

/-- What the preprocessor puts for a name. -/
def number (defines : List (TblName × Nat)) (name : TblName) : Option Nat :=
  (defines.find? fun d => d.1 = name).map Prod.snd

/-- The table the printed source defines, if all its names are defined:
the lookup array has elements of type `uint8_t`. -/
def Source.compile (source : Source) : Option CodeTable := do
  let numbers ← source.lookup.mapM (number source.defines)
  some {
    lookup := numbers.map UInt8.ofNat
    tbl := source.tbl
    size := source.size
    radix := source.radix }

end Cextras.Unicode
