/-
Display widths (lib/unicode/unicode-width.c): two-level bit tables over
code points, the column count of a string, and the way back from a
column to a byte offset. The tables are whatever the build generated;
they come in as data.
-/
import Cextras.Unicode.Utf8

namespace Cextras.Unicode

open Lib

/-- One generated table: first-level `lookup`, second-level bit blocks
`tbl` of `2 ^ radix` bits, for code points below `size`. -/
structure CodeTable where
  lookup : List Byte
  tbl : List Byte
  size : Nat
  radix : Nat

/-- The two tables `cx_cp_width` consults. -/
structure WidthTables where
  doubleWidth : CodeTable
  zeroWidth : CodeTable

/-- Is the bit of `cp` set? `index * (1 << radix)` is `int` arithmetic. -/
def tableLookup (t : CodeTable) (cp : Nat) : Except Fault Bool :=
  if cp ≥ t.size then
    pure false
  else if t.radix ≥ 31 then
    throw .signedOverflow
  else do
    let radixMask := (1 <<< t.radix) - 1
    let index ← byteAt t.lookup (cp >>> t.radix)
    if index.toNat * (1 <<< t.radix) ≥ 2 ^ 31 then
      throw .signedOverflow
    else
      let field := index.toNat * (1 <<< t.radix) / 8
      let byte ← byteAt t.tbl (field + (cp &&& radixMask) / 8)
      let bit := byte.toNat &&& (1 <<< (cp % 8))
      pure (bit ≠ 0)

/-- Columns a code point takes. -/
def cxCpWidth (w : WidthTables) (cp : Nat) : Except Fault Nat := do
  let wide ← tableLookup w.doubleWidth cp
  let zero ← tableLookup w.zeroWidth cp
  pure (wide.toNat + (!zero).toNat)

/-- A character of length 0 has no code point: what the loops over
characters terminate on. -/
theorem cxUtf8Cp_zero {chr : List Byte} {cp : Int}
    (h : cxUtf8Cp (some chr) 0 = .ok cp) : cp < 0 := by
  cases chr with
  | nil => cases h
  | cons b bs =>
      have hsize : cxUtf8Csize (b :: bs) 0 = .ok 0 := by
        rw [cxUtf8Csize_cons]
        split
        · rfl
        · next hpos => rw [Nat.eq_zero_of_not_pos hpos]
      unfold cxUtf8Cp at h
      simp only [hsize] at h
      cases h
      decide

def colsLoop (w : WidthTables) (str : List Byte) (length i columns : Nat) :
    Except Fault Int :=
  if _h : i < length then
    match cxUtf8Csize (str.drop i) (length - i) with
    | .error e => .error e
    | .ok charSize =>
        match _hcp : cxUtf8Cp (some (str.drop i)) charSize with
        | .error e => .error e
        | .ok cp =>
            if _hneg : cp < 0 then
              pure (-1)
            else do
              let width ← cxCpWidth w cp.toNat
              colsLoop w str length (i + charSize) (columns + width)
  else
    pure columns
termination_by length - i
decreasing_by
  have hpos : charSize ≠ 0 := by
    rintro rfl
    exact _hneg (cxUtf8Cp_zero _hcp)
  omega

/-- The number of columns of a string, or -1. -/
def cxUtf8Cols (w : WidthTables) (str : List Byte) (length : Nat) :
    Except Fault Int :=
  colsLoop w str length 0 0

/-- At a tab, `column` becomes the tab stop after it; at any other
character it loses the character's columns. -/
def colidxLoop (w : WidthTables) (str : List Byte)
    (length column tabSize byteIndex : Nat) : Except Fault Int :=
  if _h : byteIndex < length then do
    let lead ← byteAt str byteIndex
    if lead = 0x09 then
      if tabSize = 0 then
        throw .divisionByZero
      else
        colidxLoop w str length
          ((column / tabSize + 1) * tabSize % 2 ^ 64) tabSize (byteIndex + 1)
    else
      match cxUtf8Csize (str.drop byteIndex) (length - byteIndex) with
      | .error e => .error e
      | .ok charSize =>
          match _hcp : cxUtf8Cp (some (str.drop byteIndex)) charSize with
          | .error e => .error e
          | .ok cp =>
              if _hneg : cp < 0 then
                pure (-1)
              else do
                let charWidth ← cxCpWidth w cp.toNat
                if column < charWidth then
                  pure byteIndex
                else
                  colidxLoop w str length (column - charWidth) tabSize
                    (byteIndex + charSize)
  else
    pure byteIndex
termination_by length - byteIndex
decreasing_by
  · omega
  · have hpos : charSize ≠ 0 := by
      rintro rfl
      exact _hneg (cxUtf8Cp_zero _hcp)
    omega

/-- The byte offset of the character at a column, or -1. -/
def cxUtf8Colidx (w : WidthTables) (str : List Byte)
    (length column tabSize : Nat) : Except Fault Int :=
  colidxLoop w str length column tabSize 0

end Cextras.Unicode
