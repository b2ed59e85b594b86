/-
The UTF-8 walkers (lib/unicode/utf8.c, lib/unicode/utf16.c) and the
lead-byte tables they index, which the build generates
(lib/unicode/codegen/byte_size.c).

A `const uint8_t *` is the list of the bytes from it to the end of the
buffer, next to the `length` argument the functions take; reading past
the buffer is a fault, whatever `length` says. Counts are naturals: they
are bounded by the length of a buffer in memory.
-/
import Cextras.Lib.Machine

namespace Cextras.Unicode

open Lib

/-- `str[i]` -/
def byteAt (str : List Byte) (i : Nat) : Except Fault Byte :=
  match str[i]? with
  | some b => .ok b
  | none => .error .outOfBounds

theorem byteAt_ok {str : List Byte} {i : Nat} {b : Byte}
    (h : str[i]? = some b) : byteAt str i = .ok b := by
  unfold byteAt
  rw [h]

-- ================================================================ tables

/-- The entry `byte_size` prints for index `i`. -/
def byteSizeEntry (utf16Table : Bool) (i : Nat) : Nat :=
  if i &&& 0x80 = 0 then 1
  else if i &&& 0xE0 = 0xC0 then (if utf16Table then 1 else 2)
  else if i &&& 0xF0 = 0xE0 then (if utf16Table then 2 else 3)
  else if i &&& 0xF8 = 0xF0 then (if utf16Table then 2 else 4)
  else 0

/-- `utf8_len_map` -/
def utf8LenMap (b : Byte) : Nat := byteSizeEntry false b.toNat

/-- `utf16_len_map` -/
def utf16LenMap (b : Byte) : Nat := byteSizeEntry true b.toNat

-- =============================================================== walkers

/-- The length of the character at `chr`; 0 when it does not fit. -/
def cxUtf8Csize (chr : List Byte) (length : Nat) : Except Fault Nat := do
  let lead ← byteAt chr 0
  let size := utf8LenMap lead
  if size > length then
    pure 0
  else
    pure size

theorem cxUtf8Csize_cons (b : Byte) (bs : List Byte) (length : Nat) :
    cxUtf8Csize (b :: bs) length
      = .ok (if utf8LenMap b > length then 0 else utf8LenMap b) := by
  change (if utf8LenMap b > length then pure 0 else pure (utf8LenMap b)) = _
  split <;> rfl

def clenLoop (str : List Byte) (length i count : Nat) : Except Fault Int :=
  if _h : i < length then do
    let lead ← byteAt str i
    let charLen := utf8LenMap lead
    if _hz : charLen = 0 then
      pure (-1)
    else
      clenLoop str length (i + charLen) (count + 1)
  else
    pure count
termination_by length - i

/-- The number of characters, by lead bytes alone. -/
def cxUtf8Clen (str : List Byte) (length : Nat) : Except Fault Int :=
  clenLoop str length 0 0

def bidxLoop (str : List Byte) (length charIndex byteIndex i : Nat) :
    Except Fault Int :=
  if _h : byteIndex < length ∧ i < charIndex then do
    let lead ← byteAt str byteIndex
    let charLen := utf8LenMap lead
    if charLen = 0 then
      pure (-1)
    else
      bidxLoop str length charIndex (byteIndex + charLen) (i + 1)
  else if byteIndex > length then
    pure (-1)
  else
    pure byteIndex
termination_by charIndex - i

/-- The byte offset of a character. -/
def cxUtf8Bidx (str : List Byte) (length charIndex : Nat) : Except Fault Int :=
  bidxLoop str length charIndex 0 0

/-- The low six bits of a continuation byte. -/
def contBits (b : Byte) : Nat := b.toNat &&& 0x3F

/-- The code point at `chr`, or -1. -/
def cxUtf8Cp (chr : Option (List Byte)) (length : Nat) : Except Fault Int :=
  match chr with
  | none => pure 0
  | some chr => do
      let charLen ← cxUtf8Csize chr length
      match charLen with
      | 1 => do
          let c0 ← byteAt chr 0
          pure (c0.toNat : Nat)
      | 2 => do
          let c0 ← byteAt chr 0
          let c1 ← byteAt chr 1
          pure ((((c0.toNat &&& 0x1F) <<< 6) ||| contBits c1 : Nat))
      | 3 => do
          let c0 ← byteAt chr 0
          let c1 ← byteAt chr 1
          let c2 ← byteAt chr 2
          pure ((((c0.toNat &&& 0x0F) <<< 12) ||| (contBits c1 <<< 6)
            ||| contBits c2 : Nat))
      | 4 => do
          let c0 ← byteAt chr 0
          let c1 ← byteAt chr 1
          let c2 ← byteAt chr 2
          let c3 ← byteAt chr 3
          pure ((((c0.toNat &&& 0x07) <<< 18) ||| (contBits c1 <<< 12)
            ||| (contBits c2 <<< 6) ||| contBits c3 : Nat))
      | _ => pure (-1)

def utf16LenLoop (str : List Byte) (length i len16 : Nat) : Except Fault Int :=
  if _h : i < length then do
    let lead ← byteAt str i
    let charLen := utf8LenMap lead
    let len16 := len16 + utf16LenMap lead
    if _hz : charLen = 0 then
      pure (-1)
    else
      utf16LenLoop str length (i + charLen) len16
  else
    pure len16
termination_by length - i

/-- The length in UTF-16 code units, by lead bytes alone. -/
def cxUtf816len (str : List Byte) (length : Nat) : Except Fault Int :=
  utf16LenLoop str length 0 0

end Cextras.Unicode
