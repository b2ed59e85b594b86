/-
The growable byte buffer (lib/collection/buffer.c): a block that is
reallocated when it is full, to the next power of two or to the exact
size asked for.
-/
import Cextras.Collection.Error
import Cextras.Lib.Machine

namespace Cextras.Collection

open Lib

/-- `struct CxBuffer` -/
structure CxBuffer where
  data : Nat
  capacity : Nat
  size : Nat
deriving DecidableEq

def cxBufferInit : Int × CxBuffer := (0, ⟨0, 0, 0⟩)

def resizeBufferExact (buffer : CxBuffer) (newCapacity : Nat) :
    C (Int × CxBuffer) := do
  let newData ← C.realloc buffer.data newCapacity
  if newData = 0 then
    pure (-cxErrAlloc, buffer)
  else
    pure (0, { buffer with data := newData, capacity := newCapacity })

/-- `__builtin_clzll`, of any word but 0. -/
def clzll (x : Nat) : Nat := 63 - x.log2

/-- The return code and the new `*val`. -/
def roundToNextPow2 (val : Nat) : Int × Nat :=
  if val ≤ 1 then (0, 1)
  else
    let leadingZeros := clzll (val - 1)
    if leadingZeros = 0 then (-cxErrIntegerOverflow, val)
    else (0, 1 <<< (64 - leadingZeros))

/-- The two `cx_buffer_add_capacity` functions, which differ in what they
round the capacity to. The pointer is what `*additional_buffer` is set to,
if it is. -/
def addCapacityWith (round : Nat → Int × Nat) (buffer : CxBuffer)
    (additionalSize : Nat) : C (Int × Option Nat × CxBuffer) := do
  let bufferSize := buffer.size
  if bufferSize + additionalSize ≥ 2 ^ 64 then
    pure (-cxErrIntegerOverflow, none, buffer)
  else
    let newCapacity := bufferSize + additionalSize
    if newCapacity > buffer.capacity then
      let (rv, newCapacity) := round newCapacity
      if rv < 0 then
        pure (rv, none, buffer)
      else
        let (rv, buffer) ← resizeBufferExact buffer newCapacity
        if rv < 0 then
          pure (rv, none, buffer)
        else
          pure (0, some (buffer.data + bufferSize), buffer)
    else
      pure (0, some (buffer.data + bufferSize), buffer)

def cxBufferAddCapacity : CxBuffer → Nat → C (Int × Option Nat × CxBuffer) :=
  addCapacityWith roundToNextPow2

def cxBufferAddCapacityExact :
    CxBuffer → Nat → C (Int × Option Nat × CxBuffer) :=
  addCapacityWith fun capacity => (0, capacity)

def cxBufferAddSize (buffer : CxBuffer) (additionalSize : Nat) :
    Int × CxBuffer :=
  if buffer.size + additionalSize ≥ 2 ^ 64 then
    (-cxErrIntegerOverflow, buffer)
  else
    (0, { buffer with size := buffer.size + additionalSize })

def cxBufferAppend (buffer : CxBuffer) (source : List Byte) :
    C (Int × CxBuffer) := do
  if source.length = 0 then
    pure (0, buffer)
  else
    let (rv, additional, buffer) ← cxBufferAddCapacity buffer source.length
    if rv < 0 then
      pure (rv, buffer)
    else
      match additional with
      | none => C.fail .uninitialised
      | some target =>
          C.writeBytes target source
          pure (cxBufferAddSize buffer source.length)

def cxBufferCleanup (buffer : CxBuffer) : C (Int × CxBuffer) := do
  C.free buffer.data
  pure (0, ⟨0, 0, 0⟩)

/-- The return code, the buffer and the source. -/
def cxBufferMove (buffer source : CxBuffer) :
    C (Int × CxBuffer × CxBuffer) := do
  let _ ← cxBufferCleanup buffer
  pure (0, source, ⟨0, 0, 0⟩)

def cxBufferDrain (buffer : CxBuffer) : CxBuffer := { buffer with size := 0 }

def cxBufferData (buffer : CxBuffer) : Nat := buffer.data

def cxBufferSize (buffer : CxBuffer) : Nat := buffer.size

/-- The data, and the buffer that gave it away. -/
def cxBufferUnwrap (buffer : CxBuffer) : C (Nat × CxBuffer) := do
  let data := buffer.data
  let (_, buffer) ← cxBufferCleanup { buffer with data := 0 }
  pure (data, buffer)

end Cextras.Collection
