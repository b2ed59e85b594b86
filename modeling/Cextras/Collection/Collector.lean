/-
Collecting the values an iterator yields (lib/collection/collector.c) in
one block: a table of pointers that ends with a null word, and behind it
the values, each with a zero byte after it. The table is filled with
offsets into a second buffer while both grow; at the end the buffers are
joined and the offsets become addresses.
-/
import Cextras.Collection.Buffer

namespace Cextras.Collection

open Lib

/-- What a call of the iterator returns, and the value it sets, if it sets
one. -/
structure NextResult where
  rv : Int
  value : Option (List Byte)

def handleNext (next : NextResult) (list listValues : CxBuffer) :
    C (Int × CxBuffer × CxBuffer) := do
  if next.rv < 0 then
    pure (next.rv, list, listValues)
  else
    match next.value with
    | none => pure (0, list, listValues)
    | some value =>
        let offset := cxBufferSize listValues
        let (rv, list) ← cxBufferAppend list (leBytes 8 offset)
        if rv < 0 then
          pure (rv, list, listValues)
        else
          let (rv, listValues) ← cxBufferAppend listValues value
          if rv < 0 then
            pure (rv, list, listValues)
          else
            let (rv, listValues) ← cxBufferAppend listValues [0]
            if rv < 0 then
              pure (rv, list, listValues)
            else
              pure (1, list, listValues)

/-- The `for (;;)` of `cx_collect`, for at most so many rounds: the last
return code, the number of elements and the buffers. -/
def collectLoop (next : Nat → NextResult) :
    Nat → Nat → CxBuffer → CxBuffer →
    C (Option (Int × Nat × CxBuffer × CxBuffer))
  | 0, _, _, _ => pure none
  | rounds + 1, elements, list, listValues => do
      let (rv, list, listValues) ← handleNext (next elements) list listValues
      if rv > 0 then
        collectLoop next rounds (elements + 1) list listValues
      else
        pure (some (rv, elements, list, listValues))

/-- The loop that turns offsets into addresses, from `result[i]` on. -/
def rebase (result baseSize elements i : Nat) : C Unit := do
  if _h : i < elements then
    let offset ← C.load64 (result + 8 * i)
    C.store64 (result + 8 * i) ((offset + (baseSize + result)) % 2 ^ 64)
    rebase result baseSize elements (i + 1)
  else
    pure ()
termination_by elements - i

/-- `memcpy` reads its source only if there is something to copy. -/
def cxBufferBytes (buffer : CxBuffer) : C (List Byte) := do
  if cxBufferSize buffer = 0 then pure []
  else C.readBytes (cxBufferData buffer) (cxBufferSize buffer)

/-- What `cx_collect` does once the iterator has ended: the return code,
the new `*target` and the buffers. -/
def joinBuffers (target elements : Nat) (list listValues : CxBuffer) :
    C (Int × Nat × CxBuffer × CxBuffer) := do
  let (rv, list) ← cxBufferAppend list (leBytes 8 0)
  if rv < 0 then
    pure (rv, target, list, listValues)
  else
    let baseSize := cxBufferSize list
    let values ← cxBufferBytes listValues
    let (rv, list) ← cxBufferAppend list values
    if rv < 0 then
      pure (rv, target, list, listValues)
    else
      let (result, list) ← cxBufferUnwrap list
      rebase result baseSize elements 0
      pure (rv, result, list, listValues)

/-- The `out` label. -/
def collectOut (rv : Int) (target : Nat) (list listValues : CxBuffer) :
    C (Option (Int × Nat)) := do
  let _ ← cxBufferCleanup list
  let _ ← cxBufferCleanup listValues
  pure (some (rv, target))

/-- The return code and the new `*target`, if the iterator ends or fails, or
a buffer does, within so many rounds. -/
def cxCollect (target : Nat) (next : Nat → NextResult) (rounds : Nat) :
    C (Option (Int × Nat)) := do
  let (rv, list) := cxBufferInit
  if rv < 0 then
    collectOut rv target list ⟨0, 0, 0⟩
  else
    let (rv, listValues) := cxBufferInit
    if rv < 0 then
      collectOut rv target list listValues
    else
      match ← collectLoop next rounds 0 list listValues with
      | none => pure none
      | some (rv, elements, list, listValues) =>
          if rv < 0 then
            collectOut rv target list listValues
          else
            let (rv, target, list, listValues) ←
              joinBuffers target elements list listValues
            collectOut rv target list listValues

end Cextras.Collection
