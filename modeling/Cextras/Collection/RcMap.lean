/-
The reference-counted array (lib/collection/rc_map.c): `size` elements of
`element_size` bytes in one flat block, and an `int` counter for each. An
element is named by its index or by its address.

The counters are list-held (Machine.lean); the element block is flat
memory, since users hold pointers into it. The cleanup callback is the
client's; `C.callback` logs the value it is run on.
-/
import Cextras.Collection.Error
import Cextras.Lib.Machine

namespace Cextras.Collection

open Lib

/-- `INT_MAX` -/
def intMax : Int := 2 ^ 31 - 1

/-- `struct CxRcMap`; null pointers are 0 and none. -/
structure CxRcMap where
  data : Nat
  size : Nat
  elementSize : Nat
  refCount : Option (CArray Int)

/-- `array->ref_count[index]` -/
def refCountAt (array : CxRcMap) (index : Nat) : C Int :=
  match array.refCount with
  | none => C.fail .nullDeref
  | some counts => C.cell counts.cells index

/-- The array with `ref_count[index]` set to `count`. -/
def CxRcMap.setRefCount (array : CxRcMap) (index : Nat) (count : Int) :
    CxRcMap :=
  { array with refCount := array.refCount.map fun counts =>
      { counts with cells := counts.cells.set index count } }

def cxRcMapCleanup (array : CxRcMap) : C (Int × CxRcMap) := do
  match array.refCount with
  | none => pure ()
  | some counts =>
      C.assert (∀ count ∈ counts.cells.take array.size, count = 0)
  C.free array.data
  C.freeArray (array.refCount.map CArray.storage)
  pure (0, { array with data := 0, refCount := none, size := 0 })

/-- `before` is what the struct held, if anything was ever stored in it:
the error paths hand it to the cleanup. -/
def cxRcMapInit (before : Option CxRcMap) (size elementSize : Nat) :
    C (Int × Option CxRcMap) := do
  let data ← C.calloc (size * elementSize)
  if data = 0 then
    match before with
    | none => C.fail .uninitialised
    | some array =>
        let (_, array) ← cxRcMapCleanup { array with data := 0 }
        pure (-cxErrAlloc, some array)
  else
    match ← C.allocArray with
    | none =>
        -- a null `ref_count` keeps the cleanup from reading the rest
        let (_, array) ← cxRcMapCleanup {
          data := data
          size := 0
          elementSize := (before.map CxRcMap.elementSize).getD 0
          refCount := none }
        pure (-cxErrAlloc, some array)
    | some storage =>
        pure (0, some {
          data := data
          size := size
          elementSize := elementSize
          refCount := some ⟨storage, List.replicate size 0⟩ })

/-- The address of an element; null when the offset overflows. -/
def getElement (array : CxRcMap) (index : Nat) : Nat :=
  if index * array.elementSize ≥ 2 ^ 64 then 0
  else array.data + index * array.elementSize

def retainRc (array : CxRcMap) (index : Nat) : C (Int × CxRcMap) := do
  let count ← refCountAt array index
  if count ≥ intMax then
    C.fail .signedOverflow
  else
    C.assert (count + 1 ≥ 1)
    pure (count + 1, array.setRefCount index (count + 1))

def releaseRc (array : CxRcMap) (index : Nat) : C (Int × CxRcMap) := do
  let count ← refCountAt array index
  if count ≤ -intMax - 1 then
    C.fail .signedOverflow
  else
    C.assert (count - 1 ≥ 0)
    pure (count - 1, array.setRefCount index (count - 1))

def cxRcMapIsEmpty (array : CxRcMap) (index : Nat) : C Bool := do
  let count ← refCountAt array index
  pure (decide (count = 0))

/-- Take a reference on an element that is not empty. -/
def cxRcMapRetain (array : CxRcMap) (index : Nat) : C (Nat × CxRcMap) := do
  if (← cxRcMapIsEmpty array index) = false then
    let (_, array) ← retainRc array index
    pure (getElement array index, array)
  else
    pure (0, array)

/-- Store a value, or take a reference on the one already stored. -/
def cxRcMapSet (array : CxRcMap) (index : Nat) (value : List Byte) :
    C (Nat × CxRcMap) := do
  let target := getElement array index
  if target = 0 then
    pure (0, array)
  else if (← cxRcMapIsEmpty array index) = false then
    C.callback value
    cxRcMapRetain array index
  else
    C.writeBytes target (value.take array.elementSize)
    let (_, array) ← retainRc array index
    pure (target, array)

/-- The index of the element at an address: `(element - data) /
element_size` in `size_t`. -/
def elementIndex (array : CxRcMap) (element : Nat) : C Nat :=
  if array.elementSize = 0 then
    C.fail .divisionByZero
  else
    pure ((element + 2 ^ 64 - array.data) % 2 ^ 64 / array.elementSize)

def cxRcMapRetainValue (array : CxRcMap) (element : Nat) : C CxRcMap := do
  if element = 0 then
    pure array
  else
    let index ← elementIndex array element
    let (_, array) ← cxRcMapRetain array index
    pure array

def cxRcMapReleaseIndex (array : CxRcMap) (index : Nat) :
    C (Int × CxRcMap) := do
  let (count, array) ← releaseRc array index
  if count = 0 then
    let value ← C.readBytes (getElement array index) array.elementSize
    C.callback value
    pure (0, array)
  else
    pure (0, array)

def cxRcMapRelease (array : CxRcMap) (element : Nat) : C (Int × CxRcMap) := do
  if element = 0 then
    pure (0, array)
  else
    let index ← elementIndex array element
    cxRcMapReleaseIndex array index

/-- Does the address lie in the element block? -/
def cxRcMapContains (array : CxRcMap) (element : Nat) : Bool :=
  decide (element ≠ 0 ∧ ¬ element < array.data
    ∧ ¬ element ≥ array.data + array.size * array.elementSize % 2 ^ 64)

def cxRcMapSize (array : CxRcMap) : Nat := array.size

end Cextras.Collection
