/-
The LRU cache (lib/collection/lru.c): a ring of the keys touched last,
each of them holding a reference in a backend. A touch writes the key
over the oldest one, which is released first.

The backend is reached through a table of functions and shared with its
users, so it is passed along next to the cache. The ring is list-held
(Machine.lean).
-/
import Cextras.Collection.RcHashMap
import Cextras.Collection.RcRadixTree

namespace Cextras.Collection

open Lib

/-- `EMPTY_MARKER` -/
def emptyMarker : UInt64 := 0xffffffffffffffff

/-- `struct CxLruBackendImpl`; `retain_value` may be missing. -/
structure CxLruBackendImpl (β : Type) where
  retain : β → UInt64 → C (Nat × β)
  retainValue : Option (β → Nat → C β)
  release : β → UInt64 → C (Int × β)

/-- `struct CxLru`, but for the backend pointer. -/
structure CxLru (β : Type) where
  impl : CxLruBackendImpl β
  items : Option (CArray UInt64)
  ringIndex : Nat
  size : Nat

variable {β : Type}

/-- `items[i]` -/
def itemAt (lru : CxLru β) (i : Nat) : C UInt64 :=
  match lru.items with
  | none => C.fail .nullDeref
  | some items => C.cell items.cells i

/-- The cache with `items[i] = key`. -/
def CxLru.setItem (lru : CxLru β) (i : Nat) (key : UInt64) : CxLru β :=
  { lru with items := lru.items.map fun items =>
      { items with cells := items.cells.set i key } }

def cxLruInit (size : Nat) (impl : CxLruBackendImpl β) :
    C (Int × CxLru β) := do
  let lru := { impl := impl, items := none, ringIndex := 0, size := size }
  if size = 0 then
    pure (0, lru)
  else
    match ← C.allocArray with
    | none => pure (-cxErrAlloc, lru)
    | some storage =>
        -- `memset(items, 0xff, ..)`
        pure (0, { lru with
          items := some ⟨storage, List.replicate size emptyMarker⟩ })

/-- Release a key, unless it marks an empty entry. -/
def releaseItem (lru : CxLru β) (backend : β) (key : UInt64) : C β := do
  if key ≠ emptyMarker then
    let (_, backend) ← lru.impl.release backend key
    pure backend
  else
    pure backend

/-- Enter a key into the ring, if it is neither the oldest nor the newest
one there. -/
def tryTouch (lru : CxLru β) (backend : β) (key : UInt64) :
    C (Bool × CxLru β × β) := do
  if lru.size = 0 then
    pure (false, lru, backend)
  else
    let lastKey ← itemAt lru lru.ringIndex
    let ringIndex := (lru.ringIndex + 1) % lru.size
    let oldKey ← itemAt lru ringIndex
    if oldKey = key ∨ lastKey = key then
      pure (false, lru, backend)
    else
      let backend ← releaseItem lru backend oldKey
      pure (true, { lru.setItem ringIndex key with ringIndex := ringIndex },
        backend)

def cxLruTouch (lru : CxLru β) (backend : β) (key : UInt64) :
    C (Int × CxLru β × β) := do
  let (entered, lru, backend) ← tryTouch lru backend key
  if entered then
    let (_, backend) ← lru.impl.retain backend key
    pure (0, lru, backend)
  else
    pure (0, lru, backend)

def cxLruTouchValue (lru : CxLru β) (backend : β) (key : UInt64)
    (value : Nat) : C (Int × CxLru β × β) := do
  let (entered, lru, backend) ← tryTouch lru backend key
  if entered then
    match lru.impl.retainValue with
    | none => C.fail .nullDeref
    | some retainValue =>
        let backend ← retainValue backend value
        pure (0, lru, backend)
  else
    pure (0, lru, backend)

/-- `for (i = 0; i < size; i++)`: release every entry from `i` on. -/
def releaseItems (lru : CxLru β) (backend : β) (i : Nat) : C β := do
  if _h : i < lru.size then
    let key ← itemAt lru i
    let backend ← releaseItem lru backend key
    releaseItems lru backend (i + 1)
  else
    pure backend
termination_by lru.size - i

def cxLruCleanup (lru : CxLru β) (backend : β) : C (Int × CxLru β × β) := do
  let backend ← releaseItems lru backend 0
  C.freeArray (lru.items.map CArray.storage)
  pure (0, { lru with size := 0, items := none }, backend)

-- ============================================================== backends

/-- `lru_rc_map_retain_value`; there is no check for null. -/
def lruRcMapRetainValue (backend : CxRcMap) (value : Nat) : C CxRcMap := do
  let index ← elementIndex backend value
  let (_, backend) ← cxRcMapRetain backend index
  pure backend

/-- `cx_lru_rc_map` -/
def cxLruRcMap : CxLruBackendImpl CxRcMap where
  retain := fun backend index => cxRcMapRetain backend index.toNat
  retainValue := some lruRcMapRetainValue
  release := fun backend index => cxRcMapReleaseIndex backend index.toNat

/-- `cx_lru_rc_hash_map` -/
def cxLruRcHashMap : CxLruBackendImpl CxRcHashMap where
  retain := cxRcHashMapRetain
  retainValue := none
  release := cxRcHashMapReleaseKey

/-- `cx_lru_rc_radix_tree` -/
def cxLruRcRadixTree : CxLruBackendImpl CxRcRadixTree where
  retain := fun backend index => do
    let value ← cxRcRadixTreeRetain backend index
    pure (value, backend)
  retainValue := some fun backend value => do
    cxRcRadixTreeRetainValue backend value
    pure backend
  release := cxRcRadixTreeRelease

end Cextras.Collection
