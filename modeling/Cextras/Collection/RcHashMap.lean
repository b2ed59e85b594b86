/-
The reference-counted hash map (lib/collection/rc_hash_map.c): a growing
list of inner maps, each a reference-counted array with a key word for
every slot. A key is probed at up to five neighbouring indices, at each
of them through all inner maps; key words are never cleared.

The inner-map array and the key arrays are list-held (Machine.lean). A
cell of the inner-map array nothing was stored in yet is `none`, and so
is the `values` member while only `keys` was stored.
-/
import Cextras.Collection.RcMap

namespace Cextras.Collection

open Lib

/-- `COLLISION_RESERVE_BITS` -/
def collisionReserveBits : UInt64 := 2

/-- `MAX_COLLISIONS` -/
def maxCollisions : Nat := 5

/-- `sizeof(struct CxRcHashMapInner)` -/
def innerMapSize : Nat := 56

/-- `struct CxRcHashMapInner` -/
structure CxRcHashMapInner where
  keys : Option (CArray UInt64)
  values : Option CxRcMap

/-- `struct CxRcHashMap` -/
structure CxRcHashMap where
  hashMaps : Option (CArray (Option CxRcHashMapInner))
  hashMapCount : Nat
  mapSize : Nat
  elementSize : Nat

def djb2Hash (data : List Byte) : UInt64 :=
  data.foldl (fun hash p => ((hash <<< 5) + hash) + p.toUInt64) 5381

/-- The first index a key is probed at, before the `% size`. -/
def keyHash (key : UInt64) : Nat :=
  (djb2Hash (leBytes 8 key.toNat) <<< collisionReserveBits).toNat

def keyToIndex (key : UInt64) (size : Nat) : C Nat :=
  if size = 0 then C.fail .divisionByZero else pure (keyHash key % size)

-- ============================================================ inner maps

/-- `hash_maps[j]` -/
def innerAt (map : CxRcHashMap) (j : Nat) : C CxRcHashMapInner := do
  match map.hashMaps with
  | none => C.fail .nullDeref
  | some maps =>
      match ← C.cell maps.cells j with
      | none => C.fail .uninitialised
      | some inner => pure inner

/-- `hash_maps[j].values` -/
def valuesAt (map : CxRcHashMap) (j : Nat) : C CxRcMap := do
  let inner ← innerAt map j
  match inner.values with
  | none => C.fail .uninitialised
  | some values => pure values

/-- `hash_maps[j].keys[index]` -/
def keyAt (map : CxRcHashMap) (j index : Nat) : C UInt64 := do
  let inner ← innerAt map j
  match inner.keys with
  | none => C.fail .nullDeref
  | some keys => C.cell keys.cells index

/-- The map with `hash_maps[j]` replaced. -/
def CxRcHashMap.setInner (map : CxRcHashMap) (j : Nat)
    (inner : CxRcHashMapInner) : CxRcHashMap :=
  { map with hashMaps := map.hashMaps.map fun maps =>
      { maps with cells := maps.cells.set j (some inner) } }

/-- The map with `hash_maps[j].values` replaced. -/
def setValues (map : CxRcHashMap) (j : Nat) (values : CxRcMap) :
    C CxRcHashMap := do
  let inner ← innerAt map j
  pure (map.setInner j { inner with values := some values })

/-- The map with `hash_maps[j].keys[index] = key`. -/
def setKey (map : CxRcHashMap) (j index : Nat) (key : UInt64) :
    C CxRcHashMap := do
  let _ ← keyAt map j index
  let inner ← innerAt map j
  pure (map.setInner j { inner with keys := inner.keys.map fun keys =>
    { keys with cells := keys.cells.set index key } })

/-- Append an inner map. The count moves before any allocation, and the
reallocated array is used without a check. -/
def extendHashMap (map : CxRcHashMap) : C (Int × CxRcHashMap) := do
  let lastIndex := map.hashMapCount
  if map.hashMapCount + 1 ≥ 2 ^ 64 then
    pure (-cxErrIntegerOverflow, map)
  else
    let count := map.hashMapCount + 1
    let map := { map with hashMapCount := count }
    if count * innerMapSize ≥ 2 ^ 64 then
      pure (-cxErrIntegerOverflow, map)
    else
      match ← C.reallocArray (map.hashMaps.map CArray.storage) with
      | none => C.fail .nullDeref
      | some storage =>
          let maps := CArray.resized map.hashMaps storage count none
          let map := { map with hashMaps := some maps }
          match ← C.allocArray with
          | none =>
              pure (-cxErrAlloc,
                map.setInner lastIndex { keys := none, values := none })
          | some storage =>
              let keys := ⟨storage, List.replicate map.mapSize 0⟩
              let (rv, values) ← cxRcMapInit none map.mapSize map.elementSize
              pure (rv,
                map.setInner lastIndex { keys := some keys, values := values })

def cxRcHashMapInit (size elementSize : Nat) : C (Int × CxRcHashMap) :=
  extendHashMap {
    hashMaps := none
    hashMapCount := 0
    mapSize := size
    elementSize := elementSize }

-- =============================================================== probing

/-- `for (j = 0; j < hash_map_count; j++)`: the first inner map whose
slot at `index` passes the test. -/
def probeMaps (map : CxRcHashMap) (test : Nat → Nat → C Bool)
    (index j : Nat) : C (Option Nat) := do
  if _h : j < map.hashMapCount then
    if ← test j index then
      pure (some j)
    else
      probeMaps map test index (j + 1)
  else
    pure none
termination_by map.hashMapCount - j

/-- The probe loop over indices, `limit` turns of it: the first slot that
passes the test. -/
def probeLoop (map : CxRcHashMap) (test : Nat → Nat → C Bool)
    (size limit i index : Nat) : C (Option (Nat × Nat)) := do
  if _h : i < limit then
    let index := index % size
    match ← probeMaps map test index 0 with
    | some j => pure (some (j, index))
    | none => probeLoop map test size limit (i + 1) (index + 1)
  else
    pure none
termination_by limit - i

/-- `i < size && i < MAX_COLLISIONS` -/
def probeLimit (size : Nat) : Nat := min size maxCollisions

/-- `keys[index] == key` -/
def keyMatches (map : CxRcHashMap) (key : UInt64) (j index : Nat) : C Bool := do
  let word ← keyAt map j index
  pure (decide (word = key))

/-- `cx_rc_map_is_empty(values, index) || keys[index] == key` -/
def emptyOrMatches (map : CxRcHashMap) (key : UInt64) (j index : Nat) :
    C Bool := do
  let values ← valuesAt map j
  if ← cxRcMapIsEmpty values index then
    pure true
  else
    keyMatches map key j index

/-- Write the key of a slot and set its value. -/
def putAt (map : CxRcHashMap) (j index : Nat) (key : UInt64)
    (data : List Byte) : C (Nat × CxRcHashMap) := do
  let map ← setKey map j index key
  let values ← valuesAt map j
  let (element, values) ← cxRcMapSet values index data
  let map ← setValues map j values
  pure (element, map)

/-- Put a value at the first slot that is empty or has the key. -/
def cxRcHashMapPut (map : CxRcHashMap) (key : UInt64) (data : List Byte) :
    C (Nat × CxRcHashMap) := do
  let values ← valuesAt map 0
  let size := cxRcMapSize values
  let origIndex ← keyToIndex key size
  match ← probeLoop map (emptyOrMatches map key) size (probeLimit size) 0
      origIndex with
  | some (j, index) => putAt map j index key data
  | none =>
      let (rv, map) ← extendHashMap map
      if rv < 0 then
        pure (0, map)
      else
        putAt map (map.hashMapCount - 1) origIndex key data

def cxRcHashMapSize (map : CxRcHashMap) : C Nat := do
  let values ← valuesAt map 0
  pure (cxRcMapSize values * map.hashMapCount % 2 ^ 64)

/-- Retain at the first slot that has the key, live or not. -/
def cxRcHashMapRetain (map : CxRcHashMap) (key : UInt64) :
    C (Nat × CxRcHashMap) := do
  let values ← valuesAt map 0
  let size := cxRcMapSize values
  let index ← keyToIndex key size
  match ← probeLoop map (keyMatches map key) size (probeLimit size) 0 index with
  | some (j, index) =>
      let values ← valuesAt map j
      let (element, values) ← cxRcMapRetain values index
      let map ← setValues map j values
      pure (element, map)
  | none => pure (0, map)

/-- `for (i = 0; i < hash_map_count; i++)`: the inner map that owns an
address. -/
def ownerLoop (map : CxRcHashMap) (element i : Nat) : C (Option Nat) := do
  if _h : i < map.hashMapCount then
    let values ← valuesAt map i
    if cxRcMapContains values element then
      pure (some i)
    else
      ownerLoop map element (i + 1)
  else
    pure none
termination_by map.hashMapCount - i

def cxRcHashMapRelease (map : CxRcHashMap) (element : Nat) :
    C (Int × CxRcHashMap) := do
  match ← ownerLoop map element 0 with
  | some i =>
      let values ← valuesAt map i
      let (rv, values) ← cxRcMapRelease values element
      let map ← setValues map i values
      pure (rv, map)
  | none => pure (-cxErrNotFound, map)

/-- Release at the first slot that has the key, live or not; the probe
covers every index. -/
def cxRcHashMapReleaseKey (map : CxRcHashMap) (key : UInt64) :
    C (Int × CxRcHashMap) := do
  let values ← valuesAt map 0
  let size := cxRcMapSize values
  let index ← keyToIndex key size
  match ← probeLoop map (keyMatches map key) size size 0 index with
  | some (j, index) =>
      let values ← valuesAt map j
      let (rv, values) ← cxRcMapReleaseIndex values index
      let map ← setValues map j values
      pure (rv, map)
  | none => pure (0, map)

/-- `for (i = 0; i < hash_map_count; i++)` of the cleanup, from `i` on. -/
def cleanupLoop (map : CxRcHashMap) (i : Nat) : C Unit := do
  if _h : i < map.hashMapCount then
    let inner ← innerAt map i
    C.freeArray (inner.keys.map CArray.storage)
    let values ← valuesAt map i
    let _ ← cxRcMapCleanup values
    cleanupLoop map (i + 1)
  else
    pure ()
termination_by map.hashMapCount - i

/-- Free the inner maps and the array they are in; the map is not to be
used afterwards. -/
def cxRcHashMapCleanup (map : CxRcHashMap) : C Int := do
  cleanupLoop map 0
  C.freeArray (map.hashMaps.map CArray.storage)
  pure 0

end Cextras.Collection
