/-
The preallocating element pool (lib/memory/prealloc_pool.c): a bump
allocator over chunks that double in size, in front of a reuse list
threaded through the recycled elements themselves.

The chunk table `pools` is list-held (Machine.lean): no flat pointer
reaches into it. Everything else is as in the source, the `next` word of
a recycled element included, which overwrites the element's first eight
bytes in flat memory.
-/
import Cextras.Lib.Machine

namespace Cextras.Memory

open Lib

/-- `struct CxPreallocPool`. A cell of `pools` nothing was stored in yet
is `none`. -/
structure CxPreallocPool where
  pools : Option (CArray (Option Nat))
  chunkSize : Nat
  elementSize : Nat
  nextOffset : Nat
  poolCount : Nat
  currentPool : Nat
  reusePool : Nat

/-- `sizeof(union ReuseList)` -/
def reuseListSize : Nat := 8

/-- Unlink the first recycled element and clear its link word. -/
def reuseNode (pool : CxPreallocPool) : C (Nat × CxPreallocPool) := do
  let element := pool.reusePool
  let next ← C.load64 element
  C.zeroBytes element reuseListSize
  pure (element, { pool with reusePool := next })

/-- Append a chunk twice as large as the last one. The counters move
before either allocation is known to have been granted. -/
def addChunk (pool : CxPreallocPool) : C (Int × CxPreallocPool) := do
  let poolCount := pool.poolCount + 1
  let chunkSize := pool.chunkSize * 2 % 2 ^ 64
  let pool := { pool with poolCount := poolCount, chunkSize := chunkSize }
  match ← C.reallocArray (pool.pools.map CArray.storage) with
  | none => pure (-1, { pool with pools := none })
  | some storage =>
      let table := CArray.resized pool.pools storage poolCount none
      let pool := { pool with pools := some table }
      let newChunk ← C.calloc chunkSize
      if newChunk = 0 then
        pure (-1, pool)
      else
        let table := { table with
          cells := table.cells.set (poolCount - 1) (some newChunk) }
        pure (0, { pool with
          currentPool := newChunk, pools := some table, nextOffset := 0 })

def cxPreallocPoolInit2 (elementCount elementSize : Nat) :
    C CxPreallocPool := do
  C.assert (elementSize ≥ reuseListSize)
  C.assert (elementCount > 0)
  pure {
    pools := none
    chunkSize := elementCount * elementSize % 2 ^ 64
    elementSize := elementSize
    nextOffset := 0
    poolCount := 0
    currentPool := 0
    reusePool := 0 }

def cxPreallocPoolInit (elementSize : Nat) : C CxPreallocPool :=
  cxPreallocPoolInit2 8 elementSize

/-- The next element off the current chunk. -/
def bumpElement (pool : CxPreallocPool) : Nat × CxPreallocPool :=
  (pool.currentPool + pool.nextOffset,
    { pool with nextOffset := pool.nextOffset + pool.elementSize })

/-- An element of `elementSize` bytes, or null. -/
def cxPreallocPoolGet (pool : CxPreallocPool) : C (Nat × CxPreallocPool) := do
  if pool.reusePool ≠ 0 then
    reuseNode pool
  else if pool.pools.isNone
      ∨ (pool.nextOffset + pool.elementSize) % 2 ^ 64 > pool.chunkSize then
    let (rv, pool) ← addChunk pool
    if rv < 0 then
      pure (0, pool)
    else
      pure (bumpElement pool)
  else
    pure (bumpElement pool)

/-- Give an element back: its first word becomes the reuse link. -/
def cxPreallocPoolRecycle (pool : CxPreallocPool) (element : Nat) :
    C CxPreallocPool := do
  if element ≠ 0 then
    C.store64 element pool.reusePool
    pure { pool with reusePool := element }
  else
    pure pool

/-- `cx_prealloc_pool_get` of the disabled implementation: `calloc(1,
element_size)`. -/
def cxPreallocPoolGetDisabled (pool : CxPreallocPool) : C Nat :=
  C.calloc pool.elementSize

/-- `pools[i]` -/
def poolAt (pool : CxPreallocPool) (i : Nat) : C Nat := do
  match pool.pools with
  | none => C.fail .nullDeref
  | some table =>
      match ← C.cell table.cells i with
      | none => C.fail .uninitialised
      | some chunk => pure chunk

/-- `for (i = 0; i < pool_count; i++)`: free every chunk from `i` on. -/
def freeChunks (pool : CxPreallocPool) (i : Nat) : C Unit := do
  if _h : i < pool.poolCount then
    let chunk ← poolAt pool i
    C.free chunk
    freeChunks pool (i + 1)
  else
    pure ()
termination_by pool.poolCount - i

/-- The struct is left as it is. -/
def cxPreallocPoolCleanup (pool : CxPreallocPool) : C Unit := do
  freeChunks pool 0
  C.freeArray (pool.pools.map CArray.storage)

end Cextras.Memory
