/-
The radix tree (lib/collection/radix_tree.c): a 256-way trie over 64-bit
keys that grows at the root. `capacity` is the largest key the current
height reaches; a key is read most significant byte first, which the
code arranges by reversing its bytes up front (`prepareKey`) and then
consuming them from the low end.

Branches and leaves live in flat memory, in two pools: child `i` of the
branch at `b` is the word at `b + 8 * i`, and the nodes below the last
level are the leaves themselves. A null node pointer is 0.
-/
import Cextras.Memory.PreallocPool

namespace Cextras.Collection

open Lib Memory

/-- `CX_RADIX_SIZE` -/
def radixSize : Nat := 256

/-- `CX_RADIX_MASK` -/
def radixMask : UInt64 := 0xff

/-- `sizeof(struct CxRadixBranch)` -/
def radixBranchSize : Nat := 8 * radixSize

/-- `struct CxRadixTree` -/
structure CxRadixTree where
  capacity : UInt64
  branchPool : CxPreallocPool
  leafPool : CxPreallocPool
  root : Nat

/-- Dropping a byte of a nonzero word makes it smaller: what every loop
below terminates on. -/
theorem shift_lt {c : UInt64} (h : c ≠ 0) : (c >>> 8).toNat < c.toNat := by
  have hpos : c.toNat ≠ 0 := fun h0 => h (UInt64.toNat_inj.mp (by simpa using h0))
  rw [UInt64.toNat_shiftRight]
  simp only [UInt64.reduceToNat, Nat.reduceMod, Nat.shiftRight_eq_div_pow]
  omega

/-- The byte the loops index children with. -/
def radixIndex (key : UInt64) : Nat := (key &&& radixMask).toNat

def prepareKeyLoop (capacity key result : UInt64) : UInt64 :=
  if _h : capacity ≠ 0 then
    prepareKeyLoop (capacity >>> 8) (key >>> 8)
      ((result <<< 8) ||| (key &&& radixMask))
  else result
termination_by capacity.toNat
decreasing_by exact shift_lt _h

/-- Reverse as many bytes of the key as the tree has levels. -/
def prepareKey (tree : CxRadixTree) (key : UInt64) : UInt64 :=
  prepareKeyLoop tree.capacity key 0

/-- The capacity one level up. -/
def growCapacity (capacity : UInt64) : UInt64 := (capacity <<< 8) ||| radixMask

/-- `while (tree->capacity < key)`. Each turn shifts eight one bits into
the capacity, so eight turns suffice. -/
def resizeLoop : Nat → CxRadixTree → UInt64 → C (Int × CxRadixTree)
  | 0, tree, _ => pure (0, tree)
  | turns + 1, tree, key =>
      if tree.capacity < key then do
        let oldRoot := tree.root
        let tree := { tree with capacity := growCapacity tree.capacity }
        let (newRoot, branchPool) ← cxPreallocPoolGet tree.branchPool
        let tree := { tree with branchPool := branchPool }
        if newRoot = 0 then
          pure (-1, tree)
        else do
          C.store64 (newRoot + 8 * 0) oldRoot
          resizeLoop turns { tree with root := newRoot } key
      else
        pure (0, tree)

/-- Grow the tree until `key` fits. -/
def resize (tree : CxRadixTree) (key : UInt64) : C (Int × CxRadixTree) :=
  resizeLoop 8 tree key

def cxRadixTreeInit (elementSize : Nat) : C CxRadixTree := do
  let branchPool ← cxPreallocPoolInit radixBranchSize
  let leafPool ← cxPreallocPoolInit elementSize
  pure { capacity := 0, branchPool := branchPool, leafPool := leafPool, root := 0 }

def getLoop (node : Nat) (capacity key : UInt64) : C Nat :=
  if _h : capacity ≠ 0 ∧ node ≠ 0 then do
    let child ← C.load64 (node + 8 * radixIndex key)
    getLoop child (capacity >>> 8) (key >>> 8)
  else
    pure node
termination_by capacity.toNat
decreasing_by exact shift_lt _h.1

/-- The leaf stored under `key`, or null. -/
def cxRadixTreeGet (tree : CxRadixTree) (key : UInt64) : C Nat :=
  if key > tree.capacity then
    pure 0
  else
    getLoop tree.root tree.capacity (prepareKey tree key)

/-- Fill child `index` of `branch` with a fresh leaf on the last level,
with a fresh branch where one is missing above it. -/
def fillChild (tree : CxRadixTree) (branch index : Nat) (last occupied : Bool) :
    C CxRadixTree := do
  if last then
    let (leaf, leafPool) ← cxPreallocPoolGet tree.leafPool
    C.store64 (branch + 8 * index) leaf
    pure { tree with leafPool := leafPool }
  else if occupied = false then
    let (child, branchPool) ← cxPreallocPoolGet tree.branchPool
    C.store64 (branch + 8 * index) child
    pure { tree with branchPool := branchPool }
  else
    pure tree

/-- The descent of `cx_radix_tree_new_leaf`. The last level's child is
replaced even when it is occupied; `occupied` only decides what the
caller is told. -/
def newLeafLoop (tree : CxRadixTree) (node : Nat) (capacity key : UInt64)
    (occupied : Bool) : C (Nat × Bool × CxRadixTree) :=
  if _h : capacity ≠ 0 then do
    let index := radixIndex key
    C.nonNull node
    let child ← C.load64 (node + 8 * index)
    let occupied := decide (child ≠ 0)
    let tree ← fillChild tree node index (decide (capacity >>> 8 = 0)) occupied
    let next ← C.load64 (node + 8 * index)
    newLeafLoop tree next (capacity >>> 8) (key >>> 8) occupied
  else
    pure (node, occupied, tree)
termination_by capacity.toNat
decreasing_by exact shift_lt _h

/-- A fresh leaf under `key`; null when refused or occupied. -/
def cxRadixTreeNewLeaf (tree : CxRadixTree) (key : UInt64) :
    C (Nat × CxRadixTree) := do
  let (rv, tree) ← resize tree key
  if rv < 0 then
    pure (0, tree)
  else
    let key := prepareKey tree key
    if tree.root = 0 then
      let (leaf, leafPool) ← cxPreallocPoolGet tree.leafPool
      pure (leaf, { tree with leafPool := leafPool, root := leaf })
    else
      let (node, occupied, tree) ←
        newLeafLoop tree tree.root tree.capacity key false
      if occupied then
        pure (0, tree)
      else
        pure (node, tree)

/-- Store a copy of `value` under `key`. -/
def cxRadixTreePut (tree : CxRadixTree) (key : UInt64) (value : List Byte) :
    C (Nat × CxRadixTree) := do
  let (leaf, tree) ← cxRadixTreeNewLeaf tree key
  if leaf ≠ 0 then
    C.writeBytes leaf (value.take tree.leafPool.elementSize)
    pure (leaf, tree)
  else
    pure (leaf, tree)

/-- A `void **` into the tree: the root field, or a child word. -/
abbrev NodeRef := Option Nat

def readRef (tree : CxRadixTree) : NodeRef → C Nat
  | none => pure tree.root
  | some a => C.load64 a

def writeRef (tree : CxRadixTree) (v : Nat) : NodeRef → C CxRadixTree
  | none => pure { tree with root := v }
  | some a => do
      C.store64 a v
      pure tree

/-- The descent of `cx_radix_tree_delete`; it stops above a missing
node. -/
def deleteLoop (tree : CxRadixTree) (ref : NodeRef) (capacity key : UInt64) :
    C (NodeRef × UInt64) :=
  if _h : capacity ≠ 0 then do
    let node ← readRef tree ref
    if node ≠ 0 then
      deleteLoop tree (some (node + 8 * radixIndex key)) (capacity >>> 8)
        (key >>> 8)
    else
      pure (ref, capacity)
  else
    pure (ref, capacity)
termination_by capacity.toNat
decreasing_by exact shift_lt _h

/-- Unlink and recycle the leaf under `key`. There is no check that the
tree is high enough for `key`. -/
def cxRadixTreeDelete (tree : CxRadixTree) (key : UInt64) :
    C (Int × CxRadixTree) := do
  let key := prepareKey tree key
  let (ref, remaining) ← deleteLoop tree none tree.capacity key
  if remaining = 0 then
    let node ← readRef tree ref
    let leafPool ← cxPreallocPoolRecycle tree.leafPool node
    let tree ← writeRef { tree with leafPool := leafPool } 0 ref
    pure (0, tree)
  else
    pure (-1, tree)

/-- The leaves go with the pools, whatever is stored in them. -/
def cxRadixTreeCleanup (tree : CxRadixTree) : C Unit := do
  cxPreallocPoolCleanup tree.branchPool
  cxPreallocPoolCleanup tree.leafPool

end Cextras.Collection
