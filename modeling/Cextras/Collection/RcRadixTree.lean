/-
The reference-counted radix tree (lib/collection/rc_radix_tree.c): a
radix tree whose leaves are a counter word followed by the value. Users
hold the address of the value, one word past the counter.

The cleanup callback is the client's; `C.callback` logs the value it is
run on.
-/
import Cextras.Collection.RadixTree

namespace Cextras.Collection

open Lib Memory

/-- `struct CxRcRadixTree` -/
structure CxRcRadixTree where
  values : CxRadixTree
  elementSize : Nat

/-- `RC_SIZE` -/
def rcSize : Nat := 8

/-- `OBJ_DATA(obj)` -/
def objData (obj : Nat) : Nat := obj + rcSize

def cxRcRadixTreeInit (elementSize : Nat) : C CxRcRadixTree := do
  let values ← cxRadixTreeInit (rcSize + elementSize)
  pure { values := values, elementSize := elementSize }

/-- `OBJ_RC(obj)++`; the counter is a `size_t`. -/
def incrementRc (obj : Nat) : C Unit := do
  let rc ← C.load64 obj
  C.store64 obj ((rc + 1) % 2 ^ 64)

def radixTreeRetain (tree : CxRcRadixTree) (key : UInt64) : C Nat := do
  let obj ← cxRadixTreeGet tree.values key
  if obj = 0 then
    pure 0
  else
    let rc ← C.load64 obj
    C.assert (rc > 0)
    incrementRc obj
    pure obj

/-- Store a value, or take a reference on the one already stored. -/
def cxRcRadixTreePut (tree : CxRcRadixTree) (key : UInt64)
    (value : List Byte) : C (Nat × CxRcRadixTree) := do
  let obj ← radixTreeRetain tree key
  if obj = 0 then
    let (obj, values) ← cxRadixTreeNewLeaf tree.values key
    C.assert (obj ≠ 0)
    C.writeBytes (objData obj) (value.take tree.elementSize)
    C.store64 obj 1
    pure (objData obj, { tree with values := values })
  else
    C.callback value
    pure (objData obj, tree)

def cxRcRadixTreeRelease (tree : CxRcRadixTree) (key : UInt64) :
    C (Int × CxRcRadixTree) := do
  let obj ← cxRadixTreeGet tree.values key
  if obj = 0 then
    pure (-1, tree)
  else
    let rc ← C.load64 obj
    C.assert (rc > 0)
    if rc = 1 then
      let value ← C.readBytes (objData obj) tree.elementSize
      C.callback value
      let (rv, values) ← cxRadixTreeDelete tree.values key
      pure (rv, { tree with values := values })
    else
      C.store64 obj (rc - 1)
      pure (0, tree)

def cxRcRadixTreeRetain (tree : CxRcRadixTree) (key : UInt64) : C Nat := do
  let obj ← radixTreeRetain tree key
  if obj = 0 then
    pure 0
  else
    pure (objData obj)

def cxRcRadixTreeRetainValue (_tree : CxRcRadixTree) (value : Nat) : C Unit :=
  incrementRc (value - rcSize)

/-- No value is cleaned up, and no counter looked at. -/
def cxRcRadixTreeCleanup (tree : CxRcRadixTree) : C Int := do
  cxRadixTreeCleanup tree.values
  pure 0

end Cextras.Collection
