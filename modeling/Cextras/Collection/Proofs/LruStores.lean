/-
The two stores of the claim, the reference-counted array and the
reference-counted radix tree, are sound, so that the account
(LruAccount.lean) holds over both (`cxLru_account`).
-/
import Cextras.Collection.Proofs.LruAccount
import Cextras.Collection.Proofs.RcMapBook

namespace Cextras.Collection

open Lib

-- ================================================================= array

def rcMapStore (size elementSize : Nat) : LruStore where
  Backend := CxRcMap
  start := newRcMap size elementSize
  inRange := fun k => decide (k.toNat < size)
  bound := 2 ^ 31
  elementSize := elementSize
  put := fun array k v => cxRcMapSet array k.toNat v
  retain := fun array k => cxRcMapRetain array k.toNat
  release := fun array _ element => cxRcMapRelease array element
  refCount := fun array k => refCountAt array k.toNat
  impl := cxLruRcMap

theorem rcMapStore_sound {size elementSize : Nat} (helem : 0 < elementSize) :
    (rcMapStore size elementSize).Sound (RcMapHolds size elementSize) where
  start mem oracle array m hrun hu := (newRcMap_granted helem).of_run hrun hu
  calls h := by
    obtain ⟨data, storage, -, h⟩ := h
    exact h.calls
  transfer h hmem harena hcalls := by
    obtain ⟨data, storage, harray, h⟩ := h
    exact ⟨data, storage, harray, h.transfer hmem harena hcalls⟩
  refCount h hk := by
    obtain ⟨data, storage, rfl, h⟩ := h
    exact h.run_refCount (of_decide_eq_true hk)
  put := by
    intro m array b k v h hk hv hlt
    obtain ⟨data, storage, rfl, h⟩ := h
    by_cases hdead : b.ledger.refs k = 0
    · obtain ⟨hrun, h'⟩ := h.run_set_empty (v := v) (of_decide_eq_true hk) hdead hv
      exact granted_of_run hrun ⟨data, storage, rfl, h'⟩
    · obtain ⟨hrun, h'⟩ := h.run_set_live (v := v) hdead hlt
      refine granted_of_run hrun ⟨data, storage, rfl, ?_⟩
      rw [Function.update_eq_self]
      exact h'
  retain_absent h hk hdead := by
    obtain ⟨data, storage, rfl, h⟩ := h
    exact RcMapKeeps.run_retain_absent (of_decide_eq_true hk) hdead
  retain := by
    intro m array b k h hk hlt
    obtain ⟨data, storage, rfl, h⟩ := h
    obtain ⟨hrun, h'⟩ := h.run_retain hk hlt
    refine granted_of_run hrun ⟨?_, data, storage, rfl, h'⟩
    have := h.laid.base
    rw [h.element k hk]
    omega
  release := by
    intro m array b k h hk
    obtain ⟨data, storage, rfl, h⟩ := h
    obtain ⟨m', hrun, h'⟩ := h.run_release hk
    refine C.Granted.of_run_eq (granted_of_run hrun ⟨data, storage, rfl, h'⟩) ?_
    rw [h.element k hk]
    exact run_cxRcMapRelease h.laid (h.range k hk)
  lruRetain := by
    intro m array b k h hk hlt
    obtain ⟨data, storage, rfl, h⟩ := h
    obtain ⟨hrun, h'⟩ := h.run_retain hk hlt
    exact granted_of_run hrun ⟨data, storage, rfl, h'⟩
  lruRetainValue := by
    refine ⟨lruRcMapRetainValue, rfl, ?_⟩
    intro m array b k h hk hlt
    obtain ⟨data, storage, rfl, h⟩ := h
    obtain ⟨hrun, h'⟩ := h.run_retain hk hlt
    rw [h.element k hk]
    refine granted_bind_run (run_elementIndex h.laid (h.range k hk)) ?_
    exact granted_bind_run hrun (granted_pure ⟨data, storage, rfl, h'⟩)
  lruRelease := by
    intro m array b k h hk
    obtain ⟨data, storage, rfl, h⟩ := h
    obtain ⟨m', hrun, h'⟩ := h.run_release hk
    exact granted_of_run hrun ⟨data, storage, rfl, h'⟩

-- ============================================================ radix tree

def rcRadixTreeStore (elementSize : Nat) : LruStore where
  Backend := CxRcRadixTree
  start := cxRcRadixTreeInit elementSize
  inRange := fun _ => true
  bound := 2 ^ 64
  elementSize := elementSize
  put := cxRcRadixTreePut
  retain := fun tree k => do
    let value ← cxRcRadixTreeRetain tree k
    pure (value, tree)
  release := fun tree k _ => cxRcRadixTreeRelease tree k
  refCount := fun tree k => do
    let obj ← cxRadixTreeGet tree.values k
    if obj = 0 then
      pure 0
    else
      let rc ← C.load64 obj
      pure (rc : Int)
  impl := cxLruRcRadixTree

/-- The tree holds what the book says. -/
def RcTreeHolds (elementSize : Nat) (m : Machine) (tree : CxRcRadixTree)
    (b : RcBook) : Prop :=
  ∃ g, RcTree elementSize m tree b g

/-- The invariant reads memory, arena and calls, nothing else. -/
theorem RcTree.transfer {size : Nat} {m m' : Machine} {t : CxRcRadixTree}
    {b : RcBook} {g : Ghost} (h : RcTree size m t b g) (hmem : m'.mem = m.mem)
    (harena : m'.arena = m.arena) (hcalls : m'.calls = m.calls) :
    RcTree size m' t b g := by
  have hleaf : ∀ k, leafAt m' t.values g.levels k
      = leafAt m t.values g.levels k := by
    intro k
    unfold leafAt
    rw [hmem]
  refine ⟨h.tree.transfer hmem harena, h.leafSize, h.elementSize, ?_, ?_, ?_, ?_,
    h.small, hcalls.trans h.calls⟩
  · intro k hk
    rw [hleaf, h.absent k hk]
  · intro k hk
    rw [hleaf]
    exact h.present k hk
  · intro k hk
    rw [hleaf, hmem]
    exact h.counter k hk
  · intro k hk
    rw [hmem]
    exact h.value k hk

theorem rcRadixTreeStore_sound {elementSize : Nat}
    (hsize : 16 * (rcSize + elementSize) < 2 ^ 64) :
    (rcRadixTreeStore elementSize).Sound (RcTreeHolds elementSize) where
  start mem oracle tree m hrun _ := by
    have hstart : (RcClient.start elementSize).run (Machine.boot mem oracle)
        = .ok ⟨tree, .empty, fun _ => 0⟩ m := by
      rw [RcClient.start, C.run_bind]
      rw [show (cxRcRadixTreeInit elementSize).run (Machine.boot mem oracle)
        = .ok tree m from hrun]
      rfl
    exact rcTree_start hsize hstart
  calls h := by
    obtain ⟨g, h⟩ := h
    exact h.calls
  transfer h hmem harena hcalls := by
    obtain ⟨g, h⟩ := h
    exact ⟨g, h.transfer hmem harena hcalls⟩
  refCount := by
    intro m tree b k h _
    obtain ⟨g, h⟩ := h
    show (do
      let obj ← cxRadixTreeGet tree.values k
      if obj = 0 then pure 0 else do
        let rc ← C.load64 obj
        pure (rc : Int)).run m = _
    rw [C.run_bind, h.run_get k, C.chain_ok]
    by_cases hdead : b.ledger.refs k = 0
    · rw [h.absent k hdead, if_pos rfl, hdead]
      rfl
    · have hvalid : m.Valid (leafAt m tree.values g.levels k) 8 :=
        h.valid (i := 0) hdead (by simp only [rcSize]; omega)
      rw [if_neg (h.present k hdead).1, C.run_bind, run_load64 hvalid, C.chain_ok,
        C.run_pure, h.counter k hdead]
  put := by
    intro m tree b k v h _ hv hlt
    obtain ⟨g, h⟩ := h
    by_cases hdead : b.ledger.refs k = 0
    · refine (h.put_granted hdead hv).imp ?_
      intro r m' h'
      exact h'
    · obtain ⟨m', hrun, -, h'⟩ := h.run_put_live (v := v) hdead hlt
      refine granted_of_run hrun ⟨g, ?_⟩
      rw [Function.update_eq_self]
      exact h'
  retain_absent := by
    intro m tree b k h _ hdead
    obtain ⟨g, h⟩ := h
    show (do
      let value ← cxRcRadixTreeRetain tree k
      pure (value, tree)).run m = _
    rw [C.run_bind, h.run_retain_absent hdead, C.chain_ok, C.run_pure]
  retain := by
    intro m tree b k h hk hlt
    obtain ⟨g, h⟩ := h
    obtain ⟨m', hrun, h'⟩ := h.run_retain hk hlt
    exact granted_bind_run hrun (granted_pure ⟨h.element_ne hk, g, h'⟩)
  release := by
    intro m tree b k h hk
    obtain ⟨g, h⟩ := h
    obtain ⟨t', m', g', hrun, -, h'⟩ := h.run_release hk
    exact granted_of_run hrun ⟨g', h'⟩
  lruRetain := by
    intro m tree b k h hk hlt
    obtain ⟨g, h⟩ := h
    obtain ⟨m', hrun, h'⟩ := h.run_retain hk hlt
    exact granted_bind_run hrun (granted_pure ⟨g, h'⟩)
  lruRetainValue := by
    refine ⟨_, rfl, ?_⟩
    intro m tree b k h hk hlt
    obtain ⟨g, h⟩ := h
    obtain ⟨m', hrun, h'⟩ := h.run_retainValue hk hlt
    exact granted_bind_run hrun (granted_pure ⟨g, h'⟩)
  lruRelease := by
    intro m tree b k h hk
    obtain ⟨g, h⟩ := h
    obtain ⟨t', m', g', hrun, -, h'⟩ := h.run_release hk
    exact granted_of_run hrun ⟨g', h'⟩

-- =============================================================== account

/-- The backends the cache is used with, but for the hash map. -/
inductive LruBackend where
  | rcMap (size : Nat)
  | rcRadixTree

def LruBackend.store (elementSize : Nat) : LruBackend → LruStore
  | .rcMap size => rcMapStore size elementSize
  | .rcRadixTree => rcRadixTreeStore elementSize

/-- The element sizes a backend can be set up with. -/
def LruBackend.Fits (elementSize : Nat) : LruBackend → Prop
  | .rcMap _ => 0 < elementSize
  | .rcRadixTree => 16 * (rcSize + elementSize) < 2 ^ 64

end Cextras.Collection
