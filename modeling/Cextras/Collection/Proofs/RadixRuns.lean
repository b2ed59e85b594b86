/-
A radix tree under any operations in any order. Unlike the user of
RadixMap.lean, the one here may put a key that is stored, whose leaf is then
overwritten, and delete one that is not, which may take the leaf of another
key along. The tree stays well formed through all of it (`treeInv_run`),
with possibly more live leaves in the pool than the tree reaches.
-/
import Cextras.Collection.Proofs.RadixMap

namespace Cextras.Collection

open Lib Memory

variable {m m' : Machine} {t t' : CxRadixTree} {g g' : Ghost}

-- ============================================================ operations

inductive TreeOp where
  | put (key : UInt64) (value : List Byte)
  | newLeaf (key : UInt64)
  /-- bytes of the leaf found under `key` are overwritten, from byte `i` on -/
  | write (key : UInt64) (i : Nat) (value : List Byte)
  | delete (key : UInt64)
  | get (key : UInt64)

/-- A value has the bytes that are copied, and writes stay in the leaf. -/
def TreeOp.Allowed (t : CxRadixTree) : TreeOp → Prop
  | .put _ value => t.leafPool.elementSize ≤ value.length
  | .newLeaf _ => True
  | .write _ i value => i + value.length ≤ t.leafPool.elementSize
  | .delete _ => True
  | .get _ => True

instance TreeOp.decidableAllowed (t : CxRadixTree) :
    (op : TreeOp) → Decidable (op.Allowed t)
  | .put _ value => inferInstanceAs (Decidable (_ ≤ value.length))
  | .newLeaf _ => inferInstanceAs (Decidable True)
  | .write _ i value => inferInstanceAs (Decidable (i + value.length ≤ _))
  | .delete _ => inferInstanceAs (Decidable True)
  | .get _ => inferInstanceAs (Decidable True)

def TreeOp.exec : TreeOp → CxRadixTree → C CxRadixTree
  | .put key value, t => do
      let (_, t) ← cxRadixTreePut t key value
      pure t
  | .newLeaf key, t => do
      let (_, t) ← cxRadixTreeNewLeaf t key
      pure t
  | .write key i value, t => do
      let leaf ← cxRadixTreeGet t key
      if leaf ≠ 0 then
        C.writeBytes (leaf + i) value
        pure t
      else
        pure t
  | .delete key, t => do
      let (_, t) ← cxRadixTreeDelete t key
      pure t
  | .get key, t => do
      let _ ← cxRadixTreeGet t key
      pure t

/-- The trees of runs in which nothing was refused, with `elementSize`-byte
leaves. -/
abbrev TreeRun (elementSize : Nat) (mem : Mem) (oracle : Nat → Nat) :
    CxRadixTree → Machine → Prop :=
  Reached (cxRadixTreeInit elementSize) TreeOp.exec
    (fun t _ op => op.Allowed t) (Machine.boot mem oracle)

-- ============================================================= invariant

/-- A put writes into the leaf new_leaf returned, or nowhere. -/
theorem cxRadixTreePut_step (h : TreeInv m t g) (key : UInt64)
    {value : List Byte} (hvalue : t.leafPool.elementSize ≤ value.length) :
    (cxRadixTreePut t key value).Granted m fun r m' => ∃ g', TreeInv m' r.2 g' := by
  unfold cxRadixTreePut
  apply granted_bind (cxRadixTreeNewLeaf_step h key)
  intro r m₁ hr
  obtain ⟨leaf, t₁⟩ := r
  obtain ⟨g₁, hstep, hmem, -⟩ := hr
  have hsize := hstep.size
  dsimp only at hmem hsize ⊢
  by_cases hne : leaf = 0
  · rw [if_neg (not_not.mpr hne)]
    exact granted_pure ⟨g₁, hstep.inv⟩
  · rw [if_pos hne]
    have ha := hmem hne
    have hlen : (value.take t₁.leafPool.elementSize).length
        = t₁.leafPool.elementSize := by
      rw [List.length_take]
      omega
    have hvalid : m₁.Valid leaf (value.take t₁.leafPool.elementSize).length :=
      hstep.inv.leafPool.valid (i := 0) (List.mem_append_right _ ha)
        (by rw [hlen, Nat.zero_add])
    refine granted_bind_run (run_writeBytes hvalid) ?_
    obtain ⟨hinv, -, -⟩ := hstep.inv.insideLeaf
      { m₁ with mem := m₁.mem.write leaf (value.take _) } ha rfl
      fun x hx => write_apply_outside (by rw [hlen]; exact hx)
    exact granted_pure ⟨g₁, hinv⟩

/-- Every operation leaves a well-formed tree. -/
theorem treeInv_exec (h : TreeInv m t g) {op : TreeOp} (hop : op.Allowed t) :
    (op.exec t).Granted m fun t' m' => ∃ g', TreeInv m' t' g' := by
  cases op with
  | put key value =>
      apply granted_bind (cxRadixTreePut_step h key hop)
      intro r m₁ hr
      exact granted_pure hr
  | newLeaf key =>
      apply granted_bind (cxRadixTreeNewLeaf_step h key)
      intro r m₁ hr
      obtain ⟨g₁, hstep, -⟩ := hr
      exact granted_pure ⟨g₁, hstep.inv⟩
  | write key i value =>
      have hroom : i + value.length ≤ t.leafPool.elementSize := hop
      refine granted_bind_run (run_cxRadixTreeGet h key) ?_
      by_cases hne : leafAt m t g.levels key = 0
      · rw [if_neg (not_not.mpr hne)]
        exact granted_pure ⟨g, h⟩
      · rw [if_pos hne]
        have ha := h.leafAt_mem hne
        refine granted_bind_run (run_writeBytes (h.leafPool.valid
          (List.mem_append_right _ ha) hroom)) ?_
        obtain ⟨hinv, -, -⟩ := h.insideLeaf
          { m with mem := m.mem.write (leafAt m t g.levels key + i) value } ha
          rfl fun x hx => write_apply_outside (by omega)
        exact granted_pure ⟨g, hinv⟩
  | delete key =>
      by_cases hne : walk m.mem t.root (path g.levels key.toNat) = 0
      · obtain ⟨rv, t', m', hrun, hstep, -⟩ :=
          run_cxRadixTreeDelete_absent h key hne
        refine granted_bind_run hrun ?_
        exact granted_pure ⟨g, hstep.inv⟩
      · obtain ⟨t', m', g', hrun, -, hstep, -⟩ :=
          run_cxRadixTreeDelete_leaf h key hne
        refine granted_bind_run hrun ?_
        exact granted_pure ⟨g', hstep.inv⟩
  | get key =>
      refine granted_bind_run (run_cxRadixTreeGet h key) ?_
      exact granted_pure ⟨g, h⟩

theorem treeInv_run {elementSize : Nat} {mem : Mem} {oracle : Nat → Nat}
    (hsize : 16 * elementSize < 2 ^ 64)
    (h : TreeRun elementSize mem oracle t m) : ∃ g, TreeInv m t g := by
  apply h.invariant fun t m => ∃ g, TreeInv m t g
  · intro t m hrun _
    obtain ⟨rfl, -, -, g, hinv, -⟩ := cxRadixTreeInit_ok hsize hrun
    exact ⟨g, hinv⟩
  · intro t m op hinv hop
    obtain ⟨g, hinv⟩ := hinv
    exact treeInv_exec hinv hop

/-- A state of a run was refused nothing. -/
theorem treeRun_unrefused {elementSize : Nat} {mem : Mem} {oracle : Nat → Nat}
    (h : TreeRun elementSize mem oracle t m) : m.refused = false := by
  cases h with
  | start _ hu => exact hu
  | step _ _ _ hu => exact hu

end Cextras.Collection
