/-
Radix tree operations on keys they are not meant for: new_leaf on a key that
is stored, and delete of a key that is not.

- new_leaf looks whether the leaf place is taken, but fills it in any case,
  and a tree of height 0 is not looked at. So no key that is stored is
  turned away without damage (`cxRadixTreePut_occupied`).
- delete reduces the key to the bytes the tree has levels for. Beyond the
  capacity it takes the leaf of the reduced key along
  (`cxRadixTreeDelete_deletesOnly_iff`).
-/
import Cextras.Collection.Proofs.RadixRefused

namespace Cextras.Collection

open Lib Memory

variable {m m' : Machine} {t t' : CxRadixTree} {g g' : Ghost}

-- ========================================================= occupied keys

/-- The call returns null, and every key has the leaf it had before, with
the same bytes. -/
def Undamaged (t : CxRadixTree) (m : Machine) (call : C (Nat × CxRadixTree)) :
    Prop :=
  ∃ t' m', call.run m = .ok (0, t') m'
    ∧ ∀ k, ∃ leaf, (cxRadixTreeGet t k).run m = .ok leaf m
      ∧ (cxRadixTreeGet t' k).run m' = .ok leaf m'
      ∧ (leaf ≠ 0 → m'.mem.read leaf t.leafPool.elementSize
        = m.mem.read leaf t.leafPool.elementSize)

/-- On the way to a node that exists nothing is missing. -/
theorem missing_eq_zero {mem : Mem} {p : List Nat} :
    ∀ {a : Nat}, walk mem a p ≠ 0 → missing mem a p = 0 := by
  induction p with
  | nil => intro _ _; rfl
  | cons i p ih =>
      intro a hne
      cases p with
      | nil => rfl
      | cons j p =>
          rw [← List.singleton_append, walk_append] at hne
          have hchild : walk mem a [i] ≠ 0 := fun h0 => hne (by rw [h0, walk_null])
          rw [missing, if_neg hchild, ih hne]

/-- A stored key asks for no branch. -/
theorem TreeInv.branchesNeeded_stored (h : TreeInv m t g) {key : UInt64}
    (hne : leafAt m t g.levels key ≠ 0) :
    growth t key = 0 ∧ branchesNeeded t m key = 0 := by
  unfold leafAt at hne
  by_cases hk : key.toNat < 256 ^ g.levels
  · rw [if_pos hk] at hne
    have hshort := byteLength_le_iff.mpr hk
    have hgrowth : growth t key = 0 := by
      rw [h.growth_eq key]
      omega
    refine ⟨hgrowth, ?_⟩
    unfold branchesNeeded
    rw [hgrowth, if_pos rfl, h.tree.capacity,
      byteLength_fullCapacity h.tree.levels, Nat.max_eq_right hshort,
      missing_eq_zero hne]
  · rw [if_neg hk] at hne
    exact absurd rfl hne

/-- A put that returns null is a new_leaf that does. -/
theorem cxRadixTreePut_null {key : UInt64} {value : List Byte}
    (hrun : (cxRadixTreePut t key value).run m = .ok (0, t') m') :
    (cxRadixTreeNewLeaf t key).run m = .ok (0, t') m' := by
  unfold cxRadixTreePut at hrun
  obtain ⟨⟨leaf, t₁⟩, m₁, hnew, hrest⟩ := bind_cases hrun
  dsimp only at hrest
  by_cases hleaf : leaf = 0
  · rw [if_neg (not_not.mpr hleaf), C.run_pure, hleaf] at hrest
    rw [hnew, hleaf, hrest]
  · rw [if_pos hleaf] at hrest
    obtain ⟨_, m₂, -, hrest⟩ := bind_cases hrest
    rw [C.run_pure, Outcome.ok.injEq, Prod.mk.injEq] at hrest
    exact absurd hrest.1.1 hleaf

/-- No reachable tree turns a stored key away without damage, whether the
request for the leaf is granted or refused. -/
theorem cxRadixTreePut_occupied {elementSize : Nat} {mem : Mem}
    {oracle : Nat → Nat} (hsize : 16 * elementSize < 2 ^ 64)
    (h : TreeRun elementSize mem oracle t m) {key : UInt64} {leaf : Nat}
    (hget : (cxRadixTreeGet t key).run m = .ok leaf m) (hleaf : leaf ≠ 0) :
    ¬ Undamaged t m (cxRadixTreeNewLeaf t key)
      ∧ ∀ value, ¬ Undamaged t m (cxRadixTreePut t key value) := by
  obtain ⟨g, hinv⟩ := treeInv_run hsize h
  have hu := treeRun_unrefused h
  rw [run_cxRadixTreeGet hinv, Outcome.ok.injEq] at hget
  obtain ⟨rfl, -⟩ := hget
  obtain ⟨hgrowth, hneeded⟩ := hinv.branchesNeeded_stored hleaf
  have hnew : ¬ Undamaged t m (cxRadixTreeNewLeaf t key) := by
    intro hundamaged
    obtain ⟨t', m', hrun, hsame⟩ := hundamaged
    obtain ⟨a, hbefore, hafter, -⟩ := hsame key
    rw [run_cxRadixTreeGet hinv, Outcome.ok.injEq] at hbefore
    obtain ⟨rfl, -⟩ := hbefore
    cases hr : ((cxRadixTreeNewLeaf t key).run m).machine.refused with
    | true =>
        -- the null pointer has replaced the leaf
        obtain ⟨t₁, m₁, n, chunks, branches, leaves, hrun₁, hbr, hupd⟩ :=
          cxRadixTreeNewLeaf_leafRefused hinv hu (by rw [hgrowth]; exact hu)
            (by rw [hneeded]; exact hu) hr
        rw [hrun₁, Outcome.ok.injEq, Prod.mk.injEq] at hrun
        obtain ⟨⟨-, rfl⟩, rfl⟩ := hrun
        rw [run_cxRadixTreeGet_branches hbr, hupd, if_pos rfl,
          Outcome.ok.injEq] at hafter
        exact hleaf hafter.1.symm
    | false =>
        -- a fresh leaf has
        obtain ⟨⟨a, t₁⟩, m₁, hrun₁, g₁, hstep, -, -, hreplaced⟩ :=
          (cxRadixTreeNewLeaf_step hinv key).elim hr
        rw [hrun₁, Outcome.ok.injEq, Prod.mk.injEq] at hrun
        obtain ⟨⟨rfl, rfl⟩, rfl⟩ := hrun
        rw [run_cxRadixTreeGet hstep.inv, Outcome.ok.injEq] at hafter
        have hfresh := hreplaced hleaf rfl
        dsimp only at hfresh hafter
        rw [hafter.1] at hfresh
        exact hfresh (hinv.leafAt_mem hleaf)
  refine ⟨hnew, fun value hundamaged => ?_⟩
  obtain ⟨t', m', hrun, hsame⟩ := hundamaged
  exact hnew ⟨t', m', cxRadixTreePut_null hrun, hsame⟩

/-- A tree with two levels, and a key that shares its path with others. -/
theorem cxRadixTreePut_occupied_deep : ∃ t m,
    TreeRun 8 (fun _ => 0) (fun t => 2 ^ 20 * (t + 1)) t m
      ∧ t.capacity = 0xffff ∧ ¬ Undamaged t m (cxRadixTreeNewLeaf t 0x2105)
      ∧ ∀ value, ¬ Undamaged t m (cxRadixTreePut t 0x2105 value) := by
  obtain ⟨t, m, hrun, htest⟩ := reached_of_replayFrom
    (cxRadixTreeInit 8) TreeOp.exec (fun t _ op => op.Allowed t)
    (Machine.boot (fun _ => 0) fun t => 2 ^ 20 * (t + 1))
    [.put 0x2105 [1, 2, 3, 4, 5, 6, 7, 8], .newLeaf 0x2106, .newLeaf 5]
    (fun x => decide (x.1.capacity = 0xffff
      ∧ ((cxRadixTreeGet x.1 0x2105).run x.2).value ≠ some 0))
    (by decide +kernel)
  obtain ⟨hcap, hne⟩ := of_decide_eq_true htest
  obtain ⟨g, hinv⟩ := treeInv_run (by decide) hrun
  have hget := run_cxRadixTreeGet hinv 0x2105
  dsimp only at hne hcap
  rw [hget] at hne
  exact ⟨t, m, hrun, hcap, cxRadixTreePut_occupied (by decide) hrun hget
    fun h0 => hne (congrArg some h0)⟩

/-- Key 5 is put twice: the second put returns null, and the key has a
different leaf. -/
theorem cxRadixTreePut_overwrites : ∃ t m leaf,
    TreeRun 8 (fun _ => 0) (fun t => 2 ^ 20 * (t + 1)) t m
      ∧ (cxRadixTreeGet t 5).run m = .ok leaf m ∧ leaf ≠ 0
      ∧ ¬ Undamaged t m (cxRadixTreePut t 5 [8, 7, 6, 5, 4, 3, 2, 1]) := by
  obtain ⟨t, m, hrun, htest⟩ := reached_of_replayFrom
    (cxRadixTreeInit 8) TreeOp.exec (fun t _ op => op.Allowed t)
    (Machine.boot (fun _ => 0) fun t => 2 ^ 20 * (t + 1))
    [.put 5 [1, 2, 3, 4, 5, 6, 7, 8]]
    (fun x => decide (((cxRadixTreeGet x.1 5).run x.2).value ≠ some 0
      ∧ ((cxRadixTreePut x.1 5 [8, 7, 6, 5, 4, 3, 2, 1]
          >>= fun out => cxRadixTreeGet out.2 5).run x.2).value
        ≠ ((cxRadixTreeGet x.1 5).run x.2).value))
    (by decide +kernel)
  obtain ⟨hne, hdiffer⟩ := of_decide_eq_true htest
  obtain ⟨g, hinv⟩ := treeInv_run (by decide) hrun
  have hget := run_cxRadixTreeGet hinv 5
  dsimp only at hne hdiffer
  rw [hget] at hne
  refine ⟨t, m, _, hrun, hget, fun h0 => hne (congrArg some h0), ?_⟩
  intro hundamaged
  obtain ⟨t', m', hput, hsame⟩ := hundamaged
  obtain ⟨leaf, hbefore, hafter, -⟩ := hsame 5
  rw [C.run_bind, hput, C.chain_ok, hbefore, hafter] at hdiffer
  exact hdiffer rfl

-- ====================================================== keys out of reach

/-- After the call the key has no leaf, every other key has the leaf it had
before, and no leaf of a key is waiting to be reused. -/
def DeletesOnly (t : CxRadixTree) (m : Machine) (key : UInt64) : Prop :=
  ∃ rv t' m', (cxRadixTreeDelete t key).run m = .ok (rv, t') m'
    ∧ (cxRadixTreeGet t' key).run m' = .ok 0 m'
    ∧ (∀ k, k ≠ key → ∃ leaf, (cxRadixTreeGet t k).run m = .ok leaf m
      ∧ (cxRadixTreeGet t' k).run m' = .ok leaf m')
    ∧ ∀ k leaf free, (cxRadixTreeGet t' k).run m' = .ok leaf m' → leaf ≠ 0 →
      Linked m'.mem 0 t'.leafPool.reusePool free → leaf ∉ free

/-- Only the low bytes are on the path. -/
theorem path_mod (n k : Nat) : path n (k % 256 ^ n) = path n k := by
  induction n generalizing k with
  | zero => rfl
  | succ n ih =>
      have hlow : k % 256 ^ (n + 1) % 256 ^ n = k % 256 ^ n :=
        Nat.mod_mod_of_dvd k (Nat.pow_dvd_pow 256 (Nat.le_succ n))
      have hhead : k % 256 ^ (n + 1) / 256 ^ n % 256 = k / 256 ^ n % 256 := by
        rw [Nat.pow_succ, Nat.mod_mul_right_div_self, Nat.mod_mod]
      rw [path, path, hhead, ← ih (k % 256 ^ (n + 1)), hlow, ih k]

/-- The key delete reduces its key to. -/
theorem TreeInv.toNat_reduced (h : TreeInv m t g) (key : UInt64) :
    (key &&& t.capacity).toNat = key.toNat % 256 ^ g.levels := by
  have hlev := h.tree.levels
  have hpow : 256 ^ g.levels = 2 ^ (8 * g.levels) := by
    rw [Nat.pow_mul]
  rw [UInt64.toNat_and, h.tree.capacity, fullCapacity_toNat hlev, hpow]
  exact Nat.and_two_pow_sub_one_eq_mod _ _

/-- A leaf that is found is not on the reuse list. -/
theorem TreeInv.leafAt_not_free (h : TreeInv m t g) {k : UInt64} {leaf : Nat}
    {free : List Nat} (hget : (cxRadixTreeGet t k).run m = .ok leaf m)
    (hne : leaf ≠ 0) (hlinked : Linked m.mem 0 t.leafPool.reusePool free) :
    leaf ∉ free := by
  rw [run_cxRadixTreeGet h, Outcome.ok.injEq] at hget
  obtain ⟨rfl, -⟩ := hget
  rw [hlinked.unique h.leafPool.reuse]
  intro hfree
  exact (List.nodup_append.mp h.leafPool.nodup).2.2 _ hfree _
    (h.leafAt_mem hne) rfl

/-- Delete affects its own key only, if and only if the key fits the
capacity or nothing is stored under the key it is reduced to. -/
theorem cxRadixTreeDelete_deletesOnly_iff {elementSize : Nat} {mem : Mem}
    {oracle : Nat → Nat} (hsize : 16 * elementSize < 2 ^ 64)
    (h : TreeRun elementSize mem oracle t m) (key : UInt64) :
    DeletesOnly t m key
      ↔ key ≤ t.capacity
        ∨ (cxRadixTreeGet t (key &&& t.capacity)).run m = .ok 0 m := by
  obtain ⟨g, hinv⟩ := treeInv_run hsize h
  have hget := run_cxRadixTreeGet hinv
  have hpos : 0 < 256 ^ g.levels := Nat.pow_pos (by decide)
  have hlow := hinv.toNat_reduced key
  have hlowlt : (key &&& t.capacity).toNat < 256 ^ g.levels := by
    rw [hlow]
    exact Nat.mod_lt _ hpos
  have hlowAt : leafAt m t g.levels (key &&& t.capacity)
      = walk m.mem t.root (path g.levels key.toNat) := by
    unfold leafAt
    rw [if_pos hlowlt, hlow, path_mod]
  have hfit : key ≤ t.capacity ↔ key &&& t.capacity = key := by
    rw [hinv.tree.capacity, le_fullCapacity_iff hinv.tree.levels,
      ← hinv.tree.capacity, ← UInt64.toNat_inj, hlow]
    exact ⟨Nat.mod_eq_of_lt, fun heq => heq ▸ Nat.mod_lt _ hpos⟩
  by_cases hnone : walk m.mem t.root (path g.levels key.toNat) = 0
  · -- nothing was on the path, and nothing changes
    refine iff_of_true ?_ (Or.inr (by rw [hget, hlowAt, hnone]))
    obtain ⟨rv, t', m', hrun, hstep, hwalk⟩ :=
      run_cxRadixTreeDelete_absent hinv key hnone
    have hget' := run_cxRadixTreeGet hstep.inv
    have hleaf := leafAt_congr hwalk
    refine ⟨rv, t', m', hrun, ?_, fun k _ => ⟨_, hget k, ?_⟩, fun k leaf free =>
      hstep.inv.leafAt_not_free⟩
    · rw [hget', hleaf]
      unfold leafAt
      rw [hnone, ite_self]
    · rw [hget', hleaf]
  · obtain ⟨t', m', g', hrun, -, hstep, hlev, -, -, hwalk⟩ :=
      run_cxRadixTreeDelete_leaf hinv key hnone
    have hget' := run_cxRadixTreeGet hstep.inv
    have hleaf : ∀ k, leafAt m' t' g'.levels k
        = if k = key &&& t.capacity then 0 else leafAt m t g.levels k := by
      rw [hlev]
      refine leafAt_update hlowlt ?_
      rw [hlow, path_mod]
      exact fun q hq hl => hwalk q hq (Nat.le_of_eq hl)
    constructor
    · intro honly
      left
      by_contra hbeyond
      obtain ⟨rv, t₁, m₁, hrun₁, -, hother, -⟩ := honly
      rw [hrun, Outcome.ok.injEq, Prod.mk.injEq] at hrun₁
      obtain ⟨⟨-, rfl⟩, rfl⟩ := hrun₁
      -- the reduced key is another one, and its leaf is gone
      obtain ⟨leaf, hbefore, hafter⟩ := hother (key &&& t.capacity)
        fun heq => hbeyond (hfit.mpr heq)
      rw [hget, hlowAt, Outcome.ok.injEq] at hbefore
      rw [hget', hleaf, if_pos rfl, Outcome.ok.injEq] at hafter
      exact hnone (hbefore.1.trans hafter.1.symm)
    · intro hcond
      have hself : key &&& t.capacity = key := by
        rcases hcond with hle | hempty
        · exact hfit.mp hle
        · rw [hget, hlowAt, Outcome.ok.injEq] at hempty
          exact absurd hempty.1 hnone
      rw [hself] at hleaf
      refine ⟨0, t', m', hrun, ?_, fun k hk => ⟨_, hget k, ?_⟩, fun k leaf free =>
        hstep.inv.leafAt_not_free⟩
      · rw [hget', hleaf, if_pos rfl]
      · rw [hget', hleaf, if_neg hk]

/-- A key beyond the capacity whose low byte is no stored key. -/
theorem cxRadixTreeDelete_deletesOnly_beyond : ∃ t m,
    TreeRun 8 (fun _ => 0) (fun t => 2 ^ 20 * (t + 1)) t m
      ∧ t.capacity = 0xff ∧ DeletesOnly t m 0x106 := by
  obtain ⟨t, m, hrun, htest⟩ := reached_of_replayFrom
    (cxRadixTreeInit 8) TreeOp.exec (fun t _ op => op.Allowed t)
    (Machine.boot (fun _ => 0) fun t => 2 ^ 20 * (t + 1))
    [.put 5 [1, 2, 3, 4, 5, 6, 7, 8]]
    (fun x => decide (x.1.capacity = 0xff
      ∧ ((cxRadixTreeGet x.1 (0x106 &&& x.1.capacity)).run x.2).value = some 0))
    (by decide +kernel)
  obtain ⟨hcap, hempty⟩ := of_decide_eq_true htest
  obtain ⟨g, hinv⟩ := treeInv_run (by decide) hrun
  have hget := run_cxRadixTreeGet hinv (0x106 &&& t.capacity)
  dsimp only at hempty hcap
  rw [hget] at hempty
  refine ⟨t, m, hrun, hcap, (cxRadixTreeDelete_deletesOnly_iff (by decide) hrun
    0x106).mpr (Or.inr ?_)⟩
  rw [hget, Option.some.inj hempty]

/-- Key 5 is put, and key 0x105 deleted: key 5 is gone. -/
theorem cxRadixTreeDelete_takesOther : ∃ t m,
    TreeRun 8 (fun _ => 0) (fun t => 2 ^ 20 * (t + 1)) t m
      ∧ ¬ DeletesOnly t m 0x105 := by
  obtain ⟨t, m, hrun, htest⟩ := reached_of_replayFrom
    (cxRadixTreeInit 8) TreeOp.exec (fun t _ op => op.Allowed t)
    (Machine.boot (fun _ => 0) fun t => 2 ^ 20 * (t + 1))
    [.put 5 [1, 2, 3, 4, 5, 6, 7, 8]]
    (fun x => decide (((cxRadixTreeDelete x.1 0x105
        >>= fun out => cxRadixTreeGet out.2 5).run x.2).value
      ≠ ((cxRadixTreeGet x.1 5).run x.2).value))
    (by decide +kernel)
  have hdiffer := of_decide_eq_true htest
  refine ⟨t, m, hrun, fun honly => ?_⟩
  obtain ⟨rv, t', m', hdelete, -, hother, -⟩ := honly
  obtain ⟨leaf, hbefore, hafter⟩ := hother 5 (by decide)
  dsimp only at hdiffer
  rw [C.run_bind, hdelete, C.chain_ok, hbefore, hafter] at hdiffer
  exact hdiffer rfl

end Cextras.Collection
