/-
The radix tree as a finite map. `MapClient` is a user of one tree who
writes down what each put returned and what was last written into each
leaf; the tree refines that record in every state of every run
(`cxRadixTree_refines_map`): lookups answer with the recorded pointers,
different keys have different leaves, and every leaf still holds what
its owner last wrote there.
-/
import Cextras.Lib.Run
import Cextras.Collection.Proofs.RadixOps

namespace Cextras.Collection

open Lib Memory

-- ================================================================ client

/-- A user of one tree: the leaf that was returned for every key stored
now, and the bytes last written into it. -/
structure MapClient where
  tree : CxRadixTree
  stored : UInt64 → Option Nat
  content : UInt64 → List Byte

inductive MapOp where
  | put (key : UInt64) (value : List Byte)
  | newLeaf (key : UInt64)
  /-- the user overwrites a leaf it holds -/
  | write (key : UInt64) (value : List Byte)
  | delete (key : UInt64)
  | get (key : UInt64)

/-- Leaves are added for keys not stored, and written or deleted for keys
that are. -/
def MapOp.Allowed (s : MapClient) : MapOp → Prop
  | .put key value =>
      s.stored key = none ∧ value.length = s.tree.leafPool.elementSize
  | .newLeaf key => s.stored key = none
  | .write key value =>
      s.stored key ≠ none ∧ value.length = s.tree.leafPool.elementSize
  | .delete key => s.stored key ≠ none
  | .get _ => True

instance MapOp.decidableAllowed (s : MapClient) :
    (op : MapOp) → Decidable (op.Allowed s)
  | .put _ value => inferInstanceAs (Decidable (_ ∧ value.length = _))
  | .newLeaf key => inferInstanceAs (Decidable (s.stored key = none))
  | .write _ value => inferInstanceAs (Decidable (_ ∧ value.length = _))
  | .delete key => inferInstanceAs (Decidable (s.stored key ≠ none))
  | .get _ => inferInstanceAs (Decidable True)

def MapClient.start (elementSize : Nat) : C MapClient := do
  let tree ← cxRadixTreeInit elementSize
  pure ⟨tree, fun _ => none, fun _ => []⟩

/-- One operation, and what the user writes down about it. -/
def MapClient.exec : MapOp → MapClient → C MapClient
  | .put key value, s => do
      let (leaf, tree) ← cxRadixTreePut s.tree key value
      pure { tree := tree
             stored := Function.update s.stored key (some leaf)
             content := Function.update s.content key value }
  | .newLeaf key, s => do
      let (leaf, tree) ← cxRadixTreeNewLeaf s.tree key
      let value ← C.readBytes leaf tree.leafPool.elementSize
      pure { tree := tree
             stored := Function.update s.stored key (some leaf)
             content := Function.update s.content key value }
  | .write key value, s => do
      C.writeBytes ((s.stored key).getD 0) value
      pure { s with content := Function.update s.content key value }
  | .delete key, s => do
      let (_, tree) ← cxRadixTreeDelete s.tree key
      pure { s with
        tree := tree, stored := Function.update s.stored key none }
  | .get key, s => do
      let _ ← cxRadixTreeGet s.tree key
      pure s

/-- The states of runs over a tree of `elementSize`-byte leaves. -/
abbrev MapClient.Run (elementSize : Nat) (mem : Mem) (oracle : Nat → Nat) :
    MapClient → Machine → Prop :=
  Reached (MapClient.start elementSize) MapClient.exec
    (fun s _ op => op.Allowed s) (Machine.boot mem oracle)

-- ============================================================= invariant

/-- The tree and the user's record agree. -/
structure MapInv (size : Nat) (s : MapClient) (m : Machine) (g : Ghost) :
    Prop where
  tree : TreeInv m s.tree g
  elementSize : s.tree.leafPool.elementSize = size
  leaf : ∀ k, leafAt m s.tree g.levels k = (s.stored k).getD 0
  nonnull : ∀ k, s.stored k ≠ some 0
  content : ∀ k a, s.stored k = some a → m.mem.read a size = s.content k

variable {size : Nat} {s : MapClient} {m m' : Machine} {g g' : Ghost}

theorem MapInv.leaf_of_stored (h : MapInv size s m g) {k : UInt64} {a : Nat}
    (hk : s.stored k = some a) : leafAt m s.tree g.levels k = a ∧ a ≠ 0 := by
  refine ⟨by rw [h.leaf, hk]; rfl, ?_⟩
  rintro rfl
  exact h.nonnull k hk

/-- Two stored keys never share a leaf. -/
theorem MapInv.injective (h : MapInv size s m g) {k k' : UInt64} {a : Nat}
    (hk : s.stored k = some a) (hk' : s.stored k' = some a) : k = k' := by
  obtain ⟨hl, hne⟩ := h.leaf_of_stored hk
  obtain ⟨hl', -⟩ := h.leaf_of_stored hk'
  exact h.tree.leafAt_injective (hl.trans hl'.symm) (by rw [hl]; exact hne)

/-- A leaf that came back for a key that was not stored. -/
theorem MapInv.added (h : MapInv size s m g) {key : UInt64}
    {t' : CxRadixTree} {leaf : Nat} {value : List Byte}
    (hne : leaf ≠ 0)
    (hstep : TreeStep m s.tree g m' t' g')
    (hleaves : g'.leaves = leaf :: g.leaves)
    (hleaf : ∀ k, leafAt m' t' g'.levels k
      = if k = key then leaf else leafAt m s.tree g.levels k)
    (hvalue : m'.mem.read leaf size = value) :
    MapInv size
      { tree := t'
        stored := Function.update s.stored key (some leaf)
        content := Function.update s.content key value } m' g' where
  tree := hstep.inv
  elementSize := hstep.size.trans h.elementSize
  leaf := fun k => by
    dsimp only
    rw [hleaf k, Function.update_apply]
    split
    · rfl
    · exact h.leaf k
  nonnull := fun k => by
    dsimp only
    rw [Function.update_apply]
    split
    · simpa using hne
    · exact h.nonnull k
  content := fun k a hk => by
    dsimp only at hk ⊢
    rw [Function.update_apply] at hk ⊢
    split at hk
    case isTrue heq =>
      rw [if_pos heq, ← Option.some.inj hk]
      exact hvalue
    case isFalse heq =>
      rw [if_neg heq, ← h.content k a hk, ← h.elementSize]
      obtain ⟨hl, hne'⟩ := h.leaf_of_stored hk
      have ha : a ∈ g.leaves := by
        rw [← hl]
        exact h.tree.leafAt_mem (by rw [hl]; exact hne')
      refine read_congr (hstep.bytes a ha ?_)
      rw [hleaves]
      exact List.mem_cons_of_mem _ ha

/-- A leaf that left with its key. -/
theorem MapInv.removed (h : MapInv size s m g) {key : UInt64}
    {t' : CxRadixTree} (hstep : TreeStep m s.tree g m' t' g')
    (hleaves : g'.leaves = g.leaves.erase (leafAt m s.tree g.levels key))
    (hleaf : ∀ k, leafAt m' t' g'.levels k
      = if k = key then 0 else leafAt m s.tree g.levels k) :
    MapInv size
      { s with tree := t', stored := Function.update s.stored key none }
      m' g' where
  tree := hstep.inv
  elementSize := hstep.size.trans h.elementSize
  leaf := fun k => by
    dsimp only
    rw [hleaf k, Function.update_apply]
    split
    · rfl
    · exact h.leaf k
  nonnull := fun k => by
    dsimp only
    rw [Function.update_apply]
    split
    · simp
    · exact h.nonnull k
  content := fun k a hk => by
    dsimp only at hk ⊢
    rw [Function.update_apply] at hk
    split at hk
    case isTrue => cases hk
    case isFalse heq =>
      rw [← h.content k a hk, ← h.elementSize]
      obtain ⟨hl, hne⟩ := h.leaf_of_stored hk
      have ha : a ∈ g.leaves := by
        rw [← hl]
        exact h.tree.leafAt_mem (by rw [hl]; exact hne)
      refine read_congr (hstep.bytes a ha ?_)
      -- another key's leaf is not the one that was erased
      rw [hleaves]
      refine (List.mem_erase_of_ne ?_).mpr ha
      intro hsame
      exact heq (h.tree.leafAt_injective (hl.trans hsame) (by rw [hl]; exact hne))

/-- The user overwrote one of its leaves. -/
theorem MapInv.written (h : MapInv size s m g) {key : UInt64}
    {value : List Byte} (hkey : s.stored key ≠ none)
    (hvalue : value.length = size) :
    m.Valid ((s.stored key).getD 0) value.length
      ∧ MapInv size { s with content := Function.update s.content key value }
        { m with mem := m.mem.write ((s.stored key).getD 0) value } g := by
  obtain ⟨a, ha⟩ := Option.ne_none_iff_exists'.mp hkey
  obtain ⟨hl, hne⟩ := h.leaf_of_stored ha
  have hmem : a ∈ g.leaves := by
    rw [← hl]
    exact h.tree.leafAt_mem (by rw [hl]; exact hne)
  have hsize := h.elementSize
  rw [ha, Option.getD_some]
  obtain ⟨hinv, hleaf, hother⟩ := h.tree.insideLeaf
    { m with mem := m.mem.write a value } hmem rfl
    fun x hx => write_apply_outside (by omega)
  refine ⟨h.tree.leafPool.valid (i := 0) (List.mem_append_right _ hmem)
    (by omega), hinv, hsize, fun k => by rw [hleaf k, h.leaf k], h.nonnull, ?_⟩
  intro k b hk
  dsimp only at hk ⊢
  rw [Function.update_apply]
  split
  case isTrue heq =>
    rw [heq, ha, Option.some.injEq] at hk
    rw [← hk, ← hvalue]
    exact read_write_self m.mem a value
  case isFalse heq =>
    obtain ⟨hl', hne'⟩ := h.leaf_of_stored hk
    have hb : b ∈ g.leaves := by
      rw [← hl']
      exact h.tree.leafAt_mem (by rw [hl']; exact hne')
    have hba : b ≠ a := by
      rintro rfl
      exact heq (h.injective hk ha)
    rw [← h.content k b hk, ← hsize]
    exact read_congr (hother b hb hba)

-- ================================================================== runs

/-- A tree that was set up is empty. -/
theorem cxRadixTreeInit_ok {elementSize : Nat}
    (hsize : 16 * elementSize < 2 ^ 64) {t : CxRadixTree}
    (hrun : (cxRadixTreeInit elementSize).run m = .ok t m') :
    m' = m ∧ t.leafPool.elementSize = elementSize ∧ 8 ≤ elementSize
      ∧ ∃ g, TreeInv m t g ∧ g.leaves = [] ∧ ∀ k, leafAt m t g.levels k = 0 := by
  obtain ⟨p₁, hrun₁, hsize₁, hpool₁⟩ := run_cxPreallocPoolInit2 m 8
    radixBranchSize (by decide) (by decide) (by decide)
  unfold cxRadixTreeInit cxPreallocPoolInit at hrun
  rw [C.run_bind, hrun₁, C.chain_ok] at hrun
  by_cases h8 : 8 ≤ elementSize
  · obtain ⟨p₂, hrun₂, hsize₂, hpool₂⟩ := run_cxPreallocPoolInit2 m 8
      elementSize (by decide) h8 (by omega)
    rw [C.run_bind, hrun₂, C.chain_ok, C.run_pure, Outcome.ok.injEq] at hrun
    rcases hrun with ⟨rfl, rfl⟩
    refine ⟨rfl, hsize₂, h8, ⟨0, [], [], [], [], []⟩, ⟨⟨by decide, rfl, hpool₁,
      hsize₁, ?_, fun h => absurd h (by decide)⟩, hpool₂, ?_⟩, rfl, ?_⟩
    · have hnull : ∀ p : List Nat, walk m.mem 0 p = 0 := walk_null m.mem
      exact ⟨fun p _ _ hne => absurd (hnull p) hne,
        fun p _ _ hne => absurd (hnull p) hne,
        fun p _ _ _ _ _ _ hne => absurd (hnull p) hne⟩
    · intro c hc
      cases hc
    · intro k
      unfold leafAt
      split
      · exact walk_null m.mem _
      · rfl
  · -- the element size assert of the leaf pool fires
    have hassert : (C.assert (elementSize ≥ reuseListSize)).run m
        = .fault .assertion m := by
      unfold C.assert
      rw [if_neg (show ¬ elementSize ≥ reuseListSize from h8)]
      rfl
    rw [C.run_bind, cxPreallocPoolInit2, C.run_bind, hassert] at hrun
    cases hrun

theorem mapInv_start {elementSize : Nat} (hsize : 16 * elementSize < 2 ^ 64)
    (hrun : (MapClient.start elementSize).run m = .ok s m') :
    ∃ g, MapInv elementSize s m' g := by
  unfold MapClient.start at hrun
  rw [C.run_bind] at hrun
  cases hinit : (cxRadixTreeInit elementSize).run m with
  | fault e m₁ =>
      rw [hinit] at hrun
      cases hrun
  | ok t m₁ =>
      rw [hinit, C.chain_ok, C.run_pure, Outcome.ok.injEq] at hrun
      rcases hrun with ⟨rfl, rfl⟩
      obtain ⟨rfl, hes, -, g, hinv, -, hleaf⟩ := cxRadixTreeInit_ok hsize hinit
      exact ⟨g, hinv, hes, fun k => hleaf k, fun k => by simp,
        fun k a hk => by simp at hk⟩

/-- Every operation keeps the tree and the record in agreement. -/
theorem mapInv_exec (h : MapInv size s m g) {op : MapOp} (hop : op.Allowed s) :
    (MapClient.exec op s).Granted m fun s' m' => ∃ g', MapInv size s' m' g' := by
  cases op with
  | put key value =>
      obtain ⟨hfree, hvalue⟩ := hop
      have hleaf := h.leaf key
      rw [hfree] at hleaf
      refine granted_bind (cxRadixTreePut_granted h.tree hvalue hleaf) ?_
      rintro ⟨leaf, t'⟩ m' ⟨g', hne, hstep, hleaves, hupd, hread⟩
      rw [h.elementSize] at hread
      exact granted_pure ⟨g', h.added hne hstep hleaves hupd hread⟩
  | newLeaf key =>
      have hleaf := h.leaf key
      rw [show s.stored key = none from hop] at hleaf
      refine granted_bind (cxRadixTreeNewLeaf_granted h.tree hleaf) ?_
      rintro ⟨leaf, t'⟩ m' ⟨g', hne, hstep, hleaves, hupd⟩
      have hmem : leaf ∈ g'.recycled ++ g'.leaves := by simp [hleaves]
      refine granted_bind_run (run_readBytes
        (hstep.inv.leafPool.valid (i := 0) hmem (by dsimp only; omega))) ?_
      refine granted_pure ⟨g', h.added hne hstep hleaves hupd ?_⟩
      rw [← h.elementSize, ← hstep.size]
  | write key value =>
      obtain ⟨hkey, hvalue⟩ := hop
      obtain ⟨hvalid, hinv⟩ := h.written hkey (hvalue.trans h.elementSize)
      refine granted_bind_run (run_writeBytes hvalid) ?_
      exact granted_pure ⟨g, hinv⟩
  | delete key =>
      obtain ⟨a, ha⟩ := Option.ne_none_iff_exists'.mp
        (show s.stored key ≠ none from hop)
      obtain ⟨hl, hne⟩ := h.leaf_of_stored ha
      obtain ⟨t', m', g', hrun, -, hstep, hleaves, -, hupd⟩ :=
        run_cxRadixTreeDelete h.tree
          (show leafAt m s.tree g.levels key ≠ 0 by rw [hl]; exact hne)
      refine granted_bind_run hrun ?_
      exact granted_pure ⟨g', h.removed hstep hleaves hupd⟩
  | get key =>
      refine granted_bind_run (run_cxRadixTreeGet h.tree key) ?_
      exact granted_pure ⟨g, h⟩

theorem mapInv_run {mem : Mem} {oracle : Nat → Nat} {elementSize : Nat}
    (hsize : 16 * elementSize < 2 ^ 64)
    (h : MapClient.Run elementSize mem oracle s m) :
    ∃ g, MapInv elementSize s m g :=
  h.invariant (fun s m => ∃ g, MapInv elementSize s m g)
    (fun _ _ hrun _ => mapInv_start hsize hrun)
    (fun _ _ _ ⟨_, hinv⟩ hop => mapInv_exec hinv hop)

/-- The tree refines the user's record in every state of every run, and
no allowed operation goes wrong there. -/
theorem cxRadixTree_refines_map {mem : Mem} {oracle : Nat → Nat}
    {elementSize : Nat} (hsize : 16 * elementSize < 2 ^ 64)
    (h : MapClient.Run elementSize mem oracle s m) :
    (∀ k, (cxRadixTreeGet s.tree k).run m = .ok ((s.stored k).getD 0) m)
      ∧ (∀ k, s.stored k ≠ some 0)
      ∧ (∀ k k' a, s.stored k = some a → s.stored k' = some a → k = k')
      ∧ (∀ k a, s.stored k = some a → m.mem.read a elementSize = s.content k)
      ∧ ∀ op : MapOp, op.Allowed s →
        (MapClient.exec op s).Granted m fun s' m' =>
          (∀ k, s'.stored k ≠ some 0)
          ∧ ∀ k a, s'.stored k = some a →
            m'.mem.read a elementSize = s'.content k := by
  obtain ⟨g, hinv⟩ := mapInv_run hsize h
  refine ⟨fun k => ?_, hinv.nonnull, fun k k' a => hinv.injective, hinv.content,
    fun op hop => ?_⟩
  · rw [run_cxRadixTreeGet hinv.tree k, hinv.leaf k]
  · refine (mapInv_exec hinv hop).imp ?_
    rintro s' m' ⟨g', hinv'⟩
    exact ⟨hinv'.nonnull, hinv'.content⟩

/-- The smallest key is put, the tree grows to full height under the
largest one, the smallest key is deleted and put again. -/
theorem cxRadixTree_refines_map_extremes : ∃ s m,
    MapClient.Run 8 (fun _ => 0) (fun t => 2 ^ 20 * (t + 1)) s m
      ∧ (s.stored 0).isSome ∧ (s.stored 0xffffffffffffffff).isSome
      ∧ ∀ k, (cxRadixTreeGet s.tree k).run m = .ok ((s.stored k).getD 0) m := by
  obtain ⟨s, m, hrun, htest⟩ := reached_of_replayFrom
    (MapClient.start 8) MapClient.exec
    (fun s _ op => op.Allowed s)
    (Machine.boot (fun _ => 0) (fun t => 2 ^ 20 * (t + 1)))
    [.put 0 [1, 2, 3, 4, 5, 6, 7, 8], .newLeaf 0xffffffffffffffff, .delete 0,
      .put 0 [8, 7, 6, 5, 4, 3, 2, 1]]
    (fun x => (x.1.stored 0).isSome && (x.1.stored 0xffffffffffffffff).isSome)
    (by decide +kernel)
  rw [Bool.and_eq_true] at htest
  exact ⟨s, m, hrun, htest.1, htest.2,
    (cxRadixTree_refines_map (by decide) hrun).1⟩

end Cextras.Collection
