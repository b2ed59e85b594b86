/-
The reference-counted radix tree keeps a ledger (Lib/Ledger.lean):
`RcTree` says that the counter word of every live key is its number of
references, its leaf holds the value the ledger says it keeps, keys that
are not live are absent, and the callback ran on exactly the values the
ledger says were cleaned up. Each operation moves both sides the same
way, which is what the client runs at the end collect.
-/
import Cextras.Lib.Ledger
import Cextras.Collection.RcRadixTree
import Cextras.Collection.Proofs.RadixMap

namespace Cextras.Collection

open Lib Memory

/-- What users of a reference-counted tree know: the ledger of its keys
and the value pointer of each live key. -/
structure RcBook where
  ledger : Ledger UInt64 (List Byte)
  element : UInt64 → Nat

/-- The tree keeps the book. -/
structure RcTree (size : Nat) (m : Machine) (t : CxRcRadixTree) (b : RcBook)
    (g : Ghost) : Prop where
  tree : TreeInv m t.values g
  leafSize : t.values.leafPool.elementSize = rcSize + size
  elementSize : t.elementSize = size
  absent : ∀ k, b.ledger.refs k = 0 → leafAt m t.values g.levels k = 0
  present : ∀ k, b.ledger.refs k ≠ 0 → leafAt m t.values g.levels k ≠ 0
    ∧ b.element k = objData (leafAt m t.values g.levels k)
  counter : ∀ k, b.ledger.refs k ≠ 0 →
    m.mem.load64 (leafAt m t.values g.levels k) = b.ledger.refs k
  value : ∀ k, b.ledger.refs k ≠ 0 →
    b.ledger.stored k = some (m.mem.read (b.element k) size)
  small : ∀ k, b.ledger.refs k < 2 ^ 64
  calls : m.calls = b.ledger.log

variable {size : Nat} {m m' : Machine} {t : CxRcRadixTree} {b : RcBook}
  {g g' : Ghost} {k : UInt64}

/-- The leaf of a live key is a live leaf of the tree. -/
theorem RcTree.leaf_mem (h : RcTree size m t b g) (hk : b.ledger.refs k ≠ 0) :
    leafAt m t.values g.levels k ∈ g.leaves :=
  h.tree.leafAt_mem (h.present k hk).1

/-- The element lies behind the counter, so it is not at 0. -/
theorem RcTree.element_ne (h : RcTree size m t b g) (hk : b.ledger.refs k ≠ 0) :
    b.element k ≠ 0 := by
  rw [(h.present k hk).2, objData, rcSize]
  omega

/-- The counter of a live key is the word before its element. -/
theorem RcTree.load_element (h : RcTree size m t b g)
    (hk : b.ledger.refs k ≠ 0) :
    m.mem.load64 (b.element k - rcSize) = b.ledger.refs k := by
  rw [(h.present k hk).2, objData, Nat.add_sub_cancel]
  exact h.counter k hk

/-- Any part of a live key's leaf may be accessed. -/
theorem RcTree.valid (h : RcTree size m t b g) (hk : b.ledger.refs k ≠ 0)
    {i n : Nat} (hin : i + n ≤ rcSize + size) :
    m.Valid (leafAt m t.values g.levels k + i) n :=
  h.tree.leafPool.valid (List.mem_append_right _ (h.leaf_mem hk))
    (by rw [h.leafSize]; exact hin)

/-- Live keys have leaves of their own. -/
theorem RcTree.injective (h : RcTree size m t b g) {k' : UInt64}
    (hk : b.ledger.refs k ≠ 0)
    (heq : leafAt m t.values g.levels k = leafAt m t.values g.levels k') :
    k = k' :=
  h.tree.leafAt_injective heq (h.present k hk).1

/-- A change of the counter of one live key, from one count to another. -/
theorem RcTree.recount (h : RcTree size m t b g) {l : Ledger UInt64 (List Byte)}
    {n : Nat} (hk : b.ledger.refs k ≠ 0) (hn : n ≠ 0) (hlt : n < 2 ^ 64)
    (hrefs : ∀ k', l.refs k' = if k' = k then n else b.ledger.refs k')
    (hstored : ∀ k', b.ledger.refs k' ≠ 0 → l.stored k' = b.ledger.stored k')
    (hcalls : m'.calls = l.log) (harena : m'.arena = m.arena)
    (hmem : m'.mem = m.mem.store64 (leafAt m t.values g.levels k) n) :
    RcTree size m' t { b with ledger := l } g := by
  have hsize := h.leafSize
  have hin := h.leaf_mem hk
  simp only [rcSize] at hsize
  obtain ⟨hinv, hleaf, hother⟩ := h.tree.insideLeaf m' hin harena
    fun x hx => by
      rw [hmem]
      exact agree_store64 (b := x) (n := 1) (by omega) x (by omega) (by omega)
  have hlive : ∀ k', l.refs k' ≠ 0 → b.ledger.refs k' ≠ 0 := by
    intro k' hk'
    rw [hrefs k'] at hk'
    by_cases heq : k' = k
    · exact heq ▸ hk
    · rwa [if_neg heq] at hk'
  refine ⟨hinv, h.leafSize, h.elementSize, ?_, ?_, ?_, ?_, ?_, hcalls⟩
  · intro k' hk'
    rw [hleaf k']
    refine h.absent k' ?_
    rw [hrefs k'] at hk'
    split at hk'
    case isTrue => exact absurd hk' hn
    case isFalse => exact hk'
  · intro k' hk'
    rw [hleaf k']
    exact h.present k' (hlive k' hk')
  · intro k' hk'
    rw [hleaf k', hrefs k']
    by_cases heq : k' = k
    · rw [if_pos heq, heq, hmem, load64_store64_self, Nat.mod_eq_of_lt hlt]
    · rw [if_neg heq, ← h.counter k' (hlive k' hk')]
      refine load64_congr fun x hlo hhi => ?_
      refine hother _ (h.leaf_mem (hlive k' hk')) (fun hl => heq ?_) x hlo
        (by omega)
      exact h.injective (hlive k' hk') hl
  · intro k' hk'
    have hk'' := hlive k' hk'
    rw [hstored k' hk'', h.value k' hk'', Option.some.injEq]
    refine (read_congr fun x hlo hhi => ?_).symm
    have hel := (h.present k' hk'').2
    simp only [objData, rcSize] at hel
    by_cases heq : k' = k
    · -- the value starts behind the counter word
      rw [hmem]
      rw [heq] at hel hlo
      exact agree_store64 (b := x) (n := 1) (by omega) x (by omega) (by omega)
    · refine hother _ (h.leaf_mem hk'') (fun hl => heq ?_) x (by omega)
        (by omega)
      exact h.injective hk'' hl
  · intro k'
    rw [hrefs k']
    split
    · exact hlt
    · exact h.small k'

-- ================================================================ lookup

/-- The machine after the counter of an object was set. -/
def setCounter (m : Machine) (obj n : Nat) : Machine :=
  { m with mem := m.mem.store64 obj n }

theorem RcTree.run_get (h : RcTree size m t b g) (k : UInt64) :
    (cxRadixTreeGet t.values k).run m = .ok (leafAt m t.values g.levels k) m :=
  run_cxRadixTreeGet h.tree k

/-- The counter of a live key goes up by one. -/
theorem RcTree.run_incrementRc (h : RcTree size m t b g)
    (hk : b.ledger.refs k ≠ 0) (hlt : b.ledger.refs k + 1 < 2 ^ 64) :
    (incrementRc (leafAt m t.values g.levels k)).run m
      = .ok () (setCounter m (leafAt m t.values g.levels k)
        (b.ledger.refs k + 1)) := by
  have hv : m.Valid (leafAt m t.values g.levels k) 8 :=
    h.valid (i := 0) hk (by simp only [rcSize]; omega)
  rw [incrementRc, C.run_bind, run_load64 hv, C.chain_ok, h.counter k hk,
    Nat.mod_eq_of_lt hlt, run_store64 hv]
  rfl

/-- Taking a reference on a live key. -/
theorem RcTree.retained (h : RcTree size m t b g) (hk : b.ledger.refs k ≠ 0)
    (hlt : b.ledger.refs k + 1 < 2 ^ 64) :
    RcTree size (setCounter m (leafAt m t.values g.levels k)
      (b.ledger.refs k + 1)) t { b with ledger := b.ledger.retain k } g :=
  h.recount hk (by omega) hlt (fun _ => Ledger.refs_retain hk)
    (fun _ _ => Ledger.stored_retain) (by rw [Ledger.log_retain]; exact h.calls)
    rfl rfl

theorem RcTree.run_radixTreeRetain (h : RcTree size m t b g)
    (hk : b.ledger.refs k ≠ 0) (hlt : b.ledger.refs k + 1 < 2 ^ 64) :
    (radixTreeRetain t k).run m = .ok (leafAt m t.values g.levels k)
      (setCounter m (leafAt m t.values g.levels k) (b.ledger.refs k + 1)) := by
  have hv : m.Valid (leafAt m t.values g.levels k) 8 :=
    h.valid (i := 0) hk (by simp only [rcSize]; omega)
  rw [radixTreeRetain, C.run_bind, h.run_get k, C.chain_ok,
    if_neg (h.present k hk).1, C.run_bind, run_load64 hv, C.chain_ok,
    h.counter k hk, C.run_bind, run_assert (Nat.pos_of_ne_zero hk), C.chain_ok,
    C.run_bind, h.run_incrementRc hk hlt, C.chain_ok, C.run_pure]

theorem RcTree.run_radixTreeRetain_absent (h : RcTree size m t b g)
    (hk : b.ledger.refs k = 0) : (radixTreeRetain t k).run m = .ok 0 m := by
  rw [radixTreeRetain, C.run_bind, h.run_get k, C.chain_ok, h.absent k hk,
    if_pos rfl, C.run_pure]

-- ================================================================ retain

/-- Retaining a live key gives its value pointer. -/
theorem RcTree.run_retain (h : RcTree size m t b g) (hk : b.ledger.refs k ≠ 0)
    (hlt : b.ledger.refs k + 1 < 2 ^ 64) :
    ∃ m', (cxRcRadixTreeRetain t k).run m = .ok (b.element k) m'
      ∧ RcTree size m' t { b with ledger := b.ledger.retain k } g := by
  refine ⟨_, ?_, h.retained hk hlt⟩
  rw [cxRcRadixTreeRetain, C.run_bind, h.run_radixTreeRetain hk hlt, C.chain_ok,
    if_neg (h.present k hk).1, C.run_pure, (h.present k hk).2]

theorem RcTree.run_retain_absent (h : RcTree size m t b g)
    (hk : b.ledger.refs k = 0) : (cxRcRadixTreeRetain t k).run m = .ok 0 m := by
  rw [cxRcRadixTreeRetain, C.run_bind, h.run_radixTreeRetain_absent hk,
    C.chain_ok, if_pos rfl, C.run_pure]

/-- Retaining the value of a live key. -/
theorem RcTree.run_retainValue (h : RcTree size m t b g)
    (hk : b.ledger.refs k ≠ 0) (hlt : b.ledger.refs k + 1 < 2 ^ 64) :
    ∃ m', (cxRcRadixTreeRetainValue t (b.element k)).run m = .ok () m'
      ∧ RcTree size m' t { b with ledger := b.ledger.retain k } g := by
  refine ⟨_, ?_, h.retained hk hlt⟩
  rw [cxRcRadixTreeRetainValue, (h.present k hk).2, objData, Nat.add_sub_cancel]
  exact h.run_incrementRc hk hlt

-- =================================================================== put

/-- Putting under a live key: the value is cleaned up and the stored one
retained. -/
theorem RcTree.run_put_live (h : RcTree size m t b g) {v : List Byte}
    (hk : b.ledger.refs k ≠ 0) (hlt : b.ledger.refs k + 1 < 2 ^ 64) :
    ∃ m', (cxRcRadixTreePut t k v).run m = .ok (b.element k, t) m'
      ∧ m'.calls = m.calls ++ [v]
      ∧ RcTree size m' t { b with ledger := b.ledger.put k v } g := by
  refine ⟨{ setCounter m (leafAt m t.values g.levels k) (b.ledger.refs k + 1)
    with calls := m.calls ++ [v] }, ?_, rfl, ?_⟩
  · rw [cxRcRadixTreePut, C.run_bind, h.run_radixTreeRetain hk hlt, C.chain_ok,
      if_neg (h.present k hk).1, C.run_bind, run_callback, C.chain_ok,
      C.run_pure, (h.present k hk).2]
    rfl
  · exact h.recount hk (by omega) hlt (fun _ => Ledger.refs_put ..)
      (fun _ hk' => Ledger.stored_put hk')
      (by rw [Ledger.log_put_live hk, ← h.calls]) rfl rfl

/-- A new leaf with a value and a counter of one. -/
theorem RcTree.stored (h : RcTree size m t b g) {v : List Byte} {leaf : Nat}
    {t₁ : CxRadixTree} (hk : b.ledger.refs k = 0) (hv : v.length = size)
    (hne : leaf ≠ 0) (hstep : TreeStep m t.values g m' t₁ g')
    (hleaves : g'.leaves = leaf :: g.leaves)
    (hleaf : ∀ k', leafAt m' t₁ g'.levels k'
      = if k' = k then leaf else leafAt m t.values g.levels k') :
    RcTree size
      { m' with mem := (m'.mem.write (objData leaf) v).store64 leaf 1 }
      { t with values := t₁ }
      { ledger := b.ledger.put k v
        element := Function.update b.element k (objData leaf) } g' := by
  have hsize : t₁.leafPool.elementSize = 8 + size :=
    hstep.size.trans h.leafSize
  have hin : leaf ∈ g'.leaves := by simp [hleaves]
  have hout : ∀ x, (x < leaf ∨ leaf + t₁.leafPool.elementSize ≤ x) →
      (m'.mem.write (objData leaf) v).store64 leaf 1 x = m'.mem x := by
    intro x hx
    rw [agree_store64 (b := x) (n := 1) (by omega) x (by omega) (by omega)]
    exact write_apply_outside (by simp only [objData, rcSize]; omega)
  obtain ⟨hinv, hleaf', hother⟩ := hstep.inv.insideLeaf
    { m' with mem := (m'.mem.write (objData leaf) v).store64 leaf 1 }
    hin rfl hout
  -- a key that was live keeps its leaf, and its bytes
  have hold : ∀ k', k' ≠ k → (b.ledger.put k v).refs k' ≠ 0 →
      b.ledger.refs k' ≠ 0 ∧ ∀ x, leafAt m t.values g.levels k' ≤ x →
        x < leafAt m t.values g.levels k' + (8 + size) →
        (m'.mem.write (objData leaf) v).store64 leaf 1 x = m.mem x := by
    intro k' hne' hk'
    rw [Ledger.refs_put, if_neg hne'] at hk'
    have hmem := h.leaf_mem hk'
    have hmem' : leafAt m t.values g.levels k' ∈ g'.leaves := by
      rw [hleaves]
      exact List.mem_cons_of_mem _ hmem
    have hdiff : leafAt m t.values g.levels k' ≠ leaf := by
      have hnd := (List.nodup_append.mp hstep.inv.leafPool.nodup).2.1
      rw [hleaves] at hnd
      exact fun heq => (List.nodup_cons.mp hnd).1 (heq ▸ hmem)
    have hls := h.leafSize
    simp only [rcSize] at hls
    refine ⟨hk', fun x hlo hhi => ?_⟩
    exact (hother _ hmem' hdiff x hlo (by omega)).trans
      (hstep.bytes _ hmem hmem' x hlo (by omega))
  refine ⟨hinv, hsize, h.elementSize, ?_, ?_, ?_, ?_, ?_, ?_⟩
  · intro k' hk'
    dsimp only at hk' ⊢
    rw [Ledger.refs_put] at hk'
    rw [hleaf' k', hleaf k']
    by_cases heq : k' = k
    · rw [if_pos heq] at hk'
      omega
    · rw [if_neg heq] at hk' ⊢
      exact h.absent k' hk'
  · intro k' hk'
    dsimp only at hk' ⊢
    rw [hleaf' k', hleaf k', Function.update_apply]
    by_cases heq : k' = k
    · rw [if_pos heq, if_pos heq]
      exact ⟨hne, rfl⟩
    · rw [if_neg heq, if_neg heq]
      exact h.present k' (hold k' heq hk').1
  · intro k' hk'
    dsimp only at hk' ⊢
    rw [hleaf' k', hleaf k', Ledger.refs_put]
    by_cases heq : k' = k
    · rw [if_pos heq, if_pos heq, load64_store64_self, hk]
      rfl
    · obtain ⟨hlive, hbytes⟩ := hold k' heq hk'
      rw [if_neg heq, if_neg heq, ← h.counter k' hlive]
      exact load64_congr fun x hlo hhi => hbytes x hlo (by omega)
  · intro k' hk'
    dsimp only at hk' ⊢
    rw [Function.update_apply]
    by_cases heq : k' = k
    · subst heq
      rw [if_pos rfl, Ledger.stored_put_self hk, Option.some.injEq]
      have hread : ((m'.mem.write (objData leaf) v).store64 leaf 1).read
          (objData leaf) size = (m'.mem.write (objData leaf) v).read
          (objData leaf) size :=
        read_congr (agree_store64 (by simp only [objData, rcSize]; omega))
      rw [hread, ← hv, read_write_self]
    · obtain ⟨hlive, hbytes⟩ := hold k' heq hk'
      rw [if_neg heq, Ledger.stored_put hlive, h.value k' hlive,
        Option.some.injEq]
      have hel := (h.present k' hlive).2
      simp only [objData, rcSize] at hel
      exact (read_congr fun x hlo hhi => hbytes x (by omega) (by omega)).symm
  · intro k'
    dsimp only
    rw [Ledger.refs_put]
    split
    · omega
    · exact h.small k'
  · dsimp only
    rw [Ledger.log_put_dead hk, ← h.calls]
    exact hstep.calls

/-- Putting under a key that is not live stores the value. -/
theorem RcTree.put_granted (h : RcTree size m t b g) {v : List Byte}
    (hk : b.ledger.refs k = 0) (hv : v.length = size) :
    (cxRcRadixTreePut t k v).Granted m fun r m' => ∃ g',
      RcTree size m' r.2 { ledger := b.ledger.put k v
                           element := Function.update b.element k r.1 } g' := by
  have hes := h.elementSize
  refine granted_bind_run (h.run_radixTreeRetain_absent hk) ?_
  rw [if_pos rfl]
  refine granted_bind (cxRadixTreeNewLeaf_granted h.tree (h.absent k hk)) ?_
  rintro ⟨leaf, t₁⟩ m₁ ⟨g₁, hne, hstep, hleaves, hleaf⟩
  have hmem : leaf ∈ g₁.recycled ++ g₁.leaves := by simp [hleaves]
  have hsize : t₁.leafPool.elementSize = rcSize + size :=
    hstep.size.trans h.leafSize
  simp only [rcSize] at hsize
  refine granted_bind_run (run_assert hne) ?_
  have htake : v.take t.elementSize = v := List.take_of_length_le (by omega)
  refine granted_bind_run (run_writeBytes ?_) ?_
  · rw [htake]
    exact hstep.inv.leafPool.valid hmem (by dsimp only [rcSize]; omega)
  · refine granted_bind_run (run_store64 ?_ 1) ?_
    · exact hstep.inv.leafPool.valid (i := 0) hmem (by dsimp only; omega)
    · rw [htake]
      exact granted_pure ⟨g₁, h.stored hk hv hne hstep hleaves hleaf⟩

-- =============================================================== release

/-- Releasing a key that is not live does nothing. -/
theorem RcTree.run_release_absent (h : RcTree size m t b g)
    (hk : b.ledger.refs k = 0) :
    (cxRcRadixTreeRelease t k).run m = .ok (-1, t) m := by
  rw [cxRcRadixTreeRelease, C.run_bind, h.run_get k, C.chain_ok, h.absent k hk,
    if_pos rfl, C.run_pure]

/-- The leaf of a key whose last reference went is gone. -/
theorem RcTree.dropped (h : RcTree size m t b g) {m₁ : Machine}
    {t₁ : CxRadixTree} {v : List Byte} (hk : b.ledger.refs k = 1)
    (hv : b.ledger.stored k = some v)
    (hm₁ : m₁ = { m with calls := m.calls ++ [v] })
    (hstep : TreeStep m₁ t.values g m' t₁ g')
    (hleaves : g'.leaves = g.leaves.erase (leafAt m t.values g.levels k))
    (hleaf : ∀ k', leafAt m' t₁ g'.levels k'
      = if k' = k then 0 else leafAt m t.values g.levels k') :
    RcTree size m' { t with values := t₁ }
      { b with ledger := b.ledger.release k } g' := by
  have hk0 : b.ledger.refs k ≠ 0 := by omega
  have hsize : t₁.leafPool.elementSize = 8 + size :=
    hstep.size.trans h.leafSize
  have hls := h.leafSize
  simp only [rcSize] at hls
  have hold : ∀ k', (b.ledger.release k).refs k' ≠ 0 →
      k' ≠ k ∧ b.ledger.refs k' ≠ 0
        ∧ ∀ x, leafAt m t.values g.levels k' ≤ x →
          x < leafAt m t.values g.levels k' + (8 + size) →
          m'.mem x = m.mem x := by
    intro k' hk'
    rw [Ledger.refs_release hk0] at hk'
    split at hk'
    case isTrue => omega
    case isFalse hne =>
      refine ⟨hne, hk', fun x hlo hhi => ?_⟩
      have hmem := h.leaf_mem hk'
      have hdiff : leafAt m t.values g.levels k' ≠ leafAt m t.values g.levels k :=
        fun heq => hne (h.injective hk' heq)
      rw [hstep.bytes _ hmem
        (by rw [hleaves]; exact (List.mem_erase_of_ne hdiff).mpr hmem) x hlo
        (by omega), hm₁]
  refine ⟨hstep.inv, hsize, h.elementSize, ?_, ?_, ?_, ?_, ?_, ?_⟩
  · intro k' hk'
    dsimp only at hk' ⊢
    rw [hleaf k']
    rw [Ledger.refs_release hk0] at hk'
    split at hk'
    case isTrue heq => rw [if_pos heq]
    case isFalse heq =>
      rw [if_neg heq]
      exact h.absent k' hk'
  · intro k' hk'
    obtain ⟨hne, hlive, -⟩ := hold k' hk'
    dsimp only
    rw [hleaf k', if_neg hne]
    exact h.present k' hlive
  · intro k' hk'
    obtain ⟨hne, hlive, hbytes⟩ := hold k' hk'
    dsimp only
    rw [hleaf k', if_neg hne, Ledger.refs_release hk0, if_neg hne,
      ← h.counter k' hlive]
    exact load64_congr fun x hlo hhi => hbytes x hlo (by omega)
  · intro k' hk'
    obtain ⟨hne, hlive, hbytes⟩ := hold k' hk'
    dsimp only
    rw [Ledger.stored_release, h.value k' hlive, Option.some.injEq]
    have hel := (h.present k' hlive).2
    simp only [objData, rcSize] at hel
    exact (read_congr fun x hlo hhi => hbytes x (by omega) (by omega)).symm
  · intro k'
    dsimp only
    rw [Ledger.refs_release hk0]
    split
    · omega
    · exact h.small k'
  · dsimp only
    rw [Ledger.log_release_last hk hv, ← h.calls, hstep.calls, hm₁]

/-- Releasing a live key: its counter goes down, and with the last
reference the stored value is cleaned up and the key gone. -/
theorem RcTree.run_release (h : RcTree size m t b g)
    (hk : b.ledger.refs k ≠ 0) :
    ∃ t' m' g', (cxRcRadixTreeRelease t k).run m = .ok (0, t') m'
      ∧ m'.refused = m.refused
      ∧ RcTree size m' t' { b with ledger := b.ledger.release k } g' := by
  obtain ⟨hne, hel⟩ := h.present k hk
  have hv8 : m.Valid (leafAt m t.values g.levels k) 8 :=
    h.valid (i := 0) hk (by simp only [rcSize]; omega)
  have hvs : m.Valid (objData (leafAt m t.values g.levels k)) t.elementSize :=
    h.valid (i := rcSize) hk (by rw [h.elementSize])
  have hpos : b.ledger.refs k > 0 := Nat.pos_of_ne_zero hk
  by_cases hlast : b.ledger.refs k = 1
  · have hvalue := h.value k hk
    rw [hel, ← h.elementSize] at hvalue
    -- the callback runs before the leaf is recycled
    obtain ⟨t₁, m₁, g₁, hrun, href, hstep, hleaves, -, hleaf⟩ :=
      run_cxRadixTreeDelete (m := { m with calls := m.calls ++
        [m.mem.read (objData (leafAt m t.values g.levels k)) t.elementSize] })
        (h.tree.transfer rfl rfl) hne
    refine ⟨{ t with values := t₁ }, m₁, g₁, ?_, href,
      h.dropped hlast hvalue rfl hstep hleaves hleaf⟩
    rw [cxRcRadixTreeRelease, C.run_bind, h.run_get k, C.chain_ok, if_neg hne,
      C.run_bind, run_load64 hv8, C.chain_ok, h.counter k hk, C.run_bind,
      run_assert hpos, C.chain_ok, if_pos hlast, C.run_bind, run_readBytes hvs,
      C.chain_ok, C.run_bind, run_callback, C.chain_ok, C.run_bind, hrun,
      C.chain_ok, C.run_pure]
  · refine ⟨t, setCounter m (leafAt m t.values g.levels k) (b.ledger.refs k - 1),
      g, ?_, rfl, h.recount hk (by omega) ?_ (fun _ => Ledger.refs_release hk)
        (fun _ _ => Ledger.stored_release)
        (by rw [Ledger.log_release_more hlast]; exact h.calls) rfl rfl⟩
    · rw [cxRcRadixTreeRelease, C.run_bind, h.run_get k, C.chain_ok, if_neg hne,
        C.run_bind, run_load64 hv8, C.chain_ok, h.counter k hk, C.run_bind,
        run_assert hpos, C.chain_ok, if_neg hlast, C.run_bind, run_store64 hv8,
        C.chain_ok, C.run_pure]
      rfl
    · have := h.small k
      omega

-- ================================================================= client

/-- A user of one reference-counted tree, and its book. -/
structure RcClient where
  tree : CxRcRadixTree
  book : RcBook

inductive RcOp where
  | put (key : UInt64) (value : List Byte)
  | retain (key : UInt64)
  | retainValue (key : UInt64)
  | release (key : UInt64)

/-- References are taken as long as their number fits a counter, and on
value pointers only while their key is live. -/
def RcOp.Allowed (s : RcClient) : RcOp → Prop
  | .put k v => v.length = s.tree.elementSize ∧ s.book.ledger.refs k + 1 < 2 ^ 64
  | .retain k => s.book.ledger.refs k + 1 < 2 ^ 64
  | .retainValue k =>
      s.book.ledger.refs k ≠ 0 ∧ s.book.ledger.refs k + 1 < 2 ^ 64
  | .release _ => True

instance RcOp.decidableAllowed (s : RcClient) :
    (op : RcOp) → Decidable (op.Allowed s)
  | .put _ v => inferInstanceAs (Decidable (v.length = _ ∧ _))
  | .retain k => inferInstanceAs (Decidable (s.book.ledger.refs k + 1 < 2 ^ 64))
  | .retainValue k =>
      inferInstanceAs (Decidable (s.book.ledger.refs k ≠ 0 ∧ _))
  | .release _ => inferInstanceAs (Decidable True)

def RcClient.start (elementSize : Nat) : C RcClient := do
  let tree ← cxRcRadixTreeInit elementSize
  pure ⟨tree, .empty, fun _ => 0⟩

/-- One operation, entered into the book by what it returned. -/
def RcClient.exec : RcOp → RcClient → C RcClient
  | .put k v, s => do
      let (p, tree) ← cxRcRadixTreePut s.tree k v
      pure ⟨tree, s.book.ledger.put k v, Function.update s.book.element k p⟩
  | .retain k, s => do
      let p ← cxRcRadixTreeRetain s.tree k
      if p = 0 then
        pure s
      else
        pure { s with book := { s.book with ledger := s.book.ledger.retain k } }
  | .retainValue k, s => do
      cxRcRadixTreeRetainValue s.tree (s.book.element k)
      pure { s with book := { s.book with ledger := s.book.ledger.retain k } }
  | .release k, s => do
      let (rv, tree) ← cxRcRadixTreeRelease s.tree k
      if rv = 0 then
        pure ⟨tree, { s.book with ledger := s.book.ledger.release k }⟩
      else
        pure { s with tree := tree }

/-- The states of runs over a tree of `elementSize`-byte values. -/
abbrev RcClient.Run (elementSize : Nat) (mem : Mem) (oracle : Nat → Nat) :
    RcClient → Machine → Prop :=
  Reached (RcClient.start elementSize) RcClient.exec
    (fun s _ op => op.Allowed s) (Machine.boot mem oracle)

theorem rcTree_start {elementSize : Nat}
    (hsize : 16 * (rcSize + elementSize) < 2 ^ 64) {s : RcClient}
    {oracle : Nat → Nat} {mem : Mem}
    (hrun : (RcClient.start elementSize).run (Machine.boot mem oracle)
      = .ok s m) : ∃ g, RcTree elementSize m s.tree s.book g := by
  unfold RcClient.start cxRcRadixTreeInit at hrun
  simp only [C.run_bind] at hrun
  cases hinit : (cxRadixTreeInit (rcSize + elementSize)).run
      (Machine.boot mem oracle) with
  | fault e m₁ =>
      rw [hinit] at hrun
      cases hrun
  | ok t m₁ =>
      rw [hinit, C.chain_ok, C.run_pure, C.chain_ok, C.run_pure,
        Outcome.ok.injEq] at hrun
      rcases hrun with ⟨rfl, rfl⟩
      obtain ⟨rfl, hes, -, g, hinv, -, hleaf⟩ := cxRadixTreeInit_ok hsize hinit
      exact ⟨g, hinv, hes, rfl, fun k _ => hleaf k, fun k hk => absurd rfl hk,
        fun k hk => absurd rfl hk, fun k hk => absurd rfl hk,
        fun k => Nat.two_pow_pos 64, rfl⟩

/-- Every operation keeps the book. -/
theorem rcTree_exec {s : RcClient} (h : RcTree size m s.tree s.book g)
    {op : RcOp} (hop : op.Allowed s) :
    (RcClient.exec op s).Granted m fun s' m' =>
      ∃ g', RcTree size m' s'.tree s'.book g' := by
  cases op with
  | put k v =>
      obtain ⟨hv, hlt⟩ := hop
      rw [h.elementSize] at hv
      by_cases hk : s.book.ledger.refs k = 0
      · refine granted_bind (h.put_granted hk hv) ?_
        rintro ⟨p, t'⟩ m' ⟨g', hinv⟩
        exact granted_pure ⟨g', hinv⟩
      · obtain ⟨m', hrun, -, hinv⟩ := h.run_put_live (v := v) hk hlt
        refine granted_bind_run hrun ?_
        dsimp only
        rw [Function.update_eq_self]
        exact granted_pure ⟨g, hinv⟩
  | retain k =>
      by_cases hk : s.book.ledger.refs k = 0
      · refine granted_bind_run (h.run_retain_absent hk) ?_
        exact granted_pure ⟨g, h⟩
      · obtain ⟨m', hrun, hinv⟩ := h.run_retain hk hop
        refine granted_bind_run hrun ?_
        rw [if_neg (h.element_ne hk)]
        exact granted_pure ⟨g, hinv⟩
  | retainValue k =>
      obtain ⟨hk, hlt⟩ := hop
      obtain ⟨m', hrun, hinv⟩ := h.run_retainValue hk hlt
      refine granted_bind_run hrun ?_
      exact granted_pure ⟨g, hinv⟩
  | release k =>
      by_cases hk : s.book.ledger.refs k = 0
      · refine granted_bind_run (h.run_release_absent hk) ?_
        exact granted_pure ⟨g, h⟩
      · obtain ⟨t', m', g', hrun, -, hinv⟩ := h.run_release hk
        refine granted_bind_run hrun ?_
        exact granted_pure ⟨g', hinv⟩

theorem rcTree_run {mem : Mem} {oracle : Nat → Nat} {elementSize : Nat}
    {s : RcClient} (hsize : 16 * (rcSize + elementSize) < 2 ^ 64)
    (h : RcClient.Run elementSize mem oracle s m) :
    ∃ g, RcTree elementSize m s.tree s.book g :=
  h.invariant (fun s m => ∃ g, RcTree elementSize m s.tree s.book g)
    (fun _ _ hrun _ => rcTree_start hsize hrun)
    (fun _ _ _ ⟨_, hinv⟩ hop => rcTree_exec hinv hop)

/-- The ownership law in one state: what each operation does there, by
the references the book counts on its key. -/
structure RcOwnership (size : Nat) (s : RcClient) (m : Machine) : Prop where
  retain_absent : ∀ k, s.book.ledger.refs k = 0 →
    (cxRcRadixTreeRetain s.tree k).run m = .ok 0 m
  release_absent : ∀ k, s.book.ledger.refs k = 0 →
    (cxRcRadixTreeRelease s.tree k).run m = .ok (-1, s.tree) m
  element : ∀ k, s.book.ledger.refs k ≠ 0 → s.book.element k ≠ 0
  counter : ∀ k, s.book.ledger.refs k ≠ 0 →
    m.mem.load64 (s.book.element k - rcSize) = s.book.ledger.refs k
  value : ∀ k, s.book.ledger.refs k ≠ 0 →
    s.book.ledger.stored k = some (m.mem.read (s.book.element k) size)
  retain_live : ∀ k, s.book.ledger.refs k ≠ 0 →
    s.book.ledger.refs k + 1 < 2 ^ 64 →
    ∃ m', (cxRcRadixTreeRetain s.tree k).run m = .ok (s.book.element k) m'
  put_live : ∀ k v, s.book.ledger.refs k ≠ 0 →
    s.book.ledger.refs k + 1 < 2 ^ 64 →
    ∃ m', (cxRcRadixTreePut s.tree k v).run m = .ok (s.book.element k, s.tree) m'
      ∧ m'.calls = m.calls ++ [v]
      ∧ m'.mem.read (s.book.element k) size
        = m.mem.read (s.book.element k) size
  release_more : ∀ k, s.book.ledger.refs k ≠ 0 → s.book.ledger.refs k ≠ 1 →
    ∃ t' m', (cxRcRadixTreeRelease s.tree k).run m = .ok (0, t') m'
      ∧ m'.mem.load64 (s.book.element k - rcSize) = s.book.ledger.refs k - 1
      ∧ m'.mem.read (s.book.element k) size
        = m.mem.read (s.book.element k) size
      ∧ m'.calls = m.calls
  release_last : ∀ k v, s.book.ledger.refs k = 1 →
    s.book.ledger.stored k = some v →
    ∃ t' m', (cxRcRadixTreeRelease s.tree k).run m = .ok (0, t') m'
      ∧ m'.calls = m.calls ++ [v]
      ∧ (cxRcRadixTreeRetain t' k).run m' = .ok 0 m'
  calls : m.calls = s.book.ledger.log
  once : ∀ i < s.book.ledger.values.length, s.book.ledger.cleaned.count i
    + (s.book.ledger.live.map s.book.ledger.origin).count i = 1
  progress : ∀ op : RcOp, op.Allowed s →
    (RcClient.exec op s).Granted m fun _ _ => True

/-- The ownership law holds in every state of every run. -/
theorem cxRcRadixTree_ownership {mem : Mem} {oracle : Nat → Nat}
    {elementSize : Nat} {s : RcClient}
    (hsize : 16 * (rcSize + elementSize) < 2 ^ 64)
    (h : RcClient.Run elementSize mem oracle s m) :
    RcOwnership elementSize s m := by
  obtain ⟨g, hinv⟩ := rcTree_run hsize h
  exact {
    retain_absent := fun k => hinv.run_retain_absent
    release_absent := fun k => hinv.run_release_absent
    element := fun k hk => hinv.element_ne hk
    counter := fun k hk => hinv.load_element hk
    value := hinv.value
    retain_live := by
      intro k hk hlt
      obtain ⟨m', hrun, -⟩ := hinv.run_retain hk hlt
      exact ⟨m', hrun⟩
    put_live := by
      intro k v hk hlt
      obtain ⟨m', hrun, hcalls, hinv'⟩ := hinv.run_put_live (v := v) hk hlt
      refine ⟨m', hrun, hcalls, ?_⟩
      have hlive : (s.book.ledger.put k v).refs k ≠ 0 := by
        rw [Ledger.refs_put, if_pos rfl]
        omega
      have hvalue := hinv'.value k hlive
      rw [Ledger.stored_put hk, hinv.value k hk, Option.some.injEq] at hvalue
      exact hvalue.symm
    release_more := by
      intro k hk hmore
      obtain ⟨t', m', g', hrun, -, hinv'⟩ := hinv.run_release hk
      have hrefs : (s.book.ledger.release k).refs k
          = s.book.ledger.refs k - 1 := by
        rw [Ledger.refs_release hk, if_pos rfl]
      have hlive : (s.book.ledger.release k).refs k ≠ 0 := by omega
      refine ⟨t', m', hrun, ?_, ?_, ?_⟩
      · rw [← hrefs]
        exact hinv'.load_element hlive
      · have hvalue := hinv'.value k hlive
        rw [Ledger.stored_release, hinv.value k hk, Option.some.injEq] at hvalue
        exact hvalue.symm
      · rw [hinv'.calls, Ledger.log_release_more hmore, hinv.calls]
    release_last := by
      intro k v hk hv
      have hk0 : s.book.ledger.refs k ≠ 0 := by omega
      obtain ⟨t', m', g', hrun, -, hinv'⟩ := hinv.run_release hk0
      refine ⟨t', m', hrun, ?_, hinv'.run_retain_absent ?_⟩
      · rw [hinv'.calls, Ledger.log_release_last hk hv, hinv.calls]
      · rw [Ledger.refs_release hk0, if_pos rfl, hk]
    calls := hinv.calls
    once := fun i => Ledger.cleaned_count _
    progress := fun op hop => (rcTree_exec hinv hop).imp fun _ _ _ => trivial }

/-- A put, a second put that is turned away, a retain, and two releases:
one reference is left. -/
theorem cxRcRadixTree_ownership_shared : ∃ s m,
    RcClient.Run 8 (fun _ => 0) (fun t => 2 ^ 20 * (t + 1)) s m
      ∧ s.book.ledger.refs 5 = 1 ∧ RcOwnership 8 s m := by
  obtain ⟨s, m, hrun, htest⟩ := reached_of_replayFrom
    (RcClient.start 8) RcClient.exec
    (fun s _ op => op.Allowed s)
    (Machine.boot (fun _ => 0) (fun t => 2 ^ 20 * (t + 1)))
    [.put 5 [1, 2, 3, 4, 5, 6, 7, 8], .put 5 [8, 7, 6, 5, 4, 3, 2, 1],
      .retain 5, .retain 6, .release 5, .release 5, .release 6]
    (fun x => decide (x.1.book.ledger.refs 5 = 1))
    (by decide +kernel)
  exact ⟨s, m, hrun, of_decide_eq_true htest,
    cxRcRadixTree_ownership (by decide) hrun⟩

end Cextras.Collection
