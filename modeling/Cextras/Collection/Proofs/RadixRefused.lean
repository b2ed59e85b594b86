/-
A radix tree whose new_leaf is refused memory. The call may ask for three
kinds of nodes, in this order: branches above the root until the key fits
(`growth`), branches missing on the way down (`missing`), and the leaf.

- A refused branch on the way down is entered all the same: the code stores
  the null pointer and follows it.
- A refused branch above the root leaves the capacity one level too high,
  and a lookup then takes a leaf for a branch.
- A refused leaf is stored in the leaf place. If there was a leaf, it is
  lost; if not, nothing has changed for any lookup.

`cxRadixTreeNewLeaf_refused` says so for every reachable tree and every
pattern of refusals.
-/
import Mathlib.Data.Nat.Digits.Lemmas
import Cextras.Memory.Proofs.PoolServes
import Cextras.Collection.Proofs.RadixRuns

namespace Cextras.Collection

open Lib Memory

variable {m m' : Machine} {t t' : CxRadixTree} {g g' : Ghost}

-- =========================================================== what is asked

/-- The bytes of a key or a capacity, without leading zeros. -/
def byteLength (c : UInt64) : Nat := (Nat.digits 256 c.toNat).length

/-- The branches new_leaf asks for above the root. -/
def growth (t : CxRadixTree) (key : UInt64) : Nat :=
  byteLength key - byteLength t.capacity

/-- The branches that are missing between a node and the leaf place at the
end of a path. -/
def missing (mem : Mem) : Nat → List Nat → Nat
  | node, i :: j :: p =>
      (if walk mem node [i] = 0 then 1 else 0)
        + missing mem (walk mem node [i]) (j :: p)
  | _, _ => 0

/-- All the branches new_leaf asks for, if each request is granted: a tree
that grows has nothing on the way to its new keys. -/
def branchesNeeded (t : CxRadixTree) (m : Machine) (key : UInt64) : Nat :=
  growth t key + missing m.mem (if growth t key = 0 then t.root else 0)
    (path (max (byteLength key) (byteLength t.capacity)) key.toNat)

-- ========================================================== what is claimed

/-- When new_leaf is refused anything, it returns null, a put copies
nothing, and every lookup answers as before. -/
def SurvivesRefusal (t : CxRadixTree) (m : Machine) (key : UInt64) : Prop :=
  ((cxRadixTreeNewLeaf t key).run m).machine.refused = true →
    ∃ t' m', (cxRadixTreeNewLeaf t key).run m = .ok (0, t') m'
      ∧ (∀ value, (cxRadixTreePut t key value).run m = .ok (0, t') m')
      ∧ ∀ k, ∃ a, (cxRadixTreeGet t k).run m = .ok a m
        ∧ (cxRadixTreeGet t' k).run m' = .ok a m'

/-- The refusals the tree is prepared for. -/
inductive Harmless (t : CxRadixTree) (m : Machine) (key : UInt64) : Prop where
  /-- every branch is granted, and there is no leaf to lose -/
  | leaf : Serves t.branchPool (branchesNeeded t m key) m →
      (cxRadixTreeGet t key).run m = .ok 0 m → Harmless t m key
  /-- the growth is refused to a tree that stores nothing -/
  | growth : ¬ Serves t.branchPool (growth t key) m →
      (∀ k, (cxRadixTreeGet t k).run m = .ok 0 m) → Harmless t m key

-- ================================================================ lengths

theorem byteLength_le_iff {c : UInt64} {n : Nat} :
    byteLength c ≤ n ↔ c.toNat < 256 ^ n :=
  Nat.digits_length_le_iff (by decide) c.toNat

@[simp] theorem byteLength_fullCapacity {n : Nat} (h : n ≤ 8) :
    byteLength (fullCapacity n) = n := by
  have hle : byteLength (fullCapacity n) ≤ n := by
    rw [byteLength_le_iff, fullCapacity_toNat h]
    have := Nat.pow_pos (n := n) (show 0 < 256 by decide)
    omega
  apply Nat.le_antisymm hle
  cases n with
  | zero => exact Nat.zero_le _
  | succ n =>
      by_contra hlt
      have hshort : byteLength (fullCapacity (n + 1)) ≤ n := by omega
      rw [byteLength_le_iff, fullCapacity_toNat h, Nat.pow_succ] at hshort
      have := Nat.pow_pos (n := n) (show 0 < 256 by decide)
      omega

/-- The condition of the resize loop. -/
theorem fullCapacity_lt_iff {n : Nat} (h : n ≤ 8) (key : UInt64) :
    fullCapacity n < key ↔ n < byteLength key := by
  rw [← UInt64.not_le, le_fullCapacity_iff h, ← byteLength_le_iff, Nat.not_le]

theorem byteLength_le (key : UInt64) : byteLength key ≤ 8 := by
  rw [byteLength_le_iff]
  exact key.toNat_lt

theorem TreeInv.growth_eq (h : TreeInv m t g) (key : UInt64) :
    growth t key = byteLength key - g.levels := by
  rw [growth, h.tree.capacity, byteLength_fullCapacity h.tree.levels]

-- ================================================================ missing

/-- Only the walks from the node on matter. -/
theorem missing_congr {mem mem' : Mem} {p : List Nat} :
    ∀ {a b : Nat}, (∀ s, s ≠ [] → s <+: p → walk mem a s = walk mem' b s) →
      missing mem a p = missing mem' b p := by
  induction p with
  | nil => intro _ _ _; rfl
  | cons i p ih =>
      intro a b h
      cases p with
      | nil => rfl
      | cons j p =>
          have hchild := h [i] (by simp) ⟨j :: p, rfl⟩
          rw [missing, missing, hchild]
          rw [ih (a := walk mem' b [i]) (b := walk mem' b [i])]
          intro s _ hs
          have hdeep := h (i :: s) (by simp) (List.cons_prefix_cons.mpr ⟨rfl, hs⟩)
          rw [← List.singleton_append, walk_append, walk_append, hchild] at hdeep
          exact hdeep

-- ================================================================= resize

/-- The tree with room for the key, once its branches are granted. -/
structure Resized (m : Machine) (t : CxRadixTree) (g : Ghost) (key : UInt64)
    (m' : Machine) (t' : CxRadixTree) (g' : Ghost) : Prop where
  inv : TreeInv m' t' g'
  levels : g'.levels = max (byteLength key) g.levels
  leaf : ∀ k, leafAt m' t' g'.levels k = leafAt m t g.levels k
  same : byteLength key ≤ g.levels → t' = t ∧ m' = m
  /-- the new root has the old tree below child 0 and nothing else -/
  fresh : g.levels < byteLength key →
    ∀ j q, 0 < j → j < 256 → walk m'.mem t'.root (j :: q) = 0

theorem Resized.refl (h : TreeInv m t g) {key : UInt64}
    (hkey : byteLength key ≤ g.levels) : Resized m t g key m t g :=
  ⟨h, by omega, fun _ => rfl, fun _ => ⟨rfl, rfl⟩, fun hlt => by omega⟩

/-- The requests of the resize loop are the first ones to its pool. -/
theorem resizeLoop_served {key : UInt64} (turns : Nat) :
    ∀ {m : Machine} {t : CxRadixTree} {g : Ghost}, TreeInv m t g →
      m.refused = false → 8 ≤ g.levels + turns →
      Serves t.branchPool (byteLength key - g.levels) m →
      ∃ t' m' g', (resizeLoop turns t key).run m = .ok (0, t') m'
        ∧ m'.refused = false ∧ Resized m t g key m' t' g'
        ∧ ∀ k, Serves t'.branchPool k m'
          ↔ Serves t.branchPool (byteLength key - g.levels + k) m := by
  have hshort := byteLength_le key
  induction turns with
  | zero =>
      intro m t g h hu hturns hs
      have hkey : byteLength key ≤ g.levels := by omega
      exact ⟨t, m, g, rfl, hu, .refl h hkey, fun k => by
        rw [Nat.sub_eq_zero_of_le hkey, Nat.zero_add]⟩
  | succ turns ih =>
      intro m t g h hu hturns hs
      have hlt := fullCapacity_lt_iff h.tree.levels key
      rw [← h.tree.capacity] at hlt
      rw [resizeLoop]
      by_cases hgrow : g.levels < byteLength key
      · rw [if_pos (hlt.mpr hgrow)]
        have hcount : byteLength key - g.levels
            = byteLength key - (g.levels + 1) + 1 := by omega
        rw [hcount] at hs
        obtain ⟨w, p', m₁, chunks', hrun, hu₁, hh, hs₁⟩ := hs.next h.tree.pool
        obtain ⟨hw, hvalid, hstep, hfresh, hleaf⟩ :=
          h.reroot (by omega) hh rfl rfl rfl
        have hmem := fun k => serves_mem (n := k) (m := m₁) hh.inv.reuse.head_nil
          (m₁.mem.store64 (w + 8 * 0) t.root)
        obtain ⟨t', m', g', hrun', hu', hres, hserves⟩ :=
          ih hstep.inv hu₁ (by simp only; omega) ((hmem _).mpr hs₁)
        refine ⟨t', m', g', ?_, hu', ⟨hres.inv, ?_, ?_, ?_, ?_⟩, ?_⟩
        · rw [C.run_bind, hrun, C.chain_ok]
          dsimp only
          rw [if_neg hw, C.run_bind, run_store64 hvalid, C.chain_ok]
          exact hrun'
        · rw [hres.levels]
          simp only
          omega
        · intro k
          rw [hres.leaf k]
          exact hleaf k
        · intro hle
          omega
        · intro _
          by_cases hdone : byteLength key ≤ g.levels + 1
          · obtain ⟨rfl, rfl⟩ := hres.same hdone
            exact hfresh
          · exact hres.fresh (Nat.not_le.mp hdone)
        · intro k
          rw [hserves k, hcount, Nat.add_right_comm, serves_succ hrun]
          exact hmem _
      · have hkey : byteLength key ≤ g.levels := by omega
        rw [if_neg (fun h0 => hgrow (hlt.mp h0))]
        exact ⟨t, m, g, rfl, hu, .refl h hkey, fun k => by
          rw [Nat.sub_eq_zero_of_le hkey, Nat.zero_add]⟩

/-- What is left of the tree when a branch of the growth is refused: it
is whole, but the capacity is that of a higher one. -/
structure Overgrown (m : Machine) (t : CxRadixTree) (g : Ghost) (m' : Machine)
    (t' : CxRadixTree) : Prop where
  tree : ∃ whole n chunks branches leaves,
    BranchInv m' whole n chunks branches leaves ∧ n < 8
      ∧ t'.root = whole.root ∧ t'.capacity = fullCapacity (n + 1)
      ∧ ∀ k, leafAt m' whole n k = leafAt m t g.levels k

theorem resizeLoop_refused {key : UInt64} (turns : Nat) :
    ∀ {m : Machine} {t : CxRadixTree} {g : Ghost}, TreeInv m t g →
      m.refused = false → 8 ≤ g.levels + turns →
      ¬ Serves t.branchPool (byteLength key - g.levels) m →
      ∃ t' m', (resizeLoop turns t key).run m = .ok (-1, t') m'
        ∧ Overgrown m t g m' t' := by
  have hshort := byteLength_le key
  induction turns with
  | zero =>
      intro m t g h hu hturns hs
      rw [Nat.sub_eq_zero_of_le (by omega)] at hs
      exact absurd hu hs
  | succ turns ih =>
      intro m t g h hu hturns hs
      have hlt := fullCapacity_lt_iff h.tree.levels key
      rw [← h.tree.capacity] at hlt
      rw [resizeLoop]
      by_cases hgrow : g.levels < byteLength key
      · rw [if_pos (hlt.mpr hgrow)]
        rw [show byteLength key - g.levels
          = byteLength key - (g.levels + 1) + 1 by omega] at hs
        rcases not_serves_next hs h.tree.pool hu with
          ⟨p', m₁, hrun, -, hmem, harena⟩ | ⟨w, p', m₁, chunks', hrun, hu₁, hh, hs₁⟩
        · -- the capacity was raised before the branch was asked for
          have hwhole := h.transfer hmem harena
          refine ⟨{ t with
              capacity := growCapacity t.capacity, branchPool := p' }, m₁, ?_,
            t, g.levels, g.branchChunks, g.branches, g.leaves,
            hwhole.tree, by omega, rfl, ?_, ?_⟩
          · rw [C.run_bind, hrun, C.chain_ok]
            dsimp only
            rw [if_pos rfl]
            rfl
          · show growCapacity t.capacity = _
            rw [h.tree.capacity]
            rfl
          · intro k
            unfold leafAt
            rw [hmem]
        · obtain ⟨hw, hvalid, hstep, -, hleaf⟩ :=
            h.reroot (by omega) hh rfl rfl rfl
          obtain ⟨t', m', hrun', hover⟩ := ih hstep.inv hu₁ (by simp only; omega)
            (fun h0 => hs₁ ((serves_mem hh.inv.reuse.head_nil _).mp h0))
          obtain ⟨whole, n, chunks, branches, leaves, hbr, hn, hroot, hcap,
            hleaf'⟩ := hover.tree
          refine ⟨t', m', ?_, whole, n, chunks, branches, leaves, hbr, hn, hroot,
            hcap, fun k => (hleaf' k).trans (hleaf k)⟩
          rw [C.run_bind, hrun, C.chain_ok]
          dsimp only
          rw [if_neg hw, C.run_bind, run_store64 hvalid, C.chain_ok]
          exact hrun'
      · rw [Nat.sub_eq_zero_of_le (by omega)] at hs
        exact absurd hu hs

/-- One level too many: the lookup goes to the leaf place, and reads a word
of the leaf it finds there. -/
theorem run_getLoop_beyond {n : Nat} {chunks : List Block}
    {branches leaves : List Nat} (h : BranchInv m t n chunks branches leaves)
    (hn : n < 8) {i : Nat} :
    ∀ (r p : List Nat) (key : UInt64), Digits (p ++ r) →
      p.length + r.length = n →
      lowDigits (r.length + 1) key.toNat = r ++ [i] →
      (getLoop (walk m.mem t.root p) (fullCapacity (r.length + 1)) key).run m
        = (if walk m.mem t.root (p ++ r) = 0 then pure 0
          else C.load64 (walk m.mem t.root (p ++ r) + 8 * i) : C Nat).run m := by
  intro r
  induction r with
  | nil =>
      intro p key _ _ hkey
      obtain ⟨hcap, hshift, hidx, -⟩ := loop_turn (by simp) hkey
      rw [List.append_nil, getLoop]
      by_cases hnode : walk m.mem t.root p = 0
      · rw [dif_neg (fun hc => hc.2 hnode), if_pos hnode, hnode]
      · rw [dif_pos ⟨hcap, hnode⟩, if_neg hnode, hidx, hshift]
        simp only [C.run_bind, List.length_nil, fullCapacity]
        cases (C.load64 (walk m.mem t.root p + 8 * i)).run m with
        | fault e m₁ => rfl
        | ok child m₁ =>
            rw [C.chain_ok, getLoop, dif_neg (fun hc => hc.1 rfl), C.run_pure]
  | cons j r ih =>
      intro p key hd hlen hkey
      rw [List.length_cons] at hlen hkey ⊢
      obtain ⟨hcap, hshift, hidx, hrest⟩ := loop_turn (by omega) hkey
      obtain ⟨hp, hjr⟩ := Digits.append.mp hd
      have hj : j < 256 := hjr j (List.mem_cons_self ..)
      rw [getLoop]
      by_cases hnode : walk m.mem t.root p = 0
      · rw [dif_neg (fun hc => hc.2 hnode), hnode,
          if_pos (walk_eq_zero_of_extends hnode _)]
      · rw [dif_pos ⟨hcap, hnode⟩, C.run_bind, hidx,
          run_load64 (h.valid hp (by omega) hj hnode), C.chain_ok, hshift]
        have hchild : m.mem.load64 (walk m.mem t.root p + 8 * j)
            = walk m.mem t.root (p ++ [j]) := by
          rw [walk_append, walk_cons hnode, walk_nil]
        rw [hchild, ih (p ++ [j]) (key >>> 8) (by simpa using hd)
          (by rw [List.length_append, List.length_singleton]; omega) hrest,
          List.append_assoc, List.singleton_append]

/-- A lookup in the overgrown tree: the last byte of the key picks a word of
the leaf that is stored under the others. -/
theorem Overgrown.run_get (h : Overgrown m t g m' t') (key : UInt64) :
    (cxRadixTreeGet t' key).run m'
      = (if leafAt m t g.levels (key / 256) = 0 then pure 0
        else C.load64 (leafAt m t g.levels (key / 256) + 8 * (key.toNat % 256)) :
          C Nat).run m' := by
  obtain ⟨whole, n, chunks, branches, leaves, hbr, hn, hroot, hcap, hleaf⟩ :=
    h.tree
  have hdiv : (key / 256).toNat = key.toNat / 256 := by
    rw [UInt64.toNat_div]
    rfl
  have hfit := le_fullCapacity_iff (n := n + 1) hn key
  rw [← hleaf]
  unfold cxRadixTreeGet leafAt
  rw [hcap, hdiv]
  by_cases hk : key.toNat < 256 ^ (n + 1)
  · have hle := hfit.mpr hk
    have hin : key.toNat / 256 < 256 ^ n := by
      rw [Nat.pow_succ] at hk
      omega
    have hlow : lowDigits ((path n (key.toNat / 256)).length + 1)
        (prepareKey t' key).toNat
          = path n (key.toNat / 256) ++ [key.toNat % 256] := by
      rw [path_length, lowDigits_prepareKey hn hcap, path_succ]
    have hrun := run_getLoop_beyond hbr hn (path n (key.toNat / 256)) []
      (prepareKey t' key) (path_digits _ _) (by simp) hlow
    rw [path_length, walk_nil, List.nil_append] at hrun
    rw [if_neg (by simpa using hle), if_pos hin, hroot]
    exact hrun
  · have hgt : key > fullCapacity (n + 1) := by
      rw [gt_iff_lt, ← UInt64.not_le, hfit]
      exact hk
    have hout : ¬ key.toNat / 256 < 256 ^ n := by
      rw [Nat.pow_succ] at hk
      omega
    rw [if_pos hgt, if_neg hout, if_pos rfl]

-- =============================================================== descent

/-- The request of one turn above the last level: one branch, if the child
is missing. -/
def askedAt (m : Machine) (t : CxRadixTree) (p : List Nat) : Nat :=
  if walk m.mem t.root p = 0 then 1 else 0

theorem missing_step (mem : Mem) {root : Nat} {p r : List Nat} {i : Nat}
    (hr : r ≠ []) :
    missing mem (walk mem root p) (i :: r)
      = (if walk mem root (p ++ [i]) = 0 then 1 else 0)
        + missing mem (walk mem root (p ++ [i])) r := by
  cases r with
  | nil => exact absurd rfl hr
  | cons j r => rw [missing, ← walk_append]

/-- A turn above the last level that is refused nothing. -/
theorem fillChild_descend (h : TreeInv m t g) {p : List Nat} {i : Nat}
    (hp : Digits p) (hlen : p.length + 1 < g.levels) (hi : i < 256)
    (hb : walk m.mem t.root p ≠ 0) (hu : m.refused = false)
    (hs : Serves t.branchPool (askedAt m t (p ++ [i])) m) :
    ∃ t' m', (fillChild t (walk m.mem t.root p) i false
        (decide (walk m.mem t.root (p ++ [i]) ≠ 0))).run m = .ok t' m'
      ∧ m'.refused = false
      ∧ ∀ c, Serves t'.branchPool c m'
        ↔ Serves t.branchPool (askedAt m t (p ++ [i]) + c) m := by
  unfold fillChild askedAt at *
  rw [if_neg Bool.false_ne_true]
  by_cases hempty : walk m.mem t.root (p ++ [i]) = 0
  · rw [if_pos hempty] at hs ⊢
    rw [if_pos (by simp [hempty])]
    obtain ⟨v, p', m₁, chunks', hrun, hu₁, hh, -⟩ := hs.next h.tree.pool
    obtain ⟨c, hc, hhas⟩ := h.tree.valid hp (by omega) hi hb
    have hvalid : m₁.Valid (walk m.mem t.root p + 8 * i) 8 :=
      ⟨c, hh.blocks c hc, hhas⟩
    refine ⟨{ t with branchPool := p' },
      { m₁ with mem := m₁.mem.store64 (walk m.mem t.root p + 8 * i) v },
      ?_, hu₁, ?_⟩
    · rw [C.run_bind, hrun, C.chain_ok]
      dsimp only
      rw [C.run_bind, run_store64 hvalid, C.chain_ok]
      rfl
    · intro c
      rw [Nat.add_comm 1 c, serves_succ hrun]
      exact serves_mem hh.inv.reuse.head_nil _
  · rw [if_neg hempty] at hs ⊢
    rw [if_neg (by simp [hempty])]
    exact ⟨t, m, rfl, hu, fun c => by rw [Nat.zero_add]⟩

/-- The descent goes one level down: what is left of it is the descent from
the child, which is there now. -/
theorem newLeafLoop_descend (h : TreeInv m t g) {p r : List Nat} {i : Nat}
    {key : UInt64} (occupied : Bool) (hd : Digits (p ++ i :: r))
    (hlen : p.length + (r.length + 1) = g.levels)
    (hkey : lowDigits (r.length + 1) key.toNat = i :: r) (hr : r ≠ [])
    (hb : walk m.mem t.root p ≠ 0) (hu : m.refused = false)
    (hs : Serves t.branchPool (askedAt m t (p ++ [i])) m) :
    ∃ t' m' g' occupied',
      (newLeafLoop t (walk m.mem t.root p) (fullCapacity (r.length + 1)) key
          occupied).run m
        = (newLeafLoop t' (walk m'.mem t'.root (p ++ [i]))
            (fullCapacity r.length) (key >>> 8) occupied').run m'
      ∧ m'.refused = false ∧ TreeInv m' t' g' ∧ g'.levels = g.levels
      ∧ g'.leaves = g.leaves ∧ walk m'.mem t'.root (p ++ [i]) ≠ 0
      ∧ (∀ q, Digits q → q.length ≤ g.levels → q ≠ p ++ [i] →
        walk m'.mem t'.root q = walk m.mem t.root q)
      ∧ missing m'.mem (walk m'.mem t'.root (p ++ [i])) r
        = missing m.mem (walk m.mem t.root (p ++ [i])) r
      ∧ ∀ c, Serves t'.branchPool c m'
        ↔ Serves t.branchPool (askedAt m t (p ++ [i]) + c) m := by
  have hrpos : 0 < r.length := List.length_pos_iff.mpr hr
  have hlevel : decide (p.length + 1 = g.levels) = false :=
    decide_eq_false (by omega)
  obtain ⟨hp, hir⟩ := Digits.append.mp hd
  have hi : i < 256 := hir i (List.mem_cons_self ..)
  have hpi : Digits (p ++ [i]) :=
    Digits.append.mpr ⟨hp, Digits.singleton.mpr hi⟩
  have hpil : (p ++ [i]).length = p.length + 1 := by simp
  obtain ⟨t', m', hfill, hu', hserves⟩ :=
    fillChild_descend h hp (by omega) hi hb hu hs
  obtain ⟨g', v, hv, hstep, hroot, -, hlevels, hleaves, hupd⟩ :=
    (fillChild_granted h hp (by omega) hi hb hlevel.symm).of_run hfill hu'
  rw [if_neg Bool.false_ne_true] at hleaves
  have hb' : walk m'.mem t.root p = walk m.mem t.root p := by
    rw [hupd p hp (by omega), if_neg]
    intro heq
    have := congrArg List.length heq
    simp at this
  have hvalid := hstep.inv.tree.valid (i := i) hp (by omega) hi
    (by rw [hroot, hb']; exact hb)
  rw [hroot, hb'] at hvalid
  have hnext : m'.mem.load64 (walk m.mem t.root p + 8 * i)
      = walk m'.mem t'.root (p ++ [i]) := by
    rw [walk_append, hroot, hb', walk_cons hb, walk_nil]
  have hother : ∀ q, Digits q → q.length ≤ g.levels → q ≠ p ++ [i] →
      walk m'.mem t'.root q = walk m.mem t.root q := by
    intro q hq hl hne
    rw [hroot, hupd q hq hl, if_neg hne]
  refine ⟨t', m', g', decide (walk m.mem t.root (p ++ [i]) ≠ 0), ?_, hu',
    hstep.inv, hlevels, hleaves, ?_, hother, ?_, hserves⟩
  · rw [run_newLeafLoop_turn h occupied hd hlen hkey hb, hlevel, C.run_bind,
      hfill, C.chain_ok, C.run_bind, run_load64 hvalid, C.chain_ok, hnext]
  · rw [hroot, hupd _ hpi (by omega), if_pos rfl]
    exact hv
  · -- below the child nothing has changed
    apply missing_congr
    intro s hs hsr
    have hsd : Digits (p ++ [i] ++ s) := by
      intro x hx
      rw [List.append_assoc, List.singleton_append] at hx
      rcases List.mem_append.mp hx with hx | hx
      · exact hp x hx
      · rcases List.mem_cons.mp hx with rfl | hx
        · exact hi
        · exact hir x (List.mem_cons_of_mem _ (hsr.subset hx))
    have hsl := hsr.length_le
    rw [← walk_append, ← walk_append]
    refine hother _ hsd (by rw [List.length_append, hpil]; omega) ?_
    intro heq
    exact hs (List.append_cancel_left (heq.trans (List.append_nil _).symm))

/-- The last turn, whatever the leaf pool answers. -/
theorem run_newLeafLoop_last (h : TreeInv m t g) {p : List Nat} {i v : Nat}
    {key : UInt64} {p' : CxPreallocPool} (occupied : Bool)
    (hd : Digits (p ++ [i])) (hlen : p.length + 1 = g.levels)
    (hkey : lowDigits 1 key.toNat = [i]) (hb : walk m.mem t.root p ≠ 0)
    (hget : (cxPreallocPoolGet t.leafPool).run m = .ok (v, p') m')
    (hvalid : m'.Valid (walk m.mem t.root p + 8 * i) 8) :
    (newLeafLoop t (walk m.mem t.root p) (fullCapacity 1) key occupied).run m
      = .ok (v % 2 ^ 64, decide (walk m.mem t.root (p ++ [i]) ≠ 0),
          { t with leafPool := p' })
        { m' with mem := m'.mem.store64 (walk m.mem t.root p + 8 * i) v } := by
  have hfill : (fillChild t (walk m.mem t.root p) i true
      (decide (walk m.mem t.root (p ++ [i]) ≠ 0))).run m
      = .ok { t with leafPool := p' }
        { m' with mem := m'.mem.store64 (walk m.mem t.root p + 8 * i) v } := by
    unfold fillChild
    rw [if_pos rfl, C.run_bind, hget, C.chain_ok]
    dsimp only
    rw [C.run_bind, run_store64 hvalid, C.chain_ok, C.run_pure]
  have hvalid' : Machine.Valid
      { m' with mem := m'.mem.store64 (walk m.mem t.root p + 8 * i) v }
      (walk m.mem t.root p + 8 * i) 8 := hvalid
  have hturn := run_newLeafLoop_turn (r := []) h occupied hd hlen hkey hb
  rw [List.length_nil, Nat.zero_add] at hturn
  rw [hturn, decide_eq_true hlen, C.run_bind, hfill, C.chain_ok, C.run_bind,
    run_load64 hvalid', C.chain_ok, newLeafLoop,
    dif_neg (by simp [fullCapacity]), C.run_pure, load64_store64_self]

/-- The branches on the way are granted and the leaf is refused: the null
pointer is stored in the leaf place, and nowhere else. -/
theorem newLeafLoop_leafRefused (r : List Nat) :
    ∀ {m : Machine} {t : CxRadixTree} {g : Ghost} (p : List Nat) (key : UInt64)
      (occupied : Bool), TreeInv m t g → m.refused = false → r ≠ [] →
      Digits (p ++ r) → p.length + r.length = g.levels →
      lowDigits r.length key.toNat = r → walk m.mem t.root p ≠ 0 →
      Serves t.branchPool (missing m.mem (walk m.mem t.root p) r) m →
      ((newLeafLoop t (walk m.mem t.root p) (fullCapacity r.length) key
        occupied).run m).machine.refused = true →
      ∃ t' m' chunks branches,
        (newLeafLoop t (walk m.mem t.root p) (fullCapacity r.length) key
            occupied).run m
          = .ok (0, decide (walk m.mem t.root (p ++ r) ≠ 0), t') m'
        ∧ BranchInv m' t' g.levels chunks branches g.leaves
        ∧ ∀ q, Digits q → q.length = g.levels → walk m'.mem t'.root q
          = if q = p ++ r then 0 else walk m.mem t.root q := by
  induction r with
  | nil => intro _ _ _ _ _ _ _ _ hne; exact absurd rfl hne
  | cons i r ih =>
      intro m t g p key occupied h hu _ hd hlen hkey hb hs hr
      rw [List.length_cons] at hlen hkey hr ⊢
      have hlev := h.tree.levels
      obtain ⟨hp, hir⟩ := Digits.append.mp hd
      have hi : i < 256 := hir i (List.mem_cons_self ..)
      have hpil : (p ++ [i]).length = p.length + 1 := by simp
      have happ : p ++ i :: r = p ++ [i] ++ r := by simp
      by_cases hlast : r = []
      · subst hlast
        rw [List.length_nil, Nat.zero_add] at hlen hkey hr ⊢
        obtain ⟨c, hc, hhas⟩ := h.tree.valid hp (by omega) hi hb
        cases hget : ((cxPreallocPoolGet t.leafPool).run m).machine.refused with
        | false =>
            -- then nothing was refused
            obtain ⟨⟨v, p'⟩, m₁, hrun, chunks', recycled', hh⟩ :=
              (cxPreallocPoolGet_granted h.leafPool).elim hget
            rw [hrun] at hget
            rw [run_newLeafLoop_last h occupied hd hlen hkey hb hrun
              ⟨c, hh.blocks c hc, hhas⟩] at hr
            have hr' : m₁.refused = true := hr
            rw [show m₁.refused = false from hget] at hr'
            cases hr'
        | true =>
            obtain ⟨p', m₁, hrun, -, hmem, harena⟩ :=
              cxPreallocPoolGet_refused h.leafPool hu hget
            have hinv := (h.transfer hmem harena).tree
            have hb₁ : walk m₁.mem t.root p ≠ 0 := by rwa [hmem]
            obtain ⟨hbr, hupd⟩ := hinv.storeChild (v := 0) g.leaves hp (by omega)
              hi hb₁ rfl (Nat.two_pow_pos 64) (fun hl => by omega)
              (fun h0 => absurd rfl h0) (fun h0 => absurd rfl h0)
              (fun h0 => absurd rfl h0)
              (fun q hq hl _ hne => hinv.shape.leaf q hq hl hne)
            have hrunLoop := run_newLeafLoop_last h occupied hd hlen hkey hb hrun
              ⟨c, by rw [harena]; exact hc, hhas⟩
            rw [hmem] at hrunLoop hbr hupd
            refine ⟨_, _, _, _, hrunLoop, ⟨hbr.levels, hbr.capacity, hbr.pool,
              hbr.size, hbr.shape, hbr.root⟩, ?_⟩
            intro q hq hl
            exact hupd q hq (by omega)
      · have hrpos : 0 < r.length := List.length_pos_iff.mpr hlast
        obtain ⟨-, -, -, hrest⟩ := loop_turn (by omega) hkey
        rw [missing_step m.mem hlast] at hs
        obtain ⟨t', m', g', occupied', hrun, hu', hinv', hlevels, hleaves, hchild,
          hother, hmissing, hserves⟩ := newLeafLoop_descend h occupied hd hlen hkey
            hlast hb hu (serves_mono hs)
        rw [hrun] at hr ⊢
        have hplace : walk m'.mem t'.root (p ++ [i] ++ r)
            = walk m.mem t.root (p ++ i :: r) := by
          rw [happ]
          refine hother _ (by rw [← happ]; exact hd) (by
            rw [List.length_append, hpil]; omega) ?_
          intro heq
          exact hlast (List.append_cancel_left
            (heq.trans (List.append_nil _).symm))
        obtain ⟨t'', m'', chunks, branches, hrun', hbr, hupd⟩ :=
          ih (p ++ [i]) (key >>> 8) occupied' hinv' hu' hlast
            (by rw [← happ]; exact hd) (by rw [hpil]; omega) hrest hchild
            (by rw [hmissing, hserves]; exact hs) hr
        rw [hplace] at hrun'
        rw [hlevels, hleaves] at hbr
        refine ⟨t'', m'', chunks, branches, hrun', hbr, ?_⟩
        intro q hq hl
        rw [hupd q hq (by omega), happ]
        split
        · rfl
        · refine hother q hq (by omega) ?_
          intro heq
          rw [heq, hpil] at hl
          omega

/-- A branch on the way is refused: the null pointer is followed. -/
theorem newLeafLoop_branchRefused (r : List Nat) :
    ∀ {m : Machine} {t : CxRadixTree} {g : Ghost} (p : List Nat) (key : UInt64)
      (occupied : Bool), TreeInv m t g → m.refused = false →
      Digits (p ++ r) → p.length + r.length = g.levels →
      lowDigits r.length key.toNat = r → walk m.mem t.root p ≠ 0 →
      ¬ Serves t.branchPool (missing m.mem (walk m.mem t.root p) r) m →
      ∃ m', (newLeafLoop t (walk m.mem t.root p) (fullCapacity r.length) key
        occupied).run m = .fault .nullDeref m' := by
  induction r with
  | nil => intro _ _ _ _ _ _ _ hu _ _ _ _ hs; exact absurd hu hs
  | cons i r ih =>
      intro m t g p key occupied h hu hd hlen hkey hb hs
      rw [List.length_cons] at hlen hkey ⊢
      have hlev := h.tree.levels
      obtain ⟨hp, hir⟩ := Digits.append.mp hd
      have hi : i < 256 := hir i (List.mem_cons_self ..)
      have hpil : (p ++ [i]).length = p.length + 1 := by simp
      have happ : p ++ i :: r = p ++ [i] ++ r := by simp
      by_cases hlast : r = []
      · subst hlast
        exact absurd hu hs
      · have hrpos : 0 < r.length := List.length_pos_iff.mpr hlast
        obtain ⟨-, -, -, hrest⟩ := loop_turn (by omega) hkey
        rw [missing_step m.mem hlast] at hs
        by_cases hask : Serves t.branchPool (askedAt m t (p ++ [i])) m
        · obtain ⟨t', m', g', occupied', hrun, hu', hinv', hlevels, -, hchild, -,
            hmissing, hserves⟩ := newLeafLoop_descend h occupied hd hlen hkey
              hlast hb hu hask
          rw [hrun]
          refine ih (p ++ [i]) (key >>> 8) occupied' hinv' hu'
            (by rw [← happ]; exact hd) (by rw [hpil]; omega) hrest hchild ?_
          rw [hmissing, hserves]
          exact hs
        · -- the child is missing, and its branch is refused here
          have hempty : walk m.mem t.root (p ++ [i]) = 0 := by
            by_contra hne
            unfold askedAt at hask
            rw [if_neg hne] at hask
            exact hask hu
          unfold askedAt at hask
          rw [if_pos hempty] at hask
          rcases not_serves_next hask h.tree.pool hu with
            ⟨p', m₁, hget, -, hmem, harena⟩ | ⟨_, _, m₁, _, _, hu₁, _, hnot⟩
          · obtain ⟨c, hc, hhas⟩ := h.tree.valid hp (by omega) hi hb
            have hvalid : m₁.Valid (walk m.mem t.root p + 8 * i) 8 :=
              ⟨c, by rw [harena]; exact hc, hhas⟩
            have hfill : (fillChild t (walk m.mem t.root p) i false
                (decide (walk m.mem t.root (p ++ [i]) ≠ 0))).run m
                = .ok { t with branchPool := p' } { m₁ with
                    mem := m₁.mem.store64 (walk m.mem t.root p + 8 * i) 0 } := by
              unfold fillChild
              rw [if_neg Bool.false_ne_true, if_pos (by simp [hempty]),
                C.run_bind, hget, C.chain_ok]
              dsimp only
              rw [C.run_bind, run_store64 hvalid, C.chain_ok, C.run_pure]
            have hvalid' : Machine.Valid
                { m₁ with mem := m₁.mem.store64 (walk m.mem t.root p + 8 * i) 0 }
                (walk m.mem t.root p + 8 * i) 8 := hvalid
            obtain ⟨n, hn⟩ : ∃ n, r.length = n + 1 :=
              ⟨r.length - 1, by omega⟩
            refine ⟨{ m₁ with
              mem := m₁.mem.store64 (walk m.mem t.root p + 8 * i) 0 }, ?_⟩
            rw [run_newLeafLoop_turn h occupied hd hlen hkey hb,
              decide_eq_false (by omega), C.run_bind, hfill, C.chain_ok,
              C.run_bind, run_load64 hvalid', C.chain_ok, load64_store64_self,
              Nat.zero_mod, newLeafLoop, hn,
              dif_pos (fullCapacity_ne_zero (by omega)), C.run_bind]
            rfl
          · exact absurd hu₁ hnot

-- ============================================================== new_leaf

/-- The growth was granted: what the rest of the call needs is what it
needed before, in the tree as it is now. -/
theorem resize_served (h : TreeInv m t g) (hu : m.refused = false)
    {key : UInt64} (hs : Serves t.branchPool (growth t key) m) :
    ∃ t' m' g', (resize t key).run m = .ok (0, t') m' ∧ m'.refused = false
      ∧ Resized m t g key m' t' g'
      ∧ (Serves t'.branchPool
          (missing m'.mem t'.root (path g'.levels key.toNat)) m'
        ↔ Serves t.branchPool (branchesNeeded t m key) m) := by
  rw [h.growth_eq key] at hs
  obtain ⟨t', m', g', hrun, hu', hres, hserves⟩ :=
    resizeLoop_served 8 h hu (by omega) hs
  refine ⟨t', m', g', hrun, hu', hres, ?_⟩
  rw [hserves]
  apply iff_of_eq
  refine congrArg (fun n => Serves t.branchPool n m) ?_
  unfold branchesNeeded
  rw [h.tree.capacity, byteLength_fullCapacity h.tree.levels, ← hres.levels,
    h.growth_eq key]
  by_cases hgrow : g.levels < byteLength key
  · -- the first byte of the key leads nowhere, in either tree
    rw [if_neg (by omega)]
    refine congrArg (byteLength key - g.levels + ·) (missing_congr ?_).symm
    intro s hs hsp
    have hlev : g'.levels = byteLength key := by
      rw [hres.levels]
      omega
    obtain ⟨n, hn⟩ : ∃ n, byteLength key = n + 1 := ⟨byteLength key - 1, by omega⟩
    have hlow : 256 ^ n ≤ key.toNat := by
      rw [← Nat.not_lt, ← byteLength_le_iff]
      omega
    have hhigh : key.toNat < 256 ^ (n + 1) := by
      rw [← byteLength_le_iff]
      omega
    obtain ⟨i, hi, hpath⟩ := path_grow_head hlow hhigh
    have hi' : i < 256 := path_digits (n + 1) key.toNat i (by simp [hpath])
    rw [hlev, hn, hpath] at hsp
    cases s with
    | nil => exact absurd rfl hs
    | cons j s =>
        obtain ⟨rfl, -⟩ := List.cons_prefix_cons.mp hsp
        rw [walk_null, hres.fresh hgrow j s (Nat.pos_of_ne_zero hi) hi']
  · obtain ⟨rfl, rfl⟩ := hres.same (by omega)
    rw [if_pos (by omega)]

/-- Where the call goes on once there is room for the key. -/
theorem run_cxRadixTreeNewLeaf_resized {key : UInt64}
    (hresize : (resize t key).run m = .ok (0, t') m') :
    (cxRadixTreeNewLeaf t key).run m
      = (if t'.root = 0 then do
          let (leaf, leafPool) ← cxPreallocPoolGet t'.leafPool
          pure (leaf, { t' with leafPool := leafPool, root := leaf })
        else do
          let (node, occupied, tree) ←
            newLeafLoop t' t'.root t'.capacity (prepareKey t' key) false
          if occupied then
            pure (0, tree)
          else
            pure (node, tree) : C (Nat × CxRadixTree)).run m' := by
  unfold cxRadixTreeNewLeaf
  rw [C.run_bind, hresize, C.chain_ok]
  dsimp only
  rw [if_neg (by decide)]

/-- A branch of the growth is refused. -/
theorem cxRadixTreeNewLeaf_overgrown (h : TreeInv m t g) (hu : m.refused = false)
    {key : UInt64} (hs : ¬ Serves t.branchPool (growth t key) m) :
    ∃ t' m', (cxRadixTreeNewLeaf t key).run m = .ok (0, t') m'
      ∧ Overgrown m t g m' t' := by
  rw [h.growth_eq key] at hs
  obtain ⟨t', m', hrun, hover⟩ := resizeLoop_refused 8 h hu (by omega) hs
  refine ⟨t', m', ?_, hover⟩
  have hresize : (resize t key).run m = .ok (-1, t') m' := hrun
  unfold cxRadixTreeNewLeaf
  rw [C.run_bind, hresize, C.chain_ok]
  dsimp only
  rw [if_pos (by decide)]
  rfl

/-- A branch on the way down is refused. -/
theorem cxRadixTreeNewLeaf_nullDeref (h : TreeInv m t g) (hu : m.refused = false)
    {key : UInt64} (hgrowth : Serves t.branchPool (growth t key) m)
    (hs : ¬ Serves t.branchPool (branchesNeeded t m key) m) :
    ∃ m', (cxRadixTreeNewLeaf t key).run m = .fault .nullDeref m' := by
  obtain ⟨t₁, m₁, g₁, hrun, hu₁, hres, hserves⟩ := resize_served h hu hgrowth
  rw [run_cxRadixTreeNewLeaf_resized hrun]
  have hroot : t₁.root ≠ 0 := by
    -- without a root no branch is missing
    intro hroot
    have hlev : g₁.levels = 0 := by
      by_contra hne
      exact hres.inv.tree.root (Nat.pos_of_ne_zero hne) hroot
    rw [← hserves, hlev] at hs
    exact hs hu₁
  obtain ⟨m', hloop⟩ := newLeafLoop_branchRefused (path g₁.levels key.toNat) []
    (prepareKey t₁ key) false hres.inv hu₁ (path_digits _ _) (by simp)
    (by
      rw [path_length]
      exact lowDigits_prepareKey hres.inv.tree.levels hres.inv.tree.capacity key)
    hroot (fun h0 => hs (hserves.mp h0))
  rw [path_length, walk_nil, ← hres.inv.tree.capacity] at hloop
  refine ⟨m', ?_⟩
  rw [if_neg hroot, C.run_bind, hloop]
  rfl

/-- All branches are granted and the leaf is refused: the leaf under the key
is gone, if there was one, and every other one is where it was. -/
theorem cxRadixTreeNewLeaf_leafRefused (h : TreeInv m t g)
    (hu : m.refused = false) {key : UInt64}
    (hgrowth : Serves t.branchPool (growth t key) m)
    (hs : Serves t.branchPool (branchesNeeded t m key) m)
    (hr : ((cxRadixTreeNewLeaf t key).run m).machine.refused = true) :
    ∃ t' m' n chunks branches leaves,
      (cxRadixTreeNewLeaf t key).run m = .ok (0, t') m'
      ∧ BranchInv m' t' n chunks branches leaves
      ∧ ∀ k, leafAt m' t' n k
        = if k = key then 0 else leafAt m t g.levels k := by
  obtain ⟨t₁, m₁, g₁, hrun, hu₁, hres, hserves⟩ := resize_served h hu hgrowth
  have hinv := hres.inv
  have hkey : key.toNat < 256 ^ g₁.levels := by
    rw [← byteLength_le_iff, hres.levels]
    exact Nat.le_max_left _ _
  rw [run_cxRadixTreeNewLeaf_resized hrun] at hr ⊢
  by_cases hroot : t₁.root = 0
  · -- the null pointer becomes the root, as it was
    rw [if_pos hroot] at hr ⊢
    have hlev : g₁.levels = 0 := by
      by_contra hne
      exact hinv.tree.root (Nat.pos_of_ne_zero hne) hroot
    have hget : ((cxPreallocPoolGet t₁.leafPool).run m₁).machine.refused
        = true := by
      cases hget : ((cxPreallocPoolGet t₁.leafPool).run m₁).machine.refused with
      | true => rfl
      | false =>
          obtain ⟨⟨v, p'⟩, m₂, hrun₂, -⟩ :=
            (cxPreallocPoolGet_granted hinv.leafPool).elim hget
          rw [hrun₂] at hget
          rw [C.run_bind, hrun₂, C.chain_ok] at hr
          have hr' : m₂.refused = true := hr
          rw [show m₂.refused = false from hget] at hr'
          cases hr'
    obtain ⟨p', m₂, hrun₂, -, hmem, harena⟩ :=
      cxPreallocPoolGet_refused hinv.leafPool hu₁ hget
    have hbr := (hinv.transfer hmem harena).tree
    refine ⟨{ t₁ with leafPool := p', root := 0 }, m₂, g₁.levels,
      g₁.branchChunks, g₁.branches, g₁.leaves, ?_, ⟨hbr.levels, hbr.capacity,
      hbr.pool, hbr.size, ?_, fun hpos => by omega⟩, ?_⟩
    · rw [C.run_bind, hrun₂, C.chain_ok]
      rfl
    · rw [← hroot]
      exact hbr.shape
    · intro k
      rw [← hres.leaf k]
      unfold leafAt
      rw [hroot]
      simp only [walk_null, ite_self]
  · rw [if_neg hroot] at hr ⊢
    have hpath : path g₁.levels key.toNat ≠ [] := by
      -- a tree of one leaf asks for nothing
      intro hnil
      have hlev : g₁.levels = 0 := by
        rw [← path_length g₁.levels key.toNat, hnil, List.length_nil]
      rw [newLeafLoop, hinv.tree.capacity, hlev, dif_neg (by simp [fullCapacity]),
        C.run_bind, C.run_pure, C.chain_ok] at hr
      have hr' : m₁.refused = true := hr
      rw [hu₁] at hr'
      cases hr'
    have hloopr : ((newLeafLoop t₁ t₁.root t₁.capacity (prepareKey t₁ key)
        false).run m₁).machine.refused = true := by
      rw [C.run_bind] at hr
      cases hrun₂ : (newLeafLoop t₁ t₁.root t₁.capacity (prepareKey t₁ key)
          false).run m₁ with
      | fault e m₂ =>
          rw [hrun₂] at hr
          exact hr
      | ok out m₂ =>
          obtain ⟨node, occupied, t₂⟩ := out
          rw [hrun₂, C.chain_ok] at hr
          dsimp only at hr
          split at hr
          · exact hr
          · exact hr
    have hloop := newLeafLoop_leafRefused (path g₁.levels key.toNat) []
      (prepareKey t₁ key) false hinv hu₁ hpath (path_digits _ _) (by simp)
      (by
        rw [path_length]
        exact lowDigits_prepareKey hinv.tree.levels hinv.tree.capacity key)
      hroot (hserves.mpr hs)
    rw [path_length, walk_nil, ← hinv.tree.capacity] at hloop
    obtain ⟨t', m', chunks, branches, hrun₂, hbr, hupd⟩ := hloop hloopr
    refine ⟨t', m', g₁.levels, chunks, branches, g₁.leaves, ?_, hbr, ?_⟩
    · rw [C.run_bind, hrun₂, C.chain_ok]
      dsimp only
      split
      · rfl
      · rfl
    · intro k
      rw [← hres.leaf k]
      refine leafAt_update hkey (fun q hq hl => ?_) k
      rw [hupd q hq hl, List.nil_append]

-- ================================================================ results

/-- A put that gets no leaf copies nothing. -/
theorem run_cxRadixTreePut_null {key : UInt64}
    (hrun : (cxRadixTreeNewLeaf t key).run m = .ok (0, t') m')
    (value : List Byte) :
    (cxRadixTreePut t key value).run m = .ok (0, t') m' := by
  unfold cxRadixTreePut
  rw [C.run_bind, hrun, C.chain_ok]
  dsimp only
  rw [if_neg (not_not.mpr rfl), C.run_pure]

/-- What a reachable tree does under every pattern of refusals.

- It survives the harmless ones.
- Where the growth was granted, it survives no other one.
- Where the growth was refused, it has grown all the same: a lookup reads a
  word of the leaf that is stored under the key without its last byte. -/
theorem cxRadixTreeNewLeaf_refused {elementSize : Nat} {mem : Mem}
    {oracle : Nat → Nat} (hsize : 16 * elementSize < 2 ^ 64)
    (h : TreeRun elementSize mem oracle t m) (key : UInt64) :
    (Harmless t m key → SurvivesRefusal t m key)
      ∧ (Serves t.branchPool (growth t key) m →
        ((cxRadixTreeNewLeaf t key).run m).machine.refused = true →
        SurvivesRefusal t m key → Harmless t m key)
      ∧ (¬ Serves t.branchPool (growth t key) m →
        ∃ t' m', (cxRadixTreeNewLeaf t key).run m = .ok (0, t') m'
          ∧ ∀ k leaf, (cxRadixTreeGet t (k / 256)).run m = .ok leaf m →
            (cxRadixTreeGet t' k).run m'
              = (if leaf = 0 then pure 0
                else C.load64 (leaf + 8 * (k.toNat % 256)) : C Nat).run m') := by
  obtain ⟨g, hinv⟩ := treeInv_run hsize h
  have hu := treeRun_unrefused h
  have hget := run_cxRadixTreeGet hinv
  refine ⟨?_, ?_, ?_⟩
  · intro hharmless hr
    cases hharmless with
    | leaf hs hnone =>
        obtain ⟨t', m', n, chunks, branches, leaves, hrun, hbr, hleaf⟩ :=
          cxRadixTreeNewLeaf_leafRefused hinv hu (serves_mono hs) hs hr
        refine ⟨t', m', hrun, run_cxRadixTreePut_null hrun, fun k =>
          ⟨leafAt m t g.levels k, hget k, ?_⟩⟩
        rw [run_cxRadixTreeGet_branches hbr k, hleaf k]
        by_cases heq : k = key
        · rw [hget key, Outcome.ok.injEq] at hnone
          rw [if_pos heq, heq, hnone.1]
        · rw [if_neg heq]
    | growth hs hempty =>
        obtain ⟨t', m', hrun, hover⟩ := cxRadixTreeNewLeaf_overgrown hinv hu hs
        refine ⟨t', m', hrun, run_cxRadixTreePut_null hrun, fun k =>
          ⟨0, hempty k, ?_⟩⟩
        have hnone := hempty (k / 256)
        rw [hget, Outcome.ok.injEq] at hnone
        rw [hover.run_get k, if_pos hnone.1, C.run_pure]
  · intro hgrowth hr hsurvives
    obtain ⟨t', m', hrun, -, hsame⟩ := hsurvives hr
    by_cases hs : Serves t.branchPool (branchesNeeded t m key) m
    · obtain ⟨t'', m'', n, chunks, branches, leaves, hrun', hbr, hleaf⟩ :=
        cxRadixTreeNewLeaf_leafRefused hinv hu hgrowth hs hr
      rw [hrun', Outcome.ok.injEq, Prod.mk.injEq] at hrun
      obtain ⟨⟨-, rfl⟩, rfl⟩ := hrun
      obtain ⟨a, hbefore, hafter⟩ := hsame key
      rw [run_cxRadixTreeGet_branches hbr, hleaf, if_pos rfl,
        Outcome.ok.injEq] at hafter
      rw [← hafter.1] at hbefore
      exact .leaf hs hbefore
    · obtain ⟨m'', hfault⟩ := cxRadixTreeNewLeaf_nullDeref hinv hu hgrowth hs
      rw [hfault] at hrun
      cases hrun
  · intro hs
    obtain ⟨t', m', hrun, hover⟩ := cxRadixTreeNewLeaf_overgrown hinv hu hs
    refine ⟨t', m', hrun, fun k leaf hleaf => ?_⟩
    rw [hget, Outcome.ok.injEq] at hleaf
    rw [hover.run_get k, hleaf.1]

/-- Sixteen leaves fill the first chunk, and the second one is refused: two
branches were built for a key whose leaf then was not to be had. -/
theorem cxRadixTreeNewLeaf_refused_leaf : ∃ t m,
    TreeRun 8 (fun _ => 0) (fun t => if t = 5 then 0 else 2 ^ 20 * (t + 1)) t m
      ∧ ((cxRadixTreeNewLeaf t 0x2105).run m).machine.refused = true
      ∧ branchesNeeded t m 0x2105 = 2 ∧ SurvivesRefusal t m 0x2105 := by
  obtain ⟨t, m, hrun, htest⟩ := reached_of_replayFrom
    (cxRadixTreeInit 8) TreeOp.exec (fun t _ op => op.Allowed t)
    (Machine.boot (fun _ => 0) fun t => if t = 5 then 0 else 2 ^ 20 * (t + 1))
    [.put 5 [1, 2, 3, 4, 5, 6, 7, 8], .newLeaf 6, .newLeaf 7, .newLeaf 8,
      .newLeaf 9, .newLeaf 10, .newLeaf 11, .newLeaf 12, .newLeaf 13,
      .newLeaf 14, .newLeaf 15, .newLeaf 16, .newLeaf 17, .newLeaf 18,
      .newLeaf 19, .newLeaf 20]
    (fun x => decide (Serves x.1.branchPool (branchesNeeded x.1 x.2 0x2105) x.2
      ∧ ((cxRadixTreeNewLeaf x.1 0x2105).run x.2).machine.refused = true
      ∧ branchesNeeded x.1 x.2 0x2105 = 2
      ∧ ((cxRadixTreeGet x.1 0x2105).run x.2).value = some 0))
    (by decide +kernel)
  obtain ⟨hs, hr, hneeded, hnone⟩ := of_decide_eq_true htest
  have hharmless : Harmless t m 0x2105 := by
    obtain ⟨g, hinv⟩ := treeInv_run (by decide) hrun
    have hget := run_cxRadixTreeGet hinv 0x2105
    dsimp only at hnone
    rw [hget] at hnone
    refine .leaf hs ?_
    rw [hget, Option.some.inj hnone]
  exact ⟨t, m, hrun, hr, hneeded,
    (cxRadixTreeNewLeaf_refused (by decide) hrun 0x2105).1 hharmless⟩

/-- One leaf is stored, under key 0, and the branch that key 1 needs is
refused. The lookup of key 0 then returns the first word of its leaf. -/
theorem cxRadixTreeNewLeaf_readsLeaf : ∃ t m,
    TreeRun 8 (fun _ => 0) (fun t => if t = 3 then 0 else 2 ^ 20 * (t + 1)) t m
      ∧ ¬ SurvivesRefusal t m 1 := by
  obtain ⟨t, m, hrun, htest⟩ := reached_of_replayFrom
    (cxRadixTreeInit 8) TreeOp.exec (fun t _ op => op.Allowed t)
    (Machine.boot (fun _ => 0) fun t => if t = 3 then 0 else 2 ^ 20 * (t + 1))
    [.put 0 [1, 2, 3, 4, 5, 6, 7, 8]]
    (fun x => decide (((cxRadixTreeNewLeaf x.1 1).run x.2).machine.refused = true
      ∧ ((cxRadixTreeNewLeaf x.1 1 >>= fun out => cxRadixTreeGet out.2 0).run
        x.2).value ≠ ((cxRadixTreeGet x.1 0).run x.2).value))
    (by decide +kernel)
  obtain ⟨hr, hdiffer⟩ := of_decide_eq_true htest
  refine ⟨t, m, hrun, fun hsurvives => ?_⟩
  obtain ⟨t', m', hnew, -, hsame⟩ := hsurvives hr
  obtain ⟨a, hbefore, hafter⟩ := hsame 0
  dsimp only at hdiffer
  rw [C.run_bind, hnew, C.chain_ok, hbefore, hafter] at hdiffer
  exact hdiffer rfl

end Cextras.Collection
