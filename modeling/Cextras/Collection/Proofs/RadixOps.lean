/-
What the radix tree operations do to the key-to-leaf function `leafAt`:
get evaluates it, resize keeps it at every key, new_leaf adds one point
and delete removes one. Each loop is followed along the path of the key,
by induction on what is left of that path.
-/
import Cextras.Collection.Proofs.RadixInv

namespace Cextras.Collection

open Lib Memory

variable {m m' : Machine} {t t' : CxRadixTree} {g g' : Ghost}

-- ==================================================== the loops' counters

/-- One loop turn in terms of levels and digits: the remaining capacity
drops a level, and the remaining key its lowest byte. -/
theorem loop_turn {n i : Nat} {r : List Nat} {key : UInt64} (hn : n + 1 ≤ 8)
    (h : lowDigits (n + 1) key.toNat = i :: r) :
    fullCapacity (n + 1) ≠ 0 ∧ fullCapacity (n + 1) >>> 8 = fullCapacity n
      ∧ radixIndex key = i ∧ lowDigits n (key >>> 8).toNat = r := by
  rw [lowDigits, List.cons.injEq] at h
  refine ⟨fullCapacity_ne_zero hn, fullCapacity_shift hn, ?_, ?_⟩
  · rw [radixIndex_eq]
    exact h.1
  · rw [toNat_shiftRight_8]
    exact h.2

-- =================================================================== get

theorem run_getLoop {n : Nat} {chunks : List Block} {branches leaves : List Nat}
    (h : BranchInv m t n chunks branches leaves) :
    ∀ (r p : List Nat) (key : UInt64), Digits (p ++ r) →
      p.length + r.length = n → lowDigits r.length key.toNat = r →
      (getLoop (walk m.mem t.root p) (fullCapacity r.length) key).run m
        = .ok (walk m.mem t.root (p ++ r)) m := by
  have hlev := h.levels
  intro r
  induction r with
  | nil =>
      intro p key _ _ _
      rw [getLoop, dif_neg (fun hc => hc.1 rfl), List.append_nil]
      rfl
  | cons i r ih =>
      intro p key hd hlen hkey
      rw [List.length_cons] at hlen hkey ⊢
      obtain ⟨hcap, hshift, hidx, hrest⟩ := loop_turn (by omega) hkey
      obtain ⟨hp, hir⟩ := Digits.append.mp hd
      have hi : i < 256 := hir i (List.mem_cons_self ..)
      rw [getLoop]
      by_cases hnode : walk m.mem t.root p = 0
      · rw [dif_neg (fun hc => hc.2 hnode), hnode,
          walk_eq_zero_of_extends hnode]
        rfl
      · rw [dif_pos ⟨hcap, hnode⟩, C.run_bind, hidx,
          run_load64 (h.valid hp (by omega) hi hnode), C.chain_ok, hshift]
        have hchild : m.mem.load64 (walk m.mem t.root p + 8 * i)
            = walk m.mem t.root (p ++ [i]) := by
          rw [walk_append, walk_cons hnode, walk_nil]
        rw [hchild, ih (p ++ [i]) (key >>> 8) (by simpa using hd)
          (by rw [List.length_append, List.length_singleton]; omega) hrest,
          List.append_assoc, List.singleton_append]

/-- The lookup only looks at the branch half of the invariant. -/
theorem run_cxRadixTreeGet_branches {n : Nat} {chunks : List Block}
    {branches leaves : List Nat} (h : BranchInv m t n chunks branches leaves)
    (key : UInt64) : (cxRadixTreeGet t key).run m = .ok (leafAt m t n key) m := by
  have hlev := h.levels
  have hfit := le_fullCapacity_iff hlev key
  unfold cxRadixTreeGet leafAt
  rw [h.capacity]
  by_cases hk : key.toNat < 256 ^ n
  · have hle := hfit.mpr hk
    rw [if_neg (by simpa using hle), if_pos hk]
    have hrun := run_getLoop h (path n key.toNat) []
      (prepareKey t key) (path_digits _ _) (by simp)
      (by rw [path_length]; exact lowDigits_prepareKey hlev h.capacity key)
    rwa [path_length, walk_nil, List.nil_append] at hrun
  · have hgt : key > fullCapacity n := by
      rw [gt_iff_lt, ← UInt64.not_le, hfit]
      exact hk
    rw [if_pos hgt, if_neg hk, C.run_pure]

/-- The lookup returns the leaf under the key. -/
theorem run_cxRadixTreeGet (h : TreeInv m t g) (key : UInt64) :
    (cxRadixTreeGet t key).run m = .ok (leafAt m t g.levels key) m :=
  run_cxRadixTreeGet_branches h.tree key

-- ======================================================== one-key updates

/-- A one-point update of the path function is a one-point update of the
key-to-leaf function. -/
theorem leafAt_update {n v : Nat} {key : UInt64} (hk : key.toNat < 256 ^ n)
    (hupd : ∀ q, Digits q → q.length = n → walk m'.mem t'.root q
      = if q = path n key.toNat then v else walk m.mem t.root q)
    (k : UInt64) :
    leafAt m' t' n k = if k = key then v else leafAt m t n k := by
  unfold leafAt
  by_cases hkn : k.toNat < 256 ^ n
  · rw [if_pos hkn, if_pos hkn, hupd _ (path_digits _ _) (path_length _ _)]
    by_cases heq : k = key
    · rw [if_pos heq, if_pos (by rw [heq])]
    · rw [if_neg heq, if_neg]
      intro hpath
      exact heq (UInt64.toNat_inj.mp (path_injective hkn hk hpath))
  · rw [if_neg hkn, if_neg hkn, if_neg]
    rintro rfl
    exact hkn hk

theorem leafAt_congr {n : Nat}
    (hwalk : ∀ q, Digits q → q.length ≤ n →
      walk m'.mem t'.root q = walk m.mem t.root q) (k : UInt64) :
    leafAt m' t' n k = leafAt m t n k := by
  unfold leafAt
  rw [hwalk _ (path_digits _ _) (by rw [path_length])]

/-- A leaf that is found is a live leaf of the pool. -/
theorem TreeInv.leafAt_mem (h : TreeInv m t g) {k : UInt64}
    (hne : leafAt m t g.levels k ≠ 0) : leafAt m t g.levels k ∈ g.leaves := by
  unfold leafAt at hne ⊢
  split at hne
  case isTrue hk =>
    rw [if_pos hk]
    exact h.tree.shape.leaf _ (path_digits _ _) (path_length _ _) hne
  case isFalse => exact absurd rfl hne

/-- Different keys have different leaves. -/
theorem TreeInv.leafAt_injective (h : TreeInv m t g) {k k' : UInt64}
    (heq : leafAt m t g.levels k = leafAt m t g.levels k')
    (hne : leafAt m t g.levels k ≠ 0) : k = k' := by
  have hne' : leafAt m t g.levels k' ≠ 0 := heq ▸ hne
  unfold leafAt at heq hne hne'
  split at hne
  case isFalse => exact absurd rfl hne
  case isTrue hk =>
    split at hne'
    case isFalse => exact absurd rfl hne'
    case isTrue hk' =>
      rw [if_pos hk, if_pos hk'] at heq
      exact UInt64.toNat_inj.mp (path_injective hk hk'
        (h.tree.shape.inj _ _ (path_digits _ _) (path_digits _ _)
          (by rw [path_length]) (by rw [path_length]) heq hne))

-- ===================================================== writes to a leaf

/-- What happens inside one live leaf stays there: the tree, the lookups
and the other leaves see nothing of it. -/
theorem TreeInv.insideLeaf (m' : Machine) (h : TreeInv m t g) {a : Nat}
    (ha : a ∈ g.leaves)
    (harena : m'.arena = m.arena)
    (hout : ∀ x, (x < a ∨ a + t.leafPool.elementSize ≤ x) →
      m'.mem x = m.mem x) :
    TreeInv m' t g
      ∧ (∀ k, leafAt m' t g.levels k = leafAt m t g.levels k)
      ∧ ∀ b ∈ g.leaves, b ≠ a →
        m.mem.Agree m'.mem b t.leafPool.elementSize := by
  have hmem : a ∈ g.recycled ++ g.leaves := List.mem_append_right _ ha
  obtain ⟨d, hd, hhas⟩ := h.leafPool.inChunk hmem
  simp only [Block.Has] at hhas
  obtain ⟨hbr, hwalk⟩ := h.tree.frame m'
    (fun c hc => by rw [harena]; exact h.tree.pool.owned c hc)
    fun c hc x hx => by
      have hdis := h.apart c hc d hd
      simp only [Block.Disjoint, Block.Has] at hdis hx
      exact hout x (by omega)
  have hpool : PoolInv m' t.leafPool g.leafChunks g.recycled g.leaves :=
    h.leafPool.frame _ (fun c hc => by rw [harena]; exact h.leafPool.owned c hc)
      fun c _ x _ hx => hout x (hx a ha)
  refine ⟨⟨hbr, hpool, h.apart⟩, leafAt_congr hwalk, ?_⟩
  intro b hb hne x hlo hhi
  have hsep := h.leafPool.separated (List.mem_append_right _ hb) hmem hne
  exact hout x (by omega)

-- ================================================================ resize

/-- One turn of the resize loop: a fresh branch becomes the root, with
the old root as its child 0 and no other. No key's leaf moves. -/
theorem TreeInv.reroot {m₁ : Machine} (h : TreeInv m t g)
    (hlev : g.levels < 8)
    {w : Nat} {p' : CxPreallocPool} {chunks' : List Block}
    (hh : Handout m t.branchPool g.branchChunks [] g.branches w p' m₁ chunks' [])
    (hm' : m' = { m₁ with mem := m₁.mem.store64 (w + 8 * 0) t.root })
    (ht' : t' = { t with
      capacity := growCapacity t.capacity, branchPool := p', root := w })
    (hg' : g' = { g with
      levels := g.levels + 1, branchChunks := chunks',
      branches := w :: g.branches }) :
    w ≠ 0 ∧ m₁.Valid (w + 8 * 0) 8 ∧ TreeStep m t g m' t' g'
      ∧ (∀ j q, 0 < j → j < 256 → walk m'.mem w (j :: q) = 0)
      ∧ ∀ k, leafAt m' t' (g.levels + 1) k = leafAt m t g.levels k := by
  obtain ⟨hstep, hwalk₁, hkids⟩ := h.handoutBranch hh
  have hw : w ≠ 0 := hh.inv.ne_zero (List.mem_cons_self ..)
  have hroot : t.root < 2 ^ 64 := h.node_lt (q := []) (by intro i hi; cases hi)
    (Nat.zero_le _)
  have hmem : m'.mem = m₁.mem.store64 (w + 8 * 0) t.root := by rw [hm']
  have harena : m'.arena = m₁.arena := by rw [hm']
  have hwb : w ∉ g.branches := hh.not_mem
  -- the store lands in the new branch
  have hout : ∀ x, (x < w ∨ w + radixBranchSize ≤ x) → m'.mem x = m₁.mem x := by
    intro x hx
    rw [radixBranchSize, radixSize] at hx
    rw [hmem]
    exact agree_store64 (b := x) (n := 1) (by omega) x (by omega) (by omega)
  have hagree : ∀ b ∈ g.branches, m₁.mem.Agree m'.mem b radixBranchSize := by
    intro b hb x hlo hhi
    have hsep := hstep.inv.tree.branches_apart b (List.mem_cons_of_mem _ hb) w
      (List.mem_cons_self ..) fun heq => hwb (heq ▸ hb)
    exact hout x (by omega)
  have hshape₁ : Shape g.levels (walk m₁.mem t.root) g.branches g.leaves :=
    h.tree.shape.transfer hwalk₁ (fun _ hb => hb) (fun _ ha => ha)
  have hwalk' : ∀ q, Digits q → q.length ≤ g.levels →
      walk m'.mem t.root q = walk m.mem t.root q := fun q hq hl => by
    rw [walk_congr hshape₁ hagree q hq hl, hwalk₁ q hq hl]
  have hfresh : ∀ q, Digits q → q.length ≤ g.levels →
      walk m.mem t.root q ≠ w := by
    intro q hq hl heq
    rcases h.node_mem hq hl (heq ▸ hw) with hb | ha
    · exact hwb (heq ▸ hb)
    · exact hstep.inv.leaf_not_branch (heq ▸ ha) (List.mem_cons_self ..)
  have hload : m'.mem.load64 (w + 8 * 0) = t.root := by
    rw [hmem, load64_store64_self, Nat.mod_eq_of_lt hroot]
  obtain ⟨hnil, hzero, hrest⟩ := walk_grow hw hload fun j hj hj' => by
    rw [hmem, load64_store64_of_disjoint (by omega)]
    exact hkids j hj'
  have hshape' : Shape (g.levels + 1) (walk m'.mem w) (w :: g.branches)
      g.leaves := by
    refine Shape.grow (walk m.mem t.root) (h.tree.shape.transfer
      (fun _ _ _ => rfl) (fun _ hb => List.mem_cons_of_mem _ hb)
      (fun _ ha => ha)) (List.mem_cons_self ..) hfresh hnil
      (fun q hq hl => by rw [hzero q, hwalk' q hq hl])
      hrest
  have hpool' : PoolInv m' p' chunks' [] (w :: g.branches) := by
    refine hh.inv.frame _ (by rw [harena]; exact hh.inv.owned) fun c _ x _ hx => ?_
    have hxw := hx w (List.mem_cons_self ..)
    rw [hh.size, h.tree.size] at hxw
    exact hout x hxw
  have hleafmem : ∀ d ∈ g.leafChunks, ∀ x, d.Has x 1 → m'.mem x = m₁.mem x := by
    intro d hd x hx
    obtain ⟨c, hc, hcw⟩ := hstep.inv.tree.inChunk (List.mem_cons_self ..)
    have hdis := hstep.inv.apart c hc d hd
    simp only [Block.Disjoint, Block.Has] at hdis hcw hx
    exact hout x (by omega)
  have hleafpool : PoolInv m' t.leafPool g.leafChunks g.recycled g.leaves :=
    hstep.inv.leafPool.frame _
      (fun d hd => by rw [harena]; exact hstep.inv.leafPool.owned d hd)
      fun d hd x hx _ => hleafmem d hd x hx
  have hvalid : m₁.Valid (w + 8 * 0) 8 :=
    hh.inv.valid (i := 8 * 0) (List.mem_cons_self ..) (by
      rw [show p'.elementSize = radixBranchSize from hh.size.trans h.tree.size,
        radixBranchSize, radixSize]
      omega)
  subst ht' hg'
  refine ⟨hw, hvalid, ⟨⟨⟨by simp only; omega, ?_, hpool',
    hh.size.trans h.tree.size, hshape', fun _ => hw⟩, hleafpool,
    hstep.inv.apart⟩, rfl, ?_, ?_, ?_⟩, hrest, ?_⟩
  · rw [h.tree.capacity]
    rfl
  · rw [harena]
    exact hstep.blocks
  · intro a ha _ x hlo hhi
    obtain ⟨d, hd, hda⟩ := h.leafPool.inChunk (List.mem_append_right _ ha)
    simp only [Block.Has] at hda
    rw [hleafmem d hd x ⟨by omega, by omega⟩, hstep.bytes a ha ha x hlo hhi]
  · rw [hm']
    exact hstep.calls
  · intro k
    unfold leafAt
    by_cases hk : k.toNat < 256 ^ g.levels
    · have hk' : k.toNat < 256 ^ (g.levels + 1) :=
        Nat.lt_of_lt_of_le hk (Nat.pow_le_pow_right (by decide) (by omega))
      rw [if_pos hk, if_pos hk', path_grow hk, hzero,
        hwalk' _ (path_digits _ _) (by rw [path_length])]
    · rw [if_neg hk]
      by_cases hk' : k.toNat < 256 ^ (g.levels + 1)
      · obtain ⟨i, hi, hpath⟩ := path_grow_head (by omega) hk'
        have hi' : i < 256 := path_digits (g.levels + 1) k.toNat i (by simp [hpath])
        rw [if_pos hk', hpath, hrest i _ (Nat.pos_of_ne_zero hi) hi']
      · rw [if_neg hk']

/-- The loop ends with room for the key, and no key's leaf moved. -/
theorem resizeLoop_granted {key : UInt64} (turns : Nat) :
    ∀ {m : Machine} {t : CxRadixTree} {g : Ghost}, TreeInv m t g →
      8 ≤ g.levels + turns →
      (resizeLoop turns t key).Granted m fun r m' => r.1 = 0 ∧ ∃ g',
        TreeStep m t g m' r.2 g' ∧ g'.leaves = g.leaves
          ∧ key.toNat < 256 ^ g'.levels
          ∧ ∀ k, leafAt m' r.2 g'.levels k = leafAt m t g.levels k := by
  induction turns with
  | zero =>
      intro m t g h hturns
      have hlev : g.levels = 8 := by
        have := h.tree.levels
        omega
      refine granted_pure ⟨rfl, g, .refl h, rfl, ?_, fun _ => rfl⟩
      rw [hlev]
      exact key.toNat_lt
  | succ turns ih =>
      intro m t g h hturns
      have hfit := le_fullCapacity_iff h.tree.levels key
      rw [resizeLoop]
      by_cases hlt : t.capacity < key
      · rw [if_pos hlt]
        have hlev : g.levels < 8 := by
          have hle := h.tree.levels
          rcases Nat.lt_or_eq_of_le hle with hl | hl
          · exact hl
          · exfalso
            rw [h.tree.capacity, ← UInt64.not_le, hfit, hl] at hlt
            exact hlt key.toNat_lt
        refine granted_bind (cxPreallocPoolGet_keeps h.tree.pool) ?_
        rintro ⟨w, p'⟩ m₁ ⟨chunks', hh⟩
        obtain ⟨hw, hvalid, hstep, -, hleaf⟩ := h.reroot hlev hh rfl rfl rfl
        dsimp only
        rw [if_neg hw]
        refine granted_bind_run (run_store64 hvalid _) ?_
        refine (ih hstep.inv (by simp only; omega)).imp ?_
        rintro ⟨rv, t''⟩ m'' ⟨hrv, g'', hstep'', hleaves, hkey, hleaf''⟩
        refine ⟨hrv, g'', hstep.trans hstep'' fun _ ha => ha, hleaves, hkey,
          fun k => ?_⟩
        rw [hleaf'' k, ← hleaf k]
      · rw [if_neg hlt]
        refine granted_pure ⟨rfl, g, .refl h, rfl, ?_, fun _ => rfl⟩
        rw [← hfit, ← h.tree.capacity]
        exact UInt64.not_lt.mp hlt

theorem resize_granted (h : TreeInv m t g) (key : UInt64) :
    (resize t key).Granted m fun r m' => r.1 = 0 ∧ ∃ g',
      TreeStep m t g m' r.2 g' ∧ g'.leaves = g.leaves
        ∧ key.toNat < 256 ^ g'.levels
        ∧ ∀ k, leafAt m' r.2 g'.levels k = leafAt m t g.levels k :=
  resizeLoop_granted 8 h (by omega)

-- ============================================================== new_leaf

/-- One turn of the descent: after it, child `i` of the node at `p`
exists. Above the last level it is the old child or a fresh empty
branch; on the last level it is the new leaf, whatever was there before.
Only that child's path changes. -/
theorem fillChild_granted (h : TreeInv m t g) {p : List Nat} {i : Nat}
    (hp : Digits p) (hlen : p.length < g.levels) (hi : i < 256)
    (hb : walk m.mem t.root p ≠ 0) {last : Bool}
    (hlast : last = decide (p.length + 1 = g.levels)) :
    (fillChild t (walk m.mem t.root p) i last
        (decide (walk m.mem t.root (p ++ [i]) ≠ 0))).Granted m
      fun t' m' => ∃ g' v, v ≠ 0 ∧ TreeStep m t g m' t' g'
        ∧ t'.root = t.root ∧ t'.capacity = t.capacity
        ∧ g'.levels = g.levels
        ∧ g'.leaves = (if last then v :: g.leaves else g.leaves)
        ∧ ∀ q, Digits q → q.length ≤ g.levels → walk m'.mem t.root q
          = if q = p ++ [i] then v else walk m.mem t.root q := by
  have hpi : Digits (p ++ [i]) :=
    Digits.append.mpr ⟨hp, Digits.singleton.mpr hi⟩
  have hpil : (p ++ [i]).length = p.length + 1 := by simp
  -- the word of a branch stays accessible while the pools grow
  have hstill : ∀ {m₁ : Machine}, (∀ b ∈ m.arena.blocks, b ∈ m₁.arena.blocks) →
      m₁.Valid (walk m.mem t.root p + 8 * i) 8 := by
    intro m₁ hblocks
    obtain ⟨c, hc, hhas⟩ := h.tree.valid hp hlen hi hb
    exact ⟨c, hblocks c hc, hhas⟩
  unfold fillChild
  cases last with
  | true =>
      have hlevel : p.length + 1 = g.levels := by simpa using hlast.symm
      rw [if_pos rfl]
      refine granted_bind (cxPreallocPoolGet_granted h.leafPool) ?_
      rintro ⟨v, p'⟩ m₁ ⟨chunks', recycled', hh⟩
      obtain ⟨hstep, hwalk⟩ := h.handoutLeaf hh
      have hvmem : v ∈ recycled' ++ v :: g.leaves := by simp
      have hv : v ≠ 0 := hh.inv.ne_zero hvmem
      have hfresh : ∀ q, Digits q → q.length ≤ g.levels →
          walk m₁.mem t.root q ≠ v := by
        intro q hq hl heq
        rw [hwalk q hq hl] at heq
        rcases h.node_mem hq hl (heq ▸ hv) with hbr | hlf
        · exact hstep.inv.leaf_not_branch (List.mem_cons_self ..)
            (by rw [← heq]; exact hbr)
        · exact hh.not_mem (heq ▸ hlf)
      have hb₁ : walk m₁.mem t.root p ≠ 0 := by
        rw [hwalk p hp (by omega)]
        exact hb
      obtain ⟨hstep₂, hupd⟩ := hstep.inv.storeChild (i := i) (v := v) hp hlen hi
        hb₁ rfl (hh.inv.lt_word hvmem)
        (fun hl => absurd hlevel (by simp only at hl; omega)) hfresh
        (fun hl => absurd hlevel (by simp only at hl; omega))
        (fun _ => List.mem_cons_self ..)
      dsimp only at hupd hstep₂ ⊢
      rw [hwalk p hp (by omega)] at hupd hstep₂
      refine granted_bind_run (run_store64 (hstill hh.blocks) _) ?_
      refine granted_pure ⟨_, v, hv, hstep.trans hstep₂
        (fun a ha => List.mem_cons_of_mem _ ha), rfl, rfl, rfl, rfl, ?_⟩
      intro q hq hl
      rw [hupd q hq hl]
      split
      · rfl
      · exact hwalk q hq hl
  | false =>
      have hlevel : p.length + 1 ≠ g.levels := by simpa using hlast.symm
      rw [if_neg (by decide)]
      by_cases hempty : walk m.mem t.root (p ++ [i]) = 0
      · rw [if_pos (by simp [hempty])]
        refine granted_bind (cxPreallocPoolGet_keeps h.tree.pool) ?_
        rintro ⟨v, p'⟩ m₁ ⟨chunks', hh⟩
        obtain ⟨hstep, hwalk, hkids⟩ := h.handoutBranch hh
        have hvmem : v ∈ ([] : List Nat) ++ v :: g.branches := by simp
        have hv : v ≠ 0 := hh.inv.ne_zero hvmem
        have hfresh : ∀ q, Digits q → q.length ≤ g.levels →
            walk m₁.mem t.root q ≠ v := by
          intro q hq hl heq
          rw [hwalk q hq hl] at heq
          rcases h.node_mem hq hl (heq ▸ hv) with hbr | hlf
          · exact hh.not_mem (heq ▸ hbr)
          · exact hstep.inv.leaf_not_branch (a := v) (heq ▸ hlf)
              (List.mem_cons_self ..)
        have hb₁ : walk m₁.mem t.root p ≠ 0 := by
          rw [hwalk p hp (by omega)]
          exact hb
        -- the branch the store lands in is not the new one
        have hsep := hstep.inv.tree.branches_apart _
          (hstep.inv.tree.shape.branch p hp hlen hb₁) v (List.mem_cons_self ..)
          (hfresh p hp (by omega))
        have hkids₂ : ∀ j < 256, (m₁.mem.store64
            (walk m₁.mem t.root p + 8 * i) v).load64 (v + 8 * j) = 0 := by
          intro j hj
          rw [load64_store64_of_disjoint, hkids j hj]
          simp only [radixBranchSize, radixSize] at hsep
          omega
        obtain ⟨hstep₂, hupd⟩ := hstep.inv.storeChild (i := i) (v := v) hp hlen
          hi hb₁ rfl (hh.inv.lt_word hvmem)
          (fun _ => ⟨by rw [hwalk _ hpi (by omega)]; exact hempty, hkids₂⟩)
          hfresh (fun _ => List.mem_cons_self ..)
          (fun hl => absurd hl hlevel)
        dsimp only at hupd hstep₂ ⊢
        rw [hwalk p hp (by omega)] at hupd hstep₂
        refine granted_bind_run (run_store64 (hstill hh.blocks) _) ?_
        refine granted_pure ⟨_, v, hv, hstep.trans hstep₂ fun _ ha => ha, rfl,
          rfl, rfl, rfl, ?_⟩
        intro q hq hl
        rw [hupd q hq hl]
        split
        · rfl
        · exact hwalk q hq hl
      · rw [if_neg (by simp [hempty])]
        refine granted_pure ⟨g, _, hempty, .refl h, rfl, rfl, rfl, rfl, ?_⟩
        intro q _ _
        split
        · next heq => rw [heq]
        · rfl

/-- One turn of the descent, from the node at `p` to its child `i`. -/
theorem run_newLeafLoop_turn (h : TreeInv m t g) {p r : List Nat} {i : Nat}
    {key : UInt64} (occupied : Bool) (hd : Digits (p ++ i :: r))
    (hlen : p.length + (r.length + 1) = g.levels)
    (hkey : lowDigits (r.length + 1) key.toNat = i :: r)
    (hb : walk m.mem t.root p ≠ 0) :
    (newLeafLoop t (walk m.mem t.root p) (fullCapacity (r.length + 1)) key
        occupied).run m
      = (do
        let t' ← fillChild t (walk m.mem t.root p) i
          (decide (p.length + 1 = g.levels))
          (decide (walk m.mem t.root (p ++ [i]) ≠ 0))
        let next ← C.load64 (walk m.mem t.root p + 8 * i)
        newLeafLoop t' next (fullCapacity r.length) (key >>> 8)
          (decide (walk m.mem t.root (p ++ [i]) ≠ 0)) :
        C (Nat × Bool × CxRadixTree)).run m := by
  have hlev := h.tree.levels
  obtain ⟨hcap, hshift, hidx, -⟩ := loop_turn (by omega) hkey
  obtain ⟨hp, hir⟩ := Digits.append.mp hd
  have hi : i < 256 := hir i (List.mem_cons_self ..)
  have hchild : m.mem.load64 (walk m.mem t.root p + 8 * i)
      = walk m.mem t.root (p ++ [i]) := by
    rw [walk_append, walk_cons hb, walk_nil]
  have hlast : decide (fullCapacity r.length = 0)
      = decide (p.length + 1 = g.levels) := by
    cases r with
    | nil =>
        rw [List.length_nil] at hlen
        simp [fullCapacity, show p.length + 1 = g.levels by omega]
    | cons j r =>
        rw [List.length_cons] at hlen ⊢
        rw [decide_eq_false (fullCapacity_ne_zero (by omega)),
          decide_eq_false (by omega)]
  rw [newLeafLoop, dif_pos hcap, hidx, hshift]
  simp only [C.run_bind]
  rw [run_nonNull hb, C.chain_ok, C.run_bind,
    run_load64 (h.tree.valid hp (by omega) hi hb), C.chain_ok, hchild, hlast]
  rfl

/-- The descent from the node at `p` along `p ++ r`: the leaf at its end is
new, and the caller is told whether there was one before. -/
theorem newLeafLoop_granted (r : List Nat) :
    ∀ {m : Machine} {t : CxRadixTree} {g : Ghost} (p : List Nat) (key : UInt64)
      (occupied : Bool), TreeInv m t g → r ≠ [] → Digits (p ++ r) →
      p.length + r.length = g.levels → lowDigits r.length key.toNat = r →
      walk m.mem t.root p ≠ 0 →
      (newLeafLoop t (walk m.mem t.root p) (fullCapacity r.length) key
          occupied).Granted m
        fun out m' => ∃ g', out.1 ≠ 0
          ∧ out.2.1 = decide (walk m.mem t.root (p ++ r) ≠ 0)
          ∧ TreeStep m t g m' out.2.2 g' ∧ out.2.2.root = t.root
          ∧ g'.levels = g.levels ∧ g'.leaves = out.1 :: g.leaves
          ∧ ∀ q, Digits q → q.length = g.levels → walk m'.mem t.root q
            = if q = p ++ r then out.1 else walk m.mem t.root q := by
  induction r with
  | nil => intro _ _ _ _ _ _ _ hne; exact absurd rfl hne
  | cons i r ih =>
      intro m t g p key occupied h _ hd hlen hkey hb
      have hlev := h.tree.levels
      rw [List.length_cons] at hlen hkey ⊢
      obtain ⟨-, -, -, hrest⟩ := loop_turn (by omega) hkey
      obtain ⟨hp, hir⟩ := Digits.append.mp hd
      have hi : i < 256 := hir i (List.mem_cons_self ..)
      have hpi : Digits (p ++ [i]) :=
        Digits.append.mpr ⟨hp, Digits.singleton.mpr hi⟩
      have hpil : (p ++ [i]).length = p.length + 1 := by simp
      have happ : p ++ i :: r = p ++ [i] ++ r := by simp
      apply C.Granted.of_run_eq _ (run_newLeafLoop_turn h occupied hd hlen hkey hb)
      refine granted_bind (fillChild_granted h hp (by omega) hi hb rfl) ?_
      rintro t' m' ⟨g', v, hv, hstep, hroot, -, hlevels, hleaves, hupd⟩
      have hb' : walk m'.mem t.root p = walk m.mem t.root p := by
        rw [hupd p hp (by omega), if_neg]
        intro heq
        have := congrArg List.length heq
        simp at this
      have hvalid := hstep.inv.tree.valid (i := i) hp (by omega) hi
        (by rw [hroot, hb']; exact hb)
      rw [hroot, hb'] at hvalid
      refine granted_bind_run (run_load64 hvalid) ?_
      have hnext : m'.mem.load64 (walk m.mem t.root p + 8 * i)
          = walk m'.mem t'.root (p ++ [i]) := by
        rw [walk_append, hroot, hb', walk_cons hb, walk_nil]
      have hnext_v : walk m'.mem t'.root (p ++ [i]) = v := by
        rw [hroot, hupd _ hpi (by omega), if_pos rfl]
      rw [hnext]
      cases r with
      | nil =>
          rw [List.length_nil] at hlen
          rw [List.length_nil, newLeafLoop, dif_neg (by simp [fullCapacity])]
          refine granted_pure ⟨g', ?_, rfl, hstep, hroot, hlevels, ?_, ?_⟩
          · rw [hnext_v]
            exact hv
          · rw [hleaves, if_pos (decide_eq_true (by omega)), hnext_v]
          · intro q hq hl
            rw [hupd q hq (by omega), hnext_v]
      | cons j r =>
          rw [List.length_cons] at hlen
          rw [if_neg (by rw [decide_eq_true_eq]; omega)] at hleaves
          have hdeep : p ++ [i] ++ j :: r ≠ p ++ [i] := by simp
          refine (ih _ _ _ hstep.inv (by simp) (by rw [← happ]; exact hd)
            (by rw [List.length_cons]; omega) hrest
            (by rw [hnext_v]; exact hv)).imp ?_
          rintro ⟨leaf, occ, t''⟩ m'' ⟨g'', hne, hocc, hstep'', hroot'', hlev'',
            hleaves'', hupd''⟩
          have hplace : walk m'.mem t'.root (p ++ [i] ++ j :: r)
              = walk m.mem t.root (p ++ i :: j :: r) := by
            rw [hroot, hupd _ (by rw [← happ]; exact hd) (by
              rw [List.length_append, List.length_cons]; omega), if_neg hdeep,
              ← happ]
          rw [hplace] at hocc
          refine ⟨g'', hne, hocc, hstep.trans hstep'' ?_, hroot''.trans hroot,
            hlev''.trans hlevels, ?_, ?_⟩
          · rw [hleaves]
            exact fun _ ha => ha
          · rw [hleaves'', hleaves]
          · intro q hq hl
            rw [← hroot, hupd'' q hq (by omega), happ]
            split
            · rfl
            · rw [hroot, hupd q hq (by omega), if_neg]
              intro heq
              rw [heq, hpil] at hl
              omega

/-- In a tree with no root the leaf that was handed out becomes the root. -/
theorem TreeInv.plantRoot (h : TreeInv m t g) (hroot : t.root = 0) {v : Nat}
    {p' : CxPreallocPool} {chunks' : List Block} {recycled' : List Nat}
    (hh : Handout m t.leafPool g.leafChunks g.recycled g.leaves v p' m' chunks'
      recycled') {key : UInt64} (hkey : key.toNat < 256 ^ g.levels) :
    TreeStep m t g m' { t with leafPool := p', root := v }
        { g with leafChunks := chunks', recycled := recycled',
                 leaves := v :: g.leaves }
      ∧ ∀ k, leafAt m' { t with leafPool := p', root := v } g.levels k
        = if k = key then v else leafAt m t g.levels k := by
  have hlev : g.levels = 0 := by
    by_contra hne
    exact h.tree.root (Nat.pos_of_ne_zero hne) hroot
  have hnil : ∀ q : List Nat, q.length ≤ g.levels → q = [] := fun q hq =>
    List.length_eq_zero_iff.mp (by omega)
  have hv : v ≠ 0 := hh.inv.ne_zero
    (List.mem_append_right _ (List.mem_cons_self ..))
  obtain ⟨hstep, hwalk⟩ := h.handoutLeaf hh
  have hbr := hstep.inv.tree
  constructor
  · refine ⟨⟨⟨hbr.levels, hbr.capacity, hbr.pool, hbr.size, ?_, fun _ => hv⟩,
      hstep.inv.leafPool, hstep.inv.apart⟩, hstep.size, hstep.blocks, hstep.bytes,
      hstep.calls⟩
    refine hbr.shape.graft (t := []) (v := v) (fun q _ hl => ?_) ?_
      (fun _ hl => by simp [hlev] at hl) (fun _ _ => List.mem_cons_self ..)
      (fun _ hb => hb) fun q _ hl hne => absurd (hnil q (by simp_all)) hne
    · rw [hnil q hl, if_pos rfl]
      rfl
    · intro _ q _ hl heq
      rw [hnil q hl] at heq
      exact hv (by rw [← heq]; exact hroot)
  · refine leafAt_update hkey fun q _ hl => ?_
    rw [hnil q (Nat.le_of_eq hl), if_pos (by rw [hlev]; rfl)]
    rfl

/-- What a granted new_leaf does: it returns null or a leaf of the tree, on
a key with no leaf it adds exactly that leaf, and where it turns a key away
it has replaced its leaf. -/
theorem cxRadixTreeNewLeaf_step (h : TreeInv m t g) (key : UInt64) :
    (cxRadixTreeNewLeaf t key).Granted m fun r m' => ∃ g',
      TreeStep m t g m' r.2 g' ∧ (r.1 ≠ 0 → r.1 ∈ g'.leaves)
        ∧ (leafAt m t g.levels key = 0 →
          r.1 ≠ 0 ∧ g'.leaves = r.1 :: g.leaves
            ∧ ∀ k, leafAt m' r.2 g'.levels k
              = if k = key then r.1 else leafAt m t g.levels k)
        ∧ (leafAt m t g.levels key ≠ 0 → r.1 = 0 →
          leafAt m' r.2 g'.levels key ∉ g.leaves) := by
  unfold cxRadixTreeNewLeaf
  refine granted_bind (resize_granted h key) ?_
  rintro ⟨rv, t₁⟩ m₁ ⟨hrv, g₁, hstep₁, hleaves₁, hkey, hleaf₁⟩
  have hrv' : rv = 0 := hrv
  have hkeep : ∀ a ∈ g.leaves, a ∈ g₁.leaves := fun a ha => by
    rw [hleaves₁]
    exact ha
  have hinv₁ := hstep₁.inv
  have hat : leafAt m t g.levels key
      = walk m₁.mem t₁.root (path g₁.levels key.toNat) := by
    rw [← hleaf₁ key]
    exact if_pos hkey
  dsimp only
  rw [if_neg (by omega)]
  by_cases hroot : t₁.root = 0
  · -- a null root: the tree has no levels, and the leaf becomes the root
    rw [if_pos hroot]
    refine granted_bind (cxPreallocPoolGet_granted hinv₁.leafPool) ?_
    rintro ⟨v, p'⟩ m₂ ⟨chunks', recycled', hh⟩
    obtain ⟨hstep₂, hsame⟩ := hinv₁.plantRoot hroot hh hkey
    have hv : v ≠ 0 := hh.inv.ne_zero
      (List.mem_append_right _ (List.mem_cons_self ..))
    refine granted_pure ⟨_, hstep₁.trans hstep₂ hkeep,
      fun _ => List.mem_cons_self .., fun _ =>
      ⟨hv, by rw [← hleaves₁], fun k => ?_⟩, fun _ h0 => absurd h0 hv⟩
    rw [hsame k, hleaf₁ k]
  · rw [if_neg hroot]
    by_cases hpos : path g₁.levels key.toNat = []
    · -- a tree of one leaf, which is what the code returns
      have hlev : g₁.levels = 0 := by
        rw [← path_length g₁.levels key.toNat, hpos, List.length_nil]
      have hmem : t₁.root ∈ g₁.leaves :=
        hinv₁.tree.shape.leaf [] (by intro i hi; cases hi) hlev.symm hroot
      rw [hpos, walk_nil] at hat
      rw [newLeafLoop, hinv₁.tree.capacity, hlev,
        dif_neg (by simp [fullCapacity])]
      refine granted_bind_run (C.run_pure _ _) ?_
      refine granted_pure ⟨g₁, hstep₁, fun _ => hmem, fun hfree => ?_,
        fun _ h0 => absurd h0 hroot⟩
      exact absurd (hat.symm.trans hfree) hroot
    · -- a root: descend along the path of the key
      have hloop := newLeafLoop_granted (path g₁.levels key.toNat) []
        (prepareKey t₁ key) false hinv₁ hpos
        (path_digits _ _) (by rw [path_length]; simp)
        (by
          rw [path_length]
          exact lowDigits_prepareKey hinv₁.tree.levels hinv₁.tree.capacity key)
        hroot
      rw [path_length, walk_nil, ← hinv₁.tree.capacity] at hloop
      refine granted_bind hloop ?_
      rintro ⟨leaf, occ, t₂⟩ m₂ ⟨g₂, hne, hocc, hstep₂, hroot₂, hlev₂, hleaves₂,
        hupd⟩
      have hocc' : occ = decide (leafAt m t g.levels key ≠ 0) := by
        rw [hat]
        exact hocc
      have hstep := hstep₁.trans hstep₂ hkeep
      have hsame : ∀ k, leafAt m₂ t₂ g₂.levels k
          = if k = key then leaf else leafAt m₁ t₁ g₁.levels k := by
        rw [hlev₂]
        refine leafAt_update hkey fun q hq hl => ?_
        rw [hroot₂, hupd q hq hl, List.nil_append]
      dsimp only at hne hstep ⊢
      rw [hocc']
      by_cases hfree : leafAt m t g.levels key = 0
      · rw [if_neg (by simp [hfree])]
        refine granted_pure ⟨g₂, hstep, fun _ => ?_, fun _ => ⟨hne,
          by rw [hleaves₂, hleaves₁], fun k => ?_⟩,
          fun hocc => absurd hfree hocc⟩
        · rw [hleaves₂]
          exact List.mem_cons_self ..
        · rw [hsame k, hleaf₁ k]
      · rw [if_pos (by simp [hfree])]
        refine granted_pure ⟨g₂, hstep, fun h0 => absurd rfl h0,
          fun hfree' => absurd hfree' hfree, fun _ _ => ?_⟩
        -- the leaf in the key's place came from the pool just now
        have hnodup := (List.nodup_append.mp hstep₂.inv.leafPool.nodup).2.1
        dsimp only at hleaves₂
        rw [hleaves₂] at hnodup
        rw [hsame key, if_pos rfl, ← hleaves₁]
        exact (List.nodup_cons.mp hnodup).1

/-- A granted new_leaf on a key with no leaf adds exactly that leaf. -/
theorem cxRadixTreeNewLeaf_granted (h : TreeInv m t g) {key : UInt64}
    (hfree : leafAt m t g.levels key = 0) :
    (cxRadixTreeNewLeaf t key).Granted m fun r m' => ∃ g',
      r.1 ≠ 0 ∧ TreeStep m t g m' r.2 g' ∧ g'.leaves = r.1 :: g.leaves
        ∧ ∀ k, leafAt m' r.2 g'.levels k
          = if k = key then r.1 else leafAt m t g.levels k := by
  apply (cxRadixTreeNewLeaf_step h key).imp
  intro r m' hr
  obtain ⟨g', hstep, -, hadded, -⟩ := hr
  obtain ⟨hne, hleaves, hleaf⟩ := hadded hfree
  exact ⟨g', hne, hstep, hleaves, hleaf⟩

/-- A granted put stores the value in the new leaf. -/
theorem cxRadixTreePut_granted (h : TreeInv m t g) {key : UInt64}
    {value : List Byte} (hvalue : value.length = t.leafPool.elementSize)
    (hfree : leafAt m t g.levels key = 0) :
    (cxRadixTreePut t key value).Granted m fun r m' => ∃ g',
      r.1 ≠ 0 ∧ TreeStep m t g m' r.2 g' ∧ g'.leaves = r.1 :: g.leaves
        ∧ (∀ k, leafAt m' r.2 g'.levels k
          = if k = key then r.1 else leafAt m t g.levels k)
        ∧ m'.mem.read r.1 t.leafPool.elementSize = value := by
  unfold cxRadixTreePut
  refine granted_bind (cxRadixTreeNewLeaf_granted h hfree) ?_
  rintro ⟨leaf, t₁⟩ m₁ ⟨g₁, hne, hstep, hleaves, hleaf⟩
  dsimp only at hne hstep hleaves hleaf ⊢
  have hsize := hstep.size
  have hmem : leaf ∈ g₁.recycled ++ g₁.leaves := by
    rw [hleaves]
    simp
  have htake : value.take t₁.leafPool.elementSize = value :=
    List.take_of_length_le (by omega)
  have hvalid : m₁.Valid leaf value.length :=
    hstep.inv.leafPool.valid (i := 0) hmem (by omega)
  rw [if_pos hne, htake]
  refine granted_bind_run (run_writeBytes hvalid) ?_
  have hmem' : leaf ∈ g₁.leaves := by
    rw [hleaves]
    exact List.mem_cons_self ..
  obtain ⟨hinv, hleaf', hother⟩ := hstep.inv.insideLeaf
    { m₁ with mem := m₁.mem.write leaf value } hmem' rfl
    fun x hx => write_apply_outside (by omega)
  refine granted_pure ⟨g₁, hne, ⟨hinv, hsize, hstep.blocks, ?_, hstep.calls⟩,
    hleaves, fun k => by rw [hleaf' k, hleaf k], ?_⟩
  · intro a ha ha' x hlo hhi
    have hane : a ≠ leaf := by
      rintro rfl
      have hnd := (List.nodup_append.mp hstep.inv.leafPool.nodup).2.1
      rw [hleaves] at hnd
      exact (List.nodup_cons.mp hnd).1 ha
    rw [← hstep.bytes a ha ha' x hlo hhi]
    exact hother a ha' hane x hlo (by omega)
  · rw [← hvalue]
    exact read_write_self m₁.mem leaf value

-- ================================================================ delete

/-- The pointer `delete` follows to the node at a path: the root field
for the empty path, the child word in its parent otherwise. -/
def refAt (mem : Mem) (root : Nat) (p : List Nat) : NodeRef :=
  p.getLast?.map fun i => walk mem root p.dropLast + 8 * i

theorem refAt_snoc (mem : Mem) (root : Nat) (p : List Nat) (i : Nat) :
    refAt mem root (p ++ [i]) = some (walk mem root p + 8 * i) := by
  simp [refAt]

/-- There is a word to hold the node at a path: the root field, or a child
of a branch that exists. -/
def HasRef (mem : Mem) (root : Nat) (p : List Nat) : Prop :=
  p ≠ [] → walk mem root p.dropLast ≠ 0

theorem hasRef_snoc {mem : Mem} {root : Nat} {p : List Nat} {i : Nat} :
    HasRef mem root (p ++ [i]) ↔ walk mem root p ≠ 0 := by
  simp [HasRef]

theorem hasRef_of_ne_zero {mem : Mem} {root : Nat} {p : List Nat}
    (hne : walk mem root p ≠ 0) : HasRef mem root p := by
  induction p using List.reverseRecOn with
  | nil => exact fun h => absurd rfl h
  | append_singleton s i _ => exact hasRef_snoc.mpr (walk_ne_zero_of_append hne)

/-- Reading the pointer gives the node. -/
theorem run_readRef (h : TreeInv m t g) {p : List Nat} (hp : Digits p)
    (hlen : p.length ≤ g.levels) (hplace : HasRef m.mem t.root p) :
    (readRef t (refAt m.mem t.root p)).run m
      = .ok (walk m.mem t.root p) m := by
  induction p using List.reverseRecOn with
  | nil => rfl
  | append_singleton s i _ =>
      obtain ⟨hs, hi⟩ := Digits.append.mp hp
      rw [Digits.singleton] at hi
      rw [List.length_append, List.length_singleton] at hlen
      have hb := hasRef_snoc.mp hplace
      rw [refAt_snoc, readRef, run_load64 (h.tree.valid hs (by omega) hi hb),
        walk_append, walk_cons hb, walk_nil]

/-- The descent ends at the pointer to the leaf place, or above it when
that place does not exist. -/
theorem run_deleteLoop (h : TreeInv m t g) :
    ∀ (r p : List Nat) (key : UInt64), Digits (p ++ r) →
      p.length + r.length = g.levels → lowDigits r.length key.toNat = r →
      HasRef m.mem t.root p →
      ∃ ref capacity,
        (deleteLoop t (refAt m.mem t.root p) (fullCapacity r.length) key).run m
          = .ok (ref, capacity) m
        ∧ (capacity = 0 ↔ HasRef m.mem t.root (p ++ r))
        ∧ (capacity = 0 → ref = refAt m.mem t.root (p ++ r)) := by
  have hlev := h.tree.levels
  intro r
  induction r with
  | nil =>
      intro p key _ _ _ hplace
      refine ⟨refAt m.mem t.root p, 0, ?_, ?_, ?_⟩
      · rw [deleteLoop, dif_neg (by simp [fullCapacity])]
        rfl
      · rw [List.append_nil]
        exact ⟨fun _ => hplace, fun _ => rfl⟩
      · intro _
        rw [List.append_nil]
  | cons i r ih =>
      intro p key hd hlen hkey hplace
      rw [List.length_cons] at hlen hkey ⊢
      obtain ⟨hcap, hshift, hidx, hrest⟩ := loop_turn (by omega) hkey
      have hp := (Digits.append.mp hd).1
      have hread := run_readRef h hp (by omega) hplace
      rw [deleteLoop, dif_pos hcap, C.run_bind, hread, C.chain_ok]
      by_cases hb : walk m.mem t.root p = 0
      · -- nothing here, so there is no place further down
        refine ⟨_, _, by rw [if_neg (not_not.mpr hb)]; rfl, ?_, fun h0 =>
          absurd h0 hcap⟩
        refine ⟨fun h0 => absurd h0 hcap, fun hdeep => ?_⟩
        have hnone := walk_eq_zero_of_extends hb (i :: r).dropLast
        rw [← List.dropLast_append_of_ne_nil (List.cons_ne_nil i r)] at hnone
        exact absurd hnone (hdeep (by simp))
      · obtain ⟨ref, capacity, hrun, hiff, href⟩ := ih (p ++ [i]) (key >>> 8)
          (by simpa using hd)
          (by rw [List.length_append, List.length_singleton]; omega) hrest
          (hasRef_snoc.mpr hb)
        rw [List.append_assoc, List.singleton_append] at hiff href
        refine ⟨ref, capacity, ?_, hiff, href⟩
        rw [if_pos hb, hidx, hshift, ← refAt_snoc]
        exact hrun

/-- Nulling the pointer at a leaf place: the leaf, if there was one, is out
of the tree. The leaf pool is not involved. -/
theorem BranchInv.clearRef {n : Nat} {chunks : List Block}
    {branches leaves : List Nat} (h : BranchInv m t n chunks branches leaves)
    (leaves' : List Nat) {p : List Nat} (hp : Digits p)
    (hlen : p.length = n) (hplace : HasRef m.mem t.root p)
    (hother : ∀ q, Digits q → q.length = n → q ≠ p →
      walk m.mem t.root q ≠ 0 → walk m.mem t.root q ∈ leaves') :
    ∃ t' m', (writeRef t 0 (refAt m.mem t.root p)).run m = .ok t' m'
      ∧ t'.leafPool = t.leafPool
      ∧ m'.arena = m.arena ∧ m'.calls = m.calls ∧ m'.refused = m.refused
      ∧ BranchInv m' t' n chunks branches leaves'
      ∧ (∀ q, Digits q → q.length ≤ n → walk m'.mem t'.root q
        = if q = p then 0 else walk m.mem t.root q)
      ∧ ∀ d : Block, (∀ c ∈ chunks, c.Disjoint d) →
        ∀ x, d.Has x 1 → m'.mem x = m.mem x := by
  induction p using List.reverseRecOn with
  | nil =>
      rw [List.length_nil] at hlen
      have hnil : ∀ q : List Nat, q.length ≤ n → q = [] := fun q hq =>
        List.length_eq_zero_iff.mp (by omega)
      refine ⟨{ t with root := 0 }, m, rfl, rfl, rfl, rfl, rfl, ⟨h.levels,
        h.capacity, h.pool, h.size, ?_, by omega⟩, ?_, fun _ _ _ _ => rfl⟩
      · exact h.shape.graft (t := []) (v := 0)
          (fun q _ hl => by rw [hnil q hl]; rfl) (fun h0 => absurd rfl h0)
          (fun h0 => absurd rfl h0) (fun h0 => absurd rfl h0) (fun _ hb => hb)
          hother
      · intro q _ hl
        rw [hnil q hl]
        rfl
  | append_singleton s i _ =>
      obtain ⟨hs, hi⟩ := Digits.append.mp hp
      rw [Digits.singleton] at hi
      rw [List.length_append, List.length_singleton] at hlen
      have hb := hasRef_snoc.mp hplace
      have hslen : s.length < n := by omega
      obtain ⟨hbr, hupd⟩ := h.storeChild (v := 0)
        leaves' hs hslen hi hb
        rfl (Nat.two_pow_pos 64) (fun hl => by omega) (fun h0 => absurd rfl h0)
        (fun h0 => absurd rfl h0) (fun h0 => absurd rfl h0) hother
      refine ⟨t, { m with
        mem := m.mem.store64 (walk m.mem t.root s + 8 * i) 0 },
        ?_, rfl, rfl, rfl, rfl, hbr, hupd, ?_⟩
      · rw [refAt_snoc, writeRef, C.run_bind,
          run_store64 (h.valid hs hslen hi hb), C.chain_ok, C.run_pure]
      · exact fun d hd => h.store_foreign hs hslen hi hb hd

/-- Nulling the pointer to a leaf removes it from the tree. -/
theorem BranchInv.dropLeaf {n : Nat} {chunks : List Block}
    {branches leaves : List Nat} (h : BranchInv m t n chunks branches leaves)
    (hleaves : leaves.Nodup) {p : List Nat} (hp : Digits p)
    (hlen : p.length = n) (hne : walk m.mem t.root p ≠ 0) :
    ∃ t' m', (writeRef t 0 (refAt m.mem t.root p)).run m = .ok t' m'
      ∧ t'.leafPool = t.leafPool
      ∧ m'.arena = m.arena ∧ m'.calls = m.calls ∧ m'.refused = m.refused
      ∧ BranchInv m' t' n chunks branches (leaves.erase (walk m.mem t.root p))
      ∧ (∀ q, Digits q → q.length ≤ n → walk m'.mem t'.root q
        = if q = p then 0 else walk m.mem t.root q)
      ∧ ∀ d : Block, (∀ c ∈ chunks, c.Disjoint d) →
        ∀ x, d.Has x 1 → m'.mem x = m.mem x := by
  apply h.clearRef _ hp hlen (hasRef_of_ne_zero hne)
  intro q hq hl hqp hqne
  refine (hleaves.mem_erase_iff).mpr ⟨fun heq => ?_, h.shape.leaf q hq hl hqne⟩
  exact hqp (h.shape.inj q p hq hp (by omega) (by omega) heq hqne)

/-- Deleting along a path to a leaf takes exactly that leaf out of the tree
and recycles it. The path has the low bytes of the key only. -/
theorem run_cxRadixTreeDelete_leaf (h : TreeInv m t g) (key : UInt64)
    (hne : walk m.mem t.root (path g.levels key.toNat) ≠ 0) :
    ∃ t' m' g', (cxRadixTreeDelete t key).run m = .ok (0, t') m'
      ∧ m'.refused = m.refused ∧ TreeStep m t g m' t' g'
      ∧ g'.levels = g.levels
      ∧ g'.leaves = g.leaves.erase (walk m.mem t.root (path g.levels key.toNat))
      ∧ g'.recycled = walk m.mem t.root (path g.levels key.toNat) :: g.recycled
      ∧ ∀ q, Digits q → q.length ≤ g.levels → walk m'.mem t'.root q
        = if q = path g.levels key.toNat then 0 else walk m.mem t.root q := by
  have hdig := path_digits g.levels key.toNat
  have hlen := path_length g.levels key.toNat
  have hmem := h.tree.shape.leaf _ hdig hlen hne
  have hplace := hasRef_of_ne_zero hne
  have hloop := run_deleteLoop h (path g.levels key.toNat) []
    (prepareKey t key) hdig (by rw [path_length]; simp)
    (by
      rw [path_length]
      exact lowDigits_prepareKey h.tree.levels h.tree.capacity key)
    (fun h0 => absurd rfl h0)
  rw [path_length, List.nil_append, ← h.tree.capacity] at hloop
  obtain ⟨ref, capacity, hdescend, hiff, href⟩ := hloop
  have hzero := hiff.mpr hplace
  have hrefAt := href hzero
  obtain ⟨hrec, hpool⟩ := run_cxPreallocPoolRecycle h.leafPool hmem
  -- the recycled leaf is still linked while its link word is written
  obtain ⟨d, hd, hhas⟩ := h.leafPool.inChunk (List.mem_append_right _ hmem)
  have hsz := h.leafPool.size_ge
  simp only [Block.Has] at hhas
  have hout : ∀ x, (x < walk m.mem t.root (path g.levels key.toNat)
      ∨ walk m.mem t.root (path g.levels key.toNat) + 8 ≤ x) →
      m.mem.store64 (walk m.mem t.root (path g.levels key.toNat))
        t.leafPool.reusePool x = m.mem x := fun x hx =>
    agree_store64 (b := x) (n := 1) (by omega) x (by omega) (by omega)
  obtain ⟨hbr₁, hwalk₁⟩ := h.tree.frame ({ m with
      mem := m.mem.store64 (walk m.mem t.root (path g.levels key.toNat))
        t.leafPool.reusePool })
    (fun c hc => h.tree.pool.owned c hc) fun c hc x hx => by
      have hdis := h.apart c hc d hd
      simp only [Block.Disjoint, Block.Has] at hdis hx
      exact hout x (by omega)
  have hbr₂ : BranchInv { m with
      mem := m.mem.store64 (walk m.mem t.root (path g.levels key.toNat))
        t.leafPool.reusePool }
      { t with leafPool := { t.leafPool with
        reusePool := walk m.mem t.root (path g.levels key.toNat) } } g.levels
      g.branchChunks g.branches g.leaves :=
    ⟨hbr₁.levels, hbr₁.capacity, hbr₁.pool, hbr₁.size, hbr₁.shape, hbr₁.root⟩
  have hnodup := (List.nodup_append.mp h.leafPool.nodup).2.1
  have hpath₁ := hwalk₁ _ hdig (by rw [hlen])
  obtain ⟨t', m', hwrite, htp, harena, hcalls, hrefused, hbr₃, hupd, hforeign⟩ :=
    hbr₂.dropLeaf hnodup hdig hlen (by rw [hpath₁]; exact hne)
  dsimp only at hpath₁ hwrite htp harena hcalls hbr₃ hupd hforeign
  rw [hpath₁] at hbr₃
  have hrefeq : refAt (m.mem.store64 (walk m.mem t.root (path g.levels
      key.toNat)) t.leafPool.reusePool) t.root (path g.levels key.toNat)
      = refAt m.mem t.root (path g.levels key.toNat) := by
    unfold refAt
    refine congrArg (fun f => Option.map f _) (funext fun i => ?_)
    rw [hwalk₁ _ (fun i hi => hdig i ((List.dropLast_sublist _).subset hi))
      (by rw [List.length_dropLast, hlen]; omega)]
  rw [hrefeq] at hwrite
  have hleafmem : ∀ d ∈ g.leafChunks, ∀ x, d.Has x 1 → m'.mem x
      = m.mem.store64 (walk m.mem t.root (path g.levels key.toNat))
        t.leafPool.reusePool x := fun d hd =>
    hforeign d fun c hc => h.apart c hc d hd
  have hpool' : PoolInv m' t'.leafPool g.leafChunks
      (walk m.mem t.root (path g.levels key.toNat) :: g.recycled)
      (g.leaves.erase (walk m.mem t.root (path g.levels key.toNat))) := by
    rw [htp]
    exact hpool.frame _ (by rw [harena]; exact hpool.owned)
      fun c hc x hx _ => hleafmem c hc x hx
  refine ⟨t', m', { g with
      recycled := walk m.mem t.root (path g.levels key.toNat) :: g.recycled
      leaves := g.leaves.erase (walk m.mem t.root (path g.levels key.toNat)) },
    ?_, hrefused, ⟨⟨hbr₃, hpool', h.apart⟩, by rw [htp], ?_, ?_, hcalls⟩, rfl, rfl,
    rfl, ?_⟩
  · unfold cxRadixTreeDelete
    rw [C.run_bind, show (none : NodeRef) = refAt m.mem t.root [] from rfl,
      hdescend, C.chain_ok]
    dsimp only
    rw [if_pos hzero, hrefAt, C.run_bind,
      run_readRef h hdig (by rw [hlen]) hplace, C.chain_ok, C.run_bind, hrec,
      C.chain_ok, C.run_bind, hwrite, C.chain_ok, C.run_pure]
  · rw [harena]
    exact fun _ hb => hb
  · intro a ha ha' x hlo hhi
    have hane : a ≠ walk m.mem t.root (path g.levels key.toNat) :=
      ((hnodup.mem_erase_iff).mp ha').1
    have hsep := h.leafPool.separated (List.mem_append_right _ ha)
      (List.mem_append_right _ hmem) hane
    obtain ⟨c, hc, hac⟩ := h.leafPool.inChunk (List.mem_append_right _ ha)
    simp only [Block.Has] at hac
    rw [hleafmem c hc x ⟨by omega, by omega⟩]
    exact hout x (by omega)
  · intro q hq hl
    rw [hupd q hq hl]
    split
    · rfl
    · exact hwalk₁ q hq hl

/-- Deleting where there is no leaf leaves the tree as it was. -/
theorem run_cxRadixTreeDelete_absent (h : TreeInv m t g) (key : UInt64)
    (hnone : walk m.mem t.root (path g.levels key.toNat) = 0) :
    ∃ rv t' m', (cxRadixTreeDelete t key).run m = .ok (rv, t') m'
      ∧ TreeStep m t g m' t' g
      ∧ ∀ q, Digits q → q.length ≤ g.levels →
        walk m'.mem t'.root q = walk m.mem t.root q := by
  have hdig := path_digits g.levels key.toNat
  have hlen := path_length g.levels key.toNat
  have hloop := run_deleteLoop h (path g.levels key.toNat) []
    (prepareKey t key) hdig (by rw [path_length]; simp)
    (by
      rw [path_length]
      exact lowDigits_prepareKey h.tree.levels h.tree.capacity key)
    (fun h0 => absurd rfl h0)
  rw [path_length, List.nil_append, ← h.tree.capacity] at hloop
  obtain ⟨ref, capacity, hdescend, hiff, href⟩ := hloop
  unfold cxRadixTreeDelete
  rw [C.run_bind, show (none : NodeRef) = refAt m.mem t.root [] from rfl,
    hdescend, C.chain_ok]
  dsimp only
  by_cases hzero : capacity = 0
  · -- the place is there and null: recycling null does nothing
    have hplace := hiff.mp hzero
    have hrecycle : (cxPreallocPoolRecycle t.leafPool 0).run m
        = .ok t.leafPool m := by
      unfold cxPreallocPoolRecycle
      rw [if_neg (not_not.mpr rfl)]
      rfl
    obtain ⟨t', m', hwrite, hpool, harena, hcalls, -, hbr, hupd, hforeign⟩ :=
      h.tree.clearRef g.leaves hdig hlen hplace fun q hq hl _ hne =>
        h.tree.shape.leaf q hq hl hne
    have hleafmem : ∀ d ∈ g.leafChunks, ∀ x, d.Has x 1 → m'.mem x = m.mem x :=
      fun d hd => hforeign d fun c hc => h.apart c hc d hd
    refine ⟨0, t', m', ?_, ⟨⟨hbr, ?_, h.apart⟩, by rw [hpool], ?_, ?_, hcalls⟩,
      ?_⟩
    · rw [if_pos hzero, href hzero, C.run_bind,
        run_readRef h hdig (by rw [hlen]) hplace, C.chain_ok, hnone, C.run_bind,
        hrecycle, C.chain_ok, C.run_bind, hwrite, C.chain_ok, C.run_pure]
    · rw [hpool]
      exact h.leafPool.frame _ (by rw [harena]; exact h.leafPool.owned)
        fun d hd x hx _ => hleafmem d hd x hx
    · rw [harena]
      exact fun _ hb => hb
    · intro a ha _ x hlo hhi
      obtain ⟨d, hd, hda⟩ := h.leafPool.inChunk (List.mem_append_right _ ha)
      simp only [Block.Has] at hda
      exact hleafmem d hd x ⟨by omega, by omega⟩
    · intro q hq hl
      rw [hupd q hq hl]
      split
      case isTrue heq => rw [heq, hnone]
      case isFalse => rfl
  · exact ⟨-1, t, m, by rw [if_neg hzero]; rfl, .refl h, fun _ _ _ => rfl⟩

/-- Deleting a stored key removes exactly its leaf and recycles it. -/
theorem run_cxRadixTreeDelete (h : TreeInv m t g) {key : UInt64}
    (hne : leafAt m t g.levels key ≠ 0) :
    ∃ t' m' g', (cxRadixTreeDelete t key).run m = .ok (0, t') m'
      ∧ m'.refused = m.refused ∧ TreeStep m t g m' t' g'
      ∧ g'.leaves = g.leaves.erase (leafAt m t g.levels key)
      ∧ g'.recycled = leafAt m t g.levels key :: g.recycled
      ∧ ∀ k, leafAt m' t' g'.levels k
        = if k = key then 0 else leafAt m t g.levels k := by
  have hkey : key.toNat < 256 ^ g.levels := by
    by_contra hk
    unfold leafAt at hne
    rw [if_neg hk] at hne
    exact hne rfl
  have hat : leafAt m t g.levels key
      = walk m.mem t.root (path g.levels key.toNat) := if_pos hkey
  rw [hat] at hne ⊢
  obtain ⟨t', m', g', hrun, hrefused, hstep, hlev, hleaves, hrecycled, hupd⟩ :=
    run_cxRadixTreeDelete_leaf h key hne
  refine ⟨t', m', g', hrun, hrefused, hstep, hleaves, hrecycled, ?_⟩
  rw [hlev]
  exact leafAt_update hkey fun q hq hl => hupd q hq (Nat.le_of_eq hl)

end Cextras.Collection
