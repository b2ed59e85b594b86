/-
What the branches of a radix tree are for. A put adds the branches that are
missing on its key's path, growing adds one above all others, and a delete
takes the leaf and leaves every branch. So the branches in the pool are the
places above the last level that some key ever put passes through, whether it
is still stored or not, and those of key 0, which growing goes through
(`cxRadixTree_branches`): what a tree costs depends on the keys it has seen,
and a key that was there before costs no branch.

`Charted` lists the places of the branches in the tree. Each step adds the
place it fills, and the pool has carved an element for each.
-/
import Mathlib.Data.List.Dedup
import Mathlib.Data.List.Perm.Subperm
import Cextras.Lib.Inert
import Cextras.Memory.Proofs.PoolEconomy
import Cextras.Collection.Proofs.RadixRuns

namespace Cextras.Collection

open Lib Memory

variable {m m' : Machine} {t t' : CxRadixTree} {g g' : Ghost} {n : Nat}
  {seen : List (List Nat)} {keys : List UInt64} {key : UInt64}

-- ================================================================= places

/-- The places above level `n` that the paths of the keys pass through. -/
def prefixes (n : Nat) (keys : List UInt64) : List (List Nat) :=
  (keys.flatMap fun k => (List.range n).map fun d => (path n k.toNat).take d).dedup

theorem mem_prefixes {q : List Nat} :
    q ∈ prefixes n keys ↔ q.length < n ∧ ∃ k ∈ keys, q <+: path n k.toNat := by
  rw [prefixes, List.mem_dedup, List.mem_flatMap]
  constructor
  · intro h
    obtain ⟨k, hk, hq⟩ := h
    obtain ⟨d, hd, rfl⟩ := List.mem_map.mp hq
    rw [List.mem_range] at hd
    refine ⟨?_, k, hk, List.take_prefix ..⟩
    rw [List.length_take, path_length]
    omega
  · intro h
    obtain ⟨hlen, k, hk, hpre⟩ := h
    refine ⟨k, hk, List.mem_map.mpr ⟨q.length, List.mem_range.mpr hlen, ?_⟩⟩
    exact (List.prefix_iff_eq_take.mp hpre).symm

/-- Of each different key there are no more than its digits. -/
theorem length_prefixes_le :
    (prefixes n keys).length ≤ keys.dedup.length * n := by
  have hsub : prefixes n keys ⊆ keys.dedup.flatMap fun k =>
      (List.range n).map fun d => (path n k.toNat).take d := by
    intro q hq
    rw [prefixes, List.mem_dedup, List.mem_flatMap] at hq
    obtain ⟨k, hk, hqk⟩ := hq
    exact List.mem_flatMap.mpr ⟨k, List.mem_dedup.mpr hk, hqk⟩
  have hle := (List.subperm_of_subset (List.nodup_dedup _) hsub).length_le
  refine hle.trans_eq ?_
  simp [List.length_flatMap]

/-- `seen` is the places of the branches in the tree, and its branch pool
has carved as many elements. -/
structure Charted (m : Machine) (t : CxRadixTree) (n : Nat)
    (seen : List (List Nat)) : Prop where
  nodup : seen.Nodup
  inner : ∀ q ∈ seen, Digits q ∧ q.length < n
  node : ∀ q, Digits q → q.length < n → (walk m.mem t.root q ≠ 0 ↔ q ∈ seen)
  carved : Carved (8 * radixBranchSize) radixBranchSize seen.length t.branchPool

/-- `seen` is what the keys pass through. -/
structure Covers (n : Nat) (keys : List UInt64) (seen : List (List Nat)) :
    Prop where
  fit : ∀ k ∈ keys, k.toNat < 256 ^ n
  mem : ∀ q, q ∈ seen ↔ q.length < n ∧ ∃ k ∈ keys, q <+: path n k.toNat

theorem Covers.length (h : Covers n keys seen) (hnodup : seen.Nodup) :
    seen.length = (prefixes n keys).length := by
  apply List.Perm.length_eq
  apply (List.perm_ext_iff_of_nodup hnodup (List.nodup_dedup _)).mpr
  intro q
  rw [h.mem q]
  exact mem_prefixes.symm

/-- The places stay where no branch is added. -/
theorem Charted.congr (h : Charted m t n seen)
    (hwalk : ∀ q, Digits q → q.length < n →
      walk m'.mem t'.root q = walk m.mem t.root q)
    (hpool : t'.branchPool = t.branchPool) : Charted m' t' n seen := by
  refine ⟨h.nodup, h.inner, fun q hq hlen => ?_, ?_⟩
  · rw [hwalk q hq hlen]
    exact h.node q hq hlen
  · rw [hpool]
    exact h.carved

-- ================================================================ growing

/-- Everything in the tree is one level further down from a new root. -/
theorem TreeInv.reroot_walk {m₁ : Machine} (h : TreeInv m t g) {w : Nat}
    {p' : CxPreallocPool} {chunks' : List Block}
    (hh : Handout m t.branchPool g.branchChunks [] g.branches w p' m₁ chunks' [])
    (hm' : m' = { m₁ with mem := m₁.mem.store64 (w + 8 * 0) t.root })
    {q : List Nat} (hq : Digits q) (hlen : q.length ≤ g.levels) :
    walk m'.mem w (0 :: q) = walk m.mem t.root q := by
  obtain ⟨hstep, hwalk₁, -⟩ := h.handoutBranch hh
  have hw : w ≠ 0 := hh.inv.ne_zero (List.mem_cons_self ..)
  have hroot : t.root < 2 ^ 64 := h.node_lt (q := []) (by intro i hi; cases hi)
    (Nat.zero_le _)
  have hmem : m'.mem = m₁.mem.store64 (w + 8 * 0) t.root := by rw [hm']
  have hload : m'.mem.load64 (w + 8 * 0) = t.root := by
    rw [hmem, load64_store64_self, Nat.mod_eq_of_lt hroot]
  -- the store into the new branch is seen by no old one
  have hagree : ∀ b ∈ g.branches, m₁.mem.Agree m'.mem b radixBranchSize := by
    intro b hb x hlo hhi
    have hne : b ≠ w := fun heq => hh.not_mem (heq ▸ hb)
    have hsep := hstep.inv.tree.branches_apart b (List.mem_cons_of_mem _ hb) w
      (List.mem_cons_self ..) hne
    rw [radixBranchSize, radixSize] at hsep hhi
    rw [hmem]
    exact agree_store64 (b := x) (n := 1) (by omega) x (by omega) (by omega)
  have hshape₁ : Shape g.levels (walk m₁.mem t.root) g.branches g.leaves :=
    h.tree.shape.transfer hwalk₁ (fun _ hb => hb) (fun _ ha => ha)
  rw [walk_cons hw, hload, walk_congr hshape₁ hagree q hq hlen,
    hwalk₁ q hq hlen]

/-- The old places below a new root, and the root. -/
theorem Charted.reroot {w : Nat} {p' : CxPreallocPool}
    (h : Charted m t n seen) (capacity : UInt64) (hw : w ≠ 0)
    (hzero : ∀ q, Digits q → q.length ≤ n →
      walk m'.mem w (0 :: q) = walk m.mem t.root q)
    (hrest : ∀ j q, 0 < j → j < 256 → walk m'.mem w (j :: q) = 0)
    (hcarved : Carved (8 * radixBranchSize) radixBranchSize (seen.length + 1) p') :
    Charted m' { t with capacity := capacity, branchPool := p', root := w } (n + 1)
      ([] :: seen.map (0 :: ·)) := by
  constructor
  case nodup =>
    apply List.nodup_cons.mpr
    refine ⟨by simp, h.nodup.map ?_⟩
    intro p q heq
    exact (List.cons.inj heq).2
  case inner =>
    intro q hq
    rcases List.mem_cons.mp hq with rfl | hq
    · exact ⟨by simp [Digits], Nat.succ_pos n⟩
    · obtain ⟨p, hp, rfl⟩ := List.mem_map.mp hq
      obtain ⟨hdigits, hlen⟩ := h.inner p hp
      refine ⟨?_, by simpa using hlen⟩
      intro i hi
      rcases List.mem_cons.mp hi with rfl | hi
      · decide
      · exact hdigits i hi
  case node =>
    intro q hq hlen
    cases q with
    | nil => simpa using hw
    | cons j q =>
        have hq' : Digits q := fun i hi => hq i (List.mem_cons_of_mem _ hi)
        have hlen' : q.length < n := by simpa using hlen
        rcases Nat.eq_zero_or_pos j with rfl | hj
        · rw [hzero q hq' (Nat.le_of_lt hlen'), h.node q hq' hlen']
          simp
        · rw [hrest j q hj (hq j (List.mem_cons_self ..))]
          have hne : 0 ≠ j := Nat.ne_of_lt hj
          simp [hne]
  case carved => simpa using hcarved

/-- One level more, the keys pass through the same places below the root. -/
theorem Covers.reroot (h : Covers n keys seen) (hkeys : keys ≠ []) :
    Covers (n + 1) keys ([] :: seen.map (0 :: ·)) := by
  constructor
  · intro k hk
    have hfit := h.fit k hk
    exact Nat.lt_of_lt_of_le hfit (Nat.pow_le_pow_right (by decide) (by omega))
  · intro q
    have hgrow : ∀ k ∈ keys, path (n + 1) k.toNat = 0 :: path n k.toNat :=
      fun k hk => path_grow (h.fit k hk)
    cases q with
    | nil =>
        obtain ⟨k, hk⟩ := List.exists_mem_of_ne_nil keys hkeys
        simp only [List.mem_cons_self, List.length_nil, true_iff]
        exact ⟨Nat.succ_pos n, k, hk, List.nil_prefix⟩
    | cons j q =>
        simp only [List.mem_cons, reduceCtorEq, false_or, List.mem_map,
          List.cons.injEq, List.length_cons]
        constructor
        · intro hmem
          obtain ⟨p, hp, rfl, rfl⟩ := hmem
          obtain ⟨hlen, k, hk, hpre⟩ := (h.mem p).mp hp
          refine ⟨Nat.succ_lt_succ hlen, k, hk, ?_⟩
          rw [hgrow k hk]
          exact List.cons_prefix_cons.mpr ⟨rfl, hpre⟩
        · intro hmem
          obtain ⟨hlen, k, hk, hpre⟩ := hmem
          rw [hgrow k hk] at hpre
          obtain ⟨rfl, htail⟩ := List.cons_prefix_cons.mp hpre
          refine ⟨q, (h.mem q).mpr ⟨?_, k, hk, htail⟩, rfl, rfl⟩
          exact Nat.lt_of_succ_lt_succ hlen

/-- The loop leaves a tree with room for the key, and branches where the keys
that were there pass through. -/
theorem resizeLoop_charted (hkeys : keys ≠ []) (key : UInt64) (turns : Nat) :
    ∀ {m : Machine} {t : CxRadixTree} {g : Ghost} {seen : List (List Nat)},
      TreeInv m t g → Charted m t g.levels seen → Covers g.levels keys seen →
      8 ≤ g.levels + turns →
      (resizeLoop turns t key).Granted m fun r m' => ∃ g' seen',
        r.1 = 0 ∧ TreeInv m' r.2 g' ∧ Charted m' r.2 g'.levels seen'
          ∧ Covers g'.levels keys seen' ∧ key.toNat < 256 ^ g'.levels
          ∧ (g'.levels = g.levels ∨ 256 ^ (g'.levels - 1) ≤ key.toNat) := by
  induction turns with
  | zero =>
      intro m t g seen h hcharted hcovers hturns
      refine granted_pure ⟨g, seen, rfl, h, hcharted, hcovers, ?_, Or.inl rfl⟩
      have hlev := h.tree.levels
      have height : g.levels = 8 := by omega
      rw [height]
      exact key.toNat_lt
  | succ turns ih =>
      intro m t g seen h hcharted hcovers hturns
      have hfit := le_fullCapacity_iff h.tree.levels key
      rw [resizeLoop]
      by_cases hlt : t.capacity < key
      · rw [if_pos hlt]
        have hlev : g.levels < 8 := by
          have hle := h.tree.levels
          rcases Nat.lt_or_eq_of_le hle with hl | hl
          · exact hl
          · exfalso
            rw [h.tree.capacity, ← UInt64.not_le, hfit, hl] at hlt
            exact hlt key.toNat_lt
        have hget := hcharted.carved.get h.tree.pool (Nat.dvd_mul_left _ _)
          h.tree.size
        refine granted_bind ((cxPreallocPoolGet_keeps h.tree.pool).and hget) ?_
        intro r m₁ hr
        obtain ⟨w, p'⟩ := r
        obtain ⟨⟨chunks', hh⟩, hcarved⟩ := hr
        obtain ⟨hw, hvalid, hstep, hrest, -⟩ := h.reroot hlev hh rfl rfl rfl
        dsimp only at hcarved ⊢
        rw [if_neg hw]
        refine granted_bind_run (run_store64 hvalid _) ?_
        have hcharted' := hcharted.reroot (growCapacity t.capacity) hw
          (fun q hq hlen => h.reroot_walk hh rfl hq hlen) hrest hcarved
        refine (ih hstep.inv hcharted' (hcovers.reroot hkeys)
          (by simp only; omega)).imp ?_
        intro r m₂ hr
        obtain ⟨g', seen', hrv, hinv, hch, hcov, hroom, hlevels⟩ := hr
        refine ⟨g', seen', hrv, hinv, hch, hcov, hroom, Or.inr ?_⟩
        rcases hlevels with hone | hmore
        · -- the last turn was for this key
          rw [h.tree.capacity, ← UInt64.not_le, hfit, Nat.not_lt] at hlt
          rw [hone]
          exact hlt
        · exact hmore
      · rw [if_neg hlt]
        refine granted_pure ⟨g, seen, rfl, h, hcharted, hcovers, ?_, Or.inl rfl⟩
        rw [← hfit, ← h.tree.capacity]
        exact UInt64.not_lt.mp hlt

-- ============================================================== new_leaf

/-- What the branch pool has carved after one turn of the descent. -/
theorem fillChild_carved (h : TreeInv m t g) {p : List Nat} {i count : Nat}
    (hp : Digits p) (hlen : p.length < g.levels) (hi : i < 256)
    (hb : walk m.mem t.root p ≠ 0) (last occupied : Bool)
    (hcarved : Carved (8 * radixBranchSize) radixBranchSize count t.branchPool) :
    (fillChild t (walk m.mem t.root p) i last occupied).Granted m fun t' _ =>
      Carved (8 * radixBranchSize) radixBranchSize
        (if last || occupied then count else count + 1) t'.branchPool := by
  obtain ⟨c, hc, hhas⟩ := h.tree.valid hp hlen hi hb
  unfold fillChild
  cases last with
  | true =>
      rw [if_pos rfl]
      refine granted_bind (cxPreallocPoolGet_granted h.leafPool) ?_
      intro r m₁ hr
      obtain ⟨chunks', recycled', hh⟩ := hr
      refine granted_bind_run (run_store64 ⟨c, hh.blocks c hc, hhas⟩ _) ?_
      exact granted_pure hcarved
  | false =>
      rw [if_neg (by decide)]
      cases occupied with
      | true => exact granted_pure hcarved
      | false =>
          rw [if_pos rfl]
          refine granted_bind ((cxPreallocPoolGet_keeps h.tree.pool).and
            (hcarved.get h.tree.pool (Nat.dvd_mul_left _ _) h.tree.size)) ?_
          intro r m₁ hr
          obtain ⟨⟨chunks', hh⟩, hcarved'⟩ := hr
          refine granted_bind_run (run_store64 ⟨c, hh.blocks c hc, hhas⟩ _) ?_
          exact granted_pure hcarved'

/-- One turn of the descent adds the place of the child above the last level. -/
theorem fillChild_charted (h : TreeInv m t g) (hcharted : Charted m t g.levels seen)
    {p : List Nat} {i : Nat} (hp : Digits p) (hlen : p.length < g.levels)
    (hi : i < 256) (hb : walk m.mem t.root p ≠ 0) :
    (fillChild t (walk m.mem t.root p) i (decide (p.length + 1 = g.levels))
        (decide (walk m.mem t.root (p ++ [i]) ≠ 0))).Granted m
      fun t' m' => ∃ g' seen', TreeInv m' t' g' ∧ g'.levels = g.levels
        ∧ t'.root = t.root ∧ walk m'.mem t.root p = walk m.mem t.root p
        ∧ walk m'.mem t.root (p ++ [i]) ≠ 0
        ∧ Charted m' t' g.levels seen'
        ∧ ∀ q, q ∈ seen'
          ↔ q ∈ seen ∨ q = p ++ [i] ∧ p.length + 1 < g.levels := by
  have hpi : Digits (p ++ [i]) :=
    Digits.append.mpr ⟨hp, Digits.singleton.mpr hi⟩
  have hpil : (p ++ [i]).length = p.length + 1 := by simp
  refine ((fillChild_granted h hp hlen hi hb rfl).and (fillChild_carved h hp hlen
    hi hb _ _ hcharted.carved)).imp ?_
  intro t' m' hr
  obtain ⟨⟨g', v, hv, hstep, hroot, -, hlevels, -, hupd⟩, hcarved⟩ := hr
  have hself : walk m'.mem t.root (p ++ [i]) = v := by
    rw [hupd _ hpi (by omega), if_pos rfl]
  have hsame : ∀ q, Digits q → q.length < g.levels → q ≠ p ++ [i] →
      walk m'.mem t'.root q = walk m.mem t.root q := by
    intro q hq hl hne
    rw [hroot, hupd q hq (by omega), if_neg hne]
  have hparent : walk m'.mem t.root p = walk m.mem t.root p := by
    rw [← hroot, hsame p hp hlen]
    · rw [hroot]
    · intro heq
      rw [← heq] at hpil
      omega
  refine ⟨g', ?_⟩
  by_cases hadd : p.length + 1 < g.levels ∧ walk m.mem t.root (p ++ [i]) = 0
  · obtain ⟨hinner, hempty⟩ := hadd
    have hnew : p ++ [i] ∉ seen := fun hmem =>
      (hcharted.node _ hpi (by omega)).mpr hmem hempty
    refine ⟨(p ++ [i]) :: seen, hstep.inv, hlevels, hroot, hparent, hself ▸ hv,
      ⟨List.nodup_cons.mpr ⟨hnew, hcharted.nodup⟩, ?_, ?_, ?_⟩, ?_⟩
    · intro q hq
      rcases List.mem_cons.mp hq with rfl | hq
      · exact ⟨hpi, by omega⟩
      · exact hcharted.inner q hq
    · intro q hq hl
      by_cases hqp : q = p ++ [i]
      · rw [hqp, hroot, hself]
        simp [hv]
      · rw [hsame q hq hl hqp, hcharted.node q hq hl, List.mem_cons]
        simp [hqp]
    · have hlast : p.length + 1 ≠ g.levels := by omega
      simpa [hlast, hempty] using hcarved
    · intro q
      rw [List.mem_cons, or_comm]
      simp [hinner]
  · refine ⟨seen, hstep.inv, hlevels, hroot, hparent, hself ▸ hv,
      ⟨hcharted.nodup, hcharted.inner, ?_, ?_⟩, ?_⟩
    · intro q hq hl
      by_cases hqp : q = p ++ [i]
      · -- the child was there
        rw [hqp, hpil] at hl
        have hthere : walk m.mem t.root (p ++ [i]) ≠ 0 := fun h0 => hadd ⟨hl, h0⟩
        rw [hqp, hroot, hself, ← hcharted.node _ hpi (by omega)]
        simp [hv, hthere]
      · rw [hsame q hq hl hqp]
        exact hcharted.node q hq hl
    · rw [if_pos] at hcarved
      · exact hcarved
      · rw [Bool.or_eq_true, decide_eq_true_eq, decide_eq_true_eq]
        by_cases hlast : p.length + 1 = g.levels
        · exact Or.inl hlast
        · exact Or.inr fun h0 => hadd ⟨by omega, h0⟩
    · intro q
      constructor
      · exact Or.inl
      · intro hq
        rcases hq with hq | ⟨rfl, hl⟩
        · exact hq
        · exact (hcharted.node _ hpi (by omega)).mp fun h0 => hadd ⟨hl, h0⟩

/-- The descent adds the places below the node it starts from. -/
theorem newLeafLoop_charted (r : List Nat) :
    ∀ {m : Machine} {t : CxRadixTree} {g : Ghost} {seen : List (List Nat)}
      (p : List Nat) (key : UInt64) (occupied : Bool), TreeInv m t g →
      Charted m t g.levels seen → Digits (p ++ r) →
      p.length + r.length = g.levels → lowDigits r.length key.toNat = r →
      walk m.mem t.root p ≠ 0 →
      (newLeafLoop t (walk m.mem t.root p) (fullCapacity r.length) key
          occupied).Granted m
        fun out m' => ∃ g' seen', TreeInv m' out.2.2 g' ∧ g'.levels = g.levels
          ∧ Charted m' out.2.2 g.levels seen'
          ∧ ∀ q, q ∈ seen' ↔ q ∈ seen
            ∨ q.length < g.levels ∧ ∃ s, s ≠ [] ∧ s <+: r ∧ q = p ++ s := by
  induction r with
  | nil =>
      intro m t g seen p key occupied h hcharted _ _ _ _
      rw [newLeafLoop, dif_neg (by simp [fullCapacity])]
      refine granted_pure ⟨g, seen, h, rfl, hcharted, fun q => ?_⟩
      constructor
      · exact Or.inl
      · intro hq
        rcases hq with hq | ⟨-, s, hne, hpre, -⟩
        · exact hq
        · exact absurd (List.prefix_nil.mp hpre) hne
  | cons i r ih =>
      intro m t g seen p key occupied h hcharted hd hlen hkey hb
      have hlev := h.tree.levels
      rw [List.length_cons] at hlen hkey ⊢
      obtain ⟨-, -, -, hrest⟩ := loop_turn (by omega) hkey
      obtain ⟨hp, hir⟩ := Digits.append.mp hd
      have hi : i < 256 := hir i (List.mem_cons_self ..)
      have happ : p ++ i :: r = p ++ [i] ++ r := by simp
      apply C.Granted.of_run_eq _ (run_newLeafLoop_turn h occupied hd hlen hkey hb)
      refine granted_bind (fillChild_charted h hcharted hp (by omega) hi hb) ?_
      intro t' m' hr
      obtain ⟨g', seen', hinv, hlevels, hroot, hb', hchild, hcharted', hseen'⟩ := hr
      rw [← hlevels] at hcharted'
      have hvalid := hinv.tree.valid (i := i) hp (by omega) hi
        (by rw [hroot, hb']; exact hb)
      rw [hroot, hb'] at hvalid
      refine granted_bind_run (run_load64 hvalid) ?_
      have hnext : m'.mem.load64 (walk m.mem t.root p + 8 * i)
          = walk m'.mem t'.root (p ++ [i]) := by
        rw [walk_append, hroot, hb', walk_cons hb, walk_nil]
      rw [hnext]
      refine (ih (p ++ [i]) _ _ hinv hcharted' (by rwa [← happ])
        (by rw [List.length_append, List.length_singleton]; omega) hrest
        (by rw [hroot]; exact hchild)).imp ?_
      intro out m'' hr
      obtain ⟨g'', seen'', hinv'', hlevels'', hcharted'', hseen''⟩ := hr
      rw [hlevels] at hlevels'' hcharted'' hseen''
      refine ⟨g'', seen'', hinv'', hlevels'', hcharted'', fun q => ?_⟩
      rw [hseen'', hseen', or_assoc]
      apply or_congr_right
      constructor
      · intro hq
        rcases hq with ⟨rfl, hl⟩ | ⟨hl, s, -, hpre, rfl⟩
        · refine ⟨by simpa using hl, [i], by simp, ?_, rfl⟩
          exact List.cons_prefix_cons.mpr ⟨rfl, List.nil_prefix⟩
        · refine ⟨hl, i :: s, by simp, ?_, by simp⟩
          exact List.cons_prefix_cons.mpr ⟨rfl, hpre⟩
      · intro hq
        obtain ⟨hl, s, hne, hpre, rfl⟩ := hq
        cases s with
        | nil => exact absurd rfl hne
        | cons j s =>
            obtain ⟨rfl, htail⟩ := List.cons_prefix_cons.mp hpre
            by_cases hs : s = []
            · subst hs
              exact Or.inl ⟨rfl, by simpa using hl⟩
            · exact Or.inr ⟨hl, s, hs, htail, by simp⟩

/-- The keys' places are those of the tree, which is no higher than they
need. -/
def Planted (keys : List UInt64) (t : CxRadixTree) (m : Machine) : Prop :=
  ∃ g seen, TreeInv m t g ∧ Charted m t g.levels seen
    ∧ Covers g.levels keys seen
    ∧ (g.levels = 0 ∨ ∃ k ∈ keys, 256 ^ (g.levels - 1) ≤ k.toNat)

/-- A key that fits passes through its own places, beside those of others. -/
theorem Covers.add {seen' : List (List Nat)} (h : Covers n keys seen)
    (hkeys : keys ≠ []) (hkey : key.toNat < 256 ^ n)
    (hmem : ∀ q, q ∈ seen' ↔ q ∈ seen
      ∨ q.length < n ∧ ∃ s, s ≠ [] ∧ s <+: path n key.toNat ∧ q = [] ++ s) :
    Covers n (key :: keys) seen' := by
  constructor
  · intro k hk
    rcases List.mem_cons.mp hk with rfl | hk
    · exact hkey
    · exact h.fit k hk
  · intro q
    rw [hmem, h.mem]
    constructor
    · intro hq
      rcases hq with ⟨hlen, k, hk, hpre⟩ | ⟨hlen, s, -, hpre, rfl⟩
      · exact ⟨hlen, k, List.mem_cons_of_mem _ hk, hpre⟩
      · exact ⟨hlen, key, List.mem_cons_self .., hpre⟩
    · intro hq
      obtain ⟨hlen, k, hk, hpre⟩ := hq
      rcases List.mem_cons.mp hk with rfl | hk
      · by_cases hne : q = []
        · -- the root, which the others pass through
          obtain ⟨k', hk'⟩ := List.exists_mem_of_ne_nil keys hkeys
          exact Or.inl ⟨hlen, k', hk', hne ▸ List.nil_prefix⟩
        · exact Or.inr ⟨hlen, q, hne, hpre, rfl⟩
      · exact Or.inl ⟨hlen, k, hk, hpre⟩

theorem cxRadixTreeNewLeaf_planted (h : Planted keys t m) (hkeys : keys ≠ [])
    (key : UInt64) :
    (cxRadixTreeNewLeaf t key).Granted m fun r m' =>
      Planted (key :: keys) r.2 m' := by
  obtain ⟨g, seen, hinv, hcharted, hcovers, hneeded⟩ := h
  unfold cxRadixTreeNewLeaf resize
  refine granted_bind (resizeLoop_charted hkeys key 8 hinv hcharted
    hcovers (by omega)) ?_
  intro r m₁ hr
  obtain ⟨rv, t₁⟩ := r
  obtain ⟨g₁, seen₁, hrv, hinv₁, hcharted₁, hcovers₁, hkey, hlevels₁⟩ := hr
  have hneeded₁ : g₁.levels = 0
      ∨ ∃ k ∈ key :: keys, 256 ^ (g₁.levels - 1) ≤ k.toNat := by
    rcases hlevels₁ with hsame | hmore
    · rw [hsame]
      refine hneeded.imp_right fun hk => ?_
      obtain ⟨k, hk, hle⟩ := hk
      exact ⟨k, List.mem_cons_of_mem _ hk, hle⟩
    · exact Or.inr ⟨key, List.mem_cons_self .., hmore⟩
  dsimp only at hrv ⊢
  rw [if_neg (by omega)]
  by_cases hroot : t₁.root = 0
  · -- the leaf becomes the root of a tree of no levels
    rw [if_pos hroot]
    have hlev : g₁.levels = 0 := by
      by_contra hne
      exact hinv₁.tree.root (Nat.pos_of_ne_zero hne) hroot
    refine granted_bind (cxPreallocPoolGet_granted hinv₁.leafPool) ?_
    intro r m₂ hr
    obtain ⟨chunks', recycled', hh⟩ := hr
    obtain ⟨hstep, -⟩ := hinv₁.plantRoot hroot hh hkey
    refine granted_pure ⟨_, seen₁, hstep.inv, ?_, ?_, Or.inl hlev⟩
    · refine hcharted₁.congr (fun q _ hlen => ?_) rfl
      rw [hlev] at hlen
      exact absurd hlen (Nat.not_lt_zero _)
    · refine hcovers₁.add hkeys hkey fun q => ⟨Or.inl, fun hq => ?_⟩
      rcases hq with hq | ⟨hlen, -⟩
      · exact hq
      · rw [hlev] at hlen
        exact absurd hlen (Nat.not_lt_zero _)
  · rw [if_neg hroot]
    have hloop := newLeafLoop_charted (path g₁.levels key.toNat) []
      (prepareKey t₁ key) false hinv₁ hcharted₁ (path_digits _ _)
      (by rw [path_length]; simp)
      (by
        rw [path_length]
        exact lowDigits_prepareKey hinv₁.tree.levels hinv₁.tree.capacity key)
      hroot
    rw [path_length, walk_nil, ← hinv₁.tree.capacity] at hloop
    refine granted_bind hloop ?_
    intro r m₂ hr
    obtain ⟨leaf, occ, t₂⟩ := r
    obtain ⟨g₂, seen₂, hinv₂, hlevels₂, hcharted₂, hseen₂⟩ := hr
    have hplanted : Planted (key :: keys) t₂ m₂ := by
      refine ⟨g₂, seen₂, hinv₂, ?_, ?_, ?_⟩
      · rwa [hlevels₂]
      · rw [hlevels₂]
        exact hcovers₁.add hkeys hkey hseen₂
      · rwa [hlevels₂]
    dsimp only
    split
    · exact granted_pure hplanted
    · exact granted_pure hplanted

-- ======================================================== other operations

/-- Writes into a leaf are seen on no path. -/
theorem TreeInv.insideLeaf_walk (m' : Machine) (h : TreeInv m t g) {a : Nat}
    (ha : a ∈ g.leaves) (harena : m'.arena = m.arena)
    (hout : ∀ x, (x < a ∨ a + t.leafPool.elementSize ≤ x) →
      m'.mem x = m.mem x) :
    ∀ q, Digits q → q.length ≤ g.levels →
      walk m'.mem t.root q = walk m.mem t.root q := by
  obtain ⟨d, hd, hhas⟩ := h.leafPool.inChunk (List.mem_append_right _ ha)
  simp only [Block.Has] at hhas
  obtain ⟨-, hwalk⟩ := h.tree.frame m'
    (fun c hc => by rw [harena]; exact h.tree.pool.owned c hc)
    fun c hc x hx => by
      have hdis := h.apart c hc d hd
      simp only [Block.Disjoint, Block.Has] at hdis hx
      exact hout x (by omega)
  exact hwalk

/-- The height of a tree is in its capacity. -/
theorem TreeInv.levels_eq (h : TreeInv m t g) (h' : TreeInv m' t g') :
    g.levels = g'.levels := by
  have hcap := congrArg UInt64.toNat (h.tree.capacity.symm.trans h'.tree.capacity)
  rw [fullCapacity_toNat h.tree.levels, fullCapacity_toNat h'.tree.levels] at hcap
  have hpos : 0 < 256 ^ g.levels := Nat.pow_pos (by decide)
  have hpos' : 0 < 256 ^ g'.levels := Nat.pow_pos (by decide)
  exact Nat.pow_right_injective (by decide : 2 ≤ 256) (by dsimp only; omega)

/-- The bytes of a leaf do not count. -/
theorem Planted.insideLeaf (h : Planted keys t m) (hinv : TreeInv m t g)
    {a i : Nat} {value : List Byte} (ha : a ∈ g.leaves)
    (hroom : i + value.length ≤ t.leafPool.elementSize) :
    (C.writeBytes (a + i) value).run m
        = .ok () { m with mem := m.mem.write (a + i) value }
      ∧ Planted keys t { m with mem := m.mem.write (a + i) value } := by
  obtain ⟨g₁, seen, hinv₁, hcharted, hcovers, hneeded⟩ := h
  have hlevels := hinv₁.levels_eq hinv
  have hout : ∀ x, (x < a ∨ a + t.leafPool.elementSize ≤ x) →
      m.mem.write (a + i) value x = m.mem x := fun x hx =>
    write_apply_outside (by omega)
  have hwalk := hinv.insideLeaf_walk
    { m with mem := m.mem.write (a + i) value } ha rfl hout
  obtain ⟨hinv', -, -⟩ := hinv.insideLeaf
    { m with mem := m.mem.write (a + i) value } ha rfl hout
  rw [hlevels] at hcharted hcovers hneeded
  refine ⟨run_writeBytes (hinv.leafPool.valid (List.mem_append_right _ ha) hroom),
    g, seen, hinv', ?_, hcovers, hneeded⟩
  exact hcharted.congr (fun q hq hlen => hwalk q hq (Nat.le_of_lt hlen)) rfl

theorem cxRadixTreePut_planted (h : Planted keys t m) (hkeys : keys ≠ [])
    (key : UInt64) (value : List Byte) :
    (cxRadixTreePut t key value).Granted m fun r m' =>
      Planted (key :: keys) r.2 m' := by
  obtain ⟨g, -, hinv, -⟩ := id h
  unfold cxRadixTreePut
  refine granted_bind ((cxRadixTreeNewLeaf_step hinv key).and
    (cxRadixTreeNewLeaf_planted h hkeys key)) ?_
  intro r m₁ hr
  obtain ⟨leaf, t₁⟩ := r
  obtain ⟨⟨g₁, hstep, hmem, -⟩, hplanted⟩ := hr
  have hsize := hstep.size
  dsimp only at hmem hsize hplanted ⊢
  by_cases hne : leaf = 0
  · rw [if_neg (not_not.mpr hne)]
    exact granted_pure hplanted
  · rw [if_pos hne]
    have hroom : 0 + (value.take t₁.leafPool.elementSize).length
        ≤ t₁.leafPool.elementSize := by
      rw [Nat.zero_add, List.length_take]
      exact Nat.min_le_left ..
    obtain ⟨hrun, hplanted'⟩ := hplanted.insideLeaf hstep.inv (hmem hne) hroom
    exact granted_bind_run hrun (granted_pure hplanted')

/-- A delete leaves the branch pool alone. -/
theorem cxRadixTreeDelete_pool (t : CxRadixTree) (key : UInt64) :
    (cxRadixTreeDelete t key).Ensures fun r => r.2.branchPool = t.branchPool := by
  have hwrite : ∀ (t' : CxRadixTree) (ref : NodeRef), (writeRef t' 0 ref).Ensures
      fun t'' => t''.branchPool = t'.branchPool := by
    intro t' ref
    cases ref with
    | none => exact .pure rfl
    | some a => exact .after fun _ => .pure rfl
  unfold cxRadixTreeDelete
  apply C.Ensures.after
  intro r
  apply C.Ensures.ite
  · apply C.Ensures.after
    intro node
    apply C.Ensures.after
    intro leafPool
    refine (hwrite { t with leafPool := leafPool } r.1).bind ?_
    intro t'' hpool
    exact .pure hpool
  · exact .pure rfl

theorem cxRadixTreeDelete_planted (h : Planted keys t m) (key : UInt64) :
    (cxRadixTreeDelete t key).Granted m fun r m' => Planted keys r.2 m' := by
  obtain ⟨g, seen, hinv, hcharted, hcovers, hneeded⟩ := h
  by_cases hne : walk m.mem t.root (path g.levels key.toNat) = 0
  · obtain ⟨rv, t', m', hrun, hstep, hwalk⟩ :=
      run_cxRadixTreeDelete_absent hinv key hne
    have hpool := (cxRadixTreeDelete_pool t key).result _ _ _ hrun
    refine granted_of_run hrun ⟨g, seen, hstep.inv, ?_, hcovers, hneeded⟩
    exact hcharted.congr (fun q hq hlen => hwalk q hq (Nat.le_of_lt hlen)) hpool
  · obtain ⟨t', m', g', hrun, -, hstep, hlevels, -, -, hwalk⟩ :=
      run_cxRadixTreeDelete_leaf hinv key hne
    have hpool := (cxRadixTreeDelete_pool t key).result _ _ _ hrun
    rw [← hlevels] at hcharted hcovers hneeded
    refine granted_of_run hrun ⟨g', seen, hstep.inv, ?_, hcovers, hneeded⟩
    refine hcharted.congr (fun q hq hlen => ?_) hpool
    -- the leaf is below every branch
    rw [hlevels] at hlen
    rw [hwalk q hq (Nat.le_of_lt hlen), if_neg]
    intro heq
    rw [heq, path_length] at hlen
    exact Nat.lt_irrefl _ hlen

-- =================================================================== runs

/-- A tree, and the keys that were added to it so far. -/
structure KeyedTree where
  tree : CxRadixTree
  added : List UInt64

/-- The key an operation adds. -/
def TreeOp.adds : TreeOp → List UInt64
  | .put key _ => [key]
  | .newLeaf key => [key]
  | .write _ _ _ => []
  | .delete _ => []
  | .get _ => []

def KeyedTree.start (elementSize : Nat) : C KeyedTree := do
  let tree ← cxRadixTreeInit elementSize
  pure ⟨tree, []⟩

def KeyedTree.exec (op : TreeOp) (s : KeyedTree) : C KeyedTree := do
  let tree ← op.exec s.tree
  pure ⟨tree, op.adds ++ s.added⟩

/-- The states of runs in which nothing was refused: keys may be added when
they are stored, and deleted when they are not. -/
abbrev KeyedTree.Run (elementSize : Nat) (mem : Mem) (oracle : Nat → Nat) :
    KeyedTree → Machine → Prop :=
  Reached (KeyedTree.start elementSize) KeyedTree.exec
    (fun s _ op => op.Allowed s.tree) (Machine.boot mem oracle)

theorem planted_start {elementSize : Nat} (hsize : 16 * elementSize < 2 ^ 64)
    (hrun : (cxRadixTreeInit elementSize).run m = .ok t m') :
    Planted [0] t m' := by
  obtain ⟨rfl, -, -, g, hinv, -⟩ := cxRadixTreeInit_ok hsize hrun
  have hfresh : t.branchPool = ⟨none, 8 * radixBranchSize, radixBranchSize,
      0, 0, 0, 0⟩ ∧ t.capacity = 0 := by
    unfold cxRadixTreeInit cxPreallocPoolInit at hrun
    rw [C.run_bind, cxPreallocPoolInit2_ok _ (by decide) (by decide) (by decide),
      C.chain_ok] at hrun
    obtain ⟨leafPool, m₁, -, hend⟩ := bind_cases hrun
    cases hend
    exact ⟨rfl, rfl⟩
  obtain ⟨hpool, hcap⟩ := hfresh
  have hlev : g.levels = 0 := by
    by_contra hne
    obtain ⟨n, hn⟩ := Nat.exists_eq_succ_of_ne_zero hne
    have hle := hinv.tree.levels
    rw [hn] at hle
    rw [hinv.tree.capacity, hn] at hcap
    exact fullCapacity_ne_zero hle hcap
  have hnone : ∀ q : List Nat, ¬ q.length < g.levels := fun q hlen =>
    Nat.not_lt_zero _ (hlev ▸ hlen)
  refine ⟨g, [], hinv, ⟨List.nodup_nil, nofun,
    fun q _ hlen => absurd hlen (hnone q),
    ?_⟩, ⟨?_, fun q => ?_⟩, Or.inl hlev⟩
  · rw [hpool]
    exact ⟨fun _ => ⟨rfl, rfl⟩, fun h => absurd rfl h, rfl⟩
  · intro k hk
    rw [List.mem_singleton.mp hk]
    exact Nat.pow_pos (by decide)
  · constructor
    · nofun
    · exact fun hq => absurd hq.1 (hnone q)

theorem planted_exec {added : List UInt64} (h : Planted (added ++ [0]) t m)
    {op : TreeOp} (hop : op.Allowed t) :
    (op.exec t).Granted m fun t' m' =>
      Planted (op.adds ++ added ++ [0]) t' m' := by
  have hkeys : added ++ [0] ≠ [] := by simp
  cases op with
  | put key value =>
      refine granted_bind (cxRadixTreePut_planted h hkeys key value) ?_
      intro r m₁ hr
      exact granted_pure hr
  | newLeaf key =>
      refine granted_bind (cxRadixTreeNewLeaf_planted h hkeys key) ?_
      intro r m₁ hr
      exact granted_pure hr
  | write key i value =>
      have hroom : i + value.length ≤ t.leafPool.elementSize := hop
      obtain ⟨g, -, hinv, -⟩ := id h
      refine granted_bind_run (run_cxRadixTreeGet hinv key) ?_
      by_cases hne : leafAt m t g.levels key = 0
      · rw [if_neg (not_not.mpr hne)]
        exact granted_pure h
      · rw [if_pos hne]
        obtain ⟨hrun, hplanted⟩ := h.insideLeaf hinv (hinv.leafAt_mem hne) hroom
        exact granted_bind_run hrun (granted_pure hplanted)
  | delete key =>
      refine granted_bind (cxRadixTreeDelete_planted h key) ?_
      intro r m₁ hr
      exact granted_pure hr
  | get key =>
      obtain ⟨g, -, hinv, -⟩ := id h
      exact granted_bind_run (run_cxRadixTreeGet hinv key) (granted_pure h)

theorem planted_run {elementSize : Nat} {mem : Mem} {oracle : Nat → Nat}
    {s : KeyedTree} (hsize : 16 * elementSize < 2 ^ 64)
    (h : KeyedTree.Run elementSize mem oracle s m) :
    Planted (s.added ++ [0]) s.tree m := by
  apply h.invariant fun s m => Planted (s.added ++ [0]) s.tree m
  · intro s m hrun _
    obtain ⟨t, m₁, hinit, hend⟩ := bind_cases hrun
    cases hend
    exact planted_start hsize hinit
  · intro s m op hinv hop
    refine granted_bind (planted_exec hinv hop) ?_
    intro t' m' hplanted
    exact granted_pure hplanted

/-- What the keys added to a tree of `n` levels cost, stored or not. -/
structure BranchBill (n : Nat) (s : KeyedTree) : Prop where
  levels : n ≤ 8
  capacity : s.tree.capacity.toNat = 256 ^ n - 1
  fit : ∀ k ∈ s.added, k.toNat < 256 ^ n
  needed : n = 0 ∨ ∃ k ∈ s.added, 256 ^ (n - 1) ≤ k.toNat
  /-- a branch for each place the keys and key 0 pass through -/
  carved : Carved (8 * radixBranchSize) radixBranchSize
    (prefixes n (s.added ++ [0])).length s.tree.branchPool
  bound : (prefixes n (s.added ++ [0])).length ≤ (s.added.dedup.length + 1) * n

/-- The height and the branches of a tree depend on the keys that were ever
added to it, and on nothing else. -/
theorem cxRadixTree_branches {elementSize : Nat} {mem : Mem}
    {oracle : Nat → Nat} {s : KeyedTree} (hsize : 16 * elementSize < 2 ^ 64)
    (h : KeyedTree.Run elementSize mem oracle s m) : ∃ n, BranchBill n s := by
  obtain ⟨g, seen, hinv, hcharted, hcovers, hneeded⟩ := planted_run hsize h
  refine ⟨g.levels, hinv.tree.levels, ?_, ?_, ?_, ?_, ?_⟩
  · rw [hinv.tree.capacity, fullCapacity_toNat hinv.tree.levels]
  · intro k hk
    exact hcovers.fit k (List.mem_append_left _ hk)
  · rcases hneeded with hzero | ⟨k, hk, hle⟩
    · exact Or.inl hzero
    · rcases List.mem_append.mp hk with hk | hk
      · exact Or.inr ⟨k, hk, hle⟩
      · rw [List.mem_singleton.mp hk] at hle
        exact absurd hle (Nat.not_le.mpr (Nat.pow_pos (by decide)))
  · rw [← hcovers.length hcharted.nodup]
    exact hcharted.carved
  · refine length_prefixes_le.trans (Nat.mul_le_mul_right _ ?_)
    have hsub : (s.added ++ [0]).dedup ⊆ 0 :: s.added.dedup := by
      intro k hk
      simpa [or_comm] using hk
    exact (List.subperm_of_subset (List.nodup_dedup _) hsub).length_le

/-- Both keys are gone, and their branches are not: two levels, the root and
the branches of the keys below 256 and of those from 512 on. -/
theorem cxRadixTree_branches_deleted : ∃ n s, BranchBill n s
    ∧ s.tree.capacity = 65535 ∧ s.added = [1, 513, 1]
    ∧ s.tree.branchPool.nextOffset = 3 * radixBranchSize := by
  obtain ⟨s, m, hrun, htest⟩ := reached_of_replayFrom
    (KeyedTree.start 8) KeyedTree.exec (fun s _ op => op.Allowed s.tree)
    (Machine.boot (fun _ => 0) fun t => 2 ^ 20 * (t + 1))
    [.newLeaf 1, .delete 1, .newLeaf 513, .newLeaf 1, .delete 513, .delete 1]
    (fun x => decide (x.1.tree.capacity = 65535 ∧ x.1.added = [1, 513, 1]
      ∧ x.1.tree.branchPool.nextOffset = 3 * radixBranchSize))
    (by decide +kernel)
  obtain ⟨n, hbill⟩ := cxRadixTree_branches (by decide) hrun
  exact ⟨n, s, hbill, of_decide_eq_true htest⟩

end Cextras.Collection
