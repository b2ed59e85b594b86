/-
The radix tree invariant and its preservation by the building blocks of
the operations: a node handed out by either pool, a store into a child
word, a new root.

`BranchInv` is the half about branches and the path function, for any
set of leaves; `TreeInv` adds the leaf pool and ties the leaves of the
tree to the pool's live elements. The split is what lets `delete` be
followed through its middle, where the leaf is already recycled and
still linked.
-/
import Cextras.Memory.Proofs.PoolOps
import Cextras.Collection.Proofs.RadixWalk

namespace Cextras.Collection

open Lib Memory

-- ============================================================ invariants

/-- The branches of a tree of `n` levels whose leaves are `leaves`. -/
structure BranchInv (m : Machine) (t : CxRadixTree) (n : Nat)
    (chunks : List Block) (branches leaves : List Nat) : Prop where
  levels : n ≤ 8
  capacity : t.capacity = fullCapacity n
  pool : PoolInv m t.branchPool chunks [] branches
  size : t.branchPool.elementSize = radixBranchSize
  shape : Shape n (walk m.mem t.root) branches leaves
  root : 0 < n → t.root ≠ 0

/-- What the tree is made of: its height, the chunks of its two pools,
its branches, and its leaves, recycled and live. -/
structure Ghost where
  levels : Nat
  branchChunks : List Block
  leafChunks : List Block
  branches : List Nat
  recycled : List Nat
  leaves : List Nat

/-- The radix tree invariant. -/
structure TreeInv (m : Machine) (t : CxRadixTree) (g : Ghost) : Prop where
  tree : BranchInv m t g.levels g.branchChunks g.branches g.leaves
  leafPool : PoolInv m t.leafPool g.leafChunks g.recycled g.leaves
  apart : ∀ c ∈ g.branchChunks, ∀ d ∈ g.leafChunks, c.Disjoint d

/-- The leaf under `key`, or null, in a tree of `n` levels. -/
def leafAt (m : Machine) (t : CxRadixTree) (n : Nat) (key : UInt64) : Nat :=
  if key.toNat < 256 ^ n then walk m.mem t.root (path n key.toNat) else 0

section BranchInv

variable {m m' : Machine} {t t' : CxRadixTree} {n : Nat} {chunks : List Block}
  {branches leaves : List Nat}

theorem BranchInv.branches_apart
    (h : BranchInv m t n chunks branches leaves) : Apart branches := by
  intro x hx y hy hne
  have hsep := h.pool.separated (a := x) (b := y) hx hy hne
  rwa [h.size] at hsep

/-- The child words of a branch of the tree may be accessed. -/
theorem BranchInv.valid (h : BranchInv m t n chunks branches leaves)
    {p : List Nat} {i : Nat} (hp : Digits p) (hlen : p.length < n)
    (hi : i < 256) (hb : walk m.mem t.root p ≠ 0) :
    m.Valid (walk m.mem t.root p + 8 * i) 8 := by
  have hmem := h.shape.branch p hp hlen hb
  refine h.pool.valid (a := walk m.mem t.root p) hmem ?_
  rw [h.size, radixBranchSize, radixSize]
  omega

/-- A branch lies in a chunk of the branch pool. -/
theorem BranchInv.inChunk (h : BranchInv m t n chunks branches leaves) {b : Nat}
    (hb : b ∈ branches) : ∃ c ∈ chunks, c.Has b radixBranchSize := by
  have hc := h.pool.inChunk (a := b) hb
  rwa [h.size] at hc

/-- The branch half survives every change of memory outside the branch
pool's chunks, and walks see no difference. -/
theorem BranchInv.frame (m' : Machine)
    (h : BranchInv m t n chunks branches leaves)
    (hblocks : ∀ c ∈ chunks, c ∈ m'.arena.blocks)
    (hmem : ∀ c ∈ chunks, ∀ x, c.Has x 1 → m'.mem x = m.mem x) :
    BranchInv m' t n chunks branches leaves
      ∧ ∀ q, Digits q → q.length ≤ n →
        walk m'.mem t.root q = walk m.mem t.root q := by
  have hagree : ∀ b ∈ branches, m.mem.Agree m'.mem b radixBranchSize := by
    intro b hb x hlo hhi
    obtain ⟨c, hc, hcl, hch⟩ := h.inChunk hb
    exact hmem c hc x ⟨by omega, by omega⟩
  have hwalk := walk_congr h.shape hagree
  refine ⟨⟨h.levels, h.capacity, ?_, h.size, ?_, h.root⟩, hwalk⟩
  · exact h.pool.frame _ hblocks fun c hc x hx _ => hmem c hc x hx
  · exact h.shape.transfer hwalk (fun _ hb => hb) (fun _ ha => ha)

/-- A store of `v` into child `i` of the node at `p`: the path function
changes at one point. -/
theorem BranchInv.storeChild (h : BranchInv m t n chunks branches leaves)
    {p : List Nat} {i v : Nat} (leaves' : List Nat) (hp : Digits p)
    (hlen : p.length < n) (hi : i < 256) (hb : walk m.mem t.root p ≠ 0)
    (hm' : m' = { m with mem := m.mem.store64 (walk m.mem t.root p + 8 * i) v })
    (hv : v < 2 ^ 64)
    (hkids : p.length + 1 < n → walk m.mem t.root (p ++ [i]) = 0
      ∧ ∀ j < 256, m'.mem.load64 (v + 8 * j) = 0)
    (hfresh : v ≠ 0 → ∀ q, Digits q → q.length ≤ n → walk m.mem t.root q ≠ v)
    (hbranch : v ≠ 0 → p.length + 1 < n → v ∈ branches)
    (hleaf : v ≠ 0 → p.length + 1 = n → v ∈ leaves')
    (hleaves : ∀ q, Digits q → q.length = n → q ≠ p ++ [i] →
      walk m.mem t.root q ≠ 0 → walk m.mem t.root q ∈ leaves') :
    BranchInv m' t n chunks branches leaves'
      ∧ ∀ q, Digits q → q.length ≤ n →
        walk m'.mem t.root q = if q = p ++ [i] then v else walk m.mem t.root q := by
  have hmem' : m'.mem = m.mem.store64 (walk m.mem t.root p + 8 * i) v := by
    rw [hm']
  have hupd := walk_graft h.shape h.branches_apart hp hlen hi hb hmem' hv hkids
  have hin := h.shape.branch p hp hlen hb
  refine ⟨⟨h.levels, h.capacity, ?_, h.size, ?_, h.root⟩, hupd⟩
  · -- the store lands inside a live branch
    refine h.pool.frame _ (by rw [hm']; exact h.pool.owned) fun c _ x _ hx => ?_
    have hxo := hx _ hin
    rw [h.size, radixBranchSize, radixSize] at hxo
    rw [hmem']
    exact agree_store64 (b := x) (n := 1) (by omega) x (by omega) (by omega)
  · have hlen' : (p ++ [i]).length = p.length + 1 := by simp
    refine h.shape.graft hupd hfresh (fun hne hl => hbranch hne (by omega))
      (fun hne hl => hleaf hne (by omega)) (fun b hb => hb) hleaves

/-- A store into a child word leaves every block beside the branch
pool's chunks alone. -/
theorem BranchInv.store_foreign (h : BranchInv m t n chunks branches leaves)
    {p : List Nat} {i v : Nat} (hp : Digits p) (hlen : p.length < n)
    (hi : i < 256) (hb : walk m.mem t.root p ≠ 0) {d : Block}
    (hd : ∀ c ∈ chunks, c.Disjoint d) :
    ∀ x, d.Has x 1 →
      m.mem.store64 (walk m.mem t.root p + 8 * i) v x = m.mem x := by
  intro x hx
  obtain ⟨c, hc, hcb⟩ := h.inChunk (h.shape.branch p hp hlen hb)
  have hdis := hd c hc
  simp only [Block.Disjoint, Block.Has, radixBranchSize, radixSize]
    at hdis hcb hx
  exact agree_store64 (b := x) (n := 1) (by omega) x (by omega) (by omega)

end BranchInv

-- ================================================================ frames

section TreeInv

variable {m m' : Machine} {t t' : CxRadixTree} {g g' : Ghost}

/-- What a tree operation promises about everything it was not asked to
change: allocated blocks stay allocated, the element size stays, leaves
that survive keep their bytes, and no callback runs. -/
structure TreeStep (m : Machine) (t : CxRadixTree) (g : Ghost) (m' : Machine)
    (t' : CxRadixTree) (g' : Ghost) : Prop where
  inv : TreeInv m' t' g'
  size : t'.leafPool.elementSize = t.leafPool.elementSize
  blocks : ∀ b ∈ m.arena.blocks, b ∈ m'.arena.blocks
  bytes : ∀ a ∈ g.leaves, a ∈ g'.leaves →
    m.mem.Agree m'.mem a t.leafPool.elementSize
  calls : m'.calls = m.calls

theorem TreeStep.refl (h : TreeInv m t g) : TreeStep m t g m t g :=
  ⟨h, rfl, fun _ hb => hb, fun _ _ _ _ _ _ => rfl, rfl⟩

/-- Steps compose when no leaf leaves in the first one. -/
theorem TreeStep.trans {m'' : Machine} {t'' : CxRadixTree} {g'' : Ghost}
    (h : TreeStep m t g m' t' g') (h' : TreeStep m' t' g' m'' t'' g'')
    (hkeep : ∀ a ∈ g.leaves, a ∈ g'.leaves) : TreeStep m t g m'' t'' g'' where
  inv := h'.inv
  size := h'.size.trans h.size
  blocks := fun b hb => h'.blocks b (h.blocks b hb)
  bytes := fun a ha ha'' x hlo hhi => by
    rw [h'.bytes a (hkeep a ha) ha'' x hlo (by rw [h.size]; exact hhi),
      h.bytes a ha (hkeep a ha) x hlo hhi]
  calls := h'.calls.trans h.calls

/-- The invariant reads memory and arena, nothing else. -/
theorem TreeInv.transfer (h : TreeInv m t g) (hmem : m'.mem = m.mem)
    (harena : m'.arena = m.arena) : TreeInv m' t g where
  tree := (h.tree.frame m'
    (fun c hc => by rw [harena]; exact h.tree.pool.owned c hc)
    fun _ _ x _ => by rw [hmem]).1
  leafPool := h.leafPool.frame _
    (fun c hc => by rw [harena]; exact h.leafPool.owned c hc)
    fun _ _ x _ _ => by rw [hmem]
  apart := h.apart

/-- A live leaf is not a branch. -/
theorem TreeInv.leaf_not_branch (h : TreeInv m t g) {a : Nat}
    (ha : a ∈ g.leaves) : a ∉ g.branches := by
  intro hb
  obtain ⟨c, hc, hcb⟩ := h.tree.inChunk hb
  obtain ⟨d, hd, hda⟩ := h.leafPool.inChunk (List.mem_append_right _ ha)
  have hdis := h.apart c hc d hd
  have hsz := h.leafPool.size_ge
  simp only [Block.Disjoint, Block.Has, radixBranchSize, radixSize]
    at hdis hcb hda
  omega

/-- Every node of the tree is one of its branches or leaves. -/
theorem TreeInv.node_mem (h : TreeInv m t g) {q : List Nat} (hq : Digits q)
    (hlen : q.length ≤ g.levels) (hne : walk m.mem t.root q ≠ 0) :
    walk m.mem t.root q ∈ g.branches ∨ walk m.mem t.root q ∈ g.leaves := by
  rcases Nat.lt_or_eq_of_le hlen with hlt | hlt
  · exact Or.inl (h.tree.shape.branch q hq hlt hne)
  · exact Or.inr (h.tree.shape.leaf q hq hlt hne)

/-- Node addresses fit a machine word. -/
theorem TreeInv.node_lt (h : TreeInv m t g) {q : List Nat} (hq : Digits q)
    (hlen : q.length ≤ g.levels) : walk m.mem t.root q < 2 ^ 64 := by
  by_cases hne : walk m.mem t.root q = 0
  · rw [hne]
    exact Nat.two_pow_pos 64
  · rcases h.node_mem hq hlen hne with hb | hl
    · exact h.tree.pool.lt_word (a := walk m.mem t.root q) hb
    · exact h.leafPool.lt_word (List.mem_append_right _ hl)

/-- Handing out a leaf leaves the tree as it was. -/
theorem TreeInv.handoutLeaf (h : TreeInv m t g) {v : Nat} {p' : CxPreallocPool}
    {chunks' : List Block} {recycled' : List Nat}
    (hh : Handout m t.leafPool g.leafChunks g.recycled g.leaves v p' m' chunks'
      recycled') :
    TreeStep m t g m' { t with leafPool := p' }
        { g with leafChunks := chunks', recycled := recycled',
                 leaves := v :: g.leaves }
      ∧ ∀ q, Digits q → q.length ≤ g.levels →
        walk m'.mem t.root q = walk m.mem t.root q := by
  have hforeign : ∀ c ∈ g.branchChunks, ∀ x, c.Has x 1 →
      m'.mem x = m.mem x := fun c hc =>
    hh.mem_foreign (h.tree.pool.owned c hc)
      fun d hd => (h.apart c hc d hd).symm
  obtain ⟨hbr, hwalk⟩ := h.tree.frame m'
    (fun c hc => hh.blocks c (h.tree.pool.owned c hc)) hforeign
  refine ⟨⟨⟨⟨hbr.levels, hbr.capacity, hbr.pool, hbr.size, ?_, hbr.root⟩,
    hh.inv, ?_⟩, hh.size, hh.blocks, ?_, hh.calls⟩, hwalk⟩
  · exact hbr.shape.transfer (fun _ _ _ => rfl) (fun _ hb => hb)
      (fun _ ha => List.mem_cons_of_mem _ ha)
  · intro c hc d hd
    rcases hh.newChunks d hd with hd | hd
    · exact h.apart c hc d hd
    · exact (hd c (h.tree.pool.owned c hc)).symm
  · -- live leaves share no byte with the new one
    intro a ha _ x hlo hhi
    have ha' : a ∈ g.recycled ++ g.leaves := List.mem_append_right _ ha
    obtain ⟨c, hc, hca⟩ := h.leafPool.inChunk ha'
    have hne : a ≠ v := fun heq => hh.not_mem (heq ▸ ha)
    have hsep := hh.inv.separated (a := a) (b := v)
      (List.mem_append_right _ (List.mem_cons_of_mem _ ha))
      (List.mem_append_right _ (List.mem_cons_self ..)) hne
    rw [hh.size] at hsep
    simp only [Block.Has] at hca
    exact hh.mem c (h.leafPool.owned c hc) x ⟨by omega, by omega⟩ (by omega)

/-- Handing out a branch leaves the tree as it was; the branch has no
children. -/
theorem TreeInv.handoutBranch (h : TreeInv m t g) {v : Nat}
    {p' : CxPreallocPool} {chunks' : List Block}
    (hh : Handout m t.branchPool g.branchChunks [] g.branches v p' m' chunks'
      []) :
    TreeStep m t g m' { t with branchPool := p' }
        { g with branchChunks := chunks', branches := v :: g.branches }
      ∧ (∀ q, Digits q → q.length ≤ g.levels →
        walk m'.mem t.root q = walk m.mem t.root q)
      ∧ ∀ j < 256, m'.mem.load64 (v + 8 * j) = 0 := by
  have hforeign : ∀ d ∈ g.leafChunks, ∀ x, d.Has x 1 →
      m'.mem x = m.mem x := fun d hd =>
    hh.mem_foreign (h.leafPool.owned d hd) fun c hc => h.apart c hc d hd
  have hsz := h.tree.size
  have hagree : ∀ b ∈ g.branches, m.mem.Agree m'.mem b radixBranchSize := by
    intro b hb x hlo hhi
    obtain ⟨c, hc, hcb⟩ := h.tree.inChunk hb
    have hne : b ≠ v := fun heq => hh.not_mem (heq ▸ hb)
    have hsep := hh.inv.separated (a := b) (b := v)
      (List.mem_cons_of_mem _ hb) (List.mem_cons_self ..) hne
    rw [hh.size, hsz] at hsep
    simp only [Block.Has] at hcb
    refine hh.mem c (h.tree.pool.owned c hc) x ⟨by omega, by omega⟩ ?_
    rw [hsz]
    omega
  have hwalk := walk_congr h.tree.shape hagree
  have hleafpool : PoolInv m' t.leafPool g.leafChunks g.recycled g.leaves :=
    h.leafPool.frame _ (fun d hd => hh.blocks d (h.leafPool.owned d hd))
      fun d hd x hx _ => hforeign d hd x hx
  refine ⟨⟨⟨⟨h.tree.levels, h.tree.capacity, hh.inv, hh.size.trans hsz, ?_,
    h.tree.root⟩, hleafpool, ?_⟩, rfl, hh.blocks, ?_, hh.calls⟩, hwalk, ?_⟩
  · exact h.tree.shape.transfer hwalk
      (fun _ hb => List.mem_cons_of_mem _ hb) (fun _ ha => ha)
  · intro c hc d hd
    rcases hh.newChunks c hc with hc | hc
    · exact h.apart c hc d hd
    · exact hc d (h.leafPool.owned d hd)
  · intro a ha _ x hlo hhi
    obtain ⟨d, hd, hda⟩ := h.leafPool.inChunk (List.mem_append_right _ ha)
    simp only [Block.Has] at hda
    exact hforeign d hd x ⟨by omega, by omega⟩
  · intro j hj
    obtain ⟨-, hzero⟩ := hh.zeroed rfl
    refine load64_of_zero fun x hlo hhi => hzero x (by omega) ?_
    rw [hsz, radixBranchSize, radixSize]
    omega

/-- A store of a node into a child word, in the tree as a whole. -/
theorem TreeInv.storeChild (h : TreeInv m t g) {p : List Nat} {i v : Nat}
    (hp : Digits p) (hlen : p.length < g.levels) (hi : i < 256)
    (hb : walk m.mem t.root p ≠ 0)
    (hm' : m' = { m with mem := m.mem.store64 (walk m.mem t.root p + 8 * i) v })
    (hv : v < 2 ^ 64)
    (hkids : p.length + 1 < g.levels → walk m.mem t.root (p ++ [i]) = 0
      ∧ ∀ j < 256, m'.mem.load64 (v + 8 * j) = 0)
    (hfresh : ∀ q, Digits q → q.length ≤ g.levels → walk m.mem t.root q ≠ v)
    (hbranch : p.length + 1 < g.levels → v ∈ g.branches)
    (hleaf : p.length + 1 = g.levels → v ∈ g.leaves) :
    TreeStep m t g m' t g
      ∧ ∀ q, Digits q → q.length ≤ g.levels →
        walk m'.mem t.root q = if q = p ++ [i] then v else walk m.mem t.root q := by
  obtain ⟨hbr, hupd⟩ := h.tree.storeChild g.leaves hp hlen hi hb hm'
    hv hkids (fun _ => hfresh) (fun _ => hbranch) (fun _ => hleaf)
    (fun q hq hl _ hne => h.tree.shape.leaf q hq hl hne)
  have hforeign : ∀ d ∈ g.leafChunks, ∀ x, d.Has x 1 →
      m'.mem x = m.mem x := by
    intro d hd x hx
    rw [hm']
    exact h.tree.store_foreign hp hlen hi hb (fun c hc => h.apart c hc d hd) x hx
  have harena : m'.arena = m.arena := by rw [hm']
  refine ⟨⟨⟨hbr, ?_, h.apart⟩, rfl, ?_, ?_, by rw [hm']⟩, hupd⟩
  · exact h.leafPool.frame _ (by rw [harena]; exact h.leafPool.owned)
      fun d hd x hx _ => hforeign d hd x hx
  · rw [harena]
    exact fun _ hb => hb
  · intro a ha _ x hlo hhi
    obtain ⟨d, hd, hda⟩ := h.leafPool.inChunk (List.mem_append_right _ ha)
    simp only [Block.Has] at hda
    exact hforeign d hd x ⟨by omega, by omega⟩

end TreeInv

end Cextras.Collection
