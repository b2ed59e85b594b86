/-
The pool invariant and what each pool operation does to it.

`PoolInv m p chunks free live` says: the pool `p` owns the blocks
`chunks`, has handed out exactly the elements `live`, and keeps exactly
the elements `free` on its reuse list, in list order. Elements are slots
of a chunk (`Slot`), so two different ones never share a byte
(`PoolInv.separated`): that is what makes the bytes of a live element
private to whoever holds it.

`PoolInv.frame` is the other half of the separation argument: the
invariant survives every change of memory inside live elements or
outside the pool's chunks. Clients and other pools only ever make such
changes.
-/
import Cextras.Lib.Linked
import Cextras.Lib.Triple
import Cextras.Memory.PreallocPool

namespace Cextras.Memory

open Lib

-- ================================================================ slots

/-- The `k`-th run of `size` bytes of a block, for some `k`. -/
def Slot (size : Nat) (c : Block) (a : Nat) : Prop :=
  ∃ k, a = c.base + k * size ∧ k * size + size ≤ c.size

theorem Slot.has {size : Nat} {c : Block} {a : Nat} (h : Slot size c a) :
    c.Has a size := by
  obtain ⟨k, rfl, hk⟩ := h
  exact ⟨by omega, by omega⟩

/-- Different slots of one block do not overlap. -/
theorem Slot.separated {size : Nat} {c : Block} {a b : Nat}
    (ha : Slot size c a) (hb : Slot size c b) (hne : a ≠ b) :
    a + size ≤ b ∨ b + size ≤ a := by
  obtain ⟨i, rfl, -⟩ := ha
  obtain ⟨j, rfl, -⟩ := hb
  rcases Nat.lt_trichotomy i j with hij | rfl | hij
  · left
    have hmul : (i + 1) * size ≤ j * size := Nat.mul_le_mul_right _ hij
    rw [Nat.succ_mul] at hmul
    omega
  · exact absurd rfl hne
  · right
    have hmul : (j + 1) * size ≤ i * size := Nat.mul_le_mul_right _ hij
    rw [Nat.succ_mul] at hmul
    omega

-- ======================================================== the invariant

/-- The block `next_offset` points into. -/
def CxPreallocPool.current (p : CxPreallocPool) : Block :=
  ⟨p.currentPool, p.chunkSize⟩

/-- The pool `p` owns `chunks`, has handed out `live` and keeps `free`
for reuse (module doc). -/
structure PoolInv (m : Machine) (p : CxPreallocPool) (chunks : List Block)
    (free live : List Nat) : Prop where
  size_ge : 8 ≤ p.elementSize
  size_le : p.elementSize ≤ p.chunkSize
  chunk_lt : p.chunkSize < 2 ^ 63
  owned : ∀ c ∈ chunks, c ∈ m.arena.blocks
  nodup : (free ++ live).Nodup
  slot : ∀ a ∈ free ++ live, ∃ c ∈ chunks, Slot p.elementSize c a
  reuse : Linked m.mem 0 p.reusePool free
  started : p.pools = none ∧ chunks = [] ∨ p.pools ≠ none ∧ p.current ∈ chunks
  offset : p.pools ≠ none →
    p.elementSize ∣ p.nextOffset ∧ p.nextOffset ≤ p.chunkSize
  used : p.pools ≠ none → ∀ a ∈ free ++ live, p.current.Has a p.elementSize →
    a + p.elementSize ≤ p.currentPool + p.nextOffset
  fresh : p.pools ≠ none → ∀ x, p.currentPool + p.nextOffset ≤ x →
    x < p.currentPool + p.chunkSize → m.mem x = 0

/-- The chunk table lists the chunks, the newest of which comes first in
`chunks`; each is twice as large as the one before. -/
structure Tabled (p : CxPreallocPool) (chunks : List Block) (unit : Nat) :
    Prop where
  cells : (p.pools.map CArray.cells).getD []
    = chunks.reverse.map fun c => some c.base
  count : p.poolCount = chunks.length
  chunkSize : p.chunkSize = unit * 2 ^ chunks.length
  sizes : ∀ i c, chunks.reverse[i]? = some c → c.size = unit * 2 ^ (i + 1)

variable {m m' : Machine} {p p' : CxPreallocPool} {chunks : List Block}
  {free live : List Nat}

/-- An element's bytes lie in a chunk of the pool. -/
theorem PoolInv.inChunk (h : PoolInv m p chunks free live) {a : Nat}
    (ha : a ∈ free ++ live) : ∃ c ∈ chunks, c.Has a p.elementSize := by
  obtain ⟨c, hc, hs⟩ := h.slot a ha
  exact ⟨c, hc, hs.has⟩

/-- Every run of bytes inside an element may be accessed. -/
theorem PoolInv.valid (h : PoolInv m p chunks free live) {a : Nat}
    (ha : a ∈ free ++ live) {i n : Nat} (hin : i + n ≤ p.elementSize) :
    m.Valid (a + i) n := by
  obtain ⟨c, hc, hlo, hhi⟩ := h.inChunk ha
  exact ⟨c, h.owned c hc, by omega, by omega⟩

theorem PoolInv.ne_zero (h : PoolInv m p chunks free live) {a : Nat}
    (ha : a ∈ free ++ live) : a ≠ 0 := by
  obtain ⟨c, hc, hlo, -⟩ := h.inChunk ha
  have := (m.arena.bounded c (h.owned c hc)).1
  omega

/-- Element addresses fit a machine word. -/
theorem PoolInv.lt_word (h : PoolInv m p chunks free live) {a : Nat}
    (ha : a ∈ free ++ live) : a < 2 ^ 64 := by
  obtain ⟨c, hc, -, hhi⟩ := h.inChunk ha
  have := (m.arena.bounded c (h.owned c hc)).2
  have := h.size_ge
  omega

/-- Two different elements share no byte. -/
theorem PoolInv.separated (h : PoolInv m p chunks free live) {a b : Nat}
    (ha : a ∈ free ++ live) (hb : b ∈ free ++ live) (hne : a ≠ b) :
    a + p.elementSize ≤ b ∨ b + p.elementSize ≤ a := by
  obtain ⟨c, hc, hsa⟩ := h.slot a ha
  obtain ⟨d, hd, hsb⟩ := h.slot b hb
  rcases m.arena.eq_or_disjoint (h.owned c hc) (h.owned d hd) with rfl | hdis
  · exact hsa.separated hsb hne
  · have ha' := hsa.has
    have hb' := hsb.has
    simp only [Block.Disjoint, Block.Has] at hdis ha' hb'
    omega

/-- The chunk being bumped is one of the pool's chunks. -/
theorem PoolInv.current_mem (h : PoolInv m p chunks free live)
    (hs : p.pools ≠ none) : p.current ∈ chunks := by
  rcases h.started with ⟨hn, -⟩ | ⟨-, hc⟩
  · exact absurd hn hs
  · exact hc

/-- No element reaches into the part of the current chunk that was not
handed out yet. -/
theorem PoolInv.fresh_outside (h : PoolInv m p chunks free live)
    (hs : p.pools ≠ none) {x : Nat} (hlo : p.currentPool + p.nextOffset ≤ x)
    (hhi : x < p.currentPool + p.chunkSize) {a : Nat}
    (ha : a ∈ free ++ live) : x < a ∨ a + p.elementSize ≤ x := by
  have hcur := h.current_mem hs
  obtain ⟨c, hc, hac⟩ := h.inChunk ha
  rcases m.arena.eq_or_disjoint (h.owned c hc) (h.owned _ hcur) with rfl | hd
  · -- an element of the current chunk lies below the bump offset
    have := h.used hs a ha hac
    omega
  · simp only [Block.Disjoint, Block.Has, CxPreallocPool.current] at hd hac
    omega

/-- The invariant survives changes of memory inside live elements and
outside the chunks, and any growth of the arena. -/
theorem PoolInv.frame (m' : Machine) (h : PoolInv m p chunks free live)
    (hblocks : ∀ c ∈ chunks, c ∈ m'.arena.blocks)
    (hmem : ∀ c ∈ chunks, ∀ x, c.Has x 1 →
      (∀ a ∈ live, x < a ∨ a + p.elementSize ≤ x) → m'.mem x = m.mem x) :
    PoolInv m' p chunks free live where
  size_ge := h.size_ge
  size_le := h.size_le
  chunk_lt := h.chunk_lt
  owned := hblocks
  nodup := h.nodup
  slot := h.slot
  reuse := by
    refine h.reuse.congr fun a ha x hx hxn => ?_
    have ha' : a ∈ free ++ live := List.mem_append_left _ ha
    obtain ⟨c, hc, hlo, hhi⟩ := h.inChunk ha'
    have hge := h.size_ge
    refine hmem c hc x ⟨by omega, by omega⟩ fun b hb => ?_
    have hne : a ≠ b :=
      (List.nodup_append.mp h.nodup).2.2 a ha b hb
    have := h.separated ha' (List.mem_append_right _ hb) hne
    omega
  started := h.started
  offset := h.offset
  used := h.used
  fresh := by
    intro hs x hlo hhi
    have hx : p.current.Has x 1 := ⟨by simp only [CxPreallocPool.current]; omega,
      by simp only [CxPreallocPool.current]; omega⟩
    rw [hmem _ (h.current_mem hs) x hx, h.fresh hs x hlo hhi]
    exact fun a ha => h.fresh_outside hs hlo hhi (List.mem_append_right _ ha)

/-- Relinking the reuse list: the same elements may be split anew into
free and live ones, as long as the new chain threads the free ones and
only bytes of elements changed. -/
theorem PoolInv.relist (h : PoolInv m p chunks free live) {r : Nat}
    {free' live' : List Nat} (harena : m'.arena = m.arena)
    (hperm : (free' ++ live').Perm (free ++ live))
    (hlink : Linked m'.mem 0 r free')
    (hmem : ∀ x, (∀ a ∈ free ++ live, x < a ∨ a + p.elementSize ≤ x) →
      m'.mem x = m.mem x) :
    PoolInv m' { p with reusePool := r } chunks free' live' where
  size_ge := h.size_ge
  size_le := h.size_le
  chunk_lt := h.chunk_lt
  owned := by rw [harena]; exact h.owned
  nodup := hperm.nodup_iff.mpr h.nodup
  slot := fun a ha => h.slot a (hperm.mem_iff.mp ha)
  reuse := hlink
  started := h.started
  offset := h.offset
  used := fun hs a ha => h.used hs a (hperm.mem_iff.mp ha)
  fresh := fun hs x hlo hhi => by
    rw [hmem x fun a ha => h.fresh_outside hs hlo hhi ha]
    exact h.fresh hs x hlo hhi

end Cextras.Memory
