/-
Runs of a pool's user, who takes elements, writes into those it has and
gives them back. In every state of every run the elements handed out lie
in the pool's chunks and share no byte with each other or with a
recycled one (`cxPreallocPool_elements`).

The pool is all there is (`Sole`), so that the machine's blocks are the
pool's chunks and `cxPreallocPoolCleanup` can be said to leave nothing
behind (`run_cxPreallocPoolCleanup`).
-/
import Cextras.Lib.Run
import Cextras.Memory.Proofs.PoolOps

namespace Cextras.Memory

open Lib

-- ================================================================= client

structure PoolClient where
  pool : CxPreallocPool
  /-- the elements handed out -/
  live : List Nat
  /-- the elements given back and not handed out again, newest first -/
  recycled : List Nat

inductive PoolOp where
  | get
  | recycle (element : Nat)
  | write (element offset : Nat) (bytes : List Byte)

/-- Users give back and write into what they hold. -/
def PoolOp.Allowed (s : PoolClient) : PoolOp → Prop
  | .get => True
  | .recycle a => a ∈ s.live
  | .write a i bs => a ∈ s.live ∧ i + bs.length ≤ s.pool.elementSize

instance PoolOp.decidableAllowed (s : PoolClient) :
    (op : PoolOp) → Decidable (op.Allowed s)
  | .get => inferInstanceAs (Decidable True)
  | .recycle a => inferInstanceAs (Decidable (a ∈ s.live))
  | .write a _ _ => inferInstanceAs (Decidable (a ∈ s.live ∧ _))

def PoolClient.start (elementCount elementSize : Nat) : C PoolClient := do
  let pool ← cxPreallocPoolInit2 elementCount elementSize
  pure ⟨pool, [], []⟩

def PoolClient.exec : PoolOp → PoolClient → C PoolClient
  | .get, s => do
      let (a, pool) ← cxPreallocPoolGet s.pool
      if a = 0 then
        pure { s with pool := pool }
      else
        pure ⟨pool, a :: s.live, s.recycled.erase a⟩
  | .recycle a, s => do
      let pool ← cxPreallocPoolRecycle s.pool a
      pure ⟨pool, s.live.erase a, a :: s.recycled⟩
  | .write a i bs, s => do
      C.writeBytes (a + i) bs
      pure s

/-- The states of runs in which every request was granted. -/
abbrev PoolClient.Run (elementCount elementSize : Nat) (mem : Mem)
    (oracle : Nat → Nat) : PoolClient → Machine → Prop :=
  Reached (PoolClient.start elementCount elementSize) PoolClient.exec
    (fun s _ op => op.Allowed s) (Machine.boot mem oracle)

/-- `pools[i]`, if something was stored there. -/
def CxPreallocPool.chunk (p : CxPreallocPool) (i : Nat) : Option Nat := do
  let table ← p.pools
  (← table.cells[i]?)

-- ======================================================= the pool's chunks

variable {m m' : Machine} {p : CxPreallocPool} {chunks : List Block}
  {free live : List Nat} {unit : Nat} {s : PoolClient}

/-- The pool is all there is on the machine. -/
structure Sole (m : Machine) (p : CxPreallocPool) (chunks : List Block)
    (unit : Nat) : Prop where
  table : Tabled p chunks unit
  blocks : m.arena.blocks = chunks
  arrays : m.arrays = (p.pools.map CArray.storage).toList

/-- Only the table counts. -/
theorem Sole.congr {p' : CxPreallocPool} (h : Sole m p chunks unit)
    (hpools : p'.pools = p.pools) (hcount : p'.poolCount = p.poolCount)
    (hsize : p'.chunkSize = p.chunkSize)
    (hblocks : m'.arena.blocks = m.arena.blocks)
    (harrays : m'.arrays = m.arrays) : Sole m' p' chunks unit := by
  obtain ⟨htable, hb, ha⟩ := h
  refine ⟨⟨?_, ?_, ?_, htable.sizes⟩, hblocks.trans hb, ?_⟩
  · rw [hpools]
    exact htable.cells
  · rw [hcount]
    exact htable.count
  · rw [hsize]
    exact htable.chunkSize
  · rw [harrays, ha, hpools]

/-- A chunk of the table, by its number. -/
theorem Tabled.chunk_eq (h : Tabled p chunks unit) {c : Block}
    (hc : c ∈ chunks) :
    ∃ i, p.chunk i = some c.base ∧ c.size = unit * 2 ^ (i + 1) := by
  obtain ⟨i, hi⟩ := List.getElem?_of_mem (List.mem_reverse.mpr hc)
  refine ⟨i, ?_, h.sizes i c hi⟩
  have hcell : ((p.pools.map CArray.cells).getD [])[i]?
      = some (some c.base) := by
    rw [h.cells, List.getElem?_map, hi]
    rfl
  unfold CxPreallocPool.chunk
  cases hp : p.pools with
  | none =>
      rw [hp] at hcell
      cases hcell
  | some table =>
      rw [hp] at hcell
      show (table.cells[i]? >>= id) = _
      rw [show table.cells[i]? = some (some c.base) from hcell]
      rfl

/-- The pool's elements lie in the blocks there are. -/
theorem PoolInv.widen {chunks' : List Block}
    (h : PoolInv m p chunks' free live) (hs : Sole m p chunks unit) :
    PoolInv m p chunks free live := by
  have hsub : ∀ c ∈ chunks', c ∈ chunks := by
    intro c hc
    rw [← hs.blocks]
    exact h.owned c hc
  refine ⟨h.size_ge, h.size_le, h.chunk_lt, ?_, h.nodup, ?_, h.reuse, ?_,
    h.offset, h.used, h.fresh⟩
  · intro c hc
    rw [hs.blocks]
    exact hc
  · intro a ha
    obtain ⟨c, hc, hslot⟩ := h.slot a ha
    exact ⟨c, hsub c hc, hslot⟩
  · rcases h.started with ⟨hnone, -⟩ | ⟨hsome, hcur⟩
    · left
      have hcells := hs.table.cells
      rw [hnone] at hcells
      exact ⟨hnone, List.reverse_eq_nil_iff.mp
        (List.map_eq_nil_iff.mp hcells.symm)⟩
    · right
      exact ⟨hsome, hsub _ hcur⟩

theorem addChunk_sole (h : Sole m p chunks unit) (hlt : p.chunkSize < 2 ^ 63) :
    (addChunk p).Granted m fun r m' =>
      Sole m' r.2 (r.2.current :: chunks) unit := by
  have hdouble : p.chunkSize * 2 % 2 ^ 64 = p.chunkSize * 2 :=
    Nat.mod_eq_of_lt (by omega)
  refine (addChunk_added p m).imp ?_
  intro r m' hr
  obtain ⟨-, hadded⟩ := hr
  obtain ⟨rv, p'⟩ := r
  obtain ⟨a, rfl⟩ : ∃ a, p' = p.added m.tick a := ⟨_, hadded.pool⟩
  refine ⟨?_, ?_, ?_⟩
  · show Tabled (p.added m.tick a) ((p.added m.tick a).current :: chunks) unit
    unfold CxPreallocPool.current CxPreallocPool.added
    rw [hdouble]
    exact h.table.grow
  · rw [hadded.blocks, h.blocks]
  · rw [hadded.arrays, h.arrays]
    unfold CxPreallocPool.added
    cases p.pools with
    | none => rfl
    | some table => simp

theorem cxPreallocPoolGet_sole (h : Sole m p chunks unit)
    (hinv : PoolInv m p chunks free live) :
    (cxPreallocPoolGet p).Granted m fun r m' =>
      ∃ chunks', Sole m' r.2 chunks' unit := by
  unfold cxPreallocPoolGet
  by_cases hreuse : p.reusePool ≠ 0
  · rw [if_pos hreuse]
    obtain ⟨a, rest, rfl⟩ := hinv.exists_free hreuse
    exact granted_of_run (run_reuseNode hinv)
      ⟨chunks, h.congr rfl rfl rfl rfl rfl⟩
  · rw [if_neg hreuse]
    split
    · refine granted_bind (addChunk_sole h hinv.chunk_lt) ?_
      intro r m₁ h₁
      dsimp only
      split
      · exact granted_pure ⟨_, h₁⟩
      · exact granted_pure ⟨_, h₁.congr rfl rfl rfl rfl rfl⟩
    · exact granted_pure ⟨chunks, h.congr rfl rfl rfl rfl rfl⟩

-- =============================================================== cleanup

/-- The chunks have different addresses. -/
theorem Tabled.base_ne (h : Tabled p chunks unit) (hunit : 0 < unit)
    {b c : Block} (hb : b ∈ chunks) (hc : c ∈ chunks)
    (hdis : b.Disjoint c) : b.base ≠ c.base := by
  obtain ⟨i, -, hi⟩ := h.chunk_eq hb
  obtain ⟨j, -, hj⟩ := h.chunk_eq hc
  have hbpos : 0 < b.size := by
    rw [hi]
    exact Nat.mul_pos hunit (Nat.two_pow_pos _)
  have hcpos : 0 < c.size := by
    rw [hj]
    exact Nat.mul_pos hunit (Nat.two_pow_pos _)
  unfold Block.Disjoint at hdis
  omega

/-- Freeing the last block of the arena. -/
theorem run_free_last {bs : List Block} {c : Block}
    (hblocks : m.arena.blocks = bs ++ [c])
    (hne : ∀ b ∈ bs, b.base ≠ c.base) :
    ∃ m', (C.free c.base).run m = .ok () m' ∧ m'.arena.blocks = bs
      ∧ m'.arrays = m.arrays := by
  have hmem : c ∈ m.arena.blocks := by simp [hblocks]
  have hpos : c.base ≠ 0 := Nat.pos_iff_ne_zero.mp (m.arena.bounded c hmem).1
  refine ⟨{ m with arena := m.arena.remove c.base }, ?_, ?_, rfl⟩
  · show (if c.base = 0 then _ else if _ then _ else _) = _
    rw [if_neg hpos, if_pos ⟨c, hmem, rfl⟩]
  · show m.arena.blocks.eraseP _ = bs
    rw [hblocks, List.eraseP_append_right]
    · simp
    · intro b hb
      simpa using hne b hb

/-- The chunks are freed from the oldest to the newest. -/
theorem run_freeChunks (h : Tabled p chunks unit) (hunit : 0 < unit) (n : Nat) :
    ∀ i m, i + n = p.poolCount →
      m.arena.blocks = (chunks.reverse.drop i).reverse →
      ∃ m', (freeChunks p i).run m = .ok () m' ∧ m'.arena.blocks = []
        ∧ m'.arrays = m.arrays := by
  have hcount : chunks.reverse.length = p.poolCount := by
    rw [List.length_reverse, h.count]
  induction n with
  | zero =>
      intro i m hi hblocks
      refine ⟨m, ?_, ?_, rfl⟩
      · rw [freeChunks, dif_neg (by omega), C.run_pure]
      · rw [hblocks, List.drop_of_length_le (by omega)]
        rfl
  | succ n ih =>
      intro i m hi hblocks
      have hlt : i < chunks.reverse.length := by omega
      have hmem : chunks.reverse[i] ∈ chunks :=
        List.mem_reverse.mp (List.getElem_mem hlt)
      rw [List.drop_eq_getElem_cons hlt, List.reverse_cons] at hblocks
      have hat : (poolAt p i).run m = .ok chunks.reverse[i].base m := by
        have hcell : ((p.pools.map CArray.cells).getD [])[i]?
            = some (some chunks.reverse[i].base) := by
          rw [h.cells, List.getElem?_map, List.getElem?_eq_getElem hlt]
          rfl
        unfold poolAt
        cases hp : p.pools with
        | none =>
            rw [hp] at hcell
            cases hcell
        | some table =>
            rw [hp] at hcell
            have hcell' : table.cells[i]? = some (some chunks.reverse[i].base) :=
              hcell
            simp only
            rw [C.run_bind, run_cell hcell', C.chain_ok, C.run_pure]
      -- the rest of the arena starts elsewhere
      have hne : ∀ b ∈ (chunks.reverse.drop (i + 1)).reverse,
          b.base ≠ chunks.reverse[i].base := by
        intro b hb
        have hb' : b ∈ chunks := by
          have := List.mem_of_mem_drop (List.mem_reverse.mp hb)
          exact List.mem_reverse.mp this
        have hdis := m.arena.disjoint
        rw [hblocks, List.pairwise_append] at hdis
        exact h.base_ne hunit hb' hmem
          (hdis.2.2 b hb _ (List.mem_singleton.mpr rfl))
      obtain ⟨m₁, hfree, hblocks₁, harrays₁⟩ := run_free_last hblocks hne
      obtain ⟨m₂, hrun, hblocks₂, harrays₂⟩ := ih (i + 1) m₁ (by omega) hblocks₁
      refine ⟨m₂, ?_, hblocks₂, harrays₂.trans harrays₁⟩
      rw [freeChunks, dif_pos (by omega), C.run_bind, hat, C.chain_ok, C.run_bind,
        hfree, C.chain_ok]
      exact hrun

/-- The cleanup leaves nothing behind. -/
theorem run_cxPreallocPoolCleanup (h : Sole m p chunks unit) (hunit : 0 < unit) :
    ∃ m', (cxPreallocPoolCleanup p).run m = .ok () m'
      ∧ m'.arena.blocks = [] ∧ m'.arrays = [] := by
  have hblocks : m.arena.blocks = (chunks.reverse.drop 0).reverse := by
    rw [List.drop_zero, List.reverse_reverse, h.blocks]
  obtain ⟨m₁, hrun, hblocks₁, harrays₁⟩ := run_freeChunks h.table hunit
    p.poolCount 0 m (Nat.zero_add _) hblocks
  refine ⟨{ m₁ with arrays := [] }, ?_, hblocks₁, rfl⟩
  unfold cxPreallocPoolCleanup
  rw [C.run_bind, hrun, C.chain_ok]
  show Outcome.ok () { m₁ with arrays := m₁.arrays.filter _ } = _
  rw [harrays₁, h.arrays]
  cases p.pools with
  | none => rfl
  | some table => simp

-- ================================================================== runs

/-- The pool keeps its elements apart, and is all there is. -/
def PoolRun (unit size : Nat) (s : PoolClient) (m : Machine) : Prop :=
  ∃ chunks, PoolInv m s.pool chunks s.recycled s.live
    ∧ Sole m s.pool chunks unit ∧ s.pool.elementSize = size

theorem poolRun_start {count size : Nat} {mem : Mem} {oracle : Nat → Nat}
    (hcount : 0 < count) (hsize : 8 ≤ size) (hwrap : count * size * 2 < 2 ^ 64) :
    (PoolClient.start count size).Granted (Machine.boot mem oracle)
      (PoolRun (count * size) size) := by
  have hle : size ≤ count * size := Nat.le_mul_of_pos_left _ hcount
  unfold PoolClient.start
  refine granted_bind_run
    (cxPreallocPoolInit2_ok (Machine.boot mem oracle) hcount hsize (by omega))
    (granted_pure ⟨[], ?_, ⟨⟨rfl, rfl, ?_, ?_⟩, rfl, rfl⟩, rfl⟩)
  · exact ⟨hsize, hle, by show count * size < 2 ^ 63; omega, by simp, by simp,
      by simp, .nil, Or.inl ⟨rfl, rfl⟩, by simp, by simp, by simp⟩
  · simp
  · simp

/-- A get hands out one more element, and leaves those handed out before
as they were. -/
theorem poolRun_get {size : Nat} (h : PoolRun unit size s m) :
    (PoolClient.exec .get s).Granted m fun s' m' => PoolRun unit size s' m'
      ∧ (∃ a, s'.live = a :: s.live)
      ∧ ∀ a ∈ s.live, m'.mem.read a size = m.mem.read a size := by
  obtain ⟨chunks, hinv, hsole, hsize⟩ := h
  refine granted_bind ((cxPreallocPoolGet_handout hinv).and
    (cxPreallocPoolGet_sole hsole hinv)) ?_
  intro r m' hr
  obtain ⟨⟨chunks₁, hh⟩, chunks₂, hsole'⟩ := hr
  have hmem : r.1 ∈ s.recycled.erase r.1 ++ r.1 :: s.live := by simp
  show (if r.1 = 0 then _ else _ : C PoolClient).Granted m' _
  rw [if_neg (hh.inv.ne_zero hmem)]
  refine granted_pure ⟨⟨chunks₂, hh.inv.widen hsole', hsole',
    hh.size.trans hsize⟩, ⟨r.1, rfl⟩, ?_⟩
  intro a ha
  have hin : a ∈ s.recycled ++ s.live := List.mem_append_right _ ha
  have hne : a ≠ r.1 := fun heq => hh.not_mem (heq ▸ ha)
  have hsep := hh.inv.separated (a := a) (b := r.1) (by simp [ha]) hmem hne
  obtain ⟨c, hc, hhas⟩ := hinv.inChunk hin
  apply read_congr
  intro x hlo hhi
  refine hh.mem c (hinv.owned c hc) x ?_ ?_
  · simp only [Block.Has] at hhas ⊢
    omega
  · rw [hh.size] at hsep
    omega

/-- A write into an element that was handed out. -/
theorem PoolInv.write (h : PoolInv m p chunks free live) {a i : Nat}
    {bs : List Byte} (ha : a ∈ live) (hfit : i + bs.length ≤ p.elementSize) :
    (C.writeBytes (a + i) bs).run m
        = .ok () { m with mem := m.mem.write (a + i) bs }
      ∧ PoolInv { m with mem := m.mem.write (a + i) bs } p chunks free live := by
  refine ⟨run_writeBytes (h.valid (List.mem_append_right _ ha) hfit), ?_⟩
  -- only bytes of the element change
  refine h.frame _ h.owned fun c _ x _ hx => ?_
  have := hx a ha
  exact write_apply_outside (by omega)

theorem poolRun_exec {size : Nat} (h : PoolRun unit size s m) {op : PoolOp}
    (hop : op.Allowed s) :
    (PoolClient.exec op s).Granted m (PoolRun unit size) := by
  cases op with
  | get => exact (poolRun_get h).imp fun _ _ h => h.1
  | recycle a =>
      obtain ⟨chunks, hinv, hsole, hsize⟩ := h
      obtain ⟨hrun, hinv'⟩ := run_cxPreallocPoolRecycle hinv hop
      exact granted_bind_run hrun (granted_pure ⟨chunks, hinv',
        hsole.congr rfl rfl rfl rfl rfl, hsize⟩)
  | write a i bs =>
      obtain ⟨chunks, hinv, hsole, hsize⟩ := h
      obtain ⟨ha, hfit⟩ := hop
      obtain ⟨hrun, hinv'⟩ := hinv.write ha hfit
      exact granted_bind_run hrun (granted_pure ⟨chunks, hinv',
        hsole.congr rfl rfl rfl rfl rfl, hsize⟩)

theorem poolRun_run {count size : Nat} {mem : Mem} {oracle : Nat → Nat}
    (hcount : 0 < count) (hsize : 8 ≤ size) (hwrap : count * size * 2 < 2 ^ 64)
    (h : PoolClient.Run count size mem oracle s m) :
    PoolRun (count * size) size s m := by
  apply h.invariant_granted (PoolRun (count * size) size)
  · exact poolRun_start hcount hsize hwrap
  · intro s m op hinv hop
    exact poolRun_exec hinv hop

-- ============================================================== elements

/-- The elements handed out lie in the chunks of the pool, and share no
byte. -/
structure ElementsApart (count size : Nat) (s : PoolClient) (m : Machine) :
    Prop where
  inside : ∀ a ∈ s.live, ∃ i base, s.pool.chunk i = some base
    ∧ ⟨base, count * size * 2 ^ (i + 1)⟩ ∈ m.arena.blocks
    ∧ Block.Has ⟨base, count * size * 2 ^ (i + 1)⟩ a size
  disjoint : s.live.Pairwise fun a b => a + size ≤ b ∨ b + size ≤ a

theorem PoolRun.elementsApart {count size : Nat}
    (h : PoolRun (count * size) size s m) : ElementsApart count size s m := by
  obtain ⟨chunks, hinv, hsole, hsize⟩ := h
  refine ⟨?_, ?_⟩
  · intro a ha
    obtain ⟨c, hc, hhas⟩ := hinv.inChunk (List.mem_append_right _ ha)
    obtain ⟨i, hchunk, hcsize⟩ := hsole.table.chunk_eq hc
    refine ⟨i, c.base, hchunk, ?_⟩
    rw [← hcsize, ← hsize]
    exact ⟨hinv.owned c hc, hhas⟩
  · have hnodup := (List.nodup_append.mp hinv.nodup).2.1
    refine List.Pairwise.imp_of_mem ?_ hnodup
    intro a b ha hb hne
    rw [← hsize]
    exact hinv.separated (List.mem_append_right _ ha)
      (List.mem_append_right _ hb) hne

/-- What holds in a state of a pool and its user. -/
structure PoolSafe (count size : Nat) (s : PoolClient) (m : Machine) : Prop where
  elements : ElementsApart count size s m
  /-- no element handed out overlaps a recycled one -/
  apart : ∀ a ∈ s.live, ∀ b ∈ s.recycled, a + size ≤ b ∨ b + size ≤ a
  /-- the reuse list ends, and holds what was recycled -/
  reuse : Linked m.mem 0 s.pool.reusePool s.recycled ∧ s.recycled.Nodup
  /-- a get hands out an element and leaves the others valid and as they
  were, whether or not it adds a chunk -/
  get : (PoolClient.exec .get s).Granted m fun s' m' =>
    (∃ a, s'.live = a :: s.live)
      ∧ ∀ a ∈ s.live, m'.Valid a size ∧ m'.mem.read a size = m.mem.read a size
  progress : ∀ op : PoolOp, op.Allowed s →
    (PoolClient.exec op s).Granted m fun _ _ => True

/-- Elements are in bounds and apart, in every state of every run. -/
theorem cxPreallocPool_elements {count size : Nat} {mem : Mem}
    {oracle : Nat → Nat} (hcount : 0 < count) (hsize : 8 ≤ size)
    (hwrap : count * size * 2 < 2 ^ 64)
    (h : PoolClient.Run count size mem oracle s m) : PoolSafe count size s m := by
  have hrun := poolRun_run hcount hsize hwrap h
  have helements := hrun.elementsApart
  have hget := poolRun_get hrun
  have hprogress : ∀ op : PoolOp, op.Allowed s →
      (PoolClient.exec op s).Granted m fun _ _ => True :=
    fun op hop => (poolRun_exec hrun hop).imp fun _ _ _ => trivial
  obtain ⟨chunks, hinv, hsole, hsz⟩ := hrun
  refine ⟨helements, ?_, ⟨hinv.reuse, (List.nodup_append.mp hinv.nodup).1⟩, ?_,
    hprogress⟩
  · intro a ha b hb
    rw [← hsz]
    refine hinv.separated (List.mem_append_right _ ha)
      (List.mem_append_left _ hb) ?_
    intro heq
    exact (List.nodup_append.mp hinv.nodup).2.2 b hb a ha heq.symm
  · apply hget.imp
    intro s' m' hs
    obtain ⟨⟨chunks', hinv', -, hsz'⟩, ⟨a', hlive⟩, hbytes⟩ := hs
    refine ⟨⟨a', hlive⟩, ?_⟩
    intro a ha
    refine ⟨?_, hbytes a ha⟩
    have hin : a ∈ s'.recycled ++ s'.live := by simp [hlive, ha]
    exact hinv'.valid (i := 0) hin (by omega)

/-- Chunks of two and of four elements: three elements are taken, one is
written to and given back, and taken again. -/
theorem cxPreallocPool_elements_chunks : ∃ s m,
    PoolClient.Run 1 8 (fun _ => 0) (fun t => 2 ^ 20 * (t + 1)) s m
      ∧ s.pool.poolCount = 2 ∧ s.live.length = 3 ∧ PoolSafe 1 8 s m := by
  obtain ⟨s, m, hrun, htest⟩ := reached_of_replayFrom
    (PoolClient.start 1 8) PoolClient.exec (fun s _ op => op.Allowed s)
    (Machine.boot (fun _ => 0) fun t => 2 ^ 20 * (t + 1))
    [.get, .get, .write 2097152 1 [7, 8], .get, .recycle 2097152, .get]
    (fun x => decide (x.1.pool.poolCount = 2 ∧ x.1.live.length = 3))
    (by decide +kernel)
  obtain ⟨hcount, hlive⟩ := of_decide_eq_true htest
  exact ⟨s, m, hrun, hcount, hlive,
    cxPreallocPool_elements (by decide) (by decide) (by decide) hrun⟩

end Cextras.Memory
