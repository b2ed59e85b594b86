/-
What the pool operations do, stated on `PoolInv`: a granted get hands
out one more element and changes no byte outside it (`Handout`), a
recycle moves a live element to the front of the reuse list and touches
only its link word.
-/
import Cextras.Memory.Proofs.PoolInv

namespace Cextras.Memory

open Lib

variable {m m' : Machine} {p p' : CxPreallocPool} {chunks : List Block}
  {free live : List Nat}

/-- The effect of handing out the element `a`: it joins `live`, every
byte that was allocated before and is not the element's is unchanged,
and with an empty reuse list the element reads as zeros. -/
structure Handout (m : Machine) (p : CxPreallocPool) (chunks : List Block)
    (free live : List Nat) (a : Nat) (p' : CxPreallocPool) (m' : Machine)
    (chunks' : List Block) (free' : List Nat) : Prop where
  inv : PoolInv m' p' chunks' free' (a :: live)
  size : p'.elementSize = p.elementSize
  blocks : ∀ b ∈ m.arena.blocks, b ∈ m'.arena.blocks
  newChunks : ∀ c ∈ chunks', c ∈ chunks ∨ ∀ b ∈ m.arena.blocks, c.Disjoint b
  mem : ∀ b ∈ m.arena.blocks, ∀ x, b.Has x 1 →
    (x < a ∨ a + p.elementSize ≤ x) → m'.mem x = m.mem x
  zeroed : free = [] →
    free' = [] ∧ ∀ x, a ≤ x → x < a + p.elementSize → m'.mem x = 0
  calls : m'.calls = m.calls

/-- A block that shares no byte with the pool's chunks is untouched. -/
theorem Handout.mem_foreign {a : Nat} {chunks' : List Block}
    {free' : List Nat} (h : Handout m p chunks free live a p' m' chunks' free')
    {d : Block} (hd : d ∈ m.arena.blocks)
    (hdis : ∀ c ∈ chunks, c.Disjoint d) :
    ∀ x, d.Has x 1 → m'.mem x = m.mem x := by
  intro x hx
  refine h.mem d hd x hx ?_
  obtain ⟨c, hc, hac⟩ := h.inv.inChunk
    (List.mem_append_right _ (List.mem_cons_self ..))
  have hcd : c.Disjoint d := by
    rcases h.newChunks c hc with hc | hc
    · exact hdis c hc
    · exact hc d hd
  rw [h.size] at hac
  simp only [Block.Disjoint, Block.Has] at hcd hac hx
  omega

/-- The new element is none of the live ones. -/
theorem Handout.not_mem {a : Nat} {chunks' : List Block} {free' : List Nat}
    (h : Handout m p chunks free live a p' m' chunks' free') : a ∉ live :=
  (List.nodup_cons.mp (List.nodup_append.mp h.inv.nodup).2.1).1

-- ================================================================= reuse

/-- Moving the head of the reuse list to the live elements. -/
theorem PoolInv.reuse_cons {a : Nat} {rest : List Nat}
    (h : PoolInv m p chunks (a :: rest) live) :
    Handout m p chunks (a :: rest) live a
      { p with reusePool := m.mem.load64 a }
      { m with mem := m.mem.zero a reuseListSize } chunks rest := by
  have ha : a ∈ (a :: rest) ++ live := by simp
  have hsz := h.size_ge
  obtain ⟨-, -, hlink⟩ := h.reuse.uncons
  have hout : ∀ x, (x < a ∨ a + p.elementSize ≤ x) →
      m.mem.zero a reuseListSize x = m.mem x := fun x hx =>
    zero_apply_outside (by simp only [reuseListSize]; omega)
  refine ⟨h.relist rfl List.perm_middle ?_ fun x hx => hout x (hx a ha), rfl,
    fun b hb => hb, fun c hc => Or.inl hc, fun _ _ x _ hx => hout x hx,
    fun hnil => (List.cons_ne_nil _ _ hnil).elim, rfl⟩
  refine hlink.congr fun x hx => agree_zero ?_
  have hx' : x ∈ (a :: rest) ++ live := by simp [hx]
  have hne : x ≠ a := by
    rintro rfl
    exact (List.nodup_cons.mp h.nodup).1 (List.mem_append_left _ hx)
  have := h.separated hx' ha hne
  simp only [reuseListSize]
  omega

/-- A pool that starts with a recycled element has one. -/
theorem PoolInv.exists_free (h : PoolInv m p chunks free live)
    (hreuse : p.reusePool ≠ 0) : ∃ a rest, free = a :: rest := by
  cases free with
  | nil => exact absurd h.reuse.head_nil hreuse
  | cons a rest => exact ⟨a, rest, rfl⟩

theorem run_reuseNode {a : Nat} {rest : List Nat}
    (h : PoolInv m p chunks (a :: rest) live) :
    (reuseNode p).run m = .ok (a, { p with reusePool := m.mem.load64 a })
      { m with mem := m.mem.zero a reuseListSize } := by
  obtain ⟨ha, -, -⟩ := h.reuse.uncons
  have hsz := h.size_ge
  have hv8 : m.Valid a 8 := h.valid (i := 0) (by simp) (by omega)
  have hzero : (C.zeroBytes a reuseListSize).run m
      = .ok () { m with mem := m.mem.zero a reuseListSize } := run_zeroBytes hv8
  unfold reuseNode
  rw [ha, C.run_bind, run_load64 hv8, C.chain_ok, C.run_bind, hzero, C.chain_ok,
    C.run_pure]

-- ================================================================== bump

/-- Taking the next element off the current chunk. -/
theorem PoolInv.bump (h : PoolInv m p chunks free live)
    (hs : p.pools ≠ none) (hroom : p.nextOffset + p.elementSize ≤ p.chunkSize) :
    Handout m p chunks free live (bumpElement p).1 (bumpElement p).2 m
      chunks free := by
  have hcur := h.current_mem hs
  obtain ⟨⟨k, hk⟩, hle⟩ := h.offset hs
  have hsz := h.size_ge
  have hslot : Slot p.elementSize p.current (p.currentPool + p.nextOffset) :=
    ⟨k, by rw [hk, Nat.mul_comm]; rfl, by
      rw [Nat.mul_comm, ← hk]; exact hroom⟩
  have hnew : p.currentPool + p.nextOffset ∉ free ++ live := by
    intro ha
    have := h.used hs _ ha hslot.has
    omega
  have hmem : ∀ x, x ∈ free ++ (p.currentPool + p.nextOffset) :: live →
      x = p.currentPool + p.nextOffset ∨ x ∈ free ++ live := by
    intro x hx
    simp only [List.mem_append, List.mem_cons] at hx ⊢
    tauto
  refine ⟨⟨h.size_ge, h.size_le, h.chunk_lt, h.owned, ?_, ?_, h.reuse, ?_, ?_,
    ?_, ?_⟩, rfl, fun b hb => hb, fun c hc => Or.inl hc, fun _ _ _ _ _ => rfl,
    ?_, rfl⟩
  · exact (List.perm_middle.nodup_iff).mpr (List.nodup_cons.mpr ⟨hnew, h.nodup⟩)
  · intro x hx
    rcases hmem x hx with rfl | hx
    · exact ⟨_, hcur, hslot⟩
    · exact h.slot x hx
  · exact Or.inr ⟨hs, hcur⟩
  · intro _
    refine ⟨?_, hroom⟩
    exact (Nat.dvd_add_right ⟨k, hk⟩).mpr (Nat.dvd_refl _)
  · intro _ x hx hhas
    simp only [bumpElement]
    rcases hmem x hx with rfl | hx
    · omega
    · have := h.used hs x hx hhas
      omega
  · intro _ x hlo hhi
    simp only [bumpElement] at hlo hhi
    exact h.fresh hs x (by omega) hhi
  · intro hnil
    refine ⟨hnil, fun x hlo hhi => ?_⟩
    simp only [bumpElement] at hlo hhi
    exact h.fresh hs x hlo (by omega)

-- ============================================================= add_chunk

/-- The pool with one more chunk, which starts at `base`. -/
def CxPreallocPool.added (p : CxPreallocPool) (storage base : Nat) :
    CxPreallocPool :=
  { p with
    poolCount := p.poolCount + 1
    chunkSize := p.chunkSize * 2 % 2 ^ 64
    currentPool := base
    nextOffset := 0
    pools := some ⟨storage, (CArray.resized p.pools storage (p.poolCount + 1)
      none).cells.set p.poolCount (some base)⟩ }

/-- What a granted `add_chunk` does, whatever state the pool is in. -/
structure Added (m : Machine) (p p' : CxPreallocPool) (m' : Machine) :
    Prop where
  pool : p' = p.added m.tick p'.currentPool
  fits : m.arena.Fits p'.current
  blocks : m'.arena.blocks = p'.current :: m.arena.blocks
  mem : m'.mem = m.mem.zero p'.currentPool p'.chunkSize
  arrays : m'.arrays = m.tick :: m.arrays.filter
    (fun i => some i ≠ p.pools.map CArray.storage)
  calls : m'.calls = m.calls

theorem addChunk_added (p : CxPreallocPool) (m : Machine) :
    (addChunk p).Granted m fun r m' => r.1 = 0 ∧ Added m p r.2 m' := by
  unfold addChunk
  refine granted_bind (granted_reallocArray (Q := fun r m₁ =>
    r = some m.tick ∧ m₁.mem = m.mem ∧ m₁.arena = m.arena
      ∧ m₁.arrays = m.tick :: m.arrays.filter
        (fun i => some i ≠ p.pools.map CArray.storage)
      ∧ m₁.calls = m.calls) ⟨rfl, rfl, rfl, rfl, rfl⟩) ?_
  intro r m₁ hr
  obtain ⟨rfl, hmem₁, harena₁, harrays₁, hcalls₁⟩ := hr
  dsimp only
  refine granted_bind (granted_calloc (Q := fun a m₂ =>
    ∃ hf : m₁.arena.Fits ⟨a, p.chunkSize * 2 % 2 ^ 64⟩,
      m₂.arena = m₁.arena.add _ hf ∧ m₂.calls = m₁.calls
        ∧ m₂.arrays = m₁.arrays
        ∧ m₂.mem = m₁.mem.zero a (p.chunkSize * 2 % 2 ^ 64))
    fun hf => ⟨hf, rfl, rfl, rfl, rfl⟩) ?_
  intro a m₂ ha
  obtain ⟨hf, harena₂, hcalls₂, harrays₂, hmem₂⟩ := ha
  rw [if_neg (Nat.pos_iff_ne_zero.mp hf.1.1)]
  refine granted_pure ⟨rfl, rfl, ?_, ?_, ?_, ?_, ?_⟩
  · rw [← harena₁]
    exact hf
  · rw [harena₂, ← harena₁]
    rfl
  · rw [hmem₂, hmem₁]
  · rw [harrays₂, harrays₁]
  · rw [hcalls₂, hcalls₁]

namespace Added

variable (h : Added m p p' m')
include h

/-- The blocks there were are still there. -/
theorem blocks_mem {b : Block} (hb : b ∈ m.arena.blocks) :
    b ∈ m'.arena.blocks := by
  rw [h.blocks]
  exact List.mem_cons_of_mem _ hb

theorem current_mem : p'.current ∈ m'.arena.blocks := by
  rw [h.blocks]
  exact List.mem_cons_self

/-- What was in them is untouched. -/
theorem mem_old {b : Block} (hb : b ∈ m.arena.blocks) {x : Nat}
    (hx : b.Has x 1) : m'.mem x = m.mem x := by
  have hd := h.fits.2 b hb
  rw [h.mem]
  refine zero_apply_outside ?_
  simp only [Block.Disjoint, Block.Has, CxPreallocPool.current] at hd hx
  omega

theorem mem_new {x : Nat} (hlo : p'.currentPool ≤ x)
    (hhi : x < p'.currentPool + p'.chunkSize) : m'.mem x = 0 := by
  rw [h.mem]
  exact if_pos ⟨hlo, hhi⟩

end Added

/-- The effect of a granted `add_chunk`: a fresh zeroed current chunk. -/
structure Grown (m : Machine) (p : CxPreallocPool) (chunks : List Block)
    (free live : List Nat) (p' : CxPreallocPool) (m' : Machine) : Prop where
  inv : PoolInv m' p' (p'.current :: chunks) free live
  size : p'.elementSize = p.elementSize
  started : p'.pools ≠ none
  offset : p'.nextOffset = 0
  blocks : ∀ b ∈ m.arena.blocks, b ∈ m'.arena.blocks
  newChunk : ∀ b ∈ m.arena.blocks, p'.current.Disjoint b
  mem : ∀ b ∈ m.arena.blocks, ∀ x, b.Has x 1 → m'.mem x = m.mem x
  calls : m'.calls = m.calls

/-- The table after a chunk was entered. -/
theorem Tabled.grow {unit base storage : Nat} (h : Tabled p chunks unit) :
    Tabled { p with
        poolCount := p.poolCount + 1
        chunkSize := p.chunkSize * 2
        currentPool := base
        nextOffset := 0
        pools := some ⟨storage, (CArray.resized p.pools storage (p.poolCount + 1)
          none).cells.set p.poolCount (some base)⟩ }
      (⟨base, p.chunkSize * 2⟩ :: chunks) unit where
  cells := by
    have hlen : p.poolCount = chunks.reverse.length := by
      rw [h.count, List.length_reverse]
    simp only [Option.map_some, Option.getD_some, CArray.resized]
    rw [h.cells, hlen, List.length_map, Nat.add_sub_cancel_left,
      List.take_of_length_le (by simp), List.replicate_one,
      List.set_append_right _ _ (by simp), List.length_map, Nat.sub_self,
      List.reverse_cons, List.map_append]
    rfl
  count := by
    show p.poolCount + 1 = _
    rw [h.count, List.length_cons]
  chunkSize := by
    show p.chunkSize * 2 = _
    rw [h.chunkSize, List.length_cons, Nat.pow_succ, Nat.mul_assoc]
  sizes := by
    intro i c hc
    rw [List.reverse_cons] at hc
    by_cases hi : i < chunks.reverse.length
    · rw [List.getElem?_append_left hi] at hc
      exact h.sizes i c hc
    · rw [List.getElem?_append_right (by omega)] at hc
      have hi0 : i - chunks.reverse.length = 0 := by
        by_contra hne
        rw [List.getElem?_eq_none (by simp only [List.length_singleton]; omega)]
          at hc
        cases hc
      rw [hi0] at hc
      cases hc
      have hlen : i = chunks.length := by
        rw [List.length_reverse] at hi hi0
        omega
      show p.chunkSize * 2 = _
      rw [h.chunkSize, hlen, Nat.pow_succ, Nat.mul_assoc]

theorem addChunk_granted (h : PoolInv m p chunks free live) :
    (addChunk p).Granted m fun r m' =>
      r.1 = 0 ∧ Grown m p chunks free live r.2 m' := by
  have hsz := h.size_ge
  have hle := h.size_le
  have hlt := h.chunk_lt
  have hdouble : p.chunkSize * 2 % 2 ^ 64 = p.chunkSize * 2 :=
    Nat.mod_eq_of_lt (by omega)
  refine (addChunk_added p m).imp ?_
  intro r m₂ hr
  obtain ⟨hrv, hadded⟩ := hr
  refine ⟨hrv, ?_⟩
  have hframe := h.frame m₂ (fun c hc => hadded.blocks_mem (h.owned c hc))
    (fun c hc x hx _ => hadded.mem_old (h.owned c hc) hx)
  obtain ⟨rv, p'⟩ := r
  obtain ⟨a, rfl⟩ : ∃ a, p' = p.added m.tick a := ⟨_, hadded.pool⟩
  refine ⟨⟨hsz, ?_, hadded.fits.1.2.2, ?_, h.nodup, ?_, hframe.reuse, ?_, ?_, ?_,
    ?_⟩, rfl, nofun, rfl, fun b hb => hadded.blocks_mem hb, hadded.fits.2,
    fun b hb x hx => hadded.mem_old hb hx, hadded.calls⟩
  · show p.elementSize ≤ p.chunkSize * 2 % 2 ^ 64
    omega
  · intro c hc
    rcases List.mem_cons.mp hc with rfl | hc
    · exact hadded.current_mem
    · exact hframe.owned c hc
  · intro x hx
    obtain ⟨c, hc, hs⟩ := h.slot x hx
    exact ⟨c, List.mem_cons_of_mem _ hc, hs⟩
  · exact Or.inr ⟨nofun, List.mem_cons_self ..⟩
  · exact fun _ => ⟨Nat.dvd_zero _, Nat.zero_le _⟩
  · -- no old element lies in the new chunk
    intro _ x hx hhas
    obtain ⟨c, hc, hs⟩ := h.inChunk hx
    have hd := hadded.fits.2 c (h.owned c hc)
    have hhas' : Block.Has (p.added m.tick a).current x p.elementSize := hhas
    simp only [Block.Disjoint, Block.Has] at hd hs hhas'
    omega
  · intro _ x hlo hhi
    exact hadded.mem_new hlo hhi

-- =================================================================== get

/-- An element off a chunk is not on the reuse list. -/
theorem Handout.erase {a : Nat} {chunks' : List Block}
    (h : Handout m p chunks free live a p' m' chunks' free) :
    Handout m p chunks free live a p' m' chunks' (free.erase a) := by
  have hnot : a ∉ free := fun ha =>
    (List.nodup_append.mp h.inv.nodup).2.2 a ha a (List.mem_cons_self ..) rfl
  rwa [List.erase_of_not_mem hnot]

/-- A granted get hands out one more element, which is no longer on the
reuse list. -/
theorem cxPreallocPoolGet_handout (h : PoolInv m p chunks free live) :
    (cxPreallocPoolGet p).Granted m fun r m' => ∃ chunks',
      Handout m p chunks free live r.1 r.2 m' chunks' (free.erase r.1) := by
  unfold cxPreallocPoolGet
  have hsz := h.size_ge
  have hle := h.size_le
  have hlt := h.chunk_lt
  by_cases hreuse : p.reusePool = 0
  · rw [if_neg (by simp [hreuse])]
    by_cases hroom : p.pools.isNone
        ∨ (p.nextOffset + p.elementSize) % 2 ^ 64 > p.chunkSize
    · rw [if_pos hroom]
      refine granted_bind (addChunk_granted h) ?_
      rintro ⟨rv, p₁⟩ m₁ ⟨hrv, hg⟩
      have hrv' : rv = 0 := hrv
      have hoff : p₁.nextOffset = 0 := hg.offset
      have hcap : p₁.elementSize ≤ p₁.chunkSize := hg.inv.size_le
      have hfit : p₁.nextOffset + p₁.elementSize ≤ p₁.chunkSize := by omega
      have hb := hg.inv.bump hg.started hfit
      dsimp only
      rw [if_neg (by omega)]
      refine granted_pure ⟨_, Handout.erase ⟨hb.inv, hb.size.trans hg.size,
        hg.blocks, ?_, ?_, ?_, hg.calls⟩⟩
      · intro c hc
        rcases List.mem_cons.mp hc with rfl | hc
        · exact Or.inr hg.newChunk
        · exact Or.inl hc
      · exact fun b hb x hx _ => hg.mem b hb x hx
      · rw [← hg.size]
        exact hb.zeroed
    · rw [if_neg hroom]
      simp only [not_or, Option.isNone_iff_eq_none, gt_iff_lt, not_lt] at hroom
      have hoff := (h.offset hroom.1).2
      have hsum : (p.nextOffset + p.elementSize) % 2 ^ 64
          = p.nextOffset + p.elementSize := Nat.mod_eq_of_lt (by omega)
      rw [hsum] at hroom
      exact granted_pure ⟨chunks, (h.bump hroom.1 hroom.2).erase⟩
  · rw [if_pos hreuse]
    obtain ⟨a, rest, rfl⟩ := h.exists_free hreuse
    refine granted_of_run (run_reuseNode h) ⟨chunks, ?_⟩
    rw [List.erase_cons_head]
    exact h.reuse_cons

/-- A granted get hands out one more element. -/
theorem cxPreallocPoolGet_granted (h : PoolInv m p chunks free live) :
    (cxPreallocPoolGet p).Granted m fun r m' => ∃ chunks' free',
      Handout m p chunks free live r.1 r.2 m' chunks' free' := by
  apply (cxPreallocPoolGet_handout h).imp
  intro r m' hr
  obtain ⟨chunks', hh⟩ := hr
  exact ⟨chunks', _, hh⟩

/-- The bump pool's elements read as zeros: with nothing to reuse, a
granted get never touches old memory at all. -/
theorem cxPreallocPoolGet_keeps (h : PoolInv m p chunks [] live) :
    (cxPreallocPoolGet p).Granted m fun r m' => ∃ chunks',
      Handout m p chunks [] live r.1 r.2 m' chunks' [] := by
  refine (cxPreallocPoolGet_granted h).imp ?_
  rintro r m' ⟨chunks', free', hh⟩
  obtain ⟨rfl, -⟩ := hh.zeroed rfl
  exact ⟨chunks', hh⟩

-- =============================================================== recycle

/-- Recycling a live element: it moves to the front of the reuse list,
and only its link word changes. -/
theorem run_cxPreallocPoolRecycle (h : PoolInv m p chunks free live) {a : Nat}
    (ha : a ∈ live) :
    (cxPreallocPoolRecycle p a).run m
        = .ok { p with reusePool := a }
            { m with mem := m.mem.store64 a p.reusePool }
      ∧ PoolInv { m with mem := m.mem.store64 a p.reusePool }
          { p with reusePool := a } chunks (a :: free) (live.erase a) := by
  have ha' : a ∈ free ++ live := List.mem_append_right _ ha
  have hsz := h.size_ge
  have hne := h.ne_zero ha'
  have hv : m.Valid a 8 := h.valid (i := 0) ha' (by omega)
  -- the link word lies inside a live element, so the frame rule applies
  have hfr : PoolInv { m with mem := m.mem.store64 a p.reusePool } p chunks
      free live := by
    refine h.frame _ (fun c hc => h.owned c hc) fun c _ x _ hx => ?_
    have := hx a ha
    exact agree_store64 (b := x) (n := 1) (by omega) x (by omega) (by omega)
  have hhead : p.reusePool < 2 ^ 64 := by
    have hr := h.reuse
    cases hf : free with
    | nil =>
        rw [hf] at hr
        rw [hr.head_nil]
        exact Nat.two_pow_pos 64
    | cons b rest =>
        rw [hf] at hr
        rw [hr.uncons.1]
        exact h.lt_word (List.mem_append_left _ (by simp [hf]))
  have hperm : ((a :: free) ++ live.erase a).Perm (free ++ live) :=
    List.perm_middle.symm.trans
      (List.Perm.append_left _ (List.perm_cons_erase ha).symm)
  refine ⟨?_, h.relist rfl hperm ?_ fun x hx => ?_⟩
  · unfold cxPreallocPoolRecycle
    rw [if_pos hne, C.run_bind, run_store64 hv, C.chain_ok, C.run_pure]
  · refine .cons hne ?_
    have hload : (m.mem.store64 a p.reusePool).load64 (a + 0)
        = p.reusePool := by
      rw [Nat.add_zero, load64_store64_self, Nat.mod_eq_of_lt hhead]
    rw [hload]
    exact hfr.reuse
  · have := hx a ha'
    exact agree_store64 (b := x) (n := 1) (by omega) x (by omega) (by omega)

-- ================================================================== init

theorem cxPreallocPoolInit2_ok (m : Machine) {count size : Nat}
    (hcount : 0 < count) (hsize : 8 ≤ size) (hwrap : count * size < 2 ^ 63) :
    (cxPreallocPoolInit2 count size).run m
      = .ok ⟨none, count * size, size, 0, 0, 0, 0⟩ m := by
  have hmod : count * size % 2 ^ 64 = count * size :=
    Nat.mod_eq_of_lt (by omega)
  have ha : (C.assert (size ≥ reuseListSize)).run m = .ok () m :=
    run_assert hsize
  have hb : (C.assert (count > 0)).run m = .ok () m := run_assert hcount
  rw [cxPreallocPoolInit2, C.run_bind, ha, C.chain_ok, C.run_bind, hb,
    C.chain_ok, C.run_pure, hmod]

/-- A fresh pool owns nothing, for element sizes at least a link word and
chunk sizes that do not wrap. -/
theorem run_cxPreallocPoolInit2 (m : Machine) (count size : Nat)
    (hcount : 0 < count) (hsize : 8 ≤ size) (hwrap : count * size < 2 ^ 63) :
    ∃ p, (cxPreallocPoolInit2 count size).run m = .ok p m
      ∧ p.elementSize = size ∧ PoolInv m p [] [] [] := by
  have hle : size ≤ count * size := Nat.le_mul_of_pos_left _ hcount
  refine ⟨⟨none, count * size, size, 0, 0, 0, 0⟩,
    cxPreallocPoolInit2_ok m hcount hsize hwrap, rfl, hsize, hle, hwrap,
    by simp, by simp, by simp, .nil, Or.inl ⟨rfl, rfl⟩, by simp, by simp,
    by simp⟩

end Cextras.Memory
