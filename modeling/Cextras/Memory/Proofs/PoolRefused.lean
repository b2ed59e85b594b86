/-
A pool that was refused memory. `add_chunk` counts the chunk and doubles
the chunk size before it asks for either the table or the chunk, so a
refusal leaves a count that the table does not match: `Damaged`. Nothing
the pool does later repairs this, and the cleanup stops at the cell that
was never written, or at the missing table. A pool is therefore usable
in exactly the states of runs in which nothing was refused
(`cxPreallocPool_usable_iff`), if the size of its first chunk fits.

`cxPreallocPool_outOfChunk` shows the other half of the damage: with the
size already doubled, the next get bumps past the end of the old chunk.
-/
import Cextras.Memory.Proofs.PoolRuns

namespace Cextras.Memory

open Lib

variable {m m' : Machine} {p p' : CxPreallocPool} {s s' : PoolClient}

/-- The cells of the chunk table. -/
def CxPreallocPool.cells (p : CxPreallocPool) : List (Option Nat) :=
  (p.pools.map CArray.cells).getD []

/-- The pool counts a chunk that is not in its table. -/
def Damaged (p : CxPreallocPool) : Prop :=
  0 < p.poolCount
    ∧ (p.pools = none ∨ ∃ i < p.poolCount, p.cells[i]? = some none)

/-- The table is no longer than the count says, and the pool is damaged
once something was refused. -/
def Marked (p : CxPreallocPool) (m : Machine) : Prop :=
  p.cells.length ≤ p.poolCount ∧ (m.refused = true → Damaged p)

-- ============================================================= add_chunk

/-- The cells of the table after it was made one longer. -/
theorem resized_cells {n storage : Nat} (old : Option (CArray (Option Nat)))
    (hlen : ((old.map CArray.cells).getD []).length ≤ n) :
    (CArray.resized old storage (n + 1) none).cells
      = (old.map CArray.cells).getD [] ++ List.replicate
          (n + 1 - ((old.map CArray.cells).getD []).length) none := by
  show ((old.map CArray.cells).getD []).take (n + 1) ++ _ = _
  rw [List.take_of_length_le (by omega)]

/-- A cell that was not written stays so. -/
theorem resized_unwritten {n storage : Nat} (old : Option (CArray (Option Nat)))
    (hlen : ((old.map CArray.cells).getD []).length ≤ n) {i : Nat} (hi : i ≤ n)
    (hcell : old = none ∨ i = n
      ∨ ((old.map CArray.cells).getD [])[i]? = some none) :
    (CArray.resized old storage (n + 1) none).cells[i]? = some none := by
  rw [resized_cells old hlen]
  by_cases hlt : i < ((old.map CArray.cells).getD []).length
  · rw [List.getElem?_append_left hlt]
    rcases hcell with hnone | hin | hcell
    · rw [hnone] at hlt
      exact absurd hlt (Nat.not_lt_zero i)
    · omega
    · exact hcell
  · rw [List.getElem?_append_right (Nat.not_lt.mp hlt)]
    exact List.getElem?_replicate_of_lt (by omega)

theorem resized_length {n storage : Nat} (old : Option (CArray (Option Nat)))
    (hlen : ((old.map CArray.cells).getD []).length ≤ n) :
    (CArray.resized old storage (n + 1) none).cells.length = n + 1 := by
  rw [resized_cells old hlen, List.length_append, List.length_replicate]
  omega

/-- Whatever the allocator does, `add_chunk` marks the pool. -/
theorem addChunk_marked (h : Marked p m) {rv : Int}
    (hrun : (addChunk p).run m = .ok (rv, p') m') : Marked p' m' := by
  obtain ⟨hlen, hdamaged⟩ := h
  unfold CxPreallocPool.cells at hlen
  unfold addChunk at hrun
  rw [C.run_bind] at hrun
  by_cases hrealloc : m.oracle m.tick = 0
  · -- the table is lost
    rw [show (C.reallocArray (p.pools.map CArray.storage)).run m
      = .ok none { m with tick := m.tick + 1, refused := true } from
        if_pos hrealloc] at hrun
    cases hrun
    exact ⟨Nat.zero_le _, fun _ => ⟨Nat.succ_pos _, Or.inl rfl⟩⟩
  · rw [show (C.reallocArray (p.pools.map CArray.storage)).run m = _ from
      if_neg hrealloc, C.chain_ok] at hrun
    dsimp only at hrun
    rw [C.run_bind] at hrun
    have hnone : ∀ storage i, i ≤ p.poolCount →
        (p.pools = none ∨ i = p.poolCount ∨ p.cells[i]? = some none) →
        (CArray.resized p.pools storage (p.poolCount + 1) none).cells[i]?
          = some none := fun storage i hi hcell =>
      resized_unwritten p.pools hlen hi hcell
    have hlen' : ∀ storage, (CArray.resized p.pools storage (p.poolCount + 1)
        none).cells.length = p.poolCount + 1 := fun storage =>
      resized_length p.pools hlen
    simp only [C.calloc] at hrun
    split at hrun
    case isTrue hfits =>
      rw [C.chain_ok, if_neg (Nat.pos_iff_ne_zero.mp hfits.1.1), C.run_pure] at hrun
      cases hrun
      refine ⟨?_, ?_⟩
      · show (List.set _ _ _).length ≤ _
        rw [List.length_set, hlen']
      · intro hu
        obtain ⟨hpos, hold⟩ := hdamaged hu
        refine ⟨Nat.succ_pos _, Or.inr ?_⟩
        -- the old gap is not the cell just written
        obtain ⟨i, hi, hcell⟩ : ∃ i < p.poolCount,
            p.pools = none ∨ i = p.poolCount ∨ p.cells[i]? = some none := by
          rcases hold with hnull | ⟨i, hi, hcell⟩
          · exact ⟨0, hpos, Or.inl hnull⟩
          · exact ⟨i, hi, Or.inr (Or.inr hcell)⟩
        refine ⟨i, Nat.lt_succ_of_lt hi, ?_⟩
        show (List.set _ (p.poolCount + 1 - 1) _)[i]? = _
        rw [Nat.add_sub_cancel, List.getElem?_set_ne (by omega)]
        exact hnone _ i (by omega) hcell
    case isFalse =>
      rw [C.chain_ok, if_pos rfl, C.run_pure] at hrun
      cases hrun
      refine ⟨?_, ?_⟩
      · show (CArray.resized _ _ _ _).cells.length ≤ _
        rw [hlen']
      · intro _
        exact ⟨Nat.succ_pos _, Or.inr ⟨p.poolCount, Nat.lt_succ_self _,
          hnone _ _ (Nat.le_refl _) (Or.inr (Or.inl rfl))⟩⟩

-- ================================================================== runs

/-- Only the table and its count are looked at. -/
theorem Marked.congr (h : Marked p m) (hpools : p'.pools = p.pools)
    (hcount : p'.poolCount = p.poolCount) (hu : m'.refused = m.refused) :
    Marked p' m' := by
  unfold Marked Damaged CxPreallocPool.cells at *
  rw [hpools, hcount, hu]
  exact h

theorem cxPreallocPoolGet_marked (h : Marked p m) {a : Nat}
    (hrun : (cxPreallocPoolGet p).run m = .ok (a, p') m') : Marked p' m' := by
  unfold cxPreallocPoolGet at hrun
  split at hrun
  · unfold reuseNode at hrun
    by_cases hv : m.Valid p.reusePool 8
    · rw [C.run_bind, run_load64 hv, C.chain_ok, C.run_bind,
        show (C.zeroBytes p.reusePool reuseListSize).run m = _ from
          run_zeroBytes hv, C.chain_ok, C.run_pure] at hrun
      cases hrun
      exact h.congr rfl rfl rfl
    · rw [C.run_bind, show (C.load64 p.reusePool).run m = .fault .badAccess m
        from if_neg hv] at hrun
      cases hrun
  · split at hrun
    · rw [C.run_bind] at hrun
      cases hadd : (addChunk p).run m with
      | fault e m₁ =>
          rw [hadd] at hrun
          cases hrun
      | ok r m₁ =>
          obtain ⟨rv, p₁⟩ := r
          have h₁ := addChunk_marked h hadd
          rw [hadd, C.chain_ok] at hrun
          dsimp only at hrun
          split at hrun
          · cases hrun
            exact h₁
          · cases hrun
            exact h₁.congr rfl rfl rfl
    · cases hrun
      exact h.congr rfl rfl rfl

theorem marked_exec (h : Marked s.pool m) {op : PoolOp}
    (hrun : (PoolClient.exec op s).run m = .ok s' m') : Marked s'.pool m' := by
  cases op with
  | get =>
      unfold PoolClient.exec at hrun
      rw [C.run_bind] at hrun
      cases hget : (cxPreallocPoolGet s.pool).run m with
      | fault e m₁ =>
          rw [hget] at hrun
          cases hrun
      | ok r m₁ =>
          obtain ⟨a, p₁⟩ := r
          have h₁ := cxPreallocPoolGet_marked h hget
          rw [hget, C.chain_ok] at hrun
          dsimp only at hrun
          split at hrun
          · cases hrun
            exact h₁
          · cases hrun
            exact h₁
  | recycle a =>
      simp only [PoolClient.exec, cxPreallocPoolRecycle, C.store64] at hrun
      split at hrun
      · simp only [C.run_bind] at hrun
        split at hrun
        · cases hrun
          exact h.congr rfl rfl rfl
        · cases hrun
      · cases hrun
        exact h
  | write a i bs =>
      simp only [PoolClient.exec, C.writeBytes, C.run_bind] at hrun
      split at hrun
      · cases hrun
        exact h.congr rfl rfl rfl
      · cases hrun

/-- The states of runs in which requests may be refused. -/
abbrev PoolClient.AnyRun (elementCount elementSize : Nat) (mem : Mem)
    (oracle : Nat → Nat) : PoolClient → Machine → Prop :=
  Steps (PoolClient.start elementCount elementSize) PoolClient.exec
    (fun s _ op => op.Allowed s) (Machine.boot mem oracle)

theorem marked_run {count size : Nat} {mem : Mem} {oracle : Nat → Nat}
    (h : PoolClient.AnyRun count size mem oracle s m) : Marked s.pool m := by
  apply h.invariant (fun s m => Marked s.pool m)
  · intro s m hrun
    simp only [PoolClient.start, cxPreallocPoolInit2, C.assert] at hrun
    split at hrun
    · split at hrun
      · cases hrun
        exact ⟨Nat.le_refl _, fun hu => absurd hu Bool.false_ne_true⟩
      · cases hrun
    · cases hrun
  · intro s m op s' m' hinv _ hrun
    exact marked_exec hinv hrun

-- =============================================================== cleanup

/-- The loop stops at a cell that was never written. -/
theorem freeChunks_unwritten {i : Nat} (hi : i < p.poolCount)
    (hat : ∀ m : Machine, ∃ e m', (poolAt p i).run m = .fault e m') (n : Nat) :
    ∀ j m, j + n = i → ¬ ∃ m', (freeChunks p j).run m = .ok () m' := by
  induction n with
  | zero =>
      intro j m hj hok
      obtain ⟨m', hrun⟩ := hok
      rw [Nat.add_zero] at hj
      subst hj
      obtain ⟨e, m₁, hfault⟩ := hat m
      rw [freeChunks, dif_pos hi, C.run_bind, hfault] at hrun
      cases hrun
  | succ n ih =>
      intro j m hj hok
      obtain ⟨m', hrun⟩ := hok
      rw [freeChunks, dif_pos (by omega), C.run_bind] at hrun
      cases hpool : (poolAt p j).run m with
      | fault e m₁ =>
          rw [hpool] at hrun
          cases hrun
      | ok c m₁ =>
          rw [hpool, C.chain_ok, C.run_bind] at hrun
          cases hfree : (C.free c).run m₁ with
          | fault e m₂ =>
              rw [hfree] at hrun
              cases hrun
          | ok u m₂ =>
              rw [hfree, C.chain_ok] at hrun
              exact ih (j + 1) m₂ (by omega) ⟨m', hrun⟩

theorem Damaged.cleanup (h : Damaged p) :
    ¬ ∃ m', (cxPreallocPoolCleanup p).run m = .ok () m' := by
  obtain ⟨hpos, hgap⟩ := h
  have hloop : ¬ ∃ m', (freeChunks p 0).run m = .ok () m' := by
    rcases hgap with hnull | ⟨i, hi, hcell⟩
    · refine freeChunks_unwritten hpos ?_ 0 0 m rfl
      intro m₁
      refine ⟨.nullDeref, m₁, ?_⟩
      unfold poolAt
      rw [hnull]
      rfl
    · refine freeChunks_unwritten hi ?_ i 0 m (Nat.zero_add i)
      intro m₁
      refine ⟨.uninitialised, m₁, ?_⟩
      unfold poolAt
      unfold CxPreallocPool.cells at hcell
      cases hp : p.pools with
      | none =>
          rw [hp] at hcell
          cases hcell
      | some table =>
          rw [hp] at hcell
          have hcell' : table.cells[i]? = some none := hcell
          simp only
          rw [C.run_bind, run_cell hcell']
          rfl
  intro hok
  obtain ⟨m', hrun⟩ := hok
  unfold cxPreallocPoolCleanup at hrun
  rw [C.run_bind] at hrun
  cases hfree : (freeChunks p 0).run m with
  | fault e m₁ =>
      rw [hfree] at hrun
      cases hrun
  | ok u m₁ => exact hloop ⟨m₁, hfree⟩

-- ============================================================ usability

/-- The elements handed out are where they should be, and the cleanup
frees exactly the pool's chunks and its table. -/
structure PoolUsable (count size : Nat) (s : PoolClient) (m : Machine) :
    Prop where
  elements : ElementsApart count size s m
  cleanup : ∃ m', (cxPreallocPoolCleanup s.pool).run m = .ok () m'
    ∧ m'.arena.blocks = [] ∧ m'.arrays = []

/-- A pool is usable in the states of runs in which nothing was refused,
and in no others; a first chunk that is too large for a word does not
make it usable after a refusal. -/
theorem cxPreallocPool_usable_iff {count size : Nat} {mem : Mem}
    {oracle : Nat → Nat} (hcount : 0 < count) (hsize : 8 ≤ size)
    (h : PoolClient.AnyRun count size mem oracle s m) :
    (count * size * 2 < 2 ^ 64 →
      (PoolUsable count size s m ↔ m.refused = false))
    ∧ (m.refused = true → ¬ PoolUsable count size s m) := by
  have hdamaged : m.refused = true → ¬ PoolUsable count size s m := by
    intro hu husable
    obtain ⟨m', hrun, -⟩ := husable.cleanup
    exact ((marked_run h).2 hu).cleanup ⟨m', hrun⟩
  refine ⟨fun hwrap => ⟨fun husable => ?_, fun hu => ?_⟩, hdamaged⟩
  · cases hu : m.refused with
    | false => rfl
    | true => exact absurd husable (hdamaged hu)
  · have hrun := poolRun_run hcount hsize hwrap (h.reached hu)
    obtain ⟨chunks, hinv, hsole, hsz⟩ := id hrun
    refine ⟨hrun.elementsApart, run_cxPreallocPoolCleanup hsole ?_⟩
    exact Nat.mul_pos hcount (by omega)

/-- A run that is refused nothing, with a second chunk. -/
theorem cxPreallocPool_usable_iff_chunks : ∃ s m,
    PoolClient.AnyRun 1 8 (fun _ => 0) (fun t => 2 ^ 20 * (t + 1)) s m
      ∧ s.pool.poolCount = 2 ∧ PoolUsable 1 8 s m := by
  obtain ⟨s, m, hrun, htest⟩ := steps_of_tryFrom
    (PoolClient.start 1 8) PoolClient.exec (fun s _ op => op.Allowed s)
    (Machine.boot (fun _ => 0) fun t => 2 ^ 20 * (t + 1))
    [.get, .get, .get]
    (fun x => decide (x.1.pool.poolCount = 2 ∧ x.2.refused = false))
    (by decide +kernel)
  obtain ⟨hcount, hu⟩ := of_decide_eq_true htest
  have husable := (cxPreallocPool_usable_iff (by decide) (by decide) hrun).1
  exact ⟨s, m, hrun, hcount, (husable (by decide)).mpr hu⟩

/-- The second chunk is refused to the third get. The fourth get returns
the address past the end of the first one, and the cleanup reads the cell
that was never written. -/
theorem cxPreallocPool_outOfChunk : ∃ s m a,
    PoolClient.AnyRun 1 8 (fun _ => 0)
      (fun t => if t = 3 then 0 else 2 ^ 20 * (t + 1)) s m
      ∧ a ∈ s.live ∧ ¬ m.Valid a 8
      ∧ ∀ m', (cxPreallocPoolCleanup s.pool).run m ≠ .ok () m' := by
  obtain ⟨s, m, hrun, htest⟩ := steps_of_tryFrom
    (PoolClient.start 1 8) PoolClient.exec (fun s _ op => op.Allowed s)
    (Machine.boot (fun _ => 0) fun t => if t = 3 then 0 else 2 ^ 20 * (t + 1))
    [.get, .get, .get, .get]
    (fun x => decide (2097168 ∈ x.1.live ∧ ¬ x.2.Valid 2097168 8
        ∧ x.2.refused = true)
      && match (cxPreallocPoolCleanup x.1.pool).run x.2 with
        | .ok _ _ => false
        | .fault _ _ => true)
    (by decide +kernel)
  rw [Bool.and_eq_true] at htest
  obtain ⟨hstate, hclean⟩ := htest
  obtain ⟨hlive, hinvalid, -⟩ := of_decide_eq_true hstate
  refine ⟨s, m, 2097168, hrun, hlive, hinvalid, ?_⟩
  intro m' hok
  dsimp only at hclean
  rw [hok] at hclean
  cases hclean

end Cextras.Memory
