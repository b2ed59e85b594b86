/-
What a pool owns: its chunks, and the storage of the table that lists them.
Getting an element may add a chunk and giving one back changes nothing, so
the cleanup, which walks the table, frees exactly what the pool took
(`cxPreallocPoolCleanup_frees`), whatever else is allocated beside it.
-/
import Cextras.Lib.Footprint
import Cextras.Memory.Proofs.PoolOps

namespace Cextras.Memory

open Lib

variable {m : Machine} {p p' : CxPreallocPool} {f : Footprint} {G : Prop}
  {chunks : List Block} {unit : Nat}

/-- The chunks of the table and its storage. -/
def PoolOwns (p : CxPreallocPool) (f : Footprint) : Prop :=
  ∃ unit chunks, 0 < unit ∧ Tabled p chunks unit ∧ p.chunkSize < 2 ^ 63
    ∧ f = Footprint.blocks chunks + .storage (p.pools.map CArray.storage)

/-- Only the table counts. -/
theorem PoolOwns.congr (h : PoolOwns p f) (hpools : p'.pools = p.pools)
    (hcount : p'.poolCount = p.poolCount) (hsize : p'.chunkSize = p.chunkSize) :
    PoolOwns p' f := by
  obtain ⟨unit, chunks, hunit, htable, hlt, hf⟩ := h
  refine ⟨unit, chunks, hunit, ⟨?_, ?_, ?_, htable.sizes⟩, ?_, ?_⟩
  · rw [hpools]
    exact htable.cells
  · rw [hcount]
    exact htable.count
  · rw [hsize]
    exact htable.chunkSize
  · rw [hsize]
    exact hlt
  · rw [hpools]
    exact hf

-- ============================================================ operations

theorem cxPreallocPoolInit2_turns {count size : Nat}
    (hwrap : count * size < 2 ^ 63) :
    (cxPreallocPoolInit2 count size).Turns G 0 PoolOwns := by
  unfold cxPreallocPoolInit2
  refine turns_after (.assert _) fun _ hsize => ?_
  refine turns_after (.assert _) fun _ hcount => ?_
  have hpos : 0 < count * size := Nat.mul_pos hcount
    (Nat.lt_of_lt_of_le (by decide) hsize)
  have hmod : count * size % 2 ^ 64 = count * size :=
    Nat.mod_eq_of_lt (by omega)
  refine turns_pure ⟨count * size, [], hpos, ⟨rfl, rfl, ?_, by simp⟩, ?_, rfl⟩
  · show count * size % 2 ^ 64 = _
    rw [hmod, List.length_nil, Nat.pow_zero, Nat.mul_one]
  · show count * size % 2 ^ 64 < _
    rw [hmod]
    exact hwrap

/-- A granted chunk comes with a table that lists it. -/
theorem addChunk_turns (h : PoolOwns p f) :
    (addChunk p).Turns True f fun r g => PoolOwns r.2 g := by
  obtain ⟨unit, chunks, hunit, htable, hlt, rfl⟩ := h
  have hdouble : p.chunkSize * 2 % 2 ^ 64 = p.chunkSize * 2 :=
    Nat.mod_eq_of_lt (by omega)
  have hpos : 0 < p.chunkSize * 2 := by
    rw [htable.chunkSize]
    exact Nat.mul_pos (Nat.mul_pos hunit (Nat.two_pow_pos _)) Nat.two_pos
  unfold addChunk
  refine turns_bind turns_reallocArray ?_
  intro s g hr
  rcases hr with ⟨hG, -⟩ | ⟨storage, rfl, rfl⟩
  · exact absurd trivial hG
  dsimp only
  rw [hdouble]
  refine turns_bind (turns_calloc hpos) ?_
  intro a g hr
  rcases hr with ⟨hG, -⟩ | ⟨hne, hsmall, rfl⟩
  · exact absurd trivial hG
  rw [if_neg hne]
  have hgrown := @Tabled.grow _ _ _ a storage htable
  refine turns_pure ⟨unit, _, hunit, hgrown, hsmall, ?_⟩
  rw [Footprint.blocks_cons]
  exact add_right_comm _ _ _

theorem cxPreallocPoolGet_turns (h : PoolOwns p f) :
    (cxPreallocPoolGet p).Turns True f fun r g => PoolOwns r.2 g := by
  unfold cxPreallocPoolGet
  refine turns_ite (fun _ => ?_) fun _ => turns_ite (fun _ => ?_) fun _ => ?_
  · unfold reuseNode
    refine turns_after (.load64 _) fun next _ => ?_
    refine turns_after (.zeroBytes _ _) fun _ _ => ?_
    exact turns_pure (h.congr rfl rfl rfl)
  · refine turns_bind (addChunk_turns h) ?_
    intro r g hr
    refine turns_ite (fun _ => turns_pure hr) fun _ => ?_
    exact turns_pure (hr.congr rfl rfl rfl)
  · exact turns_pure (h.congr rfl rfl rfl)

theorem cxPreallocPoolRecycle_turns (h : PoolOwns p f) (a : Nat) :
    (cxPreallocPoolRecycle p a).Turns G f PoolOwns := by
  unfold cxPreallocPoolRecycle
  refine turns_ite (fun _ => ?_) fun _ => turns_pure h
  refine turns_after (.store64 _ _) fun _ _ => ?_
  exact turns_pure (h.congr rfl rfl rfl)

-- =============================================================== cleanup

/-- The table's cells are the chunks, from the oldest to the newest. -/
theorem Tabled.run_poolAt (h : Tabled p chunks unit) {i : Nat}
    (hi : i < chunks.reverse.length) (m : Machine) :
    (poolAt p i).run m = .ok chunks.reverse[i].base m := by
  have hcell : ((p.pools.map CArray.cells).getD [])[i]?
      = some (some chunks.reverse[i].base) := by
    rw [h.cells, List.getElem?_map, List.getElem?_eq_getElem hi]
    rfl
  unfold poolAt
  cases hp : p.pools with
  | none =>
      rw [hp] at hcell
      cases hcell
  | some table =>
      rw [hp] at hcell
      have hcell' : table.cells[i]? = some (some chunks.reverse[i].base) := hcell
      simp only
      rw [C.run_bind, run_cell hcell', C.chain_ok, C.run_pure]

/-- The loop frees the chunks it has not come to yet. -/
theorem freeChunks_frees (h : Tabled p chunks unit) (n : Nat) :
    ∀ i, i + n = p.poolCount →
      (freeChunks p i).Frees (.blocks (chunks.reverse.drop i)) := by
  have hcount : chunks.reverse.length = p.poolCount := by
    rw [List.length_reverse, h.count]
  induction n with
  | zero =>
      intro i hi
      rw [freeChunks, dif_neg (by omega), List.drop_of_length_le (by omega)]
      exact frees_pure ()
  | succ n ih =>
      intro i hi
      have hlt : i < chunks.reverse.length := by omega
      rw [freeChunks, dif_pos (by omega)]
      refine frees_after (h.run_poolAt hlt) ?_
      rw [List.drop_eq_getElem_cons hlt, Footprint.blocks_cons]
      exact frees_bind (frees_free _) fun _ => ih (i + 1) (by omega)

/-- The cleanup gives back the chunks and the table. -/
theorem cxPreallocPoolCleanup_frees (h : PoolOwns p f) :
    (cxPreallocPoolCleanup p).Frees f := by
  obtain ⟨unit, chunks, -, htable, -, rfl⟩ := h
  unfold cxPreallocPoolCleanup
  rw [← Footprint.blocks_reverse, ← List.drop_zero (l := chunks.reverse), add_comm]
  exact frees_bind (freeChunks_frees htable p.poolCount 0 (Nat.zero_add _))
    fun _ => frees_freeArray _

end Cextras.Memory
