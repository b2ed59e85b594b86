/-
The reference-counted array keeps a ledger, as the radix tree does
(RcRadix.lean): the counter of an index is its number of references, its
element holds the value the ledger says it keeps, and the callback ran on
exactly the values the ledger says were cleaned up. Keys are indices.
-/
import Cextras.Collection.Proofs.RcMapOps
import Cextras.Collection.Proofs.RcRadix

namespace Cextras.Collection

open Lib

/-- The array at `data` with the ledger's counters. -/
def tallied (size elementSize data storage : Nat)
    (l : Ledger UInt64 (List Byte)) : CxRcMap :=
  tally data size elementSize storage fun i => l.refs (UInt64.ofNat i)

/-- The array keeps the book. -/
structure RcMapKeeps (size elementSize data : Nat) (m : Machine) (b : RcBook) :
    Prop where
  laid : Laid data size elementSize
  block : (⟨data, size * elementSize⟩ : Block) ∈ m.arena.blocks
  range : ∀ k, b.ledger.refs k ≠ 0 → k.toNat < size
  element : ∀ k, b.ledger.refs k ≠ 0 →
    b.element k = data + k.toNat * elementSize
  bytes : ∀ k, b.ledger.refs k ≠ 0 → b.ledger.stored k
    = some (m.mem.read (data + k.toNat * elementSize) elementSize)
  calls : m.calls = b.ledger.log

namespace RcMapKeeps

variable {size elementSize data storage : Nat} {m m' : Machine} {b : RcBook}
  {k : UInt64} {v : List Byte}

theorem valid (h : RcMapKeeps size elementSize data m b) (hk : k.toNat < size) :
    m.Valid (data + k.toNat * elementSize) elementSize := by
  refine ⟨_, h.block, ?_⟩
  have hle := element_le elementSize hk
  simp only [Block.Has]
  omega

/-- An index is the key it was made of. -/
theorem ofNat_eq_iff (h : RcMapKeeps size elementSize data m b) {i : Nat}
    (hi : i < size) : UInt64.ofNat i = k ↔ i = k.toNat := by
  have hfits := h.laid.fits
  have hle : size ≤ size * elementSize := Nat.le_mul_of_pos_right _ h.laid.element
  have hto : (UInt64.ofNat i).toNat = i := UInt64.toNat_ofNat_of_lt' (by
    show i < 2 ^ 64
    omega)
  constructor
  · intro heq
    rw [← heq, hto]
  · intro heq
    rw [heq, UInt64.ofNat_toNat]

/-- A counter of a key. -/
theorem refs_toNat : b.ledger.refs (UInt64.ofNat k.toNat) = b.ledger.refs k := by
  rw [UInt64.ofNat_toNat]

/-- Counting in the array is counting in the ledger. -/
theorem tally_update (h : RcMapKeeps size elementSize data m b)
    {l : Ledger UInt64 (List Byte)} {n : Nat}
    (hrefs : ∀ k', l.refs k' = if k' = k then n else b.ledger.refs k') :
    tally data size elementSize storage (Function.update
      (fun i => b.ledger.refs (UInt64.ofNat i)) k.toNat n)
      = tallied size elementSize data storage l := by
  unfold tallied tally
  congr 3
  refine List.map_congr_left fun i hi => ?_
  have hi : i < size := List.mem_range.mp hi
  dsimp only
  rw [Function.update_apply, hrefs]
  congr 1
  by_cases heq : i = k.toNat
  · rw [if_pos heq, if_pos ((h.ofNat_eq_iff hi).mpr heq)]
  · rw [if_neg heq, if_neg fun hk => heq ((h.ofNat_eq_iff hi).mp hk)]

/-- Different keys' elements share no byte. -/
theorem separated {k' : UInt64} (hne : k' ≠ k) :
    data + k'.toNat * elementSize + elementSize ≤ data + k.toNat * elementSize
      ∨ data + k.toNat * elementSize + elementSize
        ≤ data + k'.toNat * elementSize := by
  have hnat : k'.toNat ≠ k.toNat := fun heq => hne (UInt64.toNat_inj.mp heq)
  rcases Nat.lt_or_gt_of_ne hnat with hlt | hlt
  · have := element_le elementSize hlt
    omega
  · have := element_le elementSize hlt
    omega

/-- One counter changes, and the ledger with it; the memory stays. -/
theorem recount (h : RcMapKeeps size elementSize data m b)
    {l : Ledger UInt64 (List Byte)} {n : Nat} (hk : b.ledger.refs k ≠ 0)
    (hrefs : ∀ k', l.refs k' = if k' = k then n else b.ledger.refs k')
    (hstored : ∀ k', b.ledger.refs k' ≠ 0 → l.stored k' = b.ledger.stored k')
    (hcalls : m'.calls = l.log) (harena : m'.arena = m.arena)
    (hmem : m'.mem = m.mem) :
    RcMapKeeps size elementSize data m' { b with ledger := l } := by
  have hold : ∀ k', l.refs k' ≠ 0 → b.ledger.refs k' ≠ 0 := by
    intro k' hk'
    rw [hrefs] at hk'
    by_cases heq : k' = k
    · rwa [heq]
    · rwa [if_neg heq] at hk'
  refine ⟨h.laid, harena ▸ h.block, ?_, ?_, ?_, hcalls⟩
  · exact fun k' hk' => h.range k' (hold k' hk')
  · exact fun k' hk' => h.element k' (hold k' hk')
  · intro k' hk'
    rw [hstored k' (hold k' hk'), hmem]
    exact h.bytes k' (hold k' hk')

theorem transfer (h : RcMapKeeps size elementSize data m b)
    (hmem : m'.mem = m.mem) (harena : m'.arena = m.arena)
    (hcalls : m'.calls = m.calls) : RcMapKeeps size elementSize data m' b :=
  ⟨h.laid, harena ▸ h.block, h.range, h.element, hmem ▸ h.bytes,
    hcalls.trans h.calls⟩

-- ============================================================ operations

theorem run_refCount (_ : RcMapKeeps size elementSize data m b)
    (hk : k.toNat < size) :
    (refCountAt (tallied size elementSize data storage b.ledger) k.toNat).run m
      = .ok (b.ledger.refs k : Int) m := by
  rw [tallied, run_refCountAt hk, refs_toNat]

theorem run_retain (h : RcMapKeeps size elementSize data m b)
    (hk : b.ledger.refs k ≠ 0) (hlt : b.ledger.refs k + 1 < 2 ^ 31) :
    (cxRcMapRetain (tallied size elementSize data storage b.ledger) k.toNat).run m
      = .ok (b.element k, tallied size elementSize data storage
          (b.ledger.retain k)) m
      ∧ RcMapKeeps size elementSize data m
        { b with ledger := b.ledger.retain k } := by
  constructor
  · rw [tallied, run_cxRcMapRetain h.laid (h.range k hk) (by rwa [refs_toNat])
      (by rwa [refs_toNat]), refs_toNat, h.element k hk,
      h.tally_update fun _ => Ledger.refs_retain hk]
  · exact h.recount hk (fun _ => Ledger.refs_retain hk)
      (fun _ _ => Ledger.stored_retain)
      (by rw [Ledger.log_retain]; exact h.calls) rfl rfl

theorem run_retain_absent (hk : k.toNat < size) (hdead : b.ledger.refs k = 0) :
    (cxRcMapRetain (tallied size elementSize data storage b.ledger) k.toNat).run m
      = .ok (0, tallied size elementSize data storage b.ledger) m :=
  run_cxRcMapRetain_empty hk (by rwa [refs_toNat])

/-- Setting a live key: the value is turned away. -/
theorem run_set_live (h : RcMapKeeps size elementSize data m b)
    (hk : b.ledger.refs k ≠ 0) (hlt : b.ledger.refs k + 1 < 2 ^ 31) :
    (cxRcMapSet (tallied size elementSize data storage b.ledger) k.toNat v).run m
      = .ok (b.element k, tallied size elementSize data storage
          (b.ledger.put k v)) (called m v)
      ∧ RcMapKeeps size elementSize data (called m v)
        { b with ledger := b.ledger.put k v } := by
  constructor
  · rw [tallied, run_cxRcMapSet_live h.laid (h.range k hk) (by rwa [refs_toNat])
      (by rwa [refs_toNat]), refs_toNat, h.element k hk,
      h.tally_update fun _ => Ledger.refs_put ..]
  · refine h.recount hk (fun _ => Ledger.refs_put ..)
      (fun _ hk' => Ledger.stored_put hk') ?_ rfl rfl
    rw [Ledger.log_put_live hk, ← h.calls]
    rfl

/-- Setting an empty key stores the value. -/
theorem run_set_empty (h : RcMapKeeps size elementSize data m b)
    (hk : k.toNat < size) (hdead : b.ledger.refs k = 0)
    (hv : v.length = elementSize) :
    (cxRcMapSet (tallied size elementSize data storage b.ledger) k.toNat v).run m
      = .ok (data + k.toNat * elementSize, tallied size elementSize data storage
          (b.ledger.put k v))
          (wrote m (data + k.toNat * elementSize) v)
      ∧ RcMapKeeps size elementSize data
        (wrote m (data + k.toNat * elementSize) v)
        ⟨b.ledger.put k v,
          Function.update b.element k (data + k.toNat * elementSize)⟩ := by
  have hrefs : ∀ k', (b.ledger.put k v).refs k'
      = if k' = k then 1 else b.ledger.refs k' := by
    intro k'
    rw [Ledger.refs_put, hdead]
  have hold : ∀ k', k' ≠ k → (b.ledger.put k v).refs k' ≠ 0 →
      b.ledger.refs k' ≠ 0 := by
    intro k' hne hk'
    rwa [hrefs, if_neg hne] at hk'
  constructor
  · rw [tallied, run_cxRcMapSet_empty h.laid hk (by rwa [refs_toNat]) hv
      (h.valid hk), h.tally_update hrefs]
  · refine ⟨h.laid, h.block, ?_, ?_, ?_, ?_⟩
    · intro k' hk'
      by_cases heq : k' = k
      · rwa [heq]
      · exact h.range k' (hold k' heq hk')
    · intro k' hk'
      show Function.update b.element k (data + k.toNat * elementSize) k' = _
      rw [Function.update_apply]
      by_cases heq : k' = k
      · rw [if_pos heq, heq]
      · rw [if_neg heq]
        exact h.element k' (hold k' heq hk')
    · intro k' hk'
      show (b.ledger.put k v).stored k' = some ((m.mem.write
        (data + k.toNat * elementSize) v).read (data + k'.toNat * elementSize)
          elementSize)
      by_cases heq : k' = k
      · rw [heq, Ledger.stored_put_self hdead, ← hv, read_write_self]
      · have hlive := hold k' heq hk'
        rw [Ledger.stored_put hlive, h.bytes k' hlive,
          read_write_of_disjoint (by rw [hv]; exact separated heq)]
    · rw [Ledger.log_put_dead hdead]
      exact h.calls

/-- Releasing by index. -/
theorem run_release (h : RcMapKeeps size elementSize data m b)
    (hk : b.ledger.refs k ≠ 0) :
    ∃ m', (cxRcMapReleaseIndex (tallied size elementSize data storage b.ledger)
        k.toNat).run m
      = .ok (0, tallied size elementSize data storage
          (b.ledger.release k)) m'
      ∧ RcMapKeeps size elementSize data m'
        { b with ledger := b.ledger.release k } := by
  have hrange := h.range k hk
  by_cases hlast : b.ledger.refs k = 1
  · refine ⟨called m (m.mem.read (data + k.toNat * elementSize) elementSize), ?_,
      h.recount hk (fun _ => Ledger.refs_release hk)
        (fun _ _ => Ledger.stored_release) ?_ rfl rfl⟩
    · rw [tallied, run_cxRcMapReleaseIndex_last h.laid hrange
        (by rwa [refs_toNat]) (h.valid hrange)]
      rw [h.tally_update fun k' => by rw [Ledger.refs_release hk, hlast]]
    · rw [Ledger.log_release_last hlast (h.bytes k hk), ← h.calls]
      rfl
  · refine ⟨m, ?_, h.recount hk (fun _ => Ledger.refs_release hk)
      (fun _ _ => Ledger.stored_release) ?_ rfl rfl⟩
    · rw [tallied, run_cxRcMapReleaseIndex hrange (by rwa [refs_toNat])
        (by rwa [refs_toNat]), refs_toNat,
        h.tally_update fun _ => Ledger.refs_release hk]
    · rw [Ledger.log_release_more hlast]
      exact h.calls

/-- An array that was set up keeps the empty book. -/
theorem start (hf : m.arena.Fits ⟨data, size * elementSize⟩)
    (helem : 0 < elementSize) (hcalls : m.calls = [])
    (harena : m'.arena = m.arena.add _ hf) (hcalls' : m'.calls = m.calls) :
    RcMapKeeps size elementSize data m' ⟨.empty, fun _ => 0⟩ := by
  refine ⟨⟨helem, hf.1.1, hf.1.2.1⟩, ?_, ?_, ?_, ?_, hcalls'.trans hcalls⟩
  · rw [harena]
    exact List.mem_cons_self ..
  all_goals
    intro k hk
    exact absurd rfl hk

end RcMapKeeps

-- ================================================================== start

/-- A user sets up an array, and goes on only if that worked. -/
def newRcMap (size elementSize : Nat) : C CxRcMap := do
  let (rv, array) ← cxRcMapInit none size elementSize
  C.assert (rv = 0)
  match array with
  | none => C.fail .uninitialised
  | some array => pure array

/-- The array holds what the book says. -/
def RcMapHolds (size elementSize : Nat) (m : Machine) (array : CxRcMap)
    (b : RcBook) : Prop :=
  ∃ data storage, array = tallied size elementSize data storage b.ledger
    ∧ RcMapKeeps size elementSize data m b

theorem newRcMap_granted {size elementSize : Nat} (helem : 0 < elementSize)
    {mem : Mem} {oracle : Nat → Nat} :
    (newRcMap size elementSize).Granted (Machine.boot mem oracle)
      fun array m => RcMapHolds size elementSize m array ⟨.empty, fun _ => 0⟩ := by
  refine granted_bind (cxRcMapInit_granted _ none size elementSize) ?_
  rintro ⟨rv, array⟩ m ⟨hrv, data, storage, harray, hf, harena, hcalls, -⟩
  dsimp only at hrv harray
  subst hrv harray
  refine granted_bind_run (run_assert rfl) (granted_pure ⟨data, storage, rfl, ?_⟩)
  exact RcMapKeeps.start hf helem rfl harena hcalls

end Cextras.Collection
