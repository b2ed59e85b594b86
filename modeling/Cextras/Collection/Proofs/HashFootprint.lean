/-
What a hash map owns: the array of inner maps, and for each of them the key
words and a reference-counted array. Slots come and go within what there is
(`CxRcHashMap.Same`), and only a put that finds no slot takes more. So the
cleanup of a map in which nothing is held gives back all of it, with every
value that was ever put cleaned up exactly once, and one of a map in which
something is held stops at the assertion that says so. Its users may release
by element and by key (`cxRcHashMap_teardown`).
-/
import Mathlib.Tactic.Abel
import Cextras.Collection.Proofs.HashKeys
import Cextras.Collection.Proofs.RcMapFootprint

namespace Cextras.Collection

open Lib

variable {map map' : CxRcHashMap} {f : Footprint}

def CxRcHashMapInner.footprint (inner : CxRcHashMapInner) : Footprint :=
  .storage (inner.keys.map CArray.storage)
    + (inner.values.map CxRcMap.footprint).getD 0

/-- A cell of the array of inner maps. -/
def cellFootprint : Option CxRcHashMapInner → Footprint
  | none => 0
  | some inner => inner.footprint

namespace CxRcHashMap

def cells (map : CxRcHashMap) : List (Option CxRcHashMapInner) :=
  (map.hashMaps.map CArray.cells).getD []

def footprint (map : CxRcHashMap) : Footprint :=
  (map.cells.map cellFootprint).sum
    + .storage (map.hashMaps.map CArray.storage)

/-- The same memory, counted or labelled anew. -/
structure Same (map map' : CxRcHashMap) : Prop where
  footprint : map'.footprint = map.footprint
  length : map'.cells.length = map.cells.length
  count : map'.hashMapCount = map.hashMapCount
  mapSize : map'.mapSize = map.mapSize
  elementSize : map'.elementSize = map.elementSize

theorem Same.trans {map₁ map₂ : CxRcHashMap} (h : Same map map₁)
    (h' : Same map₁ map₂) : Same map map₂ :=
  ⟨h'.footprint.trans h.footprint, h'.length.trans h.length,
    h'.count.trans h.count, h'.mapSize.trans h.mapSize,
    h'.elementSize.trans h.elementSize⟩

theorem cells_setInner (j : Nat) (inner : CxRcHashMapInner) :
    (map.setInner j inner).cells = map.cells.set j (some inner) := by
  unfold cells setInner
  cases map.hashMaps with
  | none => rfl
  | some maps => rfl

theorem storage_setInner (j : Nat) (inner : CxRcHashMapInner) :
    (map.setInner j inner).hashMaps.map CArray.storage
      = map.hashMaps.map CArray.storage := by
  unfold setInner
  cases map.hashMaps with
  | none => rfl
  | some maps => rfl

/-- An inner map replaced by one that owns the same. -/
theorem same_setInner {j : Nat} {inner inner' : CxRcHashMapInner}
    (hj : map.cells[j]? = some (some inner))
    (hinner : inner'.footprint = inner.footprint) :
    Same map (map.setInner j inner') := by
  refine ⟨?_, ?_, rfl, rfl, rfl⟩
  · have hset : (map.cells.map cellFootprint).set j (cellFootprint (some inner'))
        = map.cells.map cellFootprint := by
      refine List.ext_getElem? fun i => ?_
      rw [List.getElem?_set, List.length_map]
      split
      · next hij =>
          subst hij
          rw [List.getElem?_map, hj,
            if_pos (List.getElem?_eq_some_iff.mp hj).1]
          exact congrArg some hinner
      · rfl
    unfold footprint
    rw [cells_setInner, storage_setInner, List.map_set, hset]
  · rw [cells_setInner, List.length_set]

end CxRcHashMap

-- ========================================================= slot accesses

theorem innerAt_stays (j : Nat) :
    (innerAt map j).Stays fun inner => map.cells[j]? = some (some inner) := by
  unfold innerAt CxRcHashMap.cells
  cases map.hashMaps with
  | none => exact .fail _
  | some maps =>
      refine .bind (C.Stays.cell maps.cells j) fun cell hcell => ?_
      cases cell with
      | none => exact .fail _
      | some inner => exact .pure hcell

theorem valuesAt_stays (j : Nat) :
    (valuesAt map j).Stays fun values => ∃ inner,
      map.cells[j]? = some (some inner) ∧ inner.values = some values := by
  unfold valuesAt
  refine .bind (innerAt_stays j) fun inner hinner => ?_
  cases hvalues : inner.values with
  | none => exact .fail _
  | some values => exact .pure ⟨inner, hinner, hvalues⟩

theorem keyAt_still (j index : Nat) : (keyAt map j index).Still := by
  unfold keyAt
  refine .bind (innerAt_stays j) fun inner _ => ?_
  cases inner.keys with
  | none => exact .fail _
  | some keys => exact (C.Stays.cell _ _).still

/-- Storing back an inner map's array that owns what it owned. -/
theorem setValues_same {j : Nat} {inner : CxRcHashMapInner}
    {old values : CxRcMap} (hj : map.cells[j]? = some (some inner))
    (hold : inner.values = some old)
    (hvalues : values.footprint = old.footprint) :
    (setValues map j values).Stays map.Same := by
  unfold setValues
  refine .bind (innerAt_stays j) fun inner' hinner' => .pure ?_
  obtain rfl : inner' = inner := by
    rw [hj, Option.some.injEq, Option.some.injEq] at hinner'
    exact hinner'.symm
  refine CxRcHashMap.same_setInner hj ?_
  unfold CxRcHashMapInner.footprint
  rw [hold]
  exact congrArg (_ + ·) hvalues

theorem setKey_same (j index : Nat) (key : UInt64) :
    (setKey map j index key).Stays map.Same := by
  unfold setKey
  refine .bind (keyAt_still j index) fun _ _ => ?_
  refine .bind (innerAt_stays j) fun inner hinner => .pure ?_
  refine CxRcHashMap.same_setInner hinner ?_
  unfold CxRcHashMapInner.footprint
  cases inner.keys with
  | none => rfl
  | some keys => rfl

theorem putAt_same (j index : Nat) (key : UInt64) (data : List Byte) :
    (putAt map j index key data).Stays fun r => map.Same r.2 := by
  unfold putAt
  refine .bind (setKey_same j index key) fun map₁ h₁ => ?_
  refine .bind (valuesAt_stays j) ?_
  intro values hr
  obtain ⟨inner, hinner, hvalues⟩ := hr
  refine .bind (cxRcMapSet_kept index data) fun r hr => ?_
  refine .bind (setValues_same hinner hvalues hr) fun map₂ h₂ => ?_
  exact .pure (h₁.trans h₂)

-- ================================================================ probing

section Probing

variable {test : Nat → Nat → C Bool}

theorem probeMaps_still (htest : ∀ j i, (test j i).Still) (index j : Nat) :
    (probeMaps map test index j).Still := by
  rw [probeMaps]
  split
  · refine .bind (htest _ _) fun found _ => .ite (fun _ => .pure trivial)
      fun _ => ?_
    exact probeMaps_still htest index (j + 1)
  · exact .pure trivial
termination_by map.hashMapCount - j

theorem probeLoop_still (htest : ∀ j i, (test j i).Still)
    (size limit i index : Nat) :
    (probeLoop map test size limit i index).Still := by
  rw [probeLoop]
  split
  · refine .bind (probeMaps_still htest _ _) fun found _ => ?_
    cases found with
    | some j => exact .pure trivial
    | none => exact probeLoop_still htest size limit (i + 1) _
  · exact .pure trivial
termination_by limit - i

theorem keyMatches_still (key : UInt64) (j index : Nat) :
    (keyMatches map key j index).Still :=
  .bind (keyAt_still j index) fun _ _ => .pure trivial

theorem emptyOrMatches_still (key : UInt64) (j index : Nat) :
    (emptyOrMatches map key j index).Still := by
  unfold emptyOrMatches
  refine .bind (valuesAt_stays j) fun values _ => ?_
  refine .bind (cxRcMapIsEmpty_still index) fun _ _ => ?_
  exact .ite (fun _ => .pure trivial) fun _ => keyMatches_still key j index

theorem keyToIndex_still (key : UInt64) (size : Nat) :
    (keyToIndex key size).Still := by
  unfold keyToIndex
  exact .ite (fun _ => .fail _) fun _ => .pure trivial

theorem ownerLoop_still (element i : Nat) :
    (ownerLoop map element i).Still := by
  rw [ownerLoop]
  split
  · refine .bind (valuesAt_stays i) fun values _ => .ite (fun _ => .pure trivial)
      fun _ => ?_
    exact ownerLoop_still element (i + 1)
  · exact .pure trivial
termination_by map.hashMapCount - i

end Probing

-- ============================================================ operations

/-- The map's cells are in use, and what it owns is `f`. -/
structure HashOwns (map : CxRcHashMap) (f : Footprint) : Prop where
  owns : f = map.footprint
  length : map.cells.length = map.hashMapCount
  pos : 0 < map.mapSize * map.elementSize

theorem HashOwns.same (h : HashOwns map f) (hs : map.Same map') :
    HashOwns map' f :=
  ⟨h.owns.trans hs.footprint.symm,
    hs.length.trans (h.length.trans hs.count.symm), by
    rw [hs.mapSize, hs.elementSize]
    exact h.pos⟩

/-- A granted row of slots. -/
theorem extendHashMap_turns (h : HashOwns map f)
    (hroom : (map.hashMapCount + 1) * innerMapSize < 2 ^ 64) :
    (extendHashMap map).Turns True f fun r g => HashOwns r.2 g := by
  obtain ⟨rfl, hlength, hpos⟩ := h
  unfold extendHashMap
  rw [if_neg (by simp only [innerMapSize] at hroom; omega),
    if_neg (by omega)]
  unfold CxRcHashMap.footprint
  refine turns_bind turns_reallocArray ?_
  intro s g hr
  rcases hr with ⟨hG, -⟩ | ⟨storage, rfl, rfl⟩
  · exact absurd trivial hG
  dsimp only
  refine turns_bind turns_allocArray ?_
  intro s g hr
  rcases hr with ⟨hG, -⟩ | ⟨keyStorage, rfl, rfl⟩
  · exact absurd trivial hG
  dsimp only
  refine turns_bind (cxRcMapInit_turns hpos) ?_
  intro r g hr
  obtain ⟨array, rfl, rfl⟩ := hr
  -- the cells are those there were and the new one
  have hcells : ∀ inner : CxRcHashMapInner,
      (CArray.resized map.hashMaps storage (map.hashMapCount + 1) none).cells.set
        map.hashMapCount (some inner) = map.cells ++ [some inner] := by
    intro inner
    have hpad : (CArray.resized map.hashMaps storage (map.hashMapCount + 1)
        none).cells = map.cells ++ [none] := by
      show map.cells.take _ ++ List.replicate (_ - map.cells.length) none = _
      rw [← hlength, List.take_of_length_le (by omega), Nat.add_sub_cancel_left]
      rfl
    rw [hpad, List.set_append_right _ _ (by omega), hlength, Nat.sub_self]
    rfl
  refine turns_pure ⟨?_, ?_, hpos⟩
  · unfold CxRcHashMap.footprint
    rw [CxRcHashMap.cells_setInner, CxRcHashMap.storage_setInner]
    show _ + Footprint.storage (some storage) + Footprint.storage (some keyStorage)
        + array.footprint
      = (((CArray.resized _ _ _ _).cells.set _ _).map cellFootprint).sum
        + Footprint.storage (some storage)
    rw [hcells, List.map_append, List.sum_append, List.map_singleton,
      List.sum_singleton]
    show _ = _ + (Footprint.storage (some keyStorage) + array.footprint) + _
    abel
  · rw [CxRcHashMap.cells_setInner]
    show ((CArray.resized _ _ _ _).cells.set _ _).length = map.hashMapCount + 1
    rw [hcells, List.length_append, hlength]
    rfl

theorem cxRcHashMapInit_turns {size elementSize : Nat}
    (hpos : 0 < size * elementSize) :
    (cxRcHashMapInit size elementSize).Turns True 0
      fun r g => HashOwns r.2 g :=
  extendHashMap_turns ⟨rfl, rfl, hpos⟩ (by simp only [innerMapSize]; omega)

theorem cxRcHashMapPut_turns (h : HashOwns map f) (key : UInt64)
    (data : List Byte)
    (hroom : (map.hashMapCount + 1) * innerMapSize < 2 ^ 64) :
    (cxRcHashMapPut map key data).Turns True f fun r g => HashOwns r.2 g := by
  unfold cxRcHashMapPut
  refine turns_after (valuesAt_stays 0) fun values _ => ?_
  refine turns_after (keyToIndex_still _ _) fun index _ => ?_
  refine turns_after (probeLoop_still (emptyOrMatches_still key) _ _ _ _)
    fun found _ => ?_
  rcases found with _ | ⟨j, i⟩
  · refine turns_bind (extendHashMap_turns h hroom) ?_
    intro r g hr
    refine turns_ite (fun _ => turns_pure hr) fun _ => ?_
    exact (putAt_same _ _ key data).turns fun r' hr' => hr.same hr'
  · exact (putAt_same j i key data).turns fun r hr => h.same hr

theorem cxRcHashMapRetain_turns (h : HashOwns map f) (key : UInt64) :
    (cxRcHashMapRetain map key).Turns True f fun r g => HashOwns r.2 g := by
  unfold cxRcHashMapRetain
  refine turns_after (valuesAt_stays 0) fun values _ => ?_
  refine turns_after (keyToIndex_still _ _) fun index _ => ?_
  refine turns_after (probeLoop_still (keyMatches_still key) _ _ _ _)
    fun found _ => ?_
  rcases found with _ | ⟨j, i⟩
  · exact turns_pure h
  · refine turns_after (valuesAt_stays j) ?_
    intro values hr
    obtain ⟨inner, hinner, hvalues⟩ := hr
    refine turns_after (cxRcMapRetain_kept i) fun r hr => ?_
    refine turns_after (setValues_same hinner hvalues hr) fun map' hs => ?_
    exact turns_pure (h.same hs)

theorem cxRcHashMapRelease_turns (h : HashOwns map f) (element : Nat) :
    (cxRcHashMapRelease map element).Turns True f fun r g => HashOwns r.2 g := by
  unfold cxRcHashMapRelease
  refine turns_after (ownerLoop_still element 0) fun found _ => ?_
  cases found with
  | none => exact turns_pure h
  | some i =>
      refine turns_after (valuesAt_stays i) ?_
      intro values hr
      obtain ⟨inner, hinner, hvalues⟩ := hr
      refine turns_after (cxRcMapRelease_kept element) fun r hr => ?_
      refine turns_after (setValues_same hinner hvalues hr) fun map' hs => ?_
      exact turns_pure (h.same hs)

theorem cxRcHashMapReleaseKey_turns (h : HashOwns map f) (key : UInt64) :
    (cxRcHashMapReleaseKey map key).Turns True f fun r g => HashOwns r.2 g := by
  unfold cxRcHashMapReleaseKey
  refine turns_after (valuesAt_stays 0) fun values _ => ?_
  refine turns_after (keyToIndex_still _ _) fun index _ => ?_
  refine turns_after (probeLoop_still (keyMatches_still key) _ _ _ _)
    fun found _ => ?_
  rcases found with _ | ⟨j, i⟩
  · exact turns_pure h
  · refine turns_after (valuesAt_stays j) ?_
    intro values hr
    obtain ⟨inner, hinner, hvalues⟩ := hr
    refine turns_after (cxRcMapReleaseIndex_kept i) fun r hr => ?_
    refine turns_after (setValues_same hinner hvalues hr) fun map' hs => ?_
    exact turns_pure (h.same hs)

theorem HashClient.start_turns {size elementSize : Nat}
    (hpos : 0 < size * elementSize) :
    (HashClient.start size elementSize).Turns True 0
      fun s g => HashOwns s.map g := by
  unfold HashClient.start
  refine turns_bind (cxRcHashMapInit_turns hpos) fun r g hr => ?_
  exact turns_after (.assert _) fun _ _ => turns_pure hr

theorem HashClient.exec_turns {s : HashClient} {op : HashOp}
    (h : HashOwns s.map f) (hop : op.Allowed s) :
    (HashClient.exec op s).Turns True f fun s g => HashOwns s.map g := by
  cases op with
  | put k v =>
      refine turns_bind (cxRcHashMapPut_turns h k v hop.2.1) ?_
      exact fun r g hr => turns_pure hr
  | retain k =>
      refine turns_bind (cxRcHashMapRetain_turns h k) fun r g hr => ?_
      exact turns_ite (fun _ => turns_pure hr) fun _ => turns_pure hr
  | release p =>
      refine turns_bind (cxRcHashMapRelease_turns h p) ?_
      exact fun r g hr => turns_pure hr

theorem HashKeyOp.exec_turns {s : HashClient} {op : HashKeyOp}
    (h : HashOwns s.map f) (hop : op.Allowed s) :
    (op.exec s).Turns True f fun s g => HashOwns s.map g := by
  cases op with
  | call op => exact HashClient.exec_turns h hop
  | releaseKey k =>
      refine turns_bind (cxRcHashMapReleaseKey_turns h k) ?_
      exact fun r g hr => turns_pure hr

-- =============================================================== teardown

namespace Table

variable {T : Table} {m : Machine}

/-- What the inner maps from `i` on own, of `n` that are left. -/
def footprintFrom (T : Table) (i n : Nat) : Footprint :=
  ((List.range' i n).map fun j => (T.inner j).footprint).sum

theorem footprintFrom_succ (i n : Nat) :
    T.footprintFrom i (n + 1)
      = T.footprintFrom (i + 1) n + (T.inner i).footprint := by
  unfold footprintFrom
  rw [List.range'_succ, List.map_cons, List.sum_cons, add_comm]

theorem footprint_toMap :
    T.toMap.footprint
      = T.footprintFrom 0 T.count + .storage (some T.storage) := by
  unfold CxRcHashMap.footprint footprintFrom
  rw [← List.range_eq_range']
  show (((List.range T.count).map fun j => some (T.inner j)).map
    cellFootprint).sum + _ = _
  rw [List.map_map]
  rfl

/-- An inner map nothing is held in goes. -/
theorem cleanup_inner_frees {j : Nat}
    (hzero : ∀ i < T.size, T.refs (j, i) = 0) :
    (cxRcMapCleanup (T.array j)).Frees (T.array j).footprint := by
  refine cxRcMapCleanup_frees rfl fun count hcount => ?_
  obtain ⟨i, hi, rfl⟩ := List.mem_map.mp (List.mem_of_mem_take hcount)
  dsimp only
  rw [hzero i (List.mem_range.mp hi)]
  rfl

/-- One something is held in does not. -/
theorem run_cleanup_inner_held {j i : Nat} (hi : i < T.size)
    (hheld : T.refs (j, i) ≠ 0) (m : Machine) :
    (cxRcMapCleanup (T.array j)).run m = .fault .assertion m := by
  have hnot : ¬ ∀ count ∈ ((List.range T.size).map
      fun i => (T.refs (j, i) : Int)).take T.size, count = 0 := by
    intro hall
    rw [List.take_of_length_le (by simp)] at hall
    have hzero := hall _ (List.mem_map_of_mem (List.mem_range.mpr hi))
    omega
  unfold cxRcMapCleanup array tally
  simp only [C.run_bind]
  rw [run_assert_false hnot, C.chain_fault]

/-- The loop, where nothing is held in the inner maps it has not come to
yet. -/
theorem cleanupLoop_frees (n : Nat) :
    ∀ i, i + n = T.count →
      (∀ j, i ≤ j → j < T.count → ∀ k < T.size, T.refs (j, k) = 0) →
      (cleanupLoop T.toMap i).Frees (T.footprintFrom i n) := by
  induction n with
  | zero =>
      intro i hi _
      rw [cleanupLoop, dif_neg (by show ¬ i < T.count; omega)]
      exact frees_pure ()
  | succ n ih =>
      intro i hi hzero
      have hlt : i < T.count := by omega
      rw [cleanupLoop, dif_pos (by show i < T.count; exact hlt),
        footprintFrom_succ]
      refine frees_after (fun m => run_innerAt hlt) ?_
      have hrest : (do
          let values ← valuesAt T.toMap i
          let _ ← cxRcMapCleanup values
          cleanupLoop T.toMap (i + 1)).Frees
          (T.footprintFrom (i + 1) n + (T.array i).footprint) := by
        refine frees_after (fun m => run_valuesAt hlt) ?_
        refine frees_bind (cleanup_inner_frees (hzero i le_rfl hlt)) fun _ => ?_
        exact ih (i + 1) (by omega) fun j hj => hzero j (by omega)
      have hinner : T.footprintFrom (i + 1) n + (T.inner i).footprint
          = T.footprintFrom (i + 1) n + (T.array i).footprint
            + .storage (some (T.keyStorage i)) := by
        show _ + (Footprint.storage (some (T.keyStorage i)) + _) = _
        abel
      rw [hinner]
      exact frees_bind (frees_freeArray _) fun _ => hrest

/-- A map nothing is held in goes. -/
theorem cleanup_frees
    (hzero : ∀ j, 0 ≤ j → j < T.count → ∀ k < T.size, T.refs (j, k) = 0) :
    (cxRcHashMapCleanup T.toMap).Frees T.toMap.footprint := by
  have hlast := frees_bind (frees_freeArray (some T.storage))
    fun _ => frees_pure (0 : Int)
  rw [zero_add] at hlast
  rw [footprint_toMap, add_comm]
  exact frees_bind (cleanupLoop_frees T.count 0 (Nat.zero_add _) hzero)
    fun _ => hlast

/-- The loop, where something is held in an inner map it has not come to
yet. -/
theorem run_cleanupLoop_held (n : Nat) :
    ∀ i rest m, i + n = T.count → m.Tidy →
      m.held = rest + T.footprintFrom i n →
      (∃ j, i ≤ j ∧ j < T.count ∧ ∃ k < T.size, T.refs (j, k) ≠ 0) →
      ∃ m', (cleanupLoop T.toMap i).run m = .fault .assertion m' := by
  induction n with
  | zero =>
      intro i rest m hi _ _ hr
      obtain ⟨j, hij, hj, -⟩ := hr
      omega
  | succ n ih =>
      intro i rest m hi ht hheld hr
      obtain ⟨j, hij, hj, k, hk, hlive⟩ := hr
      have hlt : i < T.count := by omega
      rw [footprintFrom_succ] at hheld
      have hkeys : m.held = rest + T.footprintFrom (i + 1) n
          + (T.array i).footprint + .storage (some (T.keyStorage i)) := by
        rw [hheld]
        show _ + (_ + (Footprint.storage (some (T.keyStorage i)) + _)) = _
        abel
      obtain ⟨_, m₁, hrun₁, ht₁, hheld₁, -⟩ :=
        frees_freeArray (some (T.keyStorage i)) _ m ht hkeys
      have hstep : (cleanupLoop T.toMap i).run m
          = C.chain ((cxRcMapCleanup (T.array i)).run m₁)
            fun _ => cleanupLoop T.toMap (i + 1) := by
        rw [cleanupLoop, dif_pos (by show i < T.count; exact hlt), C.run_bind,
          run_innerAt hlt, C.chain_ok, C.run_bind]
        rw [show (C.freeArray ((T.inner i).keys.map CArray.storage)).run m
          = .ok _ m₁ from hrun₁, C.chain_ok, C.run_bind, run_valuesAt hlt,
          C.chain_ok, C.run_bind]
      rw [hstep]
      by_cases hhere : ∃ k < T.size, T.refs (i, k) ≠ 0
      · obtain ⟨k', hk', hlive'⟩ := hhere
        rw [run_cleanup_inner_held hk' hlive', C.chain_fault]
        exact ⟨m₁, rfl⟩
      · have hzero : ∀ k < T.size, T.refs (i, k) = 0 := by
          intro k hk
          by_contra hne
          exact hhere ⟨k, hk, hne⟩
        obtain ⟨_, m₂, hrun₂, ht₂, hheld₂, -⟩ :=
          cleanup_inner_frees hzero _ m₁ ht₁ hheld₁
        rw [hrun₂, C.chain_ok]
        have hne : i ≠ j := fun heq => hlive (by rw [← heq]; exact hzero k hk)
        exact ih (i + 1) rest m₂ (by omega) ht₂ hheld₂
          ⟨j, by omega, hj, k, hk, hlive⟩

end Table

theorem cxRcHashMapCleanup_zero :
    (cxRcHashMapCleanup map).Ensures fun rv => rv = 0 :=
  .after fun _ => .after fun _ => .pure rfl

/-- The end of a map, by what is still held. -/
structure HashTeardown (s : HashClient) (m : Machine) : Prop where
  /-- with nothing held, all memory is back and each value put was cleaned
  up once -/
  clean : (∀ p, s.book.ledger.refs p = 0) →
    Returned (cxRcHashMapCleanup s.map) m s.book.ledger.values
  held : (∃ p, s.book.ledger.refs p ≠ 0) →
    ∃ m', (cxRcHashMapCleanup s.map).run m = .fault .assertion m'

/-- A map may be cleaned up when nothing in it is held, and not before. -/
theorem cxRcHashMap_teardown {mem : Mem} {oracle : Nat → Nat}
    {size elementSize : Nat} {s : HashClient} {m : Machine} (hsize : 0 < size)
    (helem : 0 < elementSize)
    (h : HashKeyOp.Run size elementSize mem oracle s m) : HashTeardown s m := by
  obtain ⟨T, hmap, hkeeps⟩ := keyAgrees_run hsize helem h
  obtain ⟨ht, f, hown, hheld⟩ := h.held (fun s g => HashOwns s.map g)
    (Machine.tidy_boot _ _) (HashClient.start_turns (Nat.mul_pos hsize helem))
    fun s m op f hown hop => HashKeyOp.exec_turns hown hop
  have hfoot : m.held = 0 + .storage (some T.storage)
      + T.footprintFrom 0 T.count := by
    rw [hheld, Machine.held_boot, hown.owns, hmap, Table.footprint_toMap]
    abel
  constructor
  · intro hnone
    have hzero : ∀ j, 0 ≤ j → j < T.count → ∀ k < T.size, T.refs (j, k) = 0 :=
      fun j _ hj k hk => (hkeeps.refs (j, k) ⟨hj, hk⟩).trans (hnone _)
    have hfrees := Table.cleanup_frees hzero
    rw [← hmap] at hfrees
    refine hfrees.returned ht ?_ ?_ cxRcHashMapCleanup_zero
    · rw [hheld, Machine.held_boot, zero_add, hown.owns]
    · rw [hkeeps.calls]
      exact Ledger.log_perm_values hnone
  · intro hx
    obtain ⟨p, hp⟩ := hx
    obtain ⟨t, htin, rfl⟩ := hkeeps.owned p hp
    have hlive := (hkeeps.live_iff htin).mpr hp
    obtain ⟨m', hrun⟩ := Table.run_cleanupLoop_held T.count 0 _ m
      (Nat.zero_add _) ht hfoot ⟨t.1, Nat.zero_le _, htin.1, t.2, htin.2, hlive⟩
    refine ⟨m', ?_⟩
    rw [cxRcHashMapCleanup, C.run_bind, hmap, hrun, C.chain_fault]

/-- Three keys in one-slot inner maps, one of them held twice and released
by key and by element: the cleanup works after the last release. -/
theorem cxRcHashMap_teardown_chain : ∃ s m m',
    HashKeyOp.Run 1 1 (fun _ => 0) (fun t => 2 ^ 20 * (t + 1)) s m
      ∧ s.map.hashMapCount = 3
      ∧ (cxRcHashMapCleanup s.map).run m = .ok 0 m'
      ∧ m'.arena.blocks = [] ∧ m'.calls.Perm [[11], [22], [33], [44]] := by
  obtain ⟨s, m, hrun, htest⟩ := reached_of_replayFrom
    (HashClient.start 1 1) HashKeyOp.exec
    (fun s _ op => op.Allowed s)
    (Machine.boot (fun _ => 0) (fun t => 2 ^ 20 * (t + 1)))
    [.call (.put 1 [11]), .call (.put 2 [22]), .call (.put 3 [33]),
      .call (.put 2 [44]), .call (.release 3145728), .releaseKey 2,
      .call (.release 7340032), .releaseKey 3]
    (fun x => decide (x.1.map.hashMapCount = 3 ∧ x.1.book.ledger.live = []
      ∧ x.1.book.ledger.values = [[11], [22], [33], [44]]))
    (by decide +kernel)
  obtain ⟨hcount, hlive, hvalues⟩ := of_decide_eq_true htest
  have hnone : ∀ p, s.book.ledger.refs p = 0 :=
    fun p => Ledger.refs_eq_zero_of_live hlive
  obtain ⟨m', hclean, hblocks, -, hcalls⟩ :=
    (cxRcHashMap_teardown (by decide) (by decide) hrun).clean hnone
  exact ⟨s, m, m', hrun, hcount, hclean, hblocks, hvalues ▸ hcalls⟩

end Cextras.Collection
