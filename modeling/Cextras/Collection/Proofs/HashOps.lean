/-
What the hash map operations do to the table: which slot the probe
selects, and how the table, the memory and the callback log change
there. The element blocks of different inner maps are disjoint
(`TableInv`), so addresses name slots (`address_injective`), a release
finds the inner map that owns the address, and a write to one slot is
seen by no other.
-/
import Cextras.Collection.Proofs.HashTable

namespace Cextras.Collection

open Lib

/-- The element block of an inner map. -/
def Table.block (T : Table) (j : Nat) : Block :=
  ⟨T.base j, T.size * T.elementSize⟩

/-- The element blocks are allocated and disjoint, and elements are not
empty. -/
structure TableInv (m : Machine) (T : Table) : Prop where
  size_pos : 0 < T.size
  elem_pos : 0 < T.elementSize
  block : ∀ j < T.count, T.block j ∈ m.arena.blocks
  apart : ∀ i < T.count, ∀ j < T.count, i ≠ j → (T.block i).Disjoint (T.block j)

namespace TableInv

variable {m m' : Machine} {T : Table} {s t : Place} {k : UInt64}

theorem laid (h : TableInv m T) {j : Nat} (hj : j < T.count) :
    Laid (T.base j) T.size T.elementSize := by
  obtain ⟨hpos, hlt⟩ := m.arena.bounded _ (h.block j hj)
  exact ⟨h.elem_pos, hpos, hlt⟩

/-- A slot's element lies in the block of its inner map. -/
theorem has (_ : TableInv m T) (hs : T.In s) :
    (T.block s.1).Has (T.address s) T.elementSize := by
  have hle := element_le T.elementSize hs.2
  simp only [Block.Has, Table.block, Table.address]
  omega

theorem valid (h : TableInv m T) (hs : T.In s) :
    m.Valid (T.address s) T.elementSize :=
  ⟨_, h.block s.1 hs.1, h.has hs⟩

theorem address_ne_zero (h : TableInv m T) (hs : T.In s) : T.address s ≠ 0 :=
  getElement_ne_zero (h.laid hs.1)

/-- Different slots' elements share no byte. -/
theorem separated (h : TableInv m T) (hs : T.In s) (ht : T.In t) (hne : s ≠ t) :
    T.address s + T.elementSize ≤ T.address t
      ∨ T.address t + T.elementSize ≤ T.address s := by
  by_cases hj : s.1 = t.1
  · -- same inner map: different indices
    have hi : s.2 ≠ t.2 := fun hi => hne (Prod.ext hj hi)
    simp only [Table.address, hj]
    rcases Nat.lt_or_gt_of_ne hi with hlt | hlt
    · left
      have := Nat.mul_le_mul_right T.elementSize hlt
      rw [Nat.succ_mul] at this
      omega
    · right
      have := Nat.mul_le_mul_right T.elementSize hlt
      rw [Nat.succ_mul] at this
      omega
  · have hdis := h.apart _ hs.1 _ ht.1 hj
    have hhs := h.has hs
    have hht := h.has ht
    simp only [Block.Disjoint, Block.Has] at hdis hhs hht
    omega

/-- Addresses name slots. -/
theorem address_injective (h : TableInv m T) (hs : T.In s) (ht : T.In t)
    (heq : T.address s = T.address t) : s = t := by
  by_contra hne
  have hsep := h.separated hs ht hne
  have := h.elem_pos
  omega

/-- The invariant reads the arena only. -/
theorem transfer (h : TableInv m T) {T' : Table} (hsize : T'.size = T.size)
    (helem : T'.elementSize = T.elementSize) (hcount : T'.count = T.count)
    (hbase : T'.base = T.base)
    (hblocks : ∀ b ∈ m.arena.blocks, b ∈ m'.arena.blocks) : TableInv m' T' where
  size_pos := hsize ▸ h.size_pos
  elem_pos := helem ▸ h.elem_pos
  block := fun j hj => by
    have hb := hblocks _ (h.block j (hcount ▸ hj))
    rwa [Table.block, hsize, helem, hbase]
  apart := fun i hi j hj hij => by
    have hd := h.apart i (hcount ▸ hi) j (hcount ▸ hj) hij
    rwa [Table.block, Table.block, hsize, helem, hbase]

theorem setRefs (h : TableInv m T) (s : Place) (n : Nat) :
    TableInv m (T.setRefs s n) :=
  h.transfer rfl rfl rfl rfl fun _ hb => hb

theorem setWord (h : TableInv m T) (s : Place) (k : UInt64) :
    TableInv m (T.setWord s k) :=
  h.transfer rfl rfl rfl rfl fun _ hb => hb

-- ================================================================ retain

/-- Retaining through a slot. -/
theorem run_retainAt (h : TableInv m T) (hs : T.In s) (hlive : T.refs s ≠ 0)
    (hlt : T.refs s + 1 < 2 ^ 31) :
    (do
      let values ← valuesAt T.toMap s.1
      let (element, values) ← cxRcMapRetain values s.2
      let map ← setValues T.toMap s.1 values
      pure (element, map)).run m
      = .ok (T.address s, (T.setRefs s (T.refs s + 1)).toMap) m := by
  rw [C.run_bind, Table.run_valuesAt hs.1, C.chain_ok, C.run_bind, Table.array,
    run_cxRcMapRetain (h.laid hs.1) hs.2 hlive hlt, C.chain_ok]
  dsimp only
  rw [C.run_bind, Table.run_setValues hs.1, C.chain_ok, C.run_pure]
  rfl

/-- Probing for a key's first slot. -/
theorem run_keyProbe (h : TableInv m T) (limit : Nat) (k : UInt64) :
    (probeLoop T.toMap (keyMatches T.toMap k) T.size limit 0
      (keyHash k % T.size)).run m
      = .ok ((T.probes limit k).find? fun s => T.word s = k) m :=
  Table.run_probe _ h.size_pos limit k fun _ hs => Table.run_keyMatches hs

theorem run_hashMapRetain (h : TableInv m T) (hpos : 0 < T.count)
    (hfind : (T.probes (probeLimit T.size) k).find? (fun s => T.word s = k)
      = some s) (hlive : T.refs s ≠ 0) (hlt : T.refs s + 1 < 2 ^ 31) :
    (cxRcHashMapRetain T.toMap k).run m
      = .ok (T.address s, (T.setRefs s (T.refs s + 1)).toMap) m := by
  have hs := (Table.probes_find h.size_pos hfind).2
  rw [cxRcHashMapRetain, C.run_bind, Table.run_valuesAt hpos, C.chain_ok]
  change (keyToIndex k T.size >>= _).run m = _
  rw [C.run_bind, Table.run_keyToIndex h.size_pos, C.chain_ok]
  change (probeLoop T.toMap (keyMatches T.toMap k) T.size (probeLimit T.size) 0
    (keyHash k % T.size) >>= _).run m = _
  rw [C.run_bind, h.run_keyProbe, C.chain_ok, hfind]
  exact h.run_retainAt hs hlive hlt

/-- Retaining a key whose first slot is empty finds nothing. -/
theorem run_hashMapRetain_dead (h : TableInv m T) (hpos : 0 < T.count)
    (hdead : ∀ s, (T.probes (probeLimit T.size) k).find? (fun s => T.word s = k)
      = some s → T.refs s = 0) :
    (cxRcHashMapRetain T.toMap k).run m = .ok (0, T.toMap) m := by
  rw [cxRcHashMapRetain, C.run_bind, Table.run_valuesAt hpos, C.chain_ok]
  change (keyToIndex k T.size >>= _).run m = _
  rw [C.run_bind, Table.run_keyToIndex h.size_pos, C.chain_ok]
  change (probeLoop T.toMap (keyMatches T.toMap k) T.size (probeLimit T.size) 0
    (keyHash k % T.size) >>= _).run m = _
  rw [C.run_bind, h.run_keyProbe, C.chain_ok]
  cases hfind : (T.probes (probeLimit T.size) k).find? fun s => T.word s = k with
  | none => rfl
  | some s =>
      have hs := (Table.probes_find h.size_pos hfind).2
      dsimp only
      rw [C.run_bind, Table.run_valuesAt hs.1, C.chain_ok, C.run_bind,
        Table.array, run_cxRcMapRetain_empty hs.2 (hdead s hfind), C.chain_ok]
      dsimp only
      rw [C.run_bind]
      have hself := Table.run_setValues_self (T := T) (m := m) (s := s) hs.1
      rw [Table.array] at hself
      rw [hself, C.chain_ok, C.run_pure]

-- =================================================================== put

/-- The slot a put of `k` stops at: the first one that is empty or has
the key. -/
def putSlot (T : Table) (k : UInt64) : Option Place :=
  (T.probes (probeLimit T.size) k).find? fun s => T.refs s = 0 ∨ T.word s = k

/-- Putting at a live slot that has the key. -/
theorem run_putAt_live (h : TableInv m T) (hs : T.In s) (hlive : T.refs s ≠ 0)
    (hlt : T.refs s + 1 < 2 ^ 31) (hword : T.word s = k) (v : List Byte) :
    (putAt T.toMap s.1 s.2 k v).run m
      = .ok (T.address s, (T.setRefs s (T.refs s + 1)).toMap) (called m v) := by
  have hsame : T.setWord s k = T := by
    unfold Table.setWord
    rw [← hword, Function.update_eq_self]
  rw [putAt, C.run_bind, Table.run_setKey hs, C.chain_ok, hsame, C.run_bind,
    Table.run_valuesAt hs.1, C.chain_ok, C.run_bind, Table.array,
    run_cxRcMapSet_live (h.laid hs.1) hs.2 hlive hlt, C.chain_ok]
  dsimp only
  rw [C.run_bind, Table.run_setValues hs.1, C.chain_ok, C.run_pure]
  rfl

/-- Putting at an empty slot. -/
theorem run_putAt_empty (h : TableInv m T) (hs : T.In s) (hdead : T.refs s = 0)
    {v : List Byte} (hv : v.length = T.elementSize) :
    (putAt T.toMap s.1 s.2 k v).run m
      = .ok (T.address s, ((T.setWord s k).setRefs s 1).toMap)
          (wrote m (T.address s) v) := by
  have hin : (T.setWord s k).In s := hs
  have h' := h.setWord s k
  rw [putAt, C.run_bind, Table.run_setKey hs, C.chain_ok, C.run_bind,
    Table.run_valuesAt hin.1, C.chain_ok, C.run_bind, Table.array,
    run_cxRcMapSet_empty (h'.laid hin.1) hin.2 hdead hv (h.valid hs), C.chain_ok]
  dsimp only
  rw [C.run_bind, Table.run_setValues hin.1, C.chain_ok, C.run_pure]
  rfl

/-- A put up to its probe. -/
theorem run_hashMapPut (h : TableInv m T) (hpos : 0 < T.count) (k : UInt64)
    (v : List Byte) :
    (cxRcHashMapPut T.toMap k v).run m = (match putSlot T k with
      | some s => putAt T.toMap s.1 s.2 k v
      | none => do
          let (rv, map) ← extendHashMap T.toMap
          if rv < 0 then
            pure (0, map)
          else
            putAt map (map.hashMapCount - 1) (keyHash k % T.size) k v).run m := by
  have hprobe := Table.run_probe (T := T) (m := m) (emptyOrMatches T.toMap k)
    h.size_pos (probeLimit T.size) k
    (p := fun s => decide (T.refs s = 0 ∨ T.word s = k))
    fun _ hs => Table.run_emptyOrMatches hs
  rw [cxRcHashMapPut, C.run_bind, Table.run_valuesAt hpos, C.chain_ok]
  change (keyToIndex k T.size >>= _).run m = _
  rw [C.run_bind, Table.run_keyToIndex h.size_pos, C.chain_ok]
  change (probeLoop T.toMap (emptyOrMatches T.toMap k) T.size (probeLimit T.size)
    0 (keyHash k % T.size) >>= _).run m = _
  rw [C.run_bind, hprobe, C.chain_ok]
  unfold putSlot
  generalize List.find? _ _ = slot
  cases slot <;> rfl

-- ================================================================ extend

/-- `T'` is `T` with one more inner map, of empty slots. -/
structure Extended (m : Machine) (T : Table) (m' : Machine) (T' : Table) :
    Prop where
  inv : TableInv m' T'
  size : T'.size = T.size
  elementSize : T'.elementSize = T.elementSize
  count : T'.count = T.count + 1
  base : ∀ j < T.count, T'.base j = T.base j
  word : ∀ s, T'.word s = if s.1 = T.count then 0 else T.word s
  refs : ∀ s, T'.refs s = if s.1 = T.count then 0 else T.refs s
  mem : ∀ b ∈ m.arena.blocks, ∀ x, b.Has x 1 → m'.mem x = m.mem x
  calls : m'.calls = m.calls

/-- The map's cells are those of the table. -/
structure Holds (map : CxRcHashMap) (T : Table) : Prop where
  cells : (map.hashMaps.map CArray.cells).getD []
    = (List.range T.count).map fun j => some (T.inner j)
  count : map.hashMapCount = T.count
  size : map.mapSize = T.size
  elementSize : map.elementSize = T.elementSize

theorem holds_toMap (T : Table) : Holds T.toMap T := ⟨rfl, rfl, rfl, rfl⟩

/-- A granted extension appends an inner map. -/
theorem extendHashMap_granted (h : TableInv m T) {map : CxRcHashMap}
    (hmap : Holds map T) (hroom : (T.count + 1) * innerMapSize < 2 ^ 64) :
    (extendHashMap map).Granted m fun r m' =>
      r.1 = 0 ∧ ∃ T', r.2 = T'.toMap ∧ Extended m T m' T' := by
  have hcount := hmap.count
  unfold extendHashMap
  rw [if_neg (by simp only [innerMapSize] at hroom; omega),
    if_neg (by rw [hcount]; omega)]
  refine granted_bind (granted_reallocArray (Q := fun r m₁ =>
    r = some m.tick ∧ m₁.mem = m.mem ∧ m₁.arena = m.arena
      ∧ m₁.calls = m.calls) ⟨rfl, rfl, rfl, rfl⟩) ?_
  rintro _ m₁ ⟨rfl, hmem₁, harena₁, hcalls₁⟩
  refine granted_bind (granted_allocArray (Q := fun r m₂ =>
    r = some m₁.tick ∧ m₂.mem = m₁.mem ∧ m₂.arena = m₁.arena
      ∧ m₂.calls = m₁.calls) ⟨rfl, rfl, rfl, rfl⟩) ?_
  rintro _ m₂ ⟨rfl, hmem₂, harena₂, hcalls₂⟩
  dsimp only
  rw [hmap.size, hmap.elementSize]
  refine granted_bind (cxRcMapInit_granted m₂ none T.size T.elementSize) ?_
  rintro ⟨rv, values⟩ m₃ ⟨hrv, data, storage, hvalues, hf, harena₃, hcalls₃,
    hmem₃⟩
  dsimp only at hrv hvalues
  rw [hmem₂, hmem₁] at hmem₃
  have hold : m₂.arena = m.arena := harena₂.trans harena₁
  have hfresh : ∀ b ∈ m.arena.blocks,
      Block.Disjoint ⟨data, T.size * T.elementSize⟩ b :=
    fun b hb => hf.2 b (by rw [hold]; exact hb)
  refine granted_pure ⟨hrv, {
      size := T.size
      elementSize := T.elementSize
      count := T.count + 1
      storage := m.tick
      keyStorage := Function.update T.keyStorage T.count m₁.tick
      countStorage := Function.update T.countStorage T.count storage
      base := Function.update T.base T.count data
      word := fun s => if s.1 = T.count then 0 else T.word s
      refs := fun s => if s.1 = T.count then 0 else T.refs s }, ?_, ?_⟩
  · -- the new cell, and the old ones as they were
    unfold Table.toMap CxRcHashMap.setInner
    dsimp only
    rw [hcount, Option.map_some, hvalues]
    congr 2
    unfold CArray.resized
    dsimp only
    rw [hmap.cells, List.length_map, List.length_range, Nat.add_sub_cancel_left,
      List.take_of_length_le (by simp), List.replicate_one, List.range_succ,
      List.map_append, List.set_append_right _ _ (by simp)]
    congr 1
    refine congrArg₂ (· ++ ·) ?_ ?_
    · refine List.map_congr_left fun j hj => ?_
      have hne : j ≠ T.count := Nat.ne_of_lt (List.mem_range.mp hj)
      simp only [Table.inner, Table.array, Function.update_of_ne hne, if_neg hne]
    · simp only [List.length_map, List.length_range, Nat.sub_self,
        List.set_cons_zero, List.map_cons, List.map_nil, Table.inner, Table.array,
        Function.update_self, if_true, List.map_const', List.length_range]
  · have hblock : ∀ j < T.count + 1,
        (j = T.count ∧ (⟨Function.update T.base T.count data j,
          T.size * T.elementSize⟩ : Block) = ⟨data, T.size * T.elementSize⟩)
        ∨ (j < T.count ∧ (⟨Function.update T.base T.count data j,
          T.size * T.elementSize⟩ : Block) = T.block j) := by
      intro j hj
      by_cases hjc : j = T.count
      · exact Or.inl ⟨hjc, by rw [hjc, Function.update_self]⟩
      · exact Or.inr ⟨by omega, by rw [Function.update_of_ne hjc]; rfl⟩
    refine ⟨⟨h.size_pos, h.elem_pos, ?_, ?_⟩, rfl, rfl, rfl, ?_, fun _ => rfl,
      fun _ => rfl, ?_, by rw [hcalls₃, hcalls₂, hcalls₁]⟩
    · intro j hj
      change (⟨Function.update T.base T.count data j, _⟩ : Block) ∈ _
      rw [harena₃]
      rcases hblock j hj with ⟨-, hb⟩ | ⟨hlt, hb⟩
      · rw [hb]
        exact List.mem_cons_self ..
      · rw [hb]
        refine List.mem_cons_of_mem _ ?_
        rw [hold]
        exact h.block j hlt
    · intro i hi j hj hij
      change (⟨Function.update T.base T.count data i, _⟩ : Block).Disjoint
        ⟨Function.update T.base T.count data j, _⟩
      rcases hblock i hi with ⟨hic, hbi⟩ | ⟨hic, hbi⟩ <;>
        rcases hblock j hj with ⟨hjc, hbj⟩ | ⟨hjc, hbj⟩ <;> rw [hbi, hbj]
      · omega
      · exact hfresh _ (h.block j hjc)
      · exact (hfresh _ (h.block i hic)).symm
      · exact h.apart i hic j hjc hij
    · exact fun j hj => Function.update_of_ne (Nat.ne_of_lt hj) _ _
    · intro b hb x hx
      have hd := hfresh b hb
      rw [hmem₃]
      refine zero_apply_outside ?_
      simp only [Block.Disjoint, Block.Has] at hd hx
      omega

-- =============================================================== release

/-- The machine and table after a release at a slot. -/
def releasedMachine (m : Machine) (T : Table) (s : Place) : Machine :=
  if T.refs s = 1 then called m (m.mem.read (T.address s) T.elementSize) else m

/-- Releasing through a slot. -/
theorem run_releaseIndexAt (h : TableInv m T) (hs : T.In s)
    (hlive : T.refs s ≠ 0) :
    (cxRcMapReleaseIndex (T.array s.1) s.2).run m
      = .ok (0, tally (T.base s.1) T.size T.elementSize (T.countStorage s.1)
          (Function.update (fun i => T.refs (s.1, i)) s.2 (T.refs s - 1)))
          (releasedMachine m T s) := by
  unfold Table.array releasedMachine
  by_cases hlast : T.refs s = 1
  · rw [if_pos hlast, run_cxRcMapReleaseIndex_last (h.laid hs.1) hs.2 hlast
      (h.valid hs), hlast]
    rfl
  · rw [if_neg hlast]
    exact run_cxRcMapReleaseIndex hs.2 hlive hlast

/-- Only the inner map of a slot owns its address. -/
theorem contains_iff (h : TableInv m T) (hs : T.In s) {j : Nat}
    (hj : j < T.count) :
    cxRcMapContains (T.array j) (T.address s) = decide (j = s.1) := by
  by_cases hjs : j = s.1
  · rw [decide_eq_true hjs, hjs]
    exact cxRcMapContains_self (h.laid hs.1) hs.2
  · rw [decide_eq_false hjs]
    refine cxRcMapContains_other (h.laid hj) ?_
    have hdis := h.apart j hj s.1 hs.1 hjs
    have hhas := h.has hs
    have := h.elem_pos
    simp only [Block.Disjoint, Block.Has, Table.block] at hdis hhas
    omega

/-- The owner of a slot's address is found. -/
theorem run_ownerLoop (h : TableInv m T) (hs : T.In s) (n : Nat) :
    ∀ i, i + n = s.1 →
      (ownerLoop T.toMap (T.address s) i).run m = .ok (some s.1) m := by
  have hcount := hs.1
  induction n with
  | zero =>
      rintro i hi
      have his : i = s.1 := by omega
      rw [ownerLoop, dif_pos (show i < T.toMap.hashMapCount by
        simp only [Table.toMap]; omega), C.run_bind,
        Table.run_valuesAt (by omega), C.chain_ok, h.contains_iff hs (by omega),
        if_pos (decide_eq_true his), C.run_pure, his]
  | succ n ih =>
      intro i hi
      rw [ownerLoop, dif_pos (show i < T.toMap.hashMapCount by
        simp only [Table.toMap]; omega), C.run_bind,
        Table.run_valuesAt (by omega), C.chain_ok, h.contains_iff hs (by omega),
        if_neg (by simp only [decide_eq_true_eq]; omega), ih (i + 1) (by omega)]

/-- Releasing a live slot by its address. -/
theorem run_hashMapRelease (h : TableInv m T) (hs : T.In s)
    (hlive : T.refs s ≠ 0) :
    (cxRcHashMapRelease T.toMap (T.address s)).run m
      = .ok (0, (T.setRefs s (T.refs s - 1)).toMap) (releasedMachine m T s) := by
  have hrel : (cxRcMapRelease (T.array s.1) (T.address s)).run m
      = (cxRcMapReleaseIndex (T.array s.1) s.2).run m :=
    run_cxRcMapRelease (h.laid hs.1) hs.2
  rw [cxRcHashMapRelease, C.run_bind, h.run_ownerLoop hs s.1 0 (Nat.zero_add _),
    C.chain_ok]
  dsimp only
  rw [C.run_bind, Table.run_valuesAt hs.1, C.chain_ok, C.run_bind, hrel,
    h.run_releaseIndexAt hs hlive, C.chain_ok]
  dsimp only
  rw [C.run_bind, Table.run_setValues hs.1, C.chain_ok, C.run_pure]

/-- A release by key up to its probe. -/
theorem run_releaseKeyProbe (h : TableInv m T) (hpos : 0 < T.count) :
    (cxRcHashMapReleaseKey T.toMap k).run m
      = (match (T.probes T.size k).find? fun s => T.word s = k with
        | some s => do
            let values ← valuesAt T.toMap s.1
            let (rv, values) ← cxRcMapReleaseIndex values s.2
            let map ← setValues T.toMap s.1 values
            pure (rv, map)
        | none => pure (0, T.toMap)).run m := by
  rw [cxRcHashMapReleaseKey, C.run_bind, Table.run_valuesAt hpos, C.chain_ok]
  change (keyToIndex k T.size >>= _).run m = _
  rw [C.run_bind, Table.run_keyToIndex h.size_pos, C.chain_ok]
  change (probeLoop T.toMap (keyMatches T.toMap k) T.size T.size 0
    (keyHash k % T.size) >>= _).run m = _
  rw [C.run_bind, h.run_keyProbe, C.chain_ok]
  generalize List.find? _ _ = slot
  cases slot <;> rfl

/-- Releasing by key, when the key's first slot is live. -/
theorem run_hashMapReleaseKey (h : TableInv m T) (hpos : 0 < T.count)
    (hfind : (T.probes T.size k).find? (fun s => T.word s = k) = some s)
    (hlive : T.refs s ≠ 0) :
    (cxRcHashMapReleaseKey T.toMap k).run m
      = .ok (0, (T.setRefs s (T.refs s - 1)).toMap) (releasedMachine m T s) := by
  have hs := (Table.probes_find h.size_pos hfind).2
  rw [h.run_releaseKeyProbe hpos, hfind]
  dsimp only
  rw [C.run_bind, Table.run_valuesAt hs.1, C.chain_ok, C.run_bind,
    h.run_releaseIndexAt hs hlive, C.chain_ok]
  dsimp only
  rw [C.run_bind, Table.run_setValues hs.1, C.chain_ok, C.run_pure]

/-- Releasing by a key no slot has. -/
theorem run_hashMapReleaseKey_none (h : TableInv m T) (hpos : 0 < T.count)
    (hfind : (T.probes T.size k).find? (fun s => T.word s = k) = none) :
    (cxRcHashMapReleaseKey T.toMap k).run m = .ok (0, T.toMap) m := by
  rw [h.run_releaseKeyProbe hpos, hfind]
  rfl

end TableInv

end Cextras.Collection
