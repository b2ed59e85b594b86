/-
The hash map as a table of slots. A `Table` gives the key word and the
number of references of every slot as functions of the slot's place;
`Table.toMap` is the map of the code that holds it, and every operation
of the code takes `T.toMap` to `T'.toMap` for a table `T'` that differs
from `T` in one slot, or has one more row of empty slots.

Probing is a search through `Table.probes`, the list of the places the
loops visit, in order.
-/
import Cextras.Collection.Proofs.RcMapOps
import Cextras.Collection.RcHashMap

namespace Cextras.Collection

open Lib

/-- A slot: the number of its inner map and its index there. -/
abbrev Place := Nat × Nat

structure Table where
  size : Nat
  elementSize : Nat
  /-- the number of inner maps -/
  count : Nat
  storage : Nat
  keyStorage : Nat → Nat
  countStorage : Nat → Nat
  base : Nat → Nat
  word : Place → UInt64
  refs : Place → Nat

namespace Table

/-- The inner map `j`'s reference-counted array. -/
def array (T : Table) (j : Nat) : CxRcMap :=
  tally (T.base j) T.size T.elementSize (T.countStorage j) fun i => T.refs (j, i)

def inner (T : Table) (j : Nat) : CxRcHashMapInner where
  keys := some ⟨T.keyStorage j, (List.range T.size).map fun i => T.word (j, i)⟩
  values := some (T.array j)

/-- The hash map of the code that holds the table. -/
def toMap (T : Table) : CxRcHashMap where
  hashMaps := some ⟨T.storage, (List.range T.count).map fun j => some (T.inner j)⟩
  hashMapCount := T.count
  mapSize := T.size
  elementSize := T.elementSize

/-- The place exists. -/
def In (T : Table) (s : Place) : Prop := s.1 < T.count ∧ s.2 < T.size

instance (T : Table) (s : Place) : Decidable (T.In s) :=
  inferInstanceAs (Decidable (_ ∧ _))

/-- The address of a slot's element. -/
def address (T : Table) (s : Place) : Nat := T.base s.1 + s.2 * T.elementSize

def setWord (T : Table) (s : Place) (k : UInt64) : Table :=
  { T with word := Function.update T.word s k }

def setRefs (T : Table) (s : Place) (n : Nat) : Table :=
  { T with refs := Function.update T.refs s n }

variable {T : Table} {m : Machine} {s : Place} {k : UInt64}

-- ========================================================= slot accesses

theorem run_innerAt {j : Nat} (hj : j < T.count) :
    (innerAt T.toMap j).run m = .ok (T.inner j) m := by
  rw [innerAt]
  simp only [toMap]
  rw [C.run_bind, run_cell (getElem?_map_range hj _), C.chain_ok, C.run_pure]

theorem run_valuesAt {j : Nat} (hj : j < T.count) :
    (valuesAt T.toMap j).run m = .ok (T.array j) m := by
  rw [valuesAt, C.run_bind, run_innerAt hj, C.chain_ok]
  rfl

theorem run_keyAt (hs : T.In s) :
    (keyAt T.toMap s.1 s.2).run m = .ok (T.word s) m := by
  rw [keyAt, C.run_bind, run_innerAt hs.1, C.chain_ok]
  exact run_cell (getElem?_map_range hs.2 _)

/-- Replacing one inner map is changing the table in its row. -/
theorem toMap_setInner {T' : Table} {j : Nat} {inner' : CxRcHashMapInner}
    (hsize : T'.size = T.size) (helem : T'.elementSize = T.elementSize)
    (hcount : T'.count = T.count) (hstorage : T'.storage = T.storage)
    (hself : inner' = T'.inner j) (hother : ∀ i ≠ j, T'.inner i = T.inner i) :
    T.toMap.setInner j inner' = T'.toMap := by
  unfold CxRcHashMap.setInner toMap
  rw [Option.map_some, set_map_range, hsize, helem, hcount, hstorage]
  congr 4
  funext i
  rw [Function.update_apply]
  split
  · next heq => rw [hself, heq]
  · next hne => rw [hother i hne]

theorem toMap_setRefs (n : Nat) :
    T.toMap.setInner s.1 { T.inner s.1 with
      values := some (tally (T.base s.1) T.size T.elementSize (T.countStorage s.1)
        (Function.update (fun i => T.refs (s.1, i)) s.2 n)) }
      = (T.setRefs s n).toMap := by
  refine toMap_setInner rfl rfl rfl rfl ?_ fun i hi => ?_
  · unfold inner array setRefs
    dsimp only
    congr 3
    funext i
    rw [Function.update_apply, Function.update_apply]
    by_cases h : i = s.2
    · rw [if_pos h, if_pos (by rw [h])]
    · rw [if_neg h, if_neg (fun hs => h (congrArg Prod.snd hs))]
  · unfold inner array setRefs
    dsimp only
    congr 3
    funext i'
    exact Function.update_of_ne (fun hs => hi (congrArg Prod.fst hs)) _ _

/-- Storing back an inner map one counter of which changed. -/
theorem run_setValues (hj : s.1 < T.count) (n : Nat) :
    (setValues T.toMap s.1 (tally (T.base s.1) T.size T.elementSize
      (T.countStorage s.1) (Function.update (fun i => T.refs (s.1, i)) s.2 n))).run
        m = .ok (T.setRefs s n).toMap m := by
  rw [setValues, C.run_bind, run_innerAt hj, C.chain_ok, C.run_pure,
    toMap_setRefs]

/-- Storing back an inner map that did not change. -/
theorem run_setValues_self (hj : s.1 < T.count) :
    (setValues T.toMap s.1 (T.array s.1)).run m = .ok T.toMap m := by
  rw [setValues, C.run_bind, run_innerAt hj, C.chain_ok, C.run_pure]
  congr 1
  exact toMap_setInner rfl rfl rfl rfl rfl fun _ _ => rfl

theorem run_setKey (hs : T.In s) (k : UInt64) :
    (setKey T.toMap s.1 s.2 k).run m = .ok (T.setWord s k).toMap m := by
  rw [setKey, C.run_bind, run_keyAt hs, C.chain_ok, C.run_bind,
    run_innerAt hs.1, C.chain_ok, C.run_pure]
  congr 1
  refine toMap_setInner rfl rfl rfl rfl ?_ fun i hi => ?_
  · unfold inner array setWord
    dsimp only
    rw [Option.map_some, set_map_range]
    congr 4
    funext i
    rw [Function.update_apply, Function.update_apply]
    by_cases h : i = s.2
    · rw [if_pos h, if_pos (by rw [h])]
    · rw [if_neg h, if_neg (fun hs => h (congrArg Prod.snd hs))]
  · unfold inner array setWord
    dsimp only
    congr 4
    funext i'
    exact Function.update_of_ne (fun hs => hi (congrArg Prod.fst hs)) _ _

-- ================================================================ probing

/-- The places of all inner maps at one index. -/
def row (count index : Nat) : List Place :=
  (List.range count).map fun j => (j, index)

/-- The places the first `limit` turns of a probe for `k` visit. -/
def probes (T : Table) (limit : Nat) (k : UInt64) : List Place :=
  (List.range limit).flatMap fun d => row T.count ((keyHash k + d) % T.size)

theorem mem_probes {limit : Nat} :
    s ∈ T.probes limit k ↔ s.1 < T.count
      ∧ ∃ d < limit, s.2 = (keyHash k + d) % T.size := by
  simp only [probes, row, List.mem_flatMap, List.mem_map, List.mem_range]
  constructor
  · rintro ⟨d, hd, j, hj, rfl⟩
    exact ⟨hj, d, hd, rfl⟩
  · rintro ⟨hj, d, hd, hs⟩
    exact ⟨d, hd, s.1, hj, by rw [← hs]⟩

/-- Probed places exist. -/
theorem in_of_mem_probes {limit : Nat} (hsize : 0 < T.size)
    (h : s ∈ T.probes limit k) : T.In s := by
  obtain ⟨hj, d, -, hs⟩ := mem_probes.mp h
  exact ⟨hj, by rw [hs]; exact Nat.mod_lt _ hsize⟩

section Loops

variable {map : CxRcHashMap} {test : Nat → Nat → C Bool} {p : Place → Bool}

/-- One turn of the probe finds the first inner map that passes. -/
theorem run_probeMaps {index : Nat}
    (htest : ∀ j < map.hashMapCount, (test j index).run m = .ok (p (j, index)) m)
    (n : Nat) : ∀ j, j + n = map.hashMapCount →
      (probeMaps map test index j).run m
        = .ok ((List.range' j n).find? fun j => p (j, index)) m := by
  induction n with
  | zero =>
      intro j hj
      rw [probeMaps, dif_neg (by omega), C.run_pure]
      rfl
  | succ n ih =>
      intro j hj
      rw [probeMaps, dif_pos (by omega), C.run_bind, htest j (by omega),
        C.chain_ok, List.range'_succ, List.find?_cons]
      cases hp : p (j, index) with
      | true => rfl
      | false =>
          rw [if_neg (by decide), ih (j + 1) (by omega)]

/-- The probe finds the first place that passes. -/
theorem run_probeLoop (map : CxRcHashMap) (hash : Nat) {size limit : Nat}
    (htest : ∀ j < map.hashMapCount, ∀ d, (test j ((hash + d) % size)).run m
      = .ok (p (j, (hash + d) % size)) m)
    (n : Nat) : ∀ i index, i + n = limit →
      index % size = (hash + i) % size →
      (probeLoop map test size limit i index).run m
        = .ok (((List.range' i n).flatMap fun d =>
            row map.hashMapCount ((hash + d) % size)).find? p) m := by
  induction n with
  | zero =>
      intro i index hi _
      rw [probeLoop, dif_neg (by omega), C.run_pure]
      rfl
  | succ n ih =>
      intro i index hi hidx
      have hrow : (row map.hashMapCount ((hash + i) % size)).find? p
          = ((List.range' 0 map.hashMapCount).find?
              fun j => p (j, (hash + i) % size)).map
              fun j => (j, (hash + i) % size) := by
        rw [row, List.find?_map, List.range_eq_range']
        rfl
      have hnext : (index % size + 1) % size = (hash + (i + 1)) % size := by
        rw [hidx, Nat.mod_add_mod, Nat.add_assoc]
      rw [probeLoop, dif_pos (by omega)]
      dsimp only
      rw [C.run_bind, hidx,
        run_probeMaps (fun j hj => htest j hj i) map.hashMapCount 0 (by omega),
        C.chain_ok, List.range'_succ, List.flatMap_cons, List.find?_append, hrow]
      cases hfind : (List.range' 0 map.hashMapCount).find?
          fun j => p (j, (hash + i) % size) with
      | some j => rfl
      | none =>
          dsimp only
          rw [← hidx, ih (i + 1) _ (by omega) hnext, Option.map_none,
            Option.none_or]

end Loops

/-- The probe for a key searches its probe list. -/
theorem run_probe (test : Nat → Nat → C Bool) {p : Place → Bool}
    (hsize : 0 < T.size) (limit : Nat) (k : UInt64)
    (htest : ∀ s, T.In s → (test s.1 s.2).run m = .ok (p s) m) :
    (probeLoop T.toMap test T.size limit 0 (keyHash k % T.size)).run m
      = .ok ((T.probes limit k).find? p) m := by
  have hloop := run_probeLoop T.toMap (keyHash k) (p := p)
    (fun j hj d => htest (j, _) ⟨hj, Nat.mod_lt _ hsize⟩) limit 0
    (keyHash k % T.size) (Nat.zero_add _) (Nat.mod_mod ..)
  rw [hloop, probes, List.range_eq_range']
  rfl

/-- What the search returns passes, and is a place of the table. -/
theorem probes_find {limit : Nat} {p : Place → Bool} (hsize : 0 < T.size)
    (h : (T.probes limit k).find? p = some s) : p s = true ∧ T.In s :=
  ⟨List.find?_some h, in_of_mem_probes hsize (List.mem_of_find?_eq_some h)⟩

theorem run_keyMatches (hs : T.In s) :
    (keyMatches T.toMap k s.1 s.2).run m = .ok (decide (T.word s = k)) m := by
  rw [keyMatches, C.run_bind, run_keyAt hs, C.chain_ok, C.run_pure]

theorem run_emptyOrMatches (hs : T.In s) :
    (emptyOrMatches T.toMap k s.1 s.2).run m
      = .ok (decide (T.refs s = 0 ∨ T.word s = k)) m := by
  rw [emptyOrMatches, C.run_bind, run_valuesAt hs.1, C.chain_ok, C.run_bind,
    array, run_cxRcMapIsEmpty hs.2, C.chain_ok]
  by_cases h : T.refs s = 0
  · rw [if_pos (by simpa using h), C.run_pure, decide_eq_true (Or.inl h)]
  · rw [if_neg (by simpa using h), run_keyMatches hs]
    simp only [h, false_or]

theorem run_keyToIndex (hsize : 0 < T.size) :
    (keyToIndex k T.size).run m = .ok (keyHash k % T.size) m := by
  rw [keyToIndex, if_neg (by omega), C.run_pure]

end Table

end Cextras.Collection
