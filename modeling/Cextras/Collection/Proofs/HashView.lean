/-
What a reader of a hash map's arrays sees: the key word and the counter
of a slot, the probe path of a key, and where a search along it stops.
These name no table, so that the conditions the lookup results are about
are conditions on the map of the code.

`probes_find_iff` is the order of a search: a slot is found when no
earlier turn has one, and no earlier inner map of its own turn.
-/
import Cextras.Collection.Proofs.HashOps

namespace Cextras.Collection

open Lib

namespace CxRcHashMap

/-- `hash_maps[j].keys[index]`, if there is such a slot. -/
def word (map : CxRcHashMap) (s : Place) : Option UInt64 := do
  let maps ← map.hashMaps
  let inner ← (← maps.cells[s.1]?)
  let keys ← inner.keys
  keys.cells[s.2]?

/-- `hash_maps[j].values.ref_count[index]`, if there is such a slot. -/
def count (map : CxRcHashMap) (s : Place) : Option Int := do
  let maps ← map.hashMaps
  let inner ← (← maps.cells[s.1]?)
  let values ← inner.values
  let counts ← values.refCount
  counts.cells[s.2]?

/-- The address of a slot's element. -/
def element (map : CxRcHashMap) (s : Place) : Option Nat := do
  let maps ← map.hashMaps
  let inner ← (← maps.cells[s.1]?)
  let values ← inner.values
  pure (getElement values s.2)

/-- The slot holds an element. -/
def Live (map : CxRcHashMap) (s : Place) : Prop := 0 < (map.count s).getD 0

instance decidableLive (map : CxRcHashMap) (s : Place) :
    Decidable (map.Live s) :=
  inferInstanceAs (Decidable (_ < _))

/-- The slot holds an element of the key. -/
def HasLive (map : CxRcHashMap) (k : UInt64) (s : Place) : Prop :=
  map.word s = some k ∧ map.Live s

instance decidableHasLive (map : CxRcHashMap) (k : UInt64) (s : Place) :
    Decidable (map.HasLive k s) :=
  inferInstanceAs (Decidable (_ ∧ _))

/-- The slots the first `limit` turns of a probe visit, in order. -/
def places (map : CxRcHashMap) (limit : Nat) (k : UInt64) : List Place :=
  (List.range limit).flatMap fun d =>
    Table.row map.hashMapCount ((keyHash k + d) % map.mapSize)

/-- The slots put and retain visit for a key. -/
def path (map : CxRcHashMap) (k : UInt64) : List Place :=
  map.places (probeLimit map.mapSize) k

/-- The first slot of the path that has the key word, live or not. -/
def firstWith (map : CxRcHashMap) (k : UInt64) : Option Place :=
  (map.path k).find? fun s => map.word s = some k

/-- The slot a release by key goes to. -/
def releaseSlot (map : CxRcHashMap) (k : UInt64) : Option Place :=
  (map.places map.mapSize k).find? fun s => map.word s = some k

end CxRcHashMap

namespace Table

variable {T : Table} {s : Place} {k : UInt64} {limit : Nat}

-- ======================================================= slots of a table

theorem word_toMap (hs : T.In s) : T.toMap.word s = some (T.word s) := by
  simp only [CxRcHashMap.word, toMap, Option.bind_eq_bind, Option.bind_some,
    getElem?_map_range hs.1, inner]
  exact getElem?_map_range hs.2 _

theorem count_toMap (hs : T.In s) : T.toMap.count s = some (T.refs s : Int) := by
  simp only [CxRcHashMap.count, toMap, Option.bind_eq_bind, Option.bind_some,
    getElem?_map_range hs.1, inner, array, tally]
  exact getElem?_map_range hs.2 _

/-- There is nothing outside the table. -/
theorem count_toMap_none (hs : ¬ T.In s) : T.toMap.count s = none := by
  simp only [CxRcHashMap.count, toMap, Option.bind_eq_bind, Option.bind_some]
  by_cases hj : s.1 < T.count
  · simp only [getElem?_map_range hj, Option.bind_some, inner, array, tally]
    refine List.getElem?_eq_none ?_
    rw [List.length_map, List.length_range]
    exact not_lt.mp fun hi => hs ⟨hj, hi⟩
  · rw [List.getElem?_eq_none (by simpa using hj)]
    rfl

theorem element_toMap (hs : T.In s) :
    T.toMap.element s = some (getElement (T.array s.1) s.2) := by
  simp only [CxRcHashMap.element, toMap, Option.bind_eq_bind, Option.bind_some,
    getElem?_map_range hs.1, inner]
  rfl

theorem live_iff : T.toMap.Live s ↔ T.In s ∧ T.refs s ≠ 0 := by
  unfold CxRcHashMap.Live
  by_cases hs : T.In s
  · rw [count_toMap hs, Option.getD_some]
    constructor
    · exact fun h => ⟨hs, by omega⟩
    · rintro ⟨-, h⟩
      omega
  · rw [count_toMap_none hs, Option.getD_none]
    exact ⟨fun h => absurd h (lt_irrefl 0), fun h => absurd h.1 hs⟩

theorem hasLive_iff :
    T.toMap.HasLive k s ↔ T.In s ∧ T.refs s ≠ 0 ∧ T.word s = k := by
  unfold CxRcHashMap.HasLive
  rw [live_iff]
  constructor
  · rintro ⟨hword, hs, hlive⟩
    rw [word_toMap hs, Option.some.injEq] at hword
    exact ⟨hs, hlive, hword⟩
  · rintro ⟨hs, hlive, hword⟩
    exact ⟨by rw [word_toMap hs, hword], hs, hlive⟩

theorem path_toMap : T.toMap.path k = T.probes (probeLimit T.size) k := rfl

/-- Searches that agree on the places of the table find the same slot. -/
theorem probes_find_congr {p q : Place → Bool} (hsize : 0 < T.size)
    (h : ∀ s, T.In s → p s = q s) :
    (T.probes limit k).find? p = (T.probes limit k).find? q := by
  have hl : ∀ s ∈ T.probes limit k, p s = q s := fun s hs =>
    h s (in_of_mem_probes hsize hs)
  rw [← List.head?_filter, ← List.head?_filter, List.filter_congr hl]

theorem firstWith_toMap (hsize : 0 < T.size) :
    T.toMap.firstWith k
      = (T.probes (probeLimit T.size) k).find? fun s => T.word s = k := by
  unfold CxRcHashMap.firstWith
  rw [path_toMap]
  refine probes_find_congr hsize fun s hs => decide_eq_decide.mpr ?_
  rw [word_toMap hs, Option.some.injEq]

theorem releaseSlot_toMap (hsize : 0 < T.size) :
    T.toMap.releaseSlot k
      = (T.probes T.size k).find? fun s => T.word s = k := by
  show (T.probes T.size k).find? _ = _
  refine probes_find_congr hsize fun s hs => decide_eq_decide.mpr ?_
  rw [word_toMap hs, Option.some.injEq]

-- ========================================================= order of search

/-- The slot a probe reaches at turn `d` is the first that passes. -/
structure FirstAt (T : Table) (limit : Nat) (k : UInt64) (p : Place → Bool)
    (d : Nat) (s : Place) : Prop where
  turn : d < limit
  inner : s.1 < T.count
  index : s.2 = (keyHash k + d) % T.size
  pass : p s = true
  turns : ∀ e < d, ∀ j < T.count, p (j, (keyHash k + e) % T.size) = false
  inners : ∀ j < s.1, p (j, s.2) = false

theorem row_find_iff {p : Place → Bool} {count index : Nat} :
    (row count index).find? p = some s
      ↔ s.1 < count ∧ s.2 = index ∧ p s = true
        ∧ ∀ j < s.1, p (j, index) = false := by
  rw [row, List.find?_map, Option.map_eq_some_iff]
  constructor
  · rintro ⟨j, hj, rfl⟩
    rw [List.find?_range_eq_some] at hj
    obtain ⟨hp, hj, hbefore⟩ := hj
    exact ⟨List.mem_range.mp hj, rfl, hp, fun i hi => by
      simpa using hbefore i hi⟩
  · rintro ⟨hj, rfl, hp, hbefore⟩
    refine ⟨s.1, List.find?_range_eq_some.mpr
      ⟨hp, List.mem_range.mpr hj, fun i hi => ?_⟩, rfl⟩
    simpa using hbefore i hi

/-- A search returns the first slot that passes. -/
theorem probes_find_iff {p : Place → Bool} :
    (T.probes limit k).find? p = some s ↔ ∃ d, T.FirstAt limit k p d s := by
  induction limit with
  | zero =>
      constructor
      · intro h
        cases h
      · rintro ⟨d, h⟩
        exact absurd h.turn (Nat.not_lt_zero d)
  | succ n ih =>
      have hnone : (T.probes n k).find? p = none ↔ ∀ e < n, ∀ j < T.count,
          p (j, (keyHash k + e) % T.size) = false := by
        rw [List.find?_eq_none]
        constructor
        · intro h e he j hj
          simpa using h _ (mem_probes.mpr ⟨hj, e, he, rfl⟩)
        · intro h t ht
          obtain ⟨hj, e, he, hidx⟩ := mem_probes.mp ht
          simpa [← hidx] using h e he t.1 hj
      have hsplit : T.probes (n + 1) k
          = T.probes n k ++ row T.count ((keyHash k + n) % T.size) := by
        simp [probes, List.range_succ]
      rw [hsplit, List.find?_append, Option.or_eq_some_iff, ih, hnone,
        row_find_iff]
      constructor
      · rintro (⟨d, h⟩ | ⟨hbefore, hj, hidx, hp, hinner⟩)
        · exact ⟨d, Nat.lt_succ_of_lt h.turn, h.inner, h.index, h.pass, h.turns,
            h.inners⟩
        · exact ⟨n, Nat.lt_succ_self n, hj, hidx, hp, hbefore, by rwa [hidx]⟩
      · rintro ⟨d, h⟩
        by_cases hd : d = n
        · rw [hd] at h
          exact Or.inr ⟨h.turns, h.inner, h.index, h.pass, by
            rw [← h.index]
            exact h.inners⟩
        · exact Or.inl ⟨d, by have := h.turn; omega, h.inner, h.index, h.pass,
            h.turns, h.inners⟩

/-- A longer probe finds what a shorter one found. -/
theorem FirstAt.longer {p : Place → Bool} {d limit' : Nat}
    (h : T.FirstAt limit k p d s) (hle : limit ≤ limit') :
    T.FirstAt limit' k p d s :=
  ⟨lt_of_lt_of_le h.turn hle, h.inner, h.index, h.pass, h.turns, h.inners⟩

end Table

theorem TableInv.element_toMap {m : Machine} {T : Table} {s : Place}
    (h : TableInv m T) (hs : T.In s) :
    T.toMap.element s = some (T.address s) := by
  rw [Table.element_toMap hs, Table.array, getElement_eq (h.laid hs.1) hs.2]
  rfl

end Cextras.Collection
