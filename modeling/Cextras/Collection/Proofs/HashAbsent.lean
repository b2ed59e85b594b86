/-
Releasing a key that is not live. `cx_rc_hash_map_release_key` looks at
key words only. They are never cleared and start out as 0, so an empty
slot may have the key, and then the release runs into the assertion of
`release_rc`. `cxRcHashMapReleaseKey_harmless` says when it does not: in
every state of every run, whatever was refused, a release of a key that
is not live is harmless exactly when every slot has a key word and none
of them is the key.
-/
import Cextras.Collection.Proofs.HashRefused
import Cextras.Collection.Proofs.HashView

namespace Cextras.Collection

open Lib

namespace CxRcHashMap

/-- No live slot has the key. -/
def NotLive (map : CxRcHashMap) (k : UInt64) : Prop :=
  ∀ j < map.hashMapCount, ∀ i < map.mapSize, ¬ map.HasLive k (j, i)

instance decidableNotLive (map : CxRcHashMap) (k : UInt64) :
    Decidable (map.NotLive k) :=
  inferInstanceAs (Decidable (∀ j < map.hashMapCount, ∀ i < map.mapSize, _))

/-- The slot has a key word, and it is another one. -/
def Other (map : CxRcHashMap) (k : UInt64) (t : Place) : Prop :=
  ∃ w ∈ map.word t, w ≠ k

instance decidableOther (map : CxRcHashMap) (k : UInt64) (t : Place) :
    Decidable (map.Other k t) :=
  inferInstanceAs (Decidable (∃ w ∈ map.word t, w ≠ k))

/-- All slots have other key words, live or not. -/
def NoWord (map : CxRcHashMap) (k : UInt64) : Prop :=
  ∀ j < map.hashMapCount, ∀ i < map.mapSize, map.Other k (j, i)

instance decidableNoWord (map : CxRcHashMap) (k : UInt64) :
    Decidable (map.NoWord k) :=
  inferInstanceAs (Decidable (∀ j < map.hashMapCount, ∀ i < map.mapSize, _))

end CxRcHashMap

/-- A release by key ends normally, leaves every count as it was and
cleans nothing up. -/
def HarmlessRelease (map : CxRcHashMap) (m : Machine) (k : UInt64) : Prop :=
  ∃ rv map' m', (cxRcHashMapReleaseKey map k).run m = .ok (rv, map') m'
    ∧ (∀ t, map'.count t = map.count t) ∧ m'.calls = m.calls

variable {map : CxRcHashMap} {m m' : Machine} {k : UInt64}
  {size j index : Nat}

-- ================================================================== slots

/-- Slots through the cells of the inner maps. -/
theorem word_eq (t : Place) : map.word t
    = (map.cell t.1).bind fun inner => inner.keys.bind fun keys =>
      keys.cells[t.2]? := by
  unfold CxRcHashMap.word CxRcHashMap.cell
  cases map.hashMaps with
  | none => rfl
  | some maps =>
      simp only [Option.bind_eq_bind, Option.bind_some]
      cases maps.cells[t.1]? with
      | none => rfl
      | some cell => cases cell <;> rfl

theorem count_eq (t : Place) : map.count t
    = (map.cell t.1).bind fun inner => inner.values.bind fun values =>
      values.refCount.bind fun counts => counts.cells[t.2]? := by
  unfold CxRcHashMap.count CxRcHashMap.cell
  cases map.hashMaps with
  | none => rfl
  | some maps =>
      simp only [Option.bind_eq_bind, Option.bind_some]
      cases maps.cells[t.1]? with
      | none => rfl
      | some cell => cases cell <;> rfl

theorem run_cell_iff {α : Type} {xs : List α} {i : Nat} {x : α} :
    (C.cell xs i).run m = .ok x m' ↔ xs[i]? = some x ∧ m = m' := by
  unfold C.cell
  cases hcell : xs[i]? with
  | none => exact ⟨nofun, fun h => nomatch h.1⟩
  | some y => simp only [C.run_pure, Outcome.ok.injEq, Option.some.injEq]

theorem run_keyAt_iff {w : UInt64} :
    (keyAt map j index).run m = .ok w m'
      ↔ map.word (j, index) = some w ∧ m = m' := by
  rw [word_eq]
  unfold keyAt
  rw [C.run_bind]
  cases hcell : (innerAt map j).run m with
  | fault e m₁ =>
      refine ⟨nofun, fun h => ?_⟩
      obtain ⟨inner, hinner, -⟩ := Option.bind_eq_some_iff.mp h.1
      rw [run_innerAt_iff.mpr ⟨hinner, rfl⟩] at hcell
      cases hcell
  | ok inner m₁ =>
      obtain ⟨hinner, rfl⟩ := run_innerAt_iff.mp hcell
      rw [hinner, Option.bind_some, C.chain_ok]
      cases inner.keys with
      | none => exact ⟨nofun, fun h => nomatch h.1⟩
      | some keys => exact run_cell_iff

/-- The values of an inner map that is read. -/
theorem valuesAt_cell (map : CxRcHashMap) (j : Nat) :
    (valuesAt map j).Ensures fun values =>
      ∃ inner, map.cell j = some inner ∧ inner.values = some values := by
  refine ⟨fun m values m' hrun => ?_⟩
  unfold valuesAt at hrun
  rw [C.run_bind] at hrun
  cases hcell : (innerAt map j).run m with
  | fault e m₁ =>
      rw [hcell] at hrun
      cases hrun
  | ok inner m₁ =>
      rw [hcell, C.chain_ok] at hrun
      refine ⟨inner, (run_innerAt_iff.mp hcell).1, ?_⟩
      cases hvalues : inner.values with
      | none =>
          rw [hvalues] at hrun
          cases hrun
      | some values' =>
          rw [hvalues] at hrun
          cases hrun
          rfl

/-- A release that does not run into the assertion had a reference to
give back. -/
theorem cxRcMapReleaseIndex_positive (array : CxRcMap) (index : Nat) :
    (cxRcMapReleaseIndex array index).Ensures fun _ =>
      ∃ counts count, array.refCount = some counts
        ∧ counts.cells[index]? = some count ∧ 0 < count := by
  unfold cxRcMapReleaseIndex releaseRc refCountAt
  refine .bind (P := fun _ => ∃ counts count, array.refCount = some counts
    ∧ counts.cells[index]? = some count ∧ 0 < count) ?_ ?_
  · cases array.refCount with
    | none => exact .bind (P := fun _ => False) .fail fun _ h => h.elim
    | some counts =>
        refine .bind (P := fun count => counts.cells[index]? = some count)
          ⟨fun m count m' hrun => (run_cell_iff.mp hrun).1⟩ ?_
        intro count hcount
        apply C.Ensures.ite
        · exact .fail
        · refine (C.Ensures.assert _).bind ?_
          intro _ hle
          exact .pure ⟨counts, count, rfl, hcount, by omega⟩
  · intro r hr
    apply C.Ensures.ite
    · apply C.Ensures.after
      intro value
      apply C.Ensures.after
      intro _
      exact .pure hr
    · exact .pure hr

-- ================================================================= probing

theorem keyMatches_word (map : CxRcHashMap) (k : UInt64) (j index : Nat) :
    (keyMatches map k j index).Ensures fun found =>
      ∃ w, map.word (j, index) = some w ∧ found = decide (w = k) := by
  unfold keyMatches
  refine .bind (P := fun w => map.word (j, index) = some w)
    ⟨fun m w m' hrun => (run_keyAt_iff.mp hrun).1⟩ ?_
  intro w hw
  exact .pure ⟨w, hw, rfl⟩

/-- What one turn of the probe found out about the inner maps from `j`
on. -/
structure Scanned (map : CxRcHashMap) (k : UInt64) (index j : Nat)
    (found : Option Nat) : Prop where
  hit : ∀ i ∈ found, i < map.hashMapCount ∧ map.word (i, index) = some k
  miss : found = none → ∀ i, j ≤ i → i < map.hashMapCount →
    map.Other k (i, index)

theorem probeMaps_scanned (map : CxRcHashMap) (k : UInt64) (index j : Nat) :
    (probeMaps map (keyMatches map k) index j).Ensures
      (Scanned map k index j) := by
  induction hn : map.hashMapCount - j generalizing j with
  | zero =>
      rw [probeMaps, dif_neg (by omega)]
      refine .pure ⟨fun i hi => ?_, fun _ i hj hi => absurd hi (by omega)⟩
      cases hi
  | succ n ih =>
      have hj : j < map.hashMapCount := by omega
      rw [probeMaps, dif_pos hj]
      refine (keyMatches_word map k j index).bind ?_
      intro found hfound
      obtain ⟨w, hw, rfl⟩ := hfound
      by_cases hk : w = k
      · rw [if_pos (decide_eq_true hk)]
        refine .pure ⟨fun i hi => ?_, fun hnone => ?_⟩
        · cases hi
          exact ⟨hj, hk ▸ hw⟩
        · cases hnone
      · rw [if_neg (by simpa using hk)]
        refine ⟨fun m r m' hrun => ?_⟩
        obtain ⟨hhit, hmiss⟩ := (ih (j + 1) (by omega)).result m r m' hrun
        refine ⟨hhit, fun hr i hji hi => ?_⟩
        by_cases hij : i = j
        · rw [hij]
          exact ⟨w, hw, hk⟩
        · exact hmiss hr i (by omega) hi

/-- What the probe found out from turn `i` on. -/
structure Searched (map : CxRcHashMap) (k : UInt64) (size limit i : Nat)
    (found : Option Place) : Prop where
  hit : ∀ t ∈ found, t.1 < map.hashMapCount ∧ t.2 < size
    ∧ map.word t = some k
  miss : found = none → ∀ d, i ≤ d → d < limit →
    ∀ j < map.hashMapCount, map.Other k (j, (keyHash k + d) % size)

theorem probeLoop_searched (hsize : 0 < size) (limit i index : Nat)
    (hindex : index % size = (keyHash k + i) % size) :
    (probeLoop map (keyMatches map k) size limit i index).Ensures
      (Searched map k size limit i) := by
  induction hn : limit - i generalizing i index with
  | zero =>
      rw [probeLoop, dif_neg (by omega)]
      refine .pure ⟨fun t ht => ?_, fun _ d hi hd => absurd hd (by omega)⟩
      cases ht
  | succ n ih =>
      have hnext : (index % size + 1) % size = (keyHash k + (i + 1)) % size := by
        rw [hindex, Nat.mod_add_mod, Nat.add_assoc]
      rw [probeLoop, dif_pos (by omega)]
      dsimp only
      refine (probeMaps_scanned map k (index % size) 0).bind ?_
      intro found hscan
      cases found with
      | some j =>
          refine .pure ⟨fun t ht => ?_, fun hnone => ?_⟩
          · cases ht
            obtain ⟨hj, hword⟩ := hscan.hit j rfl
            exact ⟨hj, Nat.mod_lt _ hsize, hword⟩
          · cases hnone
      | none =>
          refine ⟨fun m r m' hrun => ?_⟩
          obtain ⟨hhit, hmiss⟩ := (ih (i + 1) _ hnext (by omega)).result m r m' hrun
          refine ⟨hhit, fun hr d hid hd j hj => ?_⟩
          by_cases hdi : d = i
          · rw [hdi, ← hindex]
            exact hscan.miss rfl j (Nat.zero_le j) hj
          · exact hmiss hr d (by omega) hd j hj

/-- Some turn of a full probe reaches an index. -/
theorem exists_turn {i : Nat} (h : Nat) (hi : i < size) :
    ∃ d < size, i = (h + d) % size := by
  have hr : h % size < size := Nat.mod_lt _ (by omega)
  by_cases hle : h % size ≤ i
  · refine ⟨i - h % size, by omega, ?_⟩
    rw [← Nat.mod_add_mod, Nat.add_sub_cancel' hle, Nat.mod_eq_of_lt hi]
  · refine ⟨i + size - h % size, by omega, ?_⟩
    rw [← Nat.mod_add_mod, Nat.add_sub_cancel' (by omega), Nat.add_mod_right,
      Nat.mod_eq_of_lt hi]

-- ================================================================= release

/-- A release by a key that is not live ends normally only if it finds no
slot. -/
theorem Headed.noWord (h : Headed size map) (hsize : 0 < size)
    (hk : map.NotLive k) :
    (cxRcHashMapReleaseKey map k).Ensures fun _ => map.NoWord k := by
  unfold cxRcHashMapReleaseKey
  refine (h.valuesAt 0).bind ?_
  intro values hvalues
  have hslots : cxRcMapSize values = size := hvalues rfl
  dsimp only
  rw [hslots]
  unfold keyToIndex
  rw [if_neg (by omega)]
  refine .bind (.pure (P := fun index => index = keyHash k % size) rfl) ?_
  intro index hindex
  refine (probeLoop_searched hsize size 0 index ?_).bind ?_
  · rw [hindex, Nat.mod_mod, Nat.add_zero]
  intro found hsearch
  cases found with
  | none =>
      refine .pure fun j hj i hi => ?_
      obtain ⟨d, hd, hturn⟩ := exists_turn (keyHash k) (h.slots ▸ hi)
      rw [hturn]
      exact hsearch.miss rfl d (Nat.zero_le d) hd j hj
  | some t =>
      -- the slot would be live
      obtain ⟨hj, hi, hword⟩ := hsearch.hit t rfl
      refine (valuesAt_cell map t.1).bind ?_
      intro values hcell
      obtain ⟨inner, hinner, hstored⟩ := hcell
      refine (cxRcMapReleaseIndex_positive values t.2).bind ?_
      intro r hpositive
      obtain ⟨counts, count, hcounts, hcount, hpos⟩ := hpositive
      refine absurd ⟨hword, ?_⟩ (hk t.1 hj t.2 (h.slots.symm ▸ hi))
      unfold CxRcHashMap.Live
      rw [count_eq, hinner, Option.bind_some, hstored, Option.bind_some,
        hcounts, Option.bind_some, hcount, Option.getD_some]
      exact hpos

/-- It finds none if all slots have other key words. -/
theorem Headed.run_releaseKey_none (h : Headed size map) (hsize : 0 < size)
    (hword : map.NoWord k) :
    (cxRcHashMapReleaseKey map k).run m = .ok (0, map) m := by
  obtain ⟨inner, hinner, values, hvalues, hslots⟩ := h.head
  have hhead : (Collection.valuesAt map 0).run m = .ok values m := by
    unfold Collection.valuesAt
    rw [C.run_bind, run_innerAt_iff.mpr ⟨hinner, rfl⟩, C.chain_ok, hvalues]
    rfl
  have htest : ∀ j < map.hashMapCount, ∀ d,
      (keyMatches map k j ((keyHash k + d) % size)).run m = .ok false m := by
    intro j hj d
    have hlt : (keyHash k + d) % size < map.mapSize := by
      rw [h.slots]
      exact Nat.mod_lt _ hsize
    obtain ⟨w, hw, hne⟩ := hword j hj _ hlt
    rw [keyMatches, C.run_bind, run_keyAt_iff.mpr ⟨hw, rfl⟩, C.chain_ok,
      C.run_pure, decide_eq_false hne]
  have hloop := Table.run_probeLoop map (keyHash k) (p := fun _ => false) htest
    size 0 (keyHash k % size) (Nat.zero_add _) (Nat.mod_mod ..)
  rw [List.find?_eq_none.mpr fun _ _ => Bool.false_ne_true] at hloop
  rw [cxRcHashMapReleaseKey, C.run_bind, hhead, C.chain_ok]
  dsimp only
  rw [cxRcMapSize, hslots, keyToIndex, if_neg (by omega), C.run_bind, C.run_pure,
    C.chain_ok, C.run_bind, hloop, C.chain_ok]
  rfl

/-- In every state of every run, a release by a key that is not live is
harmless exactly when every slot has another key word. -/
theorem cxRcHashMapReleaseKey_harmless {elementSize : Nat} {mem : Mem}
    {oracle : Nat → Nat} (hsize : 0 < size)
    (h : HashCall.Run size elementSize mem oracle map m)
    (hk : map.NotLive k) : HarmlessRelease map m k ↔ map.NoWord k := by
  constructor
  · intro hharmless
    obtain ⟨rv, map', m', hrun, -⟩ := hharmless
    exact (h.headed.noWord hsize hk).result _ _ _ hrun
  · intro hword
    exact ⟨0, map, m, h.headed.run_releaseKey_none hsize hword, fun _ => rfl, rfl⟩

/-- Key 2 was never in the map, and its release goes to no slot. -/
theorem cxRcHashMapReleaseKey_harmless_absent : ∃ map m,
    HashCall.Run 1 1 (fun _ => 0) (fun t => 2 ^ 20 * (t + 1)) map m
      ∧ map.NotLive 2 ∧ HarmlessRelease map m 2 := by
  obtain ⟨map, m, hrun, htest⟩ := steps_of_tryFrom (mapStart 1 1) mapExec
    (fun map _ call => call.Suits map.elementSize ∧ HasRoom map)
    (Machine.boot (fun _ => 0) (fun t => 2 ^ 20 * (t + 1)))
    [.put 1 [11], .releaseKey 1]
    (fun x => decide (x.1.NotLive 2 ∧ x.1.NoWord 2)) (by decide +kernel)
  obtain ⟨hlive, hword⟩ := of_decide_eq_true htest
  exact ⟨map, m, hrun, hlive,
    (cxRcHashMapReleaseKey_harmless (by decide) hrun hlive).mpr hword⟩

/-- Key 1 is put and released; its word stays, and releasing the key
again runs into the assertion. -/
theorem cxRcHashMapReleaseKey_twice : ∃ map m,
    HashCall.Run 1 1 (fun _ => 0) (fun t => 2 ^ 20 * (t + 1)) map m
      ∧ map.NotLive 1 ∧ ¬ HarmlessRelease map m 1 := by
  obtain ⟨map, m, hrun, htest⟩ := steps_of_tryFrom (mapStart 1 1) mapExec
    (fun map _ call => call.Suits map.elementSize ∧ HasRoom map)
    (Machine.boot (fun _ => 0) (fun t => 2 ^ 20 * (t + 1)))
    [.put 1 [11], .releaseKey 1]
    (fun x => decide (x.1.NotLive 1
      ∧ ((cxRcHashMapReleaseKey x.1 1).run x.2).value.isNone))
    (by decide +kernel)
  obtain ⟨hlive, hnone⟩ := of_decide_eq_true htest
  refine ⟨map, m, hrun, hlive, fun hharmless => ?_⟩
  obtain ⟨rv, map', m', hret, -⟩ := hharmless
  rw [hret] at hnone
  cases hnone

end Cextras.Collection
