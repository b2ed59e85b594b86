/-
A hash map that was refused an extension. `extend_hash_map` counts the
new inner map before it asks for anything: of its four requests, two that
are refused stop the program at once, and the other two leave an inner
map without keys or without counters, which every later probe runs into
(`Broken`). So no put that fails this way goes unnoticed: the next put of
the same key, which would have been answered, is not
(`cxRcHashMapPut_refused`).
-/
import Cextras.Collection.RcHashMap
import Cextras.Lib.Inert
import Cextras.Lib.Run

namespace Cextras.Collection

open Lib

-- ================================================================== users

/-- The calls of a user, cleanup apart. -/
inductive HashCall where
  | put (key : UInt64) (value : List Byte)
  | retain (key : UInt64)
  | release (element : Nat)
  | releaseKey (key : UInt64)

/-- The answer is a return code or an address. -/
def HashCall.run : HashCall → CxRcHashMap → C (Int × CxRcHashMap)
  | .put key value, map => do
      let (element, map) ← cxRcHashMapPut map key value
      pure (element, map)
  | .retain key, map => do
      let (element, map) ← cxRcHashMapRetain map key
      pure (element, map)
  | .release element, map => cxRcHashMapRelease map element
  | .releaseKey key, map => cxRcHashMapReleaseKey map key

/-- Values have the size of an element. -/
def HashCall.Suits (elementSize : Nat) : HashCall → Prop
  | .put _ value => value.length = elementSize
  | _ => True

instance HashCall.decidableSuits (n : Nat) :
    (call : HashCall) → Decidable (call.Suits n)
  | .put _ value => inferInstanceAs (Decidable (value.length = n))
  | .retain _ | .release _ | .releaseKey _ => inferInstanceAs (Decidable True)

/-- The array of inner maps can grow by one. -/
def HasRoom (map : CxRcHashMap) : Prop :=
  (map.hashMapCount + 1) * innerMapSize < 2 ^ 64

instance (map : CxRcHashMap) : Decidable (HasRoom map) :=
  inferInstanceAs (Decidable (_ < _))

def mapStart (size elementSize : Nat) : C CxRcHashMap := do
  let (rv, map) ← cxRcHashMapInit size elementSize
  C.assert (rv = 0)
  pure map

def mapExec (call : HashCall) (map : CxRcHashMap) : C CxRcHashMap := do
  let (_, map) ← call.run map
  pure map

/-- The states of runs of any calls in any order, whatever is refused. -/
abbrev HashCall.Run (size elementSize : Nat) (mem : Mem)
    (oracle : Nat → Nat) : CxRcHashMap → Machine → Prop :=
  Steps (mapStart size elementSize) mapExec
    (fun map _ call => call.Suits map.elementSize ∧ HasRoom map)
    (Machine.boot mem oracle)

/-- Calls one after the other, with what they answered. -/
def callAll : List HashCall → CxRcHashMap → C (List Int × CxRcHashMap)
  | [], map => pure ([], map)
  | call :: calls, map => do
      let (answer, map) ← call.run map
      let (answers, map) ← callAll calls map
      pure (answer :: answers, map)

-- ============================================================= the promise

/-- Whatever is called from now on, and whatever the allocator grants from
now on, what `map` would have answered on `m` is answered by `map'` on
`m'`, with the same callbacks; and what a cleanup of `map` would have left
allocated is left by a cleanup of `map'`. -/
def ActsLike (map' : CxRcHashMap) (m' : Machine) (map : CxRcHashMap)
    (m : Machine) : Prop :=
  ∀ (oracle : Nat → Nat) (calls : List HashCall),
    (∀ call ∈ calls, call.Suits map.elementSize) →
    ∀ answers map₁ m₁,
      (callAll calls map).run { m with oracle := oracle, tick := m'.tick }
        = .ok (answers, map₁) m₁ →
      ∃ map₂ m₂, (callAll calls map').run { m' with oracle := oracle }
          = .ok (answers, map₂) m₂
        ∧ m₂.calls = m₁.calls
        ∧ ∀ rv m₃, (cxRcHashMapCleanup map₁).run m₁ = .ok rv m₃ →
          ∃ m₄, (cxRcHashMapCleanup map₂).run m₂ = .ok rv m₄
            ∧ m₄.arena.blocks.Perm m₃.arena.blocks
            ∧ m₄.arrays.Perm m₃.arrays

/-- The put returns NULL and might as well not have been called. -/
def Survives (map : CxRcHashMap) (m : Machine) (key : UInt64)
    (value : List Byte) : Prop :=
  ∃ map' m', (cxRcHashMapPut map key value).run m = .ok (0, map') m'
    ∧ ActsLike map' m' map m

/-- The loops of `cx_rc_hash_map_put`. -/
def putProbe (map : CxRcHashMap) (key : UInt64) : C (Option (Nat × Nat)) := do
  let values ← valuesAt map 0
  let size := cxRcMapSize values
  let origIndex ← keyToIndex key size
  probeLoop map (emptyOrMatches map key) size (probeLimit size) 0 origIndex

/-- They find no slot. -/
def NeedsExtension (map : CxRcHashMap) (m : Machine) (key : UInt64) : Prop :=
  (match (putProbe map key).run m with
    | .ok none _ => true
    | _ => false) = true

instance (map : CxRcHashMap) (m : Machine) (key : UInt64) :
    Decidable (NeedsExtension map m key) :=
  inferInstanceAs (Decidable (_ = true))

/-- One of the requests of an extension is refused: for the array of inner
maps, the keys, the elements or the counters. -/
def ExtensionRefused (map : CxRcHashMap) (m : Machine) : Prop :=
  m.oracle m.tick = 0 ∨ m.oracle (m.tick + 1) = 0
    ∨ ¬ m.arena.Fits ⟨m.oracle (m.tick + 2), map.mapSize * map.elementSize⟩
    ∨ m.oracle (m.tick + 3) = 0

instance (map : CxRcHashMap) (m : Machine) : Decidable (ExtensionRefused map m) :=
  inferInstanceAs (Decidable (_ ∨ _ ∨ _ ∨ _))

variable {map map' map₁ : CxRcHashMap} {m m' m₁ : Machine} {key : UInt64}
  {value : List Byte} {test test' : Nat → Nat → C Bool}

-- ================================================================= probing

theorem innerAt_inert (map : CxRcHashMap) (j : Nat) : (innerAt map j).Inert := by
  unfold innerAt
  cases map.hashMaps with
  | none => exact .fail _
  | some maps =>
      apply (C.Inert.cell maps.cells j).bind
      intro inner
      cases inner with
      | none => exact .fail _
      | some inner => exact .pure inner

theorem valuesAt_inert (map : CxRcHashMap) (j : Nat) :
    (valuesAt map j).Inert := by
  unfold valuesAt
  apply (innerAt_inert map j).bind
  intro inner
  cases inner.values with
  | none => exact .fail _
  | some values => exact .pure values

theorem keyAt_inert (map : CxRcHashMap) (j index : Nat) :
    (keyAt map j index).Inert := by
  unfold keyAt
  apply (innerAt_inert map j).bind
  intro inner
  cases inner.keys with
  | none => exact .fail _
  | some keys => exact .cell keys.cells index

theorem cxRcMapIsEmpty_inert (array : CxRcMap) (index : Nat) :
    (cxRcMapIsEmpty array index).Inert := by
  unfold cxRcMapIsEmpty refCountAt
  cases array.refCount with
  | none => exact (C.Inert.fail _).bind fun count => .pure _
  | some counts => exact (C.Inert.cell counts.cells index).bind fun count => .pure _

theorem emptyOrMatches_inert (map : CxRcHashMap) (key : UInt64) (j index : Nat) :
    (emptyOrMatches map key j index).Inert := by
  unfold emptyOrMatches keyMatches
  apply (valuesAt_inert map j).bind
  intro values
  apply (cxRcMapIsEmpty_inert values index).bind
  intro empty
  apply C.Inert.ite (.pure true)
  exact (keyAt_inert map j index).bind fun word => .pure _

theorem probeMaps_inert (map : CxRcHashMap)
    (htest : ∀ j index, (test j index).Inert)
    (index j : Nat) : (probeMaps map test index j).Inert := by
  induction hk : map.hashMapCount - j generalizing j with
  | zero =>
      rw [probeMaps, dif_neg (by omega)]
      exact .pure none
  | succ k ih =>
      rw [probeMaps, dif_pos (by omega)]
      apply (htest j index).bind
      intro found
      exact .ite (.pure (some j)) (ih (j + 1) (by omega))

theorem probeLoop_inert (htest : ∀ j index, (test j index).Inert)
    (size limit i index : Nat) :
    (probeLoop map test size limit i index).Inert := by
  induction hk : limit - i generalizing i index with
  | zero =>
      rw [probeLoop, dif_neg (by omega)]
      exact .pure none
  | succ k ih =>
      rw [probeLoop, dif_pos (by omega)]
      apply (probeMaps_inert map htest _ _).bind
      intro found
      cases found with
      | none => exact ih _ _ (by omega)
      | some j => exact .pure _

/-- On no machine do the loops find a slot. -/
theorem NeedsExtension.probed (h : NeedsExtension map m key) :
    ∃ values, 0 < cxRcMapSize values
      ∧ (∀ m', (valuesAt map 0).run m' = .ok values m')
      ∧ ∀ m', (probeLoop map (emptyOrMatches map key) (cxRcMapSize values)
        (probeLimit (cxRcMapSize values)) 0
        (keyHash key % cxRcMapSize values)).run m' = .ok none m' := by
  unfold NeedsExtension putProbe at h
  rw [C.run_bind] at h
  cases hvalues : (valuesAt map 0).run m with
  | fault e m₁ =>
      rw [hvalues] at h
      cases h
  | ok values m₁ =>
      rw [hvalues, C.chain_ok] at h
      dsimp only at h
      unfold keyToIndex at h
      by_cases hsize : cxRcMapSize values = 0
      · rw [if_pos hsize] at h
        cases h
      · rw [if_neg hsize, C.run_bind, C.run_pure, C.chain_ok] at h
        refine ⟨values, Nat.pos_of_ne_zero hsize,
          (valuesAt_inert map 0).run hvalues, ?_⟩
        cases hloop : (probeLoop map (emptyOrMatches map key)
            (cxRcMapSize values) (probeLimit (cxRcMapSize values)) 0
            (keyHash key % cxRcMapSize values)).run m₁ with
        | fault e m₂ =>
            rw [hloop] at h
            cases h
        | ok found m₂ =>
            rw [hloop] at h
            cases found with
            | some slot => cases h
            | none =>
                exact (probeLoop_inert (emptyOrMatches_inert map key) ..).run
                  hloop

/-- A put that needs an extension goes on with it. -/
theorem NeedsExtension.put (h : NeedsExtension map m key) (value : List Byte) :
    ∃ origIndex, ∀ m', (cxRcHashMapPut map key value).run m'
      = (do
          let (rv, map) ← extendHashMap map
          if rv < 0 then
            pure (0, map)
          else
            putAt map (map.hashMapCount - 1) origIndex key value).run m' := by
  obtain ⟨values, hsize, hvalues, hprobe⟩ := h.probed
  refine ⟨keyHash key % cxRcMapSize values, fun m' => ?_⟩
  rw [cxRcHashMapPut, C.run_bind, hvalues, C.chain_ok]
  dsimp only
  rw [keyToIndex, if_neg (by omega), C.run_bind, C.run_pure, C.chain_ok,
    C.run_bind, hprobe, C.chain_ok]

-- ================================================================= damage

/-- `map'` is `map` with one more inner map, which no probe gets past. -/
structure Broken (map map' : CxRcHashMap) : Prop where
  count : map'.hashMapCount = map.hashMapCount + 1
  old : ∀ j < map.hashMapCount, innerAt map' j = innerAt map j
  new : ∀ key index m, ∃ e,
    (emptyOrMatches map' key map.hashMapCount index).run m = .fault e m

theorem Broken.emptyOrMatches (h : Broken map map') {j : Nat}
    (hj : j < map.hashMapCount) (key : UInt64) (index : Nat) :
    emptyOrMatches map' key j index = emptyOrMatches map key j index := by
  unfold Collection.emptyOrMatches keyMatches valuesAt keyAt
  rw [h.old j hj]

/-- A turn of the probe that finds nothing in the old inner maps. -/
theorem Broken.probeMaps (h : Broken map map') {index : Nat} (j : Nat)
    (hj : j ≤ map.hashMapCount)
    (hnone : (probeMaps map (Collection.emptyOrMatches map key) index j).run m
      = .ok none m) (m' : Machine) :
    ∃ e, (probeMaps map' (Collection.emptyOrMatches map' key) index j).run m'
      = .fault e m' := by
  have hcount := h.count
  induction hk : map.hashMapCount - j generalizing j with
  | zero =>
      have heq : j = map.hashMapCount := by omega
      subst heq
      obtain ⟨e, hfault⟩ := h.new key index m'
      refine ⟨e, ?_⟩
      rw [Collection.probeMaps, dif_pos (by omega), C.run_bind, hfault,
        C.chain_fault]
  | succ k ih =>
      have hlt : j < map.hashMapCount := by omega
      rw [Collection.probeMaps, dif_pos hlt, C.run_bind] at hnone
      rw [Collection.probeMaps, dif_pos (by omega), C.run_bind,
        h.emptyOrMatches hlt]
      rcases emptyOrMatches_inert map key j index with ⟨found, hrun⟩ | ⟨e, hrun⟩
      · rw [hrun, C.chain_ok] at hnone
        rw [hrun, C.chain_ok]
        cases found with
        | true => cases hnone
        | false => exact ih (j + 1) (by omega) hnone (by omega)
      · rw [hrun] at hnone
        cases hnone

/-- There is a cell for every inner map. -/
def Sized (map : CxRcHashMap) : Prop :=
  ((map.hashMaps.map CArray.cells).getD []).length = map.hashMapCount

theorem Sized.count_pos (h : Sized map) {values : CxRcMap}
    (hvalues : (valuesAt map 0).run m = .ok values m) :
    0 < map.hashMapCount := by
  apply Nat.pos_of_ne_zero
  intro hzero
  unfold Sized at h
  rw [hzero, List.length_eq_zero_iff] at h
  unfold valuesAt innerAt at hvalues
  cases hmaps : map.hashMaps with
  | none =>
      rw [hmaps] at hvalues
      cases hvalues
  | some maps =>
      rw [hmaps, Option.map_some, Option.getD_some] at h
      rw [hmaps] at hvalues
      dsimp only at hvalues
      rw [h] at hvalues
      cases hvalues

/-- The next put of the same key. -/
theorem Broken.put (h : Broken map map') (hsized : Sized map)
    (hneeds : NeedsExtension map m key) (value : List Byte) (m' : Machine) :
    ∃ e, (cxRcHashMapPut map' key value).run m' = .fault e m' := by
  obtain ⟨values, hsize, hvalues, hprobe⟩ := hneeds.probed
  have hpos := hsized.count_pos (hvalues m')
  have hvalues' : (valuesAt map' 0).run m' = .ok values m' := by
    unfold valuesAt
    rw [h.old 0 hpos]
    exact hvalues m'
  have hlimit : 0 < probeLimit (cxRcMapSize values) := by
    unfold probeLimit maxCollisions
    omega
  have hloop := hprobe m'
  rw [probeLoop, dif_pos hlimit] at hloop
  dsimp only at hloop
  rw [C.run_bind] at hloop
  have hturn : (Collection.probeMaps map (Collection.emptyOrMatches map key)
      (keyHash key % cxRcMapSize values % cxRcMapSize values) 0).run m'
        = .ok none m' := by
    rcases probeMaps_inert map (emptyOrMatches_inert map key)
      (keyHash key % cxRcMapSize values % cxRcMapSize values) 0
      with ⟨found, hrun⟩ | ⟨e, hrun⟩
    · rw [hrun, C.chain_ok] at hloop
      cases found with
      | none => exact hrun m'
      | some j => cases hloop
    · rw [hrun] at hloop
      cases hloop
  obtain ⟨e, hfault⟩ := h.probeMaps 0 (Nat.zero_le _) hturn m'
  refine ⟨e, ?_⟩
  rw [cxRcHashMapPut, C.run_bind, hvalues', C.chain_ok]
  dsimp only
  rw [keyToIndex, if_neg (by omega), C.run_bind, C.run_pure, C.chain_ok,
    C.run_bind, probeLoop, dif_pos hlimit]
  dsimp only
  rw [C.run_bind, hfault, C.chain_fault, C.chain_fault]

-- ============================================================== extension

section Grown

variable {storage : Nat} {inner : CxRcHashMapInner}

/-- The map after an extension, up to what its new cell holds. -/
def grown (map : CxRcHashMap) (storage : Nat) (inner : CxRcHashMapInner) :
    CxRcHashMap :=
  CxRcHashMap.setInner { map with
    hashMapCount := map.hashMapCount + 1
    hashMaps := some (CArray.resized map.hashMaps storage
      (map.hashMapCount + 1) none) } map.hashMapCount inner

theorem Sized.grown (h : Sized map) (storage : Nat)
    (inner : CxRcHashMapInner) : Sized (grown map storage inner) := by
  unfold Sized at h ⊢
  show (List.set (_ ++ _) _ _).length = map.hashMapCount + 1
  rw [List.length_set, List.length_append, List.length_take,
    List.length_replicate, h]
  omega

theorem Sized.cell_old (h : Sized map) {j : Nat} (hj : j < map.hashMapCount) :
    innerAt (Collection.grown map storage inner) j = innerAt map j := by
  unfold Sized at h
  cases hmaps : map.hashMaps with
  | none =>
      rw [hmaps, Option.map_none, Option.getD_none, List.length_nil] at h
      omega
  | some maps =>
      rw [hmaps, Option.map_some, Option.getD_some] at h
      unfold innerAt Collection.grown CxRcHashMap.setInner CArray.resized
      rw [hmaps]
      dsimp only [Option.map_some, Option.getD_some]
      unfold C.cell
      rw [List.getElem?_set_ne (by omega), List.getElem?_append_left,
        List.getElem?_take_of_lt (by omega)]
      rw [List.length_take]
      omega

theorem Sized.cell_new (h : Sized map) (m : Machine) :
    (innerAt (Collection.grown map storage inner) map.hashMapCount).run m
      = .ok inner m := by
  have hlen := h.grown storage inner
  unfold Sized at hlen
  unfold innerAt Collection.grown CxRcHashMap.setInner CArray.resized at *
  dsimp only [Option.map_some, Option.getD_some] at hlen ⊢
  rw [List.length_set] at hlen
  unfold C.cell
  rw [List.getElem?_set_self (by omega)]
  rfl

theorem Sized.broken (h : Sized map)
    (hnew : ∀ array, inner.values = some array → array.refCount = none) :
    Broken map (Collection.grown map storage inner) := by
  refine ⟨rfl, fun j hj => h.cell_old hj, ?_⟩
  intro key index m
  unfold emptyOrMatches valuesAt
  rw [C.run_bind, C.run_bind, h.cell_new, C.chain_ok]
  cases hvalues : inner.values with
  | none => exact ⟨.uninitialised, rfl⟩
  | some array =>
      refine ⟨.nullDeref, ?_⟩
      dsimp only
      rw [C.run_pure, C.chain_ok, C.run_bind, cxRcMapIsEmpty, C.run_bind,
        refCountAt, hnew array hvalues]
      rfl

end Grown

/-- Without elements the cleanup reads what was never stored; without
counters it leaves none. -/
theorem cxRcMapInit_refused {size elementSize : Nat}
    (h : ¬ m.arena.Fits ⟨m.oracle m.tick, size * elementSize⟩
      ∨ m.oracle (m.tick + 1) = 0) :
    (∃ e m', (cxRcMapInit none size elementSize).run m = .fault e m')
      ∨ ∃ array m', (cxRcMapInit none size elementSize).run m
          = .ok (-cxErrAlloc, some array) m' ∧ array.refCount = none := by
  unfold cxRcMapInit
  rw [C.run_bind]
  unfold C.calloc
  dsimp only
  by_cases hfits : m.arena.Fits ⟨m.oracle m.tick, size * elementSize⟩
  · right
    have hzero := h.resolve_left (not_not.mpr hfits)
    have hne : m.oracle m.tick ≠ 0 := Nat.pos_iff_ne_zero.mp hfits.1.1
    rw [dif_pos hfits, C.chain_ok, if_neg hne, C.run_bind]
    unfold C.allocArray
    dsimp only
    rw [if_pos hzero, C.chain_ok]
    unfold cxRcMapCleanup C.free
    dsimp only
    rw [C.run_bind, C.run_bind]
    dsimp only
    rw [if_neg hne, if_pos ⟨_, List.mem_cons_self .., rfl⟩]
    exact ⟨_, _, rfl, rfl⟩
  · left
    rw [dif_neg hfits, C.chain_ok, if_pos rfl]
    exact ⟨_, _, rfl⟩

/-- An extension one of whose requests is refused stops, or breaks the
map. -/
theorem extendHashMap_refused (hsized : Sized map) (hroom : HasRoom map)
    (hrefused : ExtensionRefused map m) :
    (∃ e m', (extendHashMap map).run m = .fault e m')
      ∨ ∃ map' m', (extendHashMap map).run m = .ok (-cxErrAlloc, map') m'
        ∧ Broken map map' := by
  unfold HasRoom innerMapSize at hroom
  unfold extendHashMap innerMapSize
  rw [if_neg (by omega), if_neg (by omega), C.run_bind]
  unfold C.reallocArray
  dsimp only
  by_cases harray : m.oracle m.tick = 0
  · rw [if_pos harray]
    exact Or.inl ⟨_, _, rfl⟩
  · rw [if_neg harray, C.chain_ok]
    dsimp only
    rw [C.run_bind]
    unfold C.allocArray
    dsimp only
    by_cases hkeys : m.oracle (m.tick + 1) = 0
    · rw [if_pos hkeys]
      exact Or.inr ⟨_, _, rfl, hsized.broken (fun _ h => by cases h)⟩
    · rw [if_neg hkeys, C.chain_ok]
      dsimp only
      rw [C.run_bind]
      have hinit := (hrefused.resolve_left harray).resolve_left hkeys
      rcases cxRcMapInit_refused (m := { m with
          tick := m.tick + 1 + 1
          arrays := (m.tick + 1) :: m.tick :: m.arrays.filter
            (fun i => some i ≠ map.hashMaps.map CArray.storage) }) hinit
        with ⟨e, m', hrun⟩ | ⟨array, m', hrun, hnone⟩
      · left
        rw [hrun]
        exact ⟨_, _, rfl⟩
      · right
        rw [hrun, C.chain_ok]
        refine ⟨_, _, rfl, hsized.broken fun array' h => ?_⟩
        cases h
        exact hnone

/-- The array is moved, the keys are refused: the put returns NULL. -/
theorem NeedsExtension.put_null (h : NeedsExtension map m key)
    (hroom : HasRoom map) (value : List Byte) (m' : Machine)
    (harray : m'.oracle m'.tick ≠ 0) (hkeys : m'.oracle (m'.tick + 1) = 0) :
    ∃ map₁ m₁, (cxRcHashMapPut map key value).run m' = .ok (0, map₁) m₁ := by
  obtain ⟨origIndex, hput⟩ := h.put value
  unfold HasRoom innerMapSize at hroom
  rw [hput, C.run_bind]
  unfold extendHashMap innerMapSize
  rw [if_neg (by omega), if_neg (by omega), C.run_bind]
  unfold C.reallocArray
  dsimp only
  rw [if_neg harray, C.chain_ok]
  dsimp only
  rw [C.run_bind]
  unfold C.allocArray
  dsimp only
  rw [if_pos hkeys]
  exact ⟨_, _, rfl⟩

/-- A failed extension is never survived. -/
theorem not_survives (hsized : Sized map) (hroom : HasRoom map)
    (hvalue : value.length = map.elementSize) (hneeds : NeedsExtension map m key)
    (hrefused : ExtensionRefused map m) : ¬ Survives map m key value := by
  intro hsurvives
  obtain ⟨map', m', hrun, hlike⟩ := hsurvives
  obtain ⟨origIndex, hput⟩ := hneeds.put value
  rw [hput, C.run_bind] at hrun
  rcases extendHashMap_refused hsized hroom hrefused with
    ⟨e, m₁, hfault⟩ | ⟨map₁, m₁, hextend, hbroken⟩
  · rw [hfault] at hrun
    cases hrun
  · rw [hextend, C.chain_ok] at hrun
    dsimp only at hrun
    rw [if_pos (by decide), C.run_pure] at hrun
    cases hrun
    -- the same put once more, and the allocator turns down the keys
    obtain ⟨map₂, m₂, hnull⟩ := hneeds.put_null hroom value { m with
        oracle := fun t => if t = m'.tick then 1 else 0, tick := m'.tick }
      (by simp) (by simp)
    have hcall : (callAll [.put key value] map).run { m with
        oracle := fun t => if t = m'.tick then 1 else 0, tick := m'.tick }
          = .ok ([0], map₂) m₂ := by
      unfold callAll HashCall.run
      rw [C.run_bind, C.run_bind, hnull]
      rfl
    obtain ⟨map₃, m₃, hagain, -⟩ := hlike _ [.put key value]
      (fun call hcall => by cases List.mem_singleton.mp hcall; exact hvalue)
      _ _ _ hcall
    obtain ⟨e, hfault⟩ := hbroken.put hsized hneeds value
      { m' with oracle := fun t => if t = m'.tick then 1 else 0 }
    unfold callAll HashCall.run at hagain
    rw [C.run_bind, C.run_bind, hfault] at hagain
    cases hagain

-- ============================================================ inner maps

theorem retainRc_size (array : CxRcMap) (index : Nat) :
    (retainRc array index).Ensures fun r => r.2.size = array.size := by
  unfold retainRc
  apply C.Ensures.after
  intro count
  apply C.Ensures.ite
  · exact .fail
  · apply C.Ensures.after
    intro _
    exact .pure rfl

theorem releaseRc_size (array : CxRcMap) (index : Nat) :
    (releaseRc array index).Ensures fun r => r.2.size = array.size := by
  unfold releaseRc
  apply C.Ensures.after
  intro count
  apply C.Ensures.ite
  · exact .fail
  · apply C.Ensures.after
    intro _
    exact .pure rfl

theorem cxRcMapRetain_size (array : CxRcMap) (index : Nat) :
    (cxRcMapRetain array index).Ensures fun r => r.2.size = array.size := by
  unfold cxRcMapRetain
  apply C.Ensures.after
  intro empty
  apply C.Ensures.ite
  · refine (retainRc_size array index).bind ?_
    intro r hr
    exact .pure hr
  · exact .pure rfl

theorem cxRcMapSet_size (array : CxRcMap) (index : Nat) (value : List Byte) :
    (cxRcMapSet array index value).Ensures fun r => r.2.size = array.size := by
  unfold cxRcMapSet
  apply C.Ensures.ite
  · exact .pure rfl
  · apply C.Ensures.after
    intro empty
    apply C.Ensures.ite
    · apply C.Ensures.after
      intro _
      exact cxRcMapRetain_size array index
    · apply C.Ensures.after
      intro _
      refine (retainRc_size array index).bind ?_
      intro r hr
      exact .pure hr

theorem cxRcMapReleaseIndex_size (array : CxRcMap) (index : Nat) :
    (cxRcMapReleaseIndex array index).Ensures
      fun r => r.2.size = array.size := by
  unfold cxRcMapReleaseIndex
  refine (releaseRc_size array index).bind ?_
  intro r hr
  apply C.Ensures.ite
  · apply C.Ensures.after
    intro value
    apply C.Ensures.after
    intro _
    exact .pure hr
  · exact .pure hr

theorem cxRcMapRelease_size (array : CxRcMap) (element : Nat) :
    (cxRcMapRelease array element).Ensures fun r => r.2.size = array.size := by
  unfold cxRcMapRelease
  apply C.Ensures.ite
  · exact .pure rfl
  · apply C.Ensures.after
    intro index
    exact cxRcMapReleaseIndex_size array index

theorem cxErrAlloc_ne : (-cxErrAlloc : Int) ≠ 0 := by decide

theorem cxRcMapInit_size (before : Option CxRcMap) (size elementSize : Nat) :
    (cxRcMapInit before size elementSize).Ensures fun r =>
      r.1 = 0 → ∃ values, r.2 = some values ∧ values.size = size := by
  unfold cxRcMapInit
  apply C.Ensures.after
  intro data
  apply C.Ensures.ite
  · cases before with
    | none => exact .fail
    | some array =>
        apply C.Ensures.after
        intro r
        exact .pure fun h => absurd h cxErrAlloc_ne
  · apply C.Ensures.after
    intro counts
    cases counts with
    | none =>
        apply C.Ensures.after
        intro r
        exact .pure fun h => absurd h cxErrAlloc_ne
    | some storage => exact .pure fun _ => ⟨_, rfl, rfl⟩

-- ==================================================================== runs

/-- `hash_maps[j]`, if anything was stored there. -/
def CxRcHashMap.cell (map : CxRcHashMap) (j : Nat) : Option CxRcHashMapInner :=
  map.hashMaps.bind fun maps => maps.cells[j]?.join

theorem run_innerAt_iff {j : Nat} {inner : CxRcHashMapInner} :
    (innerAt map j).run m = .ok inner m' ↔ map.cell j = some inner ∧ m = m' := by
  unfold innerAt CxRcHashMap.cell C.cell
  cases map.hashMaps with
  | none =>
      rw [Option.bind_none]
      exact ⟨nofun, fun h => nomatch h.1⟩
  | some maps =>
      dsimp only [Option.bind_some]
      rw [C.run_bind]
      cases hcell : maps.cells[j]? with
      | none => exact ⟨nofun, fun h => nomatch h.1⟩
      | some cell =>
          cases cell with
          | none => exact ⟨nofun, fun h => nomatch h.1⟩
          | some stored =>
              simp only [C.run_pure, C.chain_ok, Outcome.ok.injEq,
                Option.join_some, Option.some.injEq]

/-- The inner map has counters of `size` slots. -/
def CxRcHashMapInner.HasSize (size : Nat) (inner : CxRcHashMapInner) : Prop :=
  ∃ values, inner.values = some values ∧ values.size = size

/-- There is a cell for every inner map, and the first of them is whole. -/
structure Headed (size : Nat) (map : CxRcHashMap) : Prop where
  sized : Sized map
  slots : map.mapSize = size
  head : ∃ inner, map.cell 0 = some inner ∧ inner.HasSize size

namespace Headed

variable {size j : Nat} {inner : CxRcHashMapInner}

theorem innerAt (h : Headed size map) (j : Nat) :
    (innerAt map j).Ensures fun inner => j = 0 → inner.HasSize size := by
  refine ⟨fun m inner m' hrun hj => ?_⟩
  subst hj
  obtain ⟨hcell, -⟩ := run_innerAt_iff.mp hrun
  obtain ⟨first, hfirst, hsize⟩ := h.head
  rw [hfirst, Option.some.injEq] at hcell
  rw [← hcell]
  exact hsize

theorem valuesAt (h : Headed size map) (j : Nat) :
    (valuesAt map j).Ensures fun values => j = 0 → values.size = size := by
  unfold Collection.valuesAt
  refine (h.innerAt j).bind ?_
  intro inner hinner
  cases hvalues : inner.values with
  | none => exact .fail
  | some values =>
      refine .pure fun hj => ?_
      obtain ⟨values', hvalues', hsize⟩ := hinner hj
      rw [hvalues, Option.some.injEq] at hvalues'
      rw [hvalues']
      exact hsize

theorem setInner (h : Headed size map) (hinner : j = 0 → inner.HasSize size) :
    Headed size (map.setInner j inner) := by
  obtain ⟨hsized, hsize, first, hfirst, hhead⟩ := h
  unfold CxRcHashMap.cell at hfirst
  obtain ⟨maps, hmaps, hcell⟩ := Option.bind_eq_some_iff.mp hfirst
  rw [Option.join_eq_some_iff] at hcell
  unfold CxRcHashMap.setInner
  refine ⟨?_, hsize, ?_⟩
  · unfold Sized at hsized ⊢
    rw [hmaps, Option.map_some, Option.getD_some] at hsized
    rw [hmaps, Option.map_some, Option.map_some, Option.getD_some,
      List.length_set]
    exact hsized
  · unfold CxRcHashMap.cell
    rw [hmaps, Option.map_some, Option.bind_some]
    by_cases hj : j = 0
    · refine ⟨inner, ?_, hinner hj⟩
      rw [hj, List.getElem?_set_self (List.getElem?_eq_some_iff.mp hcell).1]
      rfl
    · refine ⟨first, ?_, hhead⟩
      rw [List.getElem?_set_ne hj, hcell]
      rfl

theorem setValues (h : Headed size map) (j : Nat) (values : CxRcMap)
    (hvalues : j = 0 → values.size = size) :
    (setValues map j values).Ensures (Headed size) := by
  unfold Collection.setValues
  apply C.Ensures.after
  intro inner
  exact .pure (h.setInner fun hj => ⟨values, rfl, hvalues hj⟩)

theorem setKey (h : Headed size map) (j index : Nat) (key : UInt64) :
    (setKey map j index key).Ensures (Headed size) := by
  unfold Collection.setKey
  apply C.Ensures.after
  intro word
  refine (h.innerAt j).bind ?_
  intro inner hinner
  exact .pure (h.setInner hinner)

/-- An operation on one inner map. -/
theorem slot (h : Headed size map) {α : Type} (j : Nat)
    {f : CxRcMap → C (α × CxRcMap)}
    (hf : ∀ values, (f values).Ensures fun r => r.2.size = values.size) :
    (do
      let values ← Collection.valuesAt map j
      let (a, values) ← f values
      let map ← Collection.setValues map j values
      pure (a, map)).Ensures fun r => Headed size r.2 := by
  refine (h.valuesAt j).bind ?_
  intro values hvalues
  refine (hf values).bind ?_
  intro r hr
  refine (h.setValues j r.2 fun hj => hr.trans (hvalues hj)).bind ?_
  intro map₁ h₁
  exact .pure h₁

theorem putAt (h : Headed size map) (j index : Nat) (key : UInt64)
    (value : List Byte) :
    (putAt map j index key value).Ensures fun r => Headed size r.2 := by
  unfold Collection.putAt
  refine (h.setKey j index key).bind ?_
  intro map₁ h₁
  exact h₁.slot j fun values => cxRcMapSet_size values index value

theorem grown (h : Headed size map) (storage : Nat)
    (inner : CxRcHashMapInner) : Headed size (grown map storage inner) := by
  obtain ⟨first, hfirst, hsize⟩ := h.head
  refine ⟨h.sized.grown storage inner, h.slots, first, ?_, hsize⟩
  have hrun := (run_innerAt_iff (m := .boot (fun _ => 0) fun _ => 0)).mpr
    ⟨hfirst, rfl⟩
  have hpos : 0 < map.hashMapCount := by
    obtain ⟨values, hvalues, -⟩ := hsize
    have hread : (Collection.valuesAt map 0).run (.boot (fun _ => 0) fun _ => 0)
        = .ok values (.boot (fun _ => 0) fun _ => 0) := by
      unfold Collection.valuesAt
      rw [C.run_bind, hrun, C.chain_ok, hvalues]
      rfl
    exact h.sized.count_pos hread
  have hold : Collection.innerAt (Collection.grown map storage inner) 0
      = Collection.innerAt map 0 := h.sized.cell_old hpos
  rw [← hold] at hrun
  exact (run_innerAt_iff.mp hrun).1

theorem extendHashMap (h : Headed size map) (hroom : HasRoom map) :
    (extendHashMap map).Ensures fun r => Headed size r.2 := by
  unfold HasRoom innerMapSize at hroom
  unfold Collection.extendHashMap innerMapSize
  rw [if_neg (by omega), if_neg (by omega)]
  apply C.Ensures.after
  intro storage
  cases storage with
  | none => exact .fail
  | some storage =>
      apply C.Ensures.after
      intro keys
      cases keys with
      | none => exact .pure (h.grown storage _)
      | some keys =>
          apply C.Ensures.after
          intro r
          exact .pure (h.grown storage _)

theorem put (h : Headed size map) (hroom : HasRoom map) (key : UInt64)
    (value : List Byte) :
    (cxRcHashMapPut map key value).Ensures fun r => Headed size r.2 := by
  unfold cxRcHashMapPut
  apply C.Ensures.after
  intro values
  apply C.Ensures.after
  intro origIndex
  apply C.Ensures.after
  intro found
  cases found with
  | some slot => exact h.putAt slot.1 slot.2 key value
  | none =>
      refine .bind (h.extendHashMap hroom) ?_
      intro r hr
      exact .ite (.pure hr) (hr.putAt _ _ _ _)

theorem retain (h : Headed size map) (key : UInt64) :
    (cxRcHashMapRetain map key).Ensures fun r => Headed size r.2 := by
  unfold cxRcHashMapRetain
  apply C.Ensures.after
  intro values
  apply C.Ensures.after
  intro index
  apply C.Ensures.after
  intro found
  cases found with
  | none => exact .pure h
  | some slot =>
      exact h.slot slot.1 fun values => cxRcMapRetain_size values slot.2

theorem release (h : Headed size map) (element : Nat) :
    (cxRcHashMapRelease map element).Ensures fun r => Headed size r.2 := by
  unfold cxRcHashMapRelease
  apply C.Ensures.after
  intro found
  cases found with
  | none => exact .pure h
  | some j => exact h.slot j fun values => cxRcMapRelease_size values element

theorem releaseKey (h : Headed size map) (key : UInt64) :
    (cxRcHashMapReleaseKey map key).Ensures fun r => Headed size r.2 := by
  unfold cxRcHashMapReleaseKey
  apply C.Ensures.after
  intro values
  apply C.Ensures.after
  intro index
  apply C.Ensures.after
  intro found
  cases found with
  | none => exact .pure h
  | some slot =>
      exact h.slot slot.1 fun values => cxRcMapReleaseIndex_size values slot.2

theorem call (h : Headed size map) (hroom : HasRoom map) (call : HashCall) :
    (call.run map).Ensures fun r => Headed size r.2 := by
  cases call with
  | put key value =>
      refine .bind (h.put hroom key value) ?_
      intro r hr
      exact .pure hr
  | retain key =>
      refine .bind (h.retain key) ?_
      intro r hr
      exact .pure hr
  | release element => exact h.release element
  | releaseKey key => exact h.releaseKey key

theorem exec (h : Headed size map) (hroom : HasRoom map) (call : HashCall) :
    (mapExec call map).Ensures (Headed size) := by
  unfold mapExec
  refine .bind (h.call hroom call) ?_
  intro r hr
  exact .pure hr

end Headed

/-- The first inner map of an init that succeeds is whole. -/
theorem cxRcHashMapInit_headed (size elementSize : Nat) :
    (cxRcHashMapInit size elementSize).Ensures fun r =>
      r.1 = 0 → Headed size r.2 := by
  unfold cxRcHashMapInit extendHashMap
  dsimp only
  rw [if_neg (by simp), if_neg (by simp [innerMapSize])]
  apply C.Ensures.after
  intro storage
  cases storage with
  | none => exact .fail
  | some storage =>
      apply C.Ensures.after
      intro keys
      cases keys with
      | none => exact .pure fun h => absurd h cxErrAlloc_ne
      | some keys =>
          refine (cxRcMapInit_size none size elementSize).bind ?_
          intro r hr
          exact .pure fun h => ⟨rfl, rfl, _, rfl, hr h⟩

theorem Headed.start (size elementSize : Nat) :
    (mapStart size elementSize).Ensures (Headed size) := by
  unfold mapStart
  refine (cxRcHashMapInit_headed size elementSize).bind ?_
  intro r hr
  refine (C.Ensures.assert _).bind ?_
  intro _ hrv
  exact .pure (hr hrv)

/-- Every run keeps the first inner map whole. -/
theorem HashCall.Run.headed {size elementSize : Nat} {mem : Mem}
    {oracle : Nat → Nat}
    (h : HashCall.Run size elementSize mem oracle map m) :
    Headed size map := by
  apply h.invariant fun map _ => Headed size map
  · intro map m hrun
    exact (Headed.start size elementSize).result _ _ _ hrun
  · intro map m call map' m' hheaded hop hrun
    exact (hheaded.exec hop.2 call).result _ _ _ hrun

/-- No hash map survives a put whose extension fails, in any state of any
run. -/
theorem cxRcHashMapPut_refused {size elementSize : Nat} {mem : Mem}
    {oracle : Nat → Nat}
    (h : HashCall.Run size elementSize mem oracle map m)
    (hvalue : value.length = map.elementSize) (hroom : HasRoom map)
    (hneeds : NeedsExtension map m key) (hrefused : ExtensionRefused map m) :
    ¬ Survives map m key value :=
  not_survives h.headed.sized hroom hvalue hneeds hrefused

/-- The state `ops` end in, if a put of `key` fails its extension there. -/
theorem run_of_tryFrom (oracle : Nat → Nat) (calls : List HashCall)
    (key : UInt64)
    (ht : (tryFrom (mapStart 1 1) mapExec
      (fun map _ call => call.Suits map.elementSize ∧ HasRoom map) calls
      (Machine.boot (fun _ => 0) oracle)).any (fun r =>
        decide (r.1.elementSize = 1 ∧ HasRoom r.1 ∧ NeedsExtension r.1 r.2 key
          ∧ ExtensionRefused r.1 r.2)) = true) :
    ∃ map m, HashCall.Run 1 1 (fun _ => 0) oracle map m
      ∧ map.elementSize = 1 ∧ HasRoom map ∧ NeedsExtension map m key
      ∧ ExtensionRefused map m := by
  obtain ⟨map, m, hrun, htest⟩ := steps_of_tryFrom _ _ _ _ calls _ ht
  exact ⟨map, m, hrun, of_decide_eq_true htest⟩

/-- One slot an inner map, and the counters of the second one refused. -/
theorem cxRcHashMapPut_refused_counters : ∃ map m,
    HashCall.Run 1 1 (fun _ => 0)
      (fun t => if t = 7 then 0 else 2 ^ 20 * (t + 1)) map m
      ∧ NeedsExtension map m 2 ∧ ExtensionRefused map m
      ∧ ¬ Survives map m 2 [22] := by
  obtain ⟨map, m, hrun, hsize, hroom, hneeds, hrefused⟩ := run_of_tryFrom
    (fun t => if t = 7 then 0 else 2 ^ 20 * (t + 1)) [.put 1 [11]] 2
    (by decide +kernel)
  exact ⟨map, m, hrun, hneeds, hrefused,
    cxRcHashMapPut_refused hrun hsize.symm hroom hneeds hrefused⟩

/-- The keys of the second inner map are refused. -/
theorem cxRcHashMap_lostKeys : ∃ map m,
    HashCall.Run 1 1 (fun _ => 0)
      (fun t => if t = 5 then 0 else 2 ^ 20 * (t + 1)) map m
      ∧ NeedsExtension map m 2 ∧ ExtensionRefused map m
      ∧ ¬ Survives map m 2 [22] := by
  obtain ⟨map, m, hrun, hsize, hroom, hneeds, hrefused⟩ := run_of_tryFrom
    (fun t => if t = 5 then 0 else 2 ^ 20 * (t + 1)) [.put 1 [11]] 2
    (by decide +kernel)
  exact ⟨map, m, hrun, hneeds, hrefused,
    not_survives hrun.headed.sized hroom hsize.symm hneeds hrefused⟩

end Cextras.Collection
