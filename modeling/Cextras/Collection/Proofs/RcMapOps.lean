/-
What the operations of the reference-counted array compute, one lemma an
operation. `tally` is an array whose counters are given by a function;
every operation takes such an array to another one, with one counter
changed. Addresses and indices of elements translate into each other as
long as the element block fits the address space (`Laid`).
-/
import Mathlib.Data.List.Basic
import Mathlib.Tactic.Linarith
import Cextras.Lib.Triple
import Cextras.Collection.RcMap

namespace Cextras.Collection

open Lib

/-- The array at `data` whose counter `i` is `refs i`. -/
def tally (data size elementSize storage : Nat) (refs : Nat → Nat) : CxRcMap where
  data := data
  size := size
  elementSize := elementSize
  refCount := some ⟨storage, (List.range size).map fun i => (refs i : Int)⟩

/-- Replacing an entry of a tabulated list is updating the function. -/
theorem set_map_range {α : Type} (n i : Nat) (f : Nat → α) (x : α) :
    ((List.range n).map f).set i x
      = (List.range n).map (Function.update f i x) := by
  refine List.ext_getElem (by simp) fun k hk _ => ?_
  rw [List.getElem_set, List.getElem_map, List.getElem_map, List.getElem_range,
    Function.update_apply]
  by_cases h : i = k
  · rw [if_pos h, if_pos h.symm]
  · rw [if_neg h, if_neg (Ne.symm h)]

/-- The entry of a tabulated list. -/
theorem getElem?_map_range {α : Type} {n i : Nat} (h : i < n) (f : Nat → α) :
    ((List.range n).map f)[i]? = some (f i) := by
  rw [List.getElem?_map, List.getElem?_range h, Option.map_some]

section Tally

variable {m : Machine} {data size elementSize storage i : Nat}
  {refs : Nat → Nat}

@[simp] theorem tally_elementSize :
    (tally data size elementSize storage refs).elementSize = elementSize := rfl

theorem tally_setRefCount {n : Nat} :
    (tally data size elementSize storage refs).setRefCount i (n : Int)
      = tally data size elementSize storage (Function.update refs i n) := by
  unfold tally CxRcMap.setRefCount
  rw [Option.map_some, set_map_range]
  congr 4
  funext k
  rw [Function.update_apply, Function.update_apply]
  split <;> rfl

theorem run_refCountAt (hi : i < size) :
    (refCountAt (tally data size elementSize storage refs) i).run m
      = .ok (refs i : Int) m := run_cell (getElem?_map_range hi _)

theorem run_cxRcMapIsEmpty (hi : i < size) :
    (cxRcMapIsEmpty (tally data size elementSize storage refs) i).run m
      = .ok (decide (refs i = 0)) m := by
  rw [cxRcMapIsEmpty, C.run_bind, run_refCountAt hi, C.chain_ok, C.run_pure]
  simp

theorem run_retainRc (hi : i < size) (hlt : refs i + 1 < 2 ^ 31) :
    (retainRc (tally data size elementSize storage refs) i).run m
      = .ok ((refs i + 1 : Nat), tally data size elementSize storage
          (Function.update refs i (refs i + 1))) m := by
  rw [retainRc, C.run_bind, run_refCountAt hi, C.chain_ok,
    if_neg (by simp only [intMax]; omega), C.run_bind,
    run_assert (by omega), C.chain_ok, C.run_pure, ← tally_setRefCount]
  rfl

theorem run_releaseRc (hi : i < size) (hpos : refs i ≠ 0) :
    (releaseRc (tally data size elementSize storage refs) i).run m
      = .ok ((refs i - 1 : Nat), tally data size elementSize storage
          (Function.update refs i (refs i - 1))) m := by
  have hcast : (refs i : Int) - 1 = ((refs i - 1 : Nat) : Int) := by omega
  rw [releaseRc, C.run_bind, run_refCountAt hi, C.chain_ok,
    if_neg (by simp only [intMax]; omega), C.run_bind,
    run_assert (by omega), C.chain_ok, C.run_pure, hcast, tally_setRefCount]

end Tally

-- =============================================================== layout

/-- The element block: non-empty elements, inside the address space, off
the null pointer. -/
structure Laid (data size elementSize : Nat) : Prop where
  element : 0 < elementSize
  base : 0 < data
  fits : data + size * elementSize < 2 ^ 64

section Laid

variable {m : Machine} {data size elementSize storage i : Nat}
  {refs : Nat → Nat}

/-- An element ends inside the block. -/
theorem element_le (elementSize : Nat) (hi : i < size) :
    i * elementSize + elementSize ≤ size * elementSize := by
  have hmul : (i + 1) * elementSize ≤ size * elementSize :=
    Nat.mul_le_mul_right _ hi
  rwa [Nat.succ_mul] at hmul

theorem getElement_eq (h : Laid data size elementSize) (hi : i < size) :
    getElement (tally data size elementSize storage refs) i
      = data + i * elementSize := by
  have hle := element_le elementSize hi
  have hfits := h.fits
  exact if_neg (by simp only [tally]; omega)

theorem getElement_ne_zero (h : Laid data size elementSize) :
    data + i * elementSize ≠ 0 := by
  have := h.base
  omega

theorem run_elementIndex (h : Laid data size elementSize) (hi : i < size) :
    (elementIndex (tally data size elementSize storage refs)
      (data + i * elementSize)).run m = .ok i m := by
  have hle := element_le elementSize hi
  have hfits := h.fits
  have helem := h.element
  have hoff : (data + i * elementSize + 2 ^ 64 - data) % 2 ^ 64
      = i * elementSize := by
    rw [show data + i * elementSize + 2 ^ 64 - data
      = i * elementSize + 2 ^ 64 by omega, Nat.add_mod_right,
      Nat.mod_eq_of_lt (by omega)]
  unfold elementIndex
  rw [if_neg (by simp only [tally]; omega), C.run_pure]
  simp only [tally]
  rw [hoff, Nat.mul_div_cancel _ helem]

/-- The array owns the addresses of its elements. -/
theorem cxRcMapContains_self (h : Laid data size elementSize) (hi : i < size) :
    cxRcMapContains (tally data size elementSize storage refs)
      (data + i * elementSize) = true := by
  have hle := element_le elementSize hi
  have hfits := h.fits
  have helem := h.element
  have hbase := h.base
  refine decide_eq_true ?_
  simp only [tally]
  rw [Nat.mod_eq_of_lt (by omega)]
  omega

/-- The array does not own addresses outside its block. -/
theorem cxRcMapContains_other (h : Laid data size elementSize) {a : Nat}
    (ha : a < data ∨ data + size * elementSize ≤ a) :
    cxRcMapContains (tally data size elementSize storage refs) a = false := by
  have hfits := h.fits
  refine decide_eq_false ?_
  simp only [tally]
  rw [Nat.mod_eq_of_lt (by omega)]
  omega

-- ============================================================ operations

/-- The machine after the callback ran on a value. -/
def called (m : Machine) (v : List Byte) : Machine :=
  { m with calls := m.calls ++ [v] }

/-- The machine after a value was copied to an address. -/
def wrote (m : Machine) (a : Nat) (v : List Byte) : Machine :=
  { m with mem := m.mem.write a v }

theorem run_cxRcMapRetain (h : Laid data size elementSize) (hi : i < size)
    (hlive : refs i ≠ 0) (hlt : refs i + 1 < 2 ^ 31) :
    (cxRcMapRetain (tally data size elementSize storage refs) i).run m
      = .ok (data + i * elementSize, tally data size elementSize storage
          (Function.update refs i (refs i + 1))) m := by
  rw [cxRcMapRetain, C.run_bind, run_cxRcMapIsEmpty hi, C.chain_ok,
    if_pos (by simpa using hlive), C.run_bind, run_retainRc hi hlt, C.chain_ok,
    C.run_pure, getElement_eq h hi]

theorem run_cxRcMapRetain_empty (hi : i < size) (hdead : refs i = 0) :
    (cxRcMapRetain (tally data size elementSize storage refs) i).run m
      = .ok (0, tally data size elementSize storage refs) m := by
  rw [cxRcMapRetain, C.run_bind, run_cxRcMapIsEmpty hi, C.chain_ok,
    if_neg (by simpa using hdead), C.run_pure]

/-- Setting a live element: the value is cleaned up, the stored one
retained. -/
theorem run_cxRcMapSet_live (h : Laid data size elementSize) (hi : i < size)
    (hlive : refs i ≠ 0) (hlt : refs i + 1 < 2 ^ 31) (v : List Byte) :
    (cxRcMapSet (tally data size elementSize storage refs) i v).run m
      = .ok (data + i * elementSize, tally data size elementSize storage
          (Function.update refs i (refs i + 1))) (called m v) := by
  rw [cxRcMapSet, getElement_eq h hi, if_neg (getElement_ne_zero h), C.run_bind,
    run_cxRcMapIsEmpty hi, C.chain_ok, if_pos (by simpa using hlive), C.run_bind,
    run_callback, C.chain_ok, run_cxRcMapRetain h hi hlive hlt]
  rfl

/-- Setting an empty element stores the value. -/
theorem run_cxRcMapSet_empty (h : Laid data size elementSize) (hi : i < size)
    (hdead : refs i = 0) {v : List Byte} (hv : v.length = elementSize)
    (hvalid : m.Valid (data + i * elementSize) elementSize) :
    (cxRcMapSet (tally data size elementSize storage refs) i v).run m
      = .ok (data + i * elementSize, tally data size elementSize storage
          (Function.update refs i 1)) (wrote m (data + i * elementSize) v) := by
  have htake : v.take (tally data size elementSize storage refs).elementSize
      = v := List.take_of_length_le (by simp only [tally]; omega)
  rw [cxRcMapSet, getElement_eq h hi, if_neg (getElement_ne_zero h), C.run_bind,
    run_cxRcMapIsEmpty hi, C.chain_ok, if_neg (by simpa using hdead), C.run_bind,
    htake, run_writeBytes (by rw [hv]; exact hvalid), C.chain_ok, C.run_bind,
    run_retainRc hi (by omega), C.chain_ok, C.run_pure, hdead]
  rfl

/-- Releasing one of several references. -/
theorem run_cxRcMapReleaseIndex (hi : i < size) (hpos : refs i ≠ 0)
    (hmore : refs i ≠ 1) :
    (cxRcMapReleaseIndex (tally data size elementSize storage refs) i).run m
      = .ok (0, tally data size elementSize storage
          (Function.update refs i (refs i - 1))) m := by
  rw [cxRcMapReleaseIndex, C.run_bind, run_releaseRc hi hpos, C.chain_ok]
  dsimp only
  rw [if_neg (by omega), C.run_pure]

/-- Releasing the last reference cleans the value up. -/
theorem run_cxRcMapReleaseIndex_last (h : Laid data size elementSize)
    (hi : i < size) (hlast : refs i = 1)
    (hvalid : m.Valid (data + i * elementSize) elementSize) :
    (cxRcMapReleaseIndex (tally data size elementSize storage refs) i).run m
      = .ok (0, tally data size elementSize storage (Function.update refs i 0))
          (called m (m.mem.read (data + i * elementSize) elementSize)) := by
  rw [cxRcMapReleaseIndex, C.run_bind, run_releaseRc hi (by omega), C.chain_ok]
  dsimp only
  rw [if_pos (by omega), getElement_eq h hi, tally_elementSize, C.run_bind,
    run_readBytes hvalid,
    C.chain_ok, C.run_bind, run_callback, C.chain_ok, C.run_pure, hlast]
  rfl

/-- Releasing by address is releasing by index. -/
theorem run_cxRcMapRelease (h : Laid data size elementSize) (hi : i < size) :
    (cxRcMapRelease (tally data size elementSize storage refs)
      (data + i * elementSize)).run m
      = (cxRcMapReleaseIndex (tally data size elementSize storage refs) i).run
          m := by
  rw [cxRcMapRelease, if_neg (getElement_ne_zero h), C.run_bind,
    run_elementIndex h hi, C.chain_ok]

end Laid

/-- A granted init is an array of empty elements in a fresh block. -/
theorem cxRcMapInit_granted (m : Machine) (before : Option CxRcMap)
    (size elementSize : Nat) :
    (cxRcMapInit before size elementSize).Granted m fun r m' =>
      r.1 = 0 ∧ ∃ data storage,
        r.2 = some (tally data size elementSize storage fun _ => 0)
          ∧ ∃ hf : m.arena.Fits ⟨data, size * elementSize⟩,
            m'.arena = m.arena.add _ hf ∧ m'.calls = m.calls
              ∧ m'.mem = m.mem.zero data (size * elementSize) := by
  unfold cxRcMapInit
  refine granted_bind (granted_calloc (Q := fun a m₁ =>
    ∃ hf : m.arena.Fits ⟨a, size * elementSize⟩,
      m₁.arena = m.arena.add _ hf ∧ m₁.calls = m.calls
        ∧ m₁.mem = m.mem.zero a (size * elementSize))
    fun hf => ⟨hf, rfl, rfl, rfl⟩) ?_
  rintro data m₁ ⟨hf, harena, hcalls, hmem⟩
  rw [if_neg (Nat.pos_iff_ne_zero.mp hf.1.1)]
  refine granted_bind (granted_allocArray (Q := fun r m₂ =>
    r = some m₁.tick ∧ m₂.mem = m₁.mem ∧ m₂.arena = m₁.arena
      ∧ m₂.calls = m₁.calls) ⟨rfl, rfl, rfl, rfl⟩) ?_
  rintro _ m₂ ⟨rfl, hmem₂, harena₂, hcalls₂⟩
  refine granted_pure ⟨rfl, data, m₁.tick, ?_, hf, harena₂.trans harena,
    hcalls₂.trans hcalls, hmem₂.trans hmem⟩
  rw [tally, List.map_const', List.length_range]
  rfl

end Cextras.Collection
