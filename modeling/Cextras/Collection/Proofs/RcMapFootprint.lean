/-
What a reference-counted array owns: its element block and the storage of
its counters. It takes both when it is set up and keeps them, whatever is
counted, until its cleanup, which gives them back if no counter is left.
-/
import Cextras.Lib.Footprint
import Cextras.Collection.RcMap

namespace Cextras.Collection

open Lib

variable {array : CxRcMap} {f : Footprint}

def CxRcMap.footprint (array : CxRcMap) : Footprint :=
  .block ⟨array.data, array.size * array.elementSize⟩
    + .storage (array.refCount.map CArray.storage)

theorem CxRcMap.footprint_setRefCount (index : Nat) (count : Int) :
    (array.setRefCount index count).footprint = array.footprint := by
  unfold footprint setRefCount
  cases array.refCount with
  | none => rfl
  | some counts => rfl

/-- The array a computation returns owns what the array owned. -/
abbrev CxRcMap.Kept {α : Type} (array : CxRcMap) (x : C (α × CxRcMap)) : Prop :=
  x.Stays fun r => r.2.footprint = array.footprint

-- ============================================================ operations

theorem refCountAt_still (index : Nat) : (refCountAt array index).Still := by
  unfold refCountAt
  cases array.refCount with
  | none => exact .fail _
  | some counts => exact (C.Stays.cell _ _).still

theorem cxRcMapIsEmpty_still (index : Nat) :
    (cxRcMapIsEmpty array index).Still :=
  .bind (refCountAt_still index) fun _ _ => .pure trivial

theorem elementIndex_still (element : Nat) :
    (elementIndex array element).Still := by
  unfold elementIndex
  exact .ite (fun _ => .fail _) fun _ => .pure trivial

theorem retainRc_kept (index : Nat) : array.Kept (retainRc array index) := by
  unfold retainRc
  refine .bind (refCountAt_still index) fun count _ => ?_
  refine .ite (fun _ => .fail _) fun _ => .bind (.assert _) fun _ _ => ?_
  exact .pure (CxRcMap.footprint_setRefCount _ _)

theorem releaseRc_kept (index : Nat) : array.Kept (releaseRc array index) := by
  unfold releaseRc
  refine .bind (refCountAt_still index) fun count _ => ?_
  refine .ite (fun _ => .fail _) fun _ => .bind (.assert _) fun _ _ => ?_
  exact .pure (CxRcMap.footprint_setRefCount _ _)

theorem cxRcMapRetain_kept (index : Nat) :
    array.Kept (cxRcMapRetain array index) := by
  unfold cxRcMapRetain
  refine .bind (cxRcMapIsEmpty_still index) fun _ _ => ?_
  refine .ite (fun _ => ?_) fun _ => .pure rfl
  exact .bind (retainRc_kept index) fun r hr => .pure hr

theorem cxRcMapSet_kept (index : Nat) (value : List Byte) :
    array.Kept (cxRcMapSet array index value) := by
  unfold cxRcMapSet
  refine .ite (fun _ => .pure rfl) fun _ => ?_
  refine .bind (cxRcMapIsEmpty_still index) fun _ _ => .ite (fun _ => ?_)
    fun _ => ?_
  · exact .bind (.callback _) fun _ _ => cxRcMapRetain_kept index
  · refine .bind (.writeBytes _ _) fun _ _ => ?_
    exact .bind (retainRc_kept index) fun r hr => .pure hr

theorem cxRcMapReleaseIndex_kept (index : Nat) :
    array.Kept (cxRcMapReleaseIndex array index) := by
  unfold cxRcMapReleaseIndex
  refine .bind (releaseRc_kept index) fun r hr => ?_
  refine .ite (fun _ => ?_) fun _ => .pure hr
  refine .bind (.readBytes _ _) fun value _ => ?_
  exact .bind (.callback _) fun _ _ => .pure hr

theorem cxRcMapRelease_kept (element : Nat) :
    array.Kept (cxRcMapRelease array element) := by
  unfold cxRcMapRelease
  refine .ite (fun _ => .pure rfl) fun _ => ?_
  exact .bind (elementIndex_still element)
    fun index _ => cxRcMapReleaseIndex_kept index

-- ===================================================== setup and cleanup

/-- A granted array owns what it asked for. -/
theorem cxRcMapInit_turns {size elementSize : Nat}
    (hpos : 0 < size * elementSize) :
    (cxRcMapInit none size elementSize).Turns True f fun r g =>
      ∃ array, r = (0, some array) ∧ g = f + array.footprint := by
  unfold cxRcMapInit
  refine turns_bind (turns_calloc hpos) ?_
  intro data g hr
  rcases hr with ⟨hG, -⟩ | ⟨hne, -, rfl⟩
  · exact absurd trivial hG
  rw [if_neg hne]
  refine turns_bind turns_allocArray ?_
  intro s g hr
  rcases hr with ⟨hG, -⟩ | ⟨storage, rfl, rfl⟩
  · exact absurd trivial hG
  exact turns_pure ⟨_, rfl, add_assoc _ _ _⟩

theorem cxRcMapCleanup_frees {counts : CArray Int}
    (hcounts : array.refCount = some counts)
    (hzero : ∀ count ∈ counts.cells.take array.size, count = 0) :
    (cxRcMapCleanup array).Frees array.footprint := by
  have hassert : ∀ m, (C.assert (∀ count ∈ counts.cells.take array.size,
      count = 0)).run m = .ok () m := fun m => run_assert hzero
  unfold cxRcMapCleanup CxRcMap.footprint
  simp only [hcounts]
  refine frees_after hassert ?_
  rw [add_comm]
  refine frees_bind (frees_free ⟨array.data, _⟩) fun _ => ?_
  have hlast := frees_bind (frees_freeArray (some counts.storage)) fun _ =>
    frees_pure ((0, { array with data := 0, refCount := none, size := 0 })
      : Int × CxRcMap)
  rwa [zero_add] at hlast

end Cextras.Collection
