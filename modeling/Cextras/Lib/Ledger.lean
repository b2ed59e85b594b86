/-
The account of a reference-counted store, kept apart from any store:
which handles are live and with how many references, which of the values
handed in each live handle keeps, and which values were cleaned up, in
order. A `Ledger` is balanced by construction: every value handed in is
either cleaned up once or kept by one live handle (`settled`), so a
store whose callback log equals the ledger's `log` cleans up each value
at most once, and exactly once when the references on it are gone
(`cleaned_count`).
-/
import Mathlib.Data.List.Nodup
import Mathlib.Data.List.Perm.Basic
import Mathlib.Data.List.Range
import Mathlib.Logic.Function.Basic

namespace Cextras.Lib

variable {κ α : Type} [DecidableEq κ]

structure Ledger (κ α : Type) [DecidableEq κ] where
  refs : κ → Nat
  live : List κ
  /-- the number of the value a live handle keeps -/
  origin : κ → Nat
  /-- the values handed in, oldest first -/
  values : List α
  /-- the numbers of the values cleaned up, oldest first -/
  cleaned : List Nat
  nodup : live.Nodup
  mem_live : ∀ k, k ∈ live ↔ refs k ≠ 0
  settled : (cleaned ++ live.map origin).Perm (List.range values.length)

namespace Ledger

/-- Nothing handed in yet. -/
def empty : Ledger κ α where
  refs := fun _ => 0
  live := []
  origin := fun _ => 0
  values := []
  cleaned := []
  nodup := List.nodup_nil
  mem_live := by simp
  settled := List.Perm.refl _

/-- The value a handle keeps. -/
def stored (l : Ledger κ α) (k : κ) : Option α := l.values[l.origin k]?

/-- The values cleaned up, oldest first. -/
def log (l : Ledger κ α) : List α := l.cleaned.filterMap (l.values[·]?)

-- ============================================================ operations

/-- Hand in a value under a handle that is not live: the handle keeps it. -/
def store (l : Ledger κ α) (k : κ) (v : α) (h : l.refs k = 0) :
    Ledger κ α where
  refs := Function.update l.refs k 1
  live := k :: l.live
  origin := Function.update l.origin k l.values.length
  values := l.values ++ [v]
  cleaned := l.cleaned
  nodup := List.nodup_cons.mpr ⟨fun hk => (l.mem_live k).mp hk h, l.nodup⟩
  mem_live := fun k' => by
    rw [List.mem_cons, l.mem_live, Function.update_apply]
    by_cases hk : k' = k <;> simp [hk]
  settled := by
    have hk : k ∉ l.live := fun hk => (l.mem_live k).mp hk h
    have hmap : l.live.map (Function.update l.origin k l.values.length)
        = l.live.map l.origin := List.map_congr_left fun x hx =>
      Function.update_of_ne (fun hxk : x = k => hk (hxk ▸ hx)) _ _
    rw [List.map_cons, hmap, Function.update_self, List.length_append,
      List.length_singleton, List.range_succ]
    exact List.perm_middle.trans
      ((l.settled.cons _).trans (List.perm_append_singleton _ _).symm)

/-- Hand in a value under a live handle: it is cleaned up, and the handle
gets a reference. -/
def reject (l : Ledger κ α) (k : κ) (v : α) (h : l.refs k ≠ 0) :
    Ledger κ α where
  refs := Function.update l.refs k (l.refs k + 1)
  live := l.live
  origin := l.origin
  values := l.values ++ [v]
  cleaned := l.cleaned ++ [l.values.length]
  nodup := l.nodup
  mem_live := fun k' => by
    rw [l.mem_live, Function.update_apply]
    by_cases hk : k' = k <;> simp [hk, h]
  settled := by
    rw [List.append_assoc, List.singleton_append, List.length_append,
      List.length_singleton, List.range_succ]
    exact List.perm_middle.trans
      ((l.settled.cons _).trans (List.perm_append_singleton _ _).symm)

/-- Hand in a value under a handle. -/
def put (l : Ledger κ α) (k : κ) (v : α) : Ledger κ α :=
  if h : l.refs k = 0 then l.store k v h else l.reject k v h

/-- One more reference on a live handle. -/
def retain (l : Ledger κ α) (k : κ) : Ledger κ α :=
  if h : l.refs k = 0 then l else
    { l with
      refs := Function.update l.refs k (l.refs k + 1)
      mem_live := fun k' => by
        rw [l.mem_live, Function.update_apply]
        by_cases hk : k' = k <;> simp [hk, h] }

/-- The last reference on a handle goes, and what it keeps is cleaned
up. -/
def drop (l : Ledger κ α) (k : κ) (h : l.refs k ≠ 0) : Ledger κ α where
  refs := Function.update l.refs k 0
  live := l.live.erase k
  origin := l.origin
  values := l.values
  cleaned := l.cleaned ++ [l.origin k]
  nodup := l.nodup.erase k
  mem_live := fun k' => by
    rw [l.nodup.mem_erase_iff, l.mem_live, Function.update_apply]
    by_cases hk : k' = k <;> simp [hk]
  settled := by
    have hk := List.perm_cons_erase ((l.mem_live k).mpr h)
    rw [List.append_assoc, List.singleton_append, ← List.map_cons]
    exact (List.Perm.append_left _ (hk.symm.map l.origin)).trans l.settled

/-- One reference less on a live handle. -/
def release (l : Ledger κ α) (k : κ) : Ledger κ α :=
  if h : l.refs k = 0 then l
  else if h1 : l.refs k = 1 then l.drop k h
  else
    { l with
      refs := Function.update l.refs k (l.refs k - 1)
      mem_live := fun k' => by
        rw [l.mem_live, Function.update_apply]
        by_cases hk : k' = k
        · subst hk
          simp only [if_true]
          omega
        · simp [hk] }

-- ============================================================= the balance

variable {l : Ledger κ α} {k k' : κ} {v : α}

/-- Every value handed in is cleaned up once, or kept by one live
handle, and not both. -/
theorem cleaned_count (l : Ledger κ α) {i : Nat} (hi : i < l.values.length) :
    l.cleaned.count i + (l.live.map l.origin).count i = 1 := by
  rw [← List.count_append, l.settled.count_eq]
  exact List.count_eq_one_of_mem List.nodup_range (List.mem_range.mpr hi)

/-- What was cleaned up had been handed in. -/
theorem cleaned_lt (l : Ledger κ α) {i : Nat} (hi : i ∈ l.cleaned) :
    i < l.values.length :=
  List.mem_range.mp (l.settled.mem_iff.mp (List.mem_append_left _ hi))

/-- A live handle keeps a value that was handed in. -/
theorem origin_lt (h : l.refs k ≠ 0) : l.origin k < l.values.length :=
  List.mem_range.mp (l.settled.mem_iff.mp (List.mem_append_right _
    (List.mem_map_of_mem ((l.mem_live k).mpr h))))

/-- What a live handle keeps has not been cleaned up. -/
theorem origin_not_cleaned (h : l.refs k ≠ 0) : l.origin k ∉ l.cleaned := by
  intro hmem
  have hlive : l.origin k ∈ l.live.map l.origin :=
    List.mem_map_of_mem ((l.mem_live k).mpr h)
  have hcount := l.cleaned_count (origin_lt h)
  have h1 := List.count_pos_iff.mpr hmem
  have h2 := List.count_pos_iff.mpr hlive
  omega

/-- Values handed in later do not change what the log says. -/
theorem filterMap_append_values (l : Ledger κ α) (v : α) :
    l.cleaned.filterMap ((l.values ++ [v])[·]?) = l.log :=
  List.filterMap_congr fun _ hi => List.getElem?_append_left (l.cleaned_lt hi)

theorem refs_eq_zero_of_live (h : l.live = []) : l.refs k = 0 := by
  by_contra hne
  have hk := (l.mem_live k).mpr hne
  rw [h] at hk
  cases hk

/-- Looking up every index of a list. -/
theorem filterMap_range_getElem? (xs : List α) :
    (List.range xs.length).filterMap (xs[·]?) = xs := by
  induction xs with
  | nil => rfl
  | cons x xs ih =>
      rw [List.length_cons, List.range_succ_eq_map, List.filterMap_cons,
        List.filterMap_map]
      exact congrArg (x :: ·) ih

/-- With no reference left, every value handed in was cleaned up once. -/
theorem log_perm_values (h : ∀ k, l.refs k = 0) : l.log.Perm l.values := by
  have hlive : l.live = [] :=
    List.eq_nil_iff_forall_not_mem.mpr fun k hk => (l.mem_live k).mp hk (h k)
  have hperm := l.settled
  rw [hlive, List.map_nil, List.append_nil] at hperm
  have hlog := hperm.filterMap (l.values[·]?)
  rwa [filterMap_range_getElem?] at hlog

-- ================================================================== views

@[simp] theorem refs_empty (k : κ) : (empty : Ledger κ α).refs k = 0 := rfl

@[simp] theorem log_empty : (empty : Ledger κ α).log = [] := rfl

theorem refs_put (l : Ledger κ α) (k k' : κ) (v : α) :
    (l.put k v).refs k' = if k' = k then l.refs k + 1 else l.refs k' := by
  unfold put
  split
  · next h =>
      rw [h]
      exact Function.update_apply _ _ _ _
  · exact Function.update_apply _ _ _ _

theorem refs_retain (h : l.refs k ≠ 0) :
    (l.retain k).refs k' = if k' = k then l.refs k + 1 else l.refs k' := by
  unfold retain
  rw [dif_neg h]
  exact Function.update_apply _ _ _ _

theorem refs_release (h : l.refs k ≠ 0) :
    (l.release k).refs k' = if k' = k then l.refs k - 1 else l.refs k' := by
  unfold release
  rw [dif_neg h]
  split
  · next h1 =>
      rw [h1]
      exact Function.update_apply _ _ _ _
  · exact Function.update_apply _ _ _ _

theorem retain_dead (h : l.refs k = 0) : l.retain k = l := dif_pos h

theorem release_dead (h : l.refs k = 0) : l.release k = l := dif_pos h

/-- A handle that was not live keeps the value handed in. -/
theorem stored_put_self (h : l.refs k = 0) : (l.put k v).stored k = some v := by
  rw [put, dif_pos h, stored, store]
  dsimp only
  rw [Function.update_self]
  exact List.getElem?_concat_length

/-- A live handle keeps what it kept. -/
theorem stored_put (hk' : l.refs k' ≠ 0) :
    (l.put k v).stored k' = l.stored k' := by
  unfold put stored
  split
  · next h =>
      have hne : k' ≠ k := fun heq => hk' (heq ▸ h)
      dsimp only [store]
      rw [Function.update_of_ne hne]
      exact List.getElem?_append_left (origin_lt hk')
  · exact List.getElem?_append_left (origin_lt hk')

@[simp] theorem stored_retain : (l.retain k).stored k' = l.stored k' := by
  unfold retain
  split <;> rfl

@[simp] theorem stored_release : (l.release k).stored k' = l.stored k' := by
  unfold release
  split
  · rfl
  · split <;> rfl

theorem log_put_dead (h : l.refs k = 0) : (l.put k v).log = l.log := by
  rw [put, dif_pos h]
  exact l.filterMap_append_values v

theorem log_put_live (h : l.refs k ≠ 0) : (l.put k v).log = l.log ++ [v] := by
  rw [put, dif_neg h, log, reject, List.filterMap_append,
    l.filterMap_append_values v]
  simp

@[simp] theorem log_retain : (l.retain k).log = l.log := by
  unfold retain
  split <;> rfl

theorem log_release_last (h : l.refs k = 1) (hv : l.stored k = some v) :
    (l.release k).log = l.log ++ [v] := by
  have hne : l.refs k ≠ 0 := by omega
  rw [release, dif_neg hne, dif_pos h, log, drop, List.filterMap_append, log]
  rw [stored] at hv
  simp [hv]

theorem log_release_more (h : l.refs k ≠ 1) : (l.release k).log = l.log := by
  unfold release
  simp only [dif_neg h]
  split
  · rfl
  · rfl

end Ledger

end Cextras.Lib
