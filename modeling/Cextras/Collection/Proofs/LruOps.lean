/-
The LRU cache as a queue. The window of the ring (Lib/Ring.lean) lists
the keys from the oldest to the newest; a touch either leaves the queue
alone (`Idle`: the cache has no entries, or the key is at one of its
ends) or releases the key in front and appends the new one. The cleanup
releases the entries in ring order.
-/
import Cextras.Lib.Ring
import Cextras.Lib.Triple
import Cextras.Collection.Lru

namespace Cextras.Collection

open Lib

variable {β : Type} {lru : CxLru β} {w : List UInt64} {k old : UInt64}
  {m : Machine} {backend : β}

/-- The entries of the ring, in ring order. -/
def CxLru.cells (lru : CxLru β) : List UInt64 :=
  (lru.items.map CArray.cells).getD []

/-- The keys in the ring, from the oldest to the newest. -/
def CxLru.queue {β : Type} (lru : CxLru β) : List UInt64 :=
  window lru.cells lru.ringIndex

/-- The cache's queue. -/
structure Queue (lru : CxLru β) (w : List UInt64) : Prop where
  size : lru.size = lru.cells.length
  cursor : lru.size ≠ 0 → lru.ringIndex < lru.size
  window : window lru.cells lru.ringIndex = w

/-- A touch of the key changes nothing. -/
def Idle (w : List UInt64) (k : UInt64) : Prop :=
  w = [] ∨ w.head? = some k ∨ w.getLast? = some k

instance Idle.decidable (w : List UInt64) (k : UInt64) : Decidable (Idle w k) :=
  inferInstanceAs (Decidable (_ ∨ _ ∨ _))

/-- A touch that is not idle evicts the oldest entry, another key. -/
theorem cons_of_not_idle (hidle : ¬ Idle w k) :
    ∃ old rest, w = old :: rest ∧ k ≠ old := by
  cases w with
  | nil => exact absurd (Or.inl rfl) hidle
  | cons old rest =>
      refine ⟨old, rest, rfl, ?_⟩
      intro heq
      exact hidle (Or.inr (Or.inl (congrArg some heq.symm)))

theorem run_itemAt {i : Nat} (h : lru.cells[i]? = some k) :
    (itemAt lru i).run m = .ok k m := by
  unfold CxLru.cells at h
  unfold itemAt
  cases hitems : lru.items with
  | none =>
      rw [hitems] at h
      cases h
  | some items =>
      rw [hitems] at h
      exact run_cell h

theorem cells_setItem {i : Nat} :
    (lru.setItem i k).cells = lru.cells.set i k := by
  unfold CxLru.cells CxLru.setItem
  cases lru.items with
  | none => rfl
  | some items => rfl

/-- A granted init is a queue of empty entries. -/
theorem cxLruInit_granted (m : Machine) (size : Nat)
    (impl : CxLruBackendImpl β) :
    (cxLruInit size impl).Granted m fun r m' => r.1 = 0 ∧ r.2.impl = impl
      ∧ Queue r.2 (List.replicate size emptyMarker) ∧ m'.mem = m.mem
      ∧ m'.arena = m.arena ∧ m'.calls = m.calls := by
  unfold cxLruInit
  by_cases hsize : size = 0
  · subst hsize
    rw [if_pos rfl]
    exact granted_pure ⟨rfl, rfl, ⟨rfl, fun h0 => absurd rfl h0, rfl⟩, rfl, rfl,
      rfl⟩
  · rw [if_neg hsize]
    refine granted_bind (granted_allocArray (Q := fun r m₁ => r = some m.tick
      ∧ m₁.mem = m.mem ∧ m₁.arena = m.arena ∧ m₁.calls = m.calls)
      ⟨rfl, rfl, rfl, rfl⟩) ?_
    rintro _ m₁ ⟨rfl, hmem, harena, hcalls⟩
    refine granted_pure ⟨rfl, rfl, ⟨?_, ?_, ?_⟩, hmem, harena, hcalls⟩
    · exact List.length_replicate.symm
    · exact fun _ => Nat.pos_of_ne_zero hsize
    · exact List.rotate_replicate ..

/-- An init that succeeds leaves a queue. -/
theorem cxLruInit_returned {size : Nat} {impl : CxLruBackendImpl β}
    {m' : Machine} (hrun : (cxLruInit size impl).run m = .ok (0, lru) m') :
    lru.impl = impl ∧ ∃ w, Queue lru w := by
  unfold cxLruInit at hrun
  by_cases hsize : size = 0
  · rw [if_pos hsize] at hrun
    cases hrun
    exact ⟨rfl, [], hsize, fun h0 => absurd hsize h0, rfl⟩
  · rw [if_neg hsize] at hrun
    obtain ⟨storage, m₁, -, hpure⟩ := bind_cases hrun
    cases storage with
    | none =>
        rw [C.run_pure, Outcome.ok.injEq, Prod.mk.injEq] at hpure
        exact absurd hpure.1.1 (by decide)
    | some storage =>
        cases hpure
        exact ⟨rfl, _, List.length_replicate.symm,
          fun _ => Nat.pos_of_ne_zero hsize, rfl⟩

namespace Queue

theorem self (h : Queue lru w) : Queue lru lru.queue :=
  ⟨h.size, h.cursor, rfl⟩

theorem length (h : Queue lru w) : lru.size = w.length := by
  rw [← h.window, window_length, h.size]

/-- The entries are those of the queue. -/
theorem perm (h : Queue lru w) : w.Perm lru.cells := h.window ▸ window_perm

theorem cells_ne_nil (h : Queue lru w) (hw : w ≠ []) : lru.cells ≠ [] := by
  intro hnil
  have hperm := h.perm
  rw [hnil] at hperm
  exact hw (List.perm_nil.mp hperm)

/-- Reading the oldest key. -/
theorem run_oldest (h : Queue lru w) (hw : w.head? = some old) :
    (itemAt lru ((lru.ringIndex + 1) % lru.size)).run m = .ok old m := by
  have hne : w ≠ [] := by
    rintro rfl
    cases hw
  refine run_itemAt ?_
  rw [h.size, ← window_head (h.cells_ne_nil hne), h.window, hw]

/-- Reading the newest key. -/
theorem run_newest (h : Queue lru w) (hw : w.getLast? = some old) :
    (itemAt lru lru.ringIndex).run m = .ok old m := by
  have hne : w ≠ [] := by
    rintro rfl
    cases hw
  have hsize : lru.size ≠ 0 := by
    rw [h.length]
    exact fun h0 => hne (List.length_eq_zero_iff.mp h0)
  refine run_itemAt ?_
  have hcursor := h.cursor hsize
  rw [h.size] at hcursor
  rw [← window_last hcursor, h.window, hw]

-- ================================================================== touch

theorem run_tryTouch_idle (h : Queue lru w) (hidle : Idle w k) :
    (tryTouch lru backend k).run m = .ok (false, lru, backend) m := by
  unfold tryTouch
  by_cases hw : w = []
  · rw [if_pos (by rw [h.length, hw]; rfl), C.run_pure]
  · have hsize : lru.size ≠ 0 := by
      rw [h.length]
      exact fun h0 => hw (List.length_eq_zero_iff.mp h0)
    have hhead := List.head?_eq_some_head hw
    have hlast := List.getLast?_eq_some_getLast hw
    have hor : w.head hw = k ∨ w.getLast hw = k := by
      rcases hidle with hnil | hk | hk
      · exact absurd hnil hw
      · exact Or.inl (Option.some.inj (hhead.symm.trans hk))
      · exact Or.inr (Option.some.inj (hlast.symm.trans hk))
    rw [if_neg hsize, C.run_bind, h.run_newest hlast, C.chain_ok, C.run_bind,
      h.run_oldest hhead, C.chain_ok, if_pos hor, C.run_pure]

/-- The cache after a key was written over the oldest one. -/
def next (lru : CxLru β) (k : UInt64) : CxLru β :=
  { lru.setItem ((lru.ringIndex + 1) % lru.size) k with
    ringIndex := (lru.ringIndex + 1) % lru.size }

theorem cells_next : (next lru k).cells
    = lru.cells.set ((lru.ringIndex + 1) % lru.size) k := cells_setItem

/-- The oldest key goes, the new one is appended. -/
theorem next_queue (h : Queue lru (old :: w)) :
    Queue (next lru k) (w ++ [k]) where
  size := by
    rw [cells_next, List.length_set, ← h.size]
    rfl
  cursor := fun hsize => Nat.mod_lt _ (Nat.pos_of_ne_zero hsize)
  window := by
    have hset := window_set (i := lru.ringIndex) (a := k)
      (h.cells_ne_nil (List.cons_ne_nil _ _))
    rw [h.window, ← h.size] at hset
    rw [cells_next]
    exact hset

/-- An entry of the ring changes. -/
theorem cells_next_ne (h : Queue lru (old :: w)) (hne : old ≠ k) :
    (next lru k).cells ≠ lru.cells := by
  intro heq
  have hhead := window_head (i := lru.ringIndex)
    (h.cells_ne_nil (List.cons_ne_nil _ _))
  rw [h.window, ← h.size, List.head?_cons] at hhead
  obtain ⟨hlt, -⟩ := List.getElem?_eq_some_iff.mp hhead.symm
  rw [← heq, cells_next, List.getElem?_set_self hlt, Option.some.injEq] at hhead
  exact hne hhead

theorem run_tryTouch (h : Queue lru (old :: w)) (hidle : ¬ Idle (old :: w) k) :
    (tryTouch lru backend k).run m = (do
      let backend ← releaseItem lru backend old
      pure (true, next lru k, backend)).run m := by
  simp only [Idle, not_or] at hidle
  obtain ⟨-, hhead, hlast⟩ := hidle
  have hsize : lru.size ≠ 0 := by
    rw [h.length]
    exact Nat.succ_ne_zero _
  have hnewest := List.getLast?_eq_some_getLast (List.cons_ne_nil old w)
  have hnot : ¬ (old = k ∨ (old :: w).getLast (List.cons_ne_nil old w) = k) := by
    rintro (heq | heq)
    · exact hhead (by rw [heq]; rfl)
    · exact hlast (by rw [hnewest, heq])
  unfold tryTouch
  rw [if_neg hsize, C.run_bind, h.run_newest hnewest, C.chain_ok, C.run_bind,
    h.run_oldest rfl, C.chain_ok, if_neg hnot]
  rfl

/-- A touch of a key at one of the ends changes nothing. -/
theorem run_cxLruTouch_idle (h : Queue lru w) (hidle : Idle w k) :
    (cxLruTouch lru backend k).run m = .ok (0, lru, backend) m := by
  rw [cxLruTouch, C.run_bind, h.run_tryTouch_idle hidle, C.chain_ok]
  rfl

/-- Any other touch releases the oldest key and retains its own. -/
theorem run_cxLruTouch (h : Queue lru (old :: w)) (hidle : ¬ Idle (old :: w) k) :
    (cxLruTouch lru backend k).run m = (do
      let backend ← releaseItem lru backend old
      let (_, backend) ← lru.impl.retain backend k
      pure ((0 : Int), next lru k, backend)).run m := by
  rw [cxLruTouch, C.run_bind, h.run_tryTouch hidle, C.run_bind, C.run_bind]
  cases (releaseItem lru backend old).run m with
  | ok backend m => rfl
  | fault e m => rfl

/-- A touch that comes back leaves a queue. -/
theorem touch_returned (h : Queue lru w) {m' : Machine}
    {r : Int × CxLru β × β}
    (hrun : (cxLruTouch lru backend k).run m = .ok r m') :
    r.2.1.impl = lru.impl ∧ ∃ w', Queue r.2.1 w' := by
  by_cases hidle : Idle w k
  · rw [h.run_cxLruTouch_idle hidle] at hrun
    cases hrun
    exact ⟨rfl, w, h⟩
  obtain ⟨old, rest, rfl, -⟩ := cons_of_not_idle hidle
  rw [h.run_cxLruTouch hidle] at hrun
  obtain ⟨b₁, m₁, -, hretain⟩ := bind_cases hrun
  obtain ⟨b₂, m₂, -, hpure⟩ := bind_cases hretain
  cases hpure
  exact ⟨rfl, _, h.next_queue⟩

theorem run_cxLruTouchValue_idle (h : Queue lru w) (hidle : Idle w k)
    (p : Nat) :
    (cxLruTouchValue lru backend k p).run m = .ok (0, lru, backend) m := by
  rw [cxLruTouchValue, C.run_bind, h.run_tryTouch_idle hidle, C.chain_ok]
  rfl

/-- A touch by element retains the element, if the backend can. -/
theorem run_cxLruTouchValue (h : Queue lru (old :: w))
    (hidle : ¬ Idle (old :: w) k) (p : Nat) :
    (cxLruTouchValue lru backend k p).run m = (do
      let backend ← releaseItem lru backend old
      match lru.impl.retainValue with
      | none => C.fail .nullDeref
      | some retainValue =>
          let backend ← retainValue backend p
          pure ((0 : Int), next lru k, backend)).run m := by
  rw [cxLruTouchValue, C.run_bind, h.run_tryTouch hidle, C.run_bind, C.run_bind]
  cases (releaseItem lru backend old).run m with
  | ok backend m => rfl
  | fault e m => rfl

/-- A touch by element that comes back leaves a queue. -/
theorem touchValue_returned (h : Queue lru w) {m' : Machine} {p : Nat}
    {r : Int × CxLru β × β}
    (hrun : (cxLruTouchValue lru backend k p).run m = .ok r m') :
    r.2.1.impl = lru.impl ∧ ∃ w', Queue r.2.1 w' := by
  by_cases hidle : Idle w k
  · rw [h.run_cxLruTouchValue_idle hidle] at hrun
    cases hrun
    exact ⟨rfl, w, h⟩
  obtain ⟨old, rest, rfl, -⟩ := cons_of_not_idle hidle
  rw [h.run_cxLruTouchValue hidle] at hrun
  obtain ⟨b₁, m₁, -, hretain⟩ := bind_cases hrun
  cases hvalue : lru.impl.retainValue with
  | none =>
      rw [hvalue] at hretain
      cases hretain
  | some f =>
      rw [hvalue] at hretain
      obtain ⟨b₂, m₂, -, hpure⟩ := bind_cases hretain
      cases hpure
      exact ⟨rfl, _, h.next_queue⟩

end Queue

-- ================================================================ cleanup

/-- Release the given keys in turn. -/
def releaseAll (lru : CxLru β) : List UInt64 → β → C β
  | [], backend => pure backend
  | key :: keys, backend => do
      let backend ← releaseItem lru backend key
      releaseAll lru keys backend

/-- Two computations that run alike do so under one continuation. -/
theorem run_bind_congr {α γ : Type} {x : C α} {f g : α → C γ}
    (h : ∀ a m, (f a).run m = (g a).run m) :
    (x >>= f).run m = (x >>= g).run m := by
  rw [C.run_bind, C.run_bind]
  cases x.run m with
  | ok a m => exact h a m
  | fault e m => rfl

theorem run_releaseItems (hsize : lru.size = lru.cells.length) (n : Nat) :
    ∀ i backend (m : Machine), i + n = lru.size →
      (releaseItems lru backend i).run m
        = (releaseAll lru (lru.cells.drop i) backend).run m := by
  induction n with
  | zero =>
      intro i backend m hi
      rw [releaseItems, dif_neg (by omega), List.drop_of_length_le (by omega),
        releaseAll]
  | succ n ih =>
      intro i backend m hi
      have hlt : i < lru.cells.length := by omega
      rw [releaseItems, dif_pos (by omega), C.run_bind,
        run_itemAt (List.getElem?_eq_getElem hlt), C.chain_ok,
        List.drop_eq_getElem_cons hlt, releaseAll]
      exact run_bind_congr fun backend m => ih (i + 1) backend m (by omega)

/-- The cleanup releases the entries in ring order. -/
theorem run_cxLruCleanup (h : Queue lru w) :
    (cxLruCleanup lru backend).run m = (do
      let backend ← releaseAll lru lru.cells backend
      C.freeArray (lru.items.map CArray.storage)
      pure ((0 : Int), { lru with size := 0, items := none }, backend)).run m := by
  rw [cxLruCleanup, C.run_bind, C.run_bind,
    run_releaseItems h.size lru.size 0 backend m (Nat.zero_add _), List.drop_zero]

/-- A cleanup that comes back leaves an empty queue. -/
theorem cleanup_returned {m' : Machine} {r : Int × CxLru β × β}
    (hrun : (cxLruCleanup lru backend).run m = .ok r m') :
    r.2.1.impl = lru.impl ∧ Queue r.2.1 [] := by
  obtain ⟨b₁, m₁, -, hfree⟩ := bind_cases hrun
  obtain ⟨_, m₂, -, hpure⟩ := bind_cases hfree
  cases hpure
  exact ⟨rfl, rfl, fun h0 => absurd rfl h0, List.rotate_nil _⟩

end Cextras.Collection
