/-
The life of a task, as the book of the pool records it: a cell is handed
out for it, it is linked, counted and accepted, a worker takes it, runs
it, gives the cell back and counts it out. `Booked` says that where the
cell is fits what has happened to the task, and that a cell is handed out
again only when its task is done. Nearly every step of the pool moves at
most one cell and changes at most one record (`Advance`).
-/
import Cextras.Concurrency.Threadpool
import Mathlib.Data.Finset.Card

namespace Cextras.Concurrency

open Lib

variable {n w c a t : Nat} {b b' : Book} {p : Place} {r r' : TaskRecord}
  {f : TaskRecord → TaskRecord}

-- ============================================================== one record

/-- Things happen to a task in this order. -/
structure TaskRecord.Ordered (r : TaskRecord) : Prop where
  linked : r.counted = true → r.linked = true
  counted : r.accepted = true → r.counted = true
  taken : r.taker ≠ none → r.counted = true
  called : r.starts = [] ∨ r.taker ≠ none ∧ r.starts = [(r.function, r.arg)]
  finished : r.finished = true →
    r.taker ≠ none ∧ r.starts = [(r.function, r.arg)]
  uncounted : r.uncounted = true → r.finished = true

/-- What is not undone any more. -/
structure TaskRecord.Later (r r' : TaskRecord) : Prop where
  counted : r.counted = true → r'.counted = true
  accepted : r.accepted = true → r'.accepted = true
  finished : r.finished = true → r'.finished = true

theorem TaskRecord.Later.refl (r : TaskRecord) : r.Later r := ⟨id, id, id⟩

/-- The task is counted in `active_tasks`. -/
def TaskRecord.active (r : TaskRecord) : Bool := r.counted && !r.uncounted

/-- What a place says about the task of the cell. -/
def Place.Suits : Place → TaskRecord → Prop
  | .free, _ => True
  | .thread (.client _), r => r.linked = false
  | .thread (.worker w), r => r.taker = some w ∧ r.uncounted = false
  | .queue _, r => r.linked = true ∧ r.taker = none

-- ================================================================ the book

structure Booked (b : Book) : Prop where
  ordered : ∀ t < b.count, (b.record t).Ordered
  occupied : ∀ a, b.place a ≠ .free → ∃ t, b.occupant a = some t
  cell : ∀ a t, b.occupant a = some t → t < b.count ∧ (b.record t).cell = a
  latest : ∀ t < b.count, ∃ u, b.occupant (b.record t).cell = some u ∧ t ≤ u
  current : ∀ t < b.count, (b.record t).finished = false →
    b.occupant (b.record t).cell = some t ∧ b.place (b.record t).cell ≠ .free
  suits : ∀ a t, b.occupant a = some t → (b.place a).Suits (b.record t)

/-- `active_tasks`, counted in the book. -/
def Book.active (b : Book) : Nat :=
  ((Finset.range b.count).filter fun t => (b.record t).active = true).card

/-- The cell is in place `p` now, and the record of the task is `r`. -/
structure Advance (b b' : Book) (a t : Nat) (p : Place) (r : TaskRecord) :
    Prop where
  place : b'.place = Function.update b.place a p
  record : b'.record = Function.update b.record t r
  occupant : b'.occupant = b.occupant
  count : b'.count = b.count
  before : b'.before = b.before

theorem Advance.modify (b : Book) (a t : Nat) (f : TaskRecord → TaskRecord) :
    Advance b (b.modify t f) a t (b.place a) (f (b.record t)) :=
  ⟨(Function.update_eq_self ..).symm, rfl, rfl, rfl, rfl⟩

theorem Advance.modifyAt (h : b.occupant a = some t)
    (f : TaskRecord → TaskRecord) :
    Advance b (b.modifyAt a f) a t (b.place a) (f (b.record t)) := by
  have hmod : b.modifyAt a f = b.modify t f := by
    unfold Book.modifyAt
    rw [h]
  rw [hmod]
  exact .modify b a t f

theorem Advance.moveModify (h : b.occupant a = some t) (p : Place)
    (f : TaskRecord → TaskRecord) :
    Advance b ((b.move a p).modifyAt a f) a t p (f (b.record t)) := by
  have hmod : (b.move a p).modifyAt a f = (b.move a p).modify t f := by
    unfold Book.modifyAt
    rw [show (b.move a p).occupant a = some t from h]
  rw [hmod]
  exact ⟨rfl, rfl, rfl, rfl, rfl⟩

theorem Advance.move (b : Book) (a t : Nat) (p : Place) :
    Advance b (b.move a p) a t p (b.record t) :=
  ⟨rfl, (Function.update_eq_self ..).symm, rfl, rfl, rfl⟩

section Advance
variable (hadv : Advance b b' a t p r)
include hadv

theorem Advance.record_self : b'.record t = r := by
  rw [hadv.record, Function.update_self]

theorem Advance.record_of_ne {u : Nat} (hu : u ≠ t) :
    b'.record u = b.record u := by
  rw [hadv.record, Function.update_of_ne hu]

theorem Advance.place_self : b'.place a = p := by
  rw [hadv.place, Function.update_self]

theorem Advance.place_of_ne {a' : Nat} (ha : a' ≠ a) :
    b'.place a' = b.place a' := by
  rw [hadv.place, Function.update_of_ne ha]

theorem Advance.record_cell (hcell : r.cell = (b.record t).cell) (u : Nat) :
    (b'.record u).cell = (b.record u).cell := by
  by_cases hu : u = t
  · rw [hu, hadv.record_self, hcell]
  · rw [hadv.record_of_ne hu]

/-- The book stays consistent, if the record is where it should be. -/
theorem Booked.advance (h : Booked b) (hcell : (b.record t).cell = a)
    (hcell' : r.cell = a) (hocc : b.occupant a = some t ∨ p = b.place a)
    (hordered : r.Ordered)
    (hfinished : (b.record t).finished = true → r.finished = true)
    (hfree : p = .free → r.finished = true ∨ b.place a = .free)
    (hsuits : b.occupant a = some t → p.Suits r) : Booked b' := by
  have hsame := hadv.record_cell (hcell'.trans hcell.symm)
  refine ⟨?_, ?_, ?_, ?_, ?_, ?_⟩
  · intro u hu
    by_cases hut : u = t
    · rw [hut, hadv.record_self]
      exact hordered
    · rw [hadv.record_of_ne hut]
      exact h.ordered u (hadv.count ▸ hu)
  · intro a' ha'
    rw [hadv.occupant]
    by_cases haa : a' = a
    · rw [haa] at ha' ⊢
      rcases hocc with hocc | hp
      · exact ⟨t, hocc⟩
      · rw [hadv.place_self, hp] at ha'
        exact h.occupied a ha'
    · rw [hadv.place_of_ne haa] at ha'
      exact h.occupied a' ha'
  · intro a' u hu
    rw [hadv.occupant] at hu
    rw [hadv.count, hsame]
    exact h.cell a' u hu
  · intro u hu
    rw [hadv.occupant, hsame]
    exact h.latest u (hadv.count ▸ hu)
  · intro u hu hunfinished
    rw [hadv.count] at hu
    rw [hadv.occupant, hsame]
    have hold : (b.record u).finished = false := by
      by_cases hut : u = t
      · rw [hut, hadv.record_self] at hunfinished
        rw [hut]
        by_contra hfin
        rw [hfinished (Bool.not_eq_false _ ▸ hfin)] at hunfinished
        cases hunfinished
      · rwa [hadv.record_of_ne hut] at hunfinished
    obtain ⟨hoccu, hplace⟩ := h.current u hu hold
    refine ⟨hoccu, ?_⟩
    by_cases hcu : (b.record u).cell = a
    · rw [hcu] at hoccu hplace ⊢
      rw [hadv.place_self]
      intro hpfree
      rcases hfree hpfree with hfin | hpfree'
      · by_cases hut : u = t
        · rw [hut, hadv.record_self, hfin] at hunfinished
          cases hunfinished
        · rcases hocc with hocc | hp
          · rw [hocc] at hoccu
            exact hut (Option.some.inj hoccu).symm
          · exact hplace (hp ▸ hpfree)
      · exact hplace hpfree'
    · rw [hadv.place_of_ne hcu]
      exact hplace
  · intro a' u hu
    rw [hadv.occupant] at hu
    obtain ⟨-, hcu⟩ := h.cell a' u hu
    by_cases hut : u = t
    · subst hut
      rw [hcell] at hcu
      subst hcu
      rw [hadv.place_self, hadv.record_self]
      exact hsuits hu
    · rw [hadv.record_of_ne hut]
      by_cases haa : a' = a
      · subst haa
        rcases hocc with hocc | hp
        · rw [hocc] at hu
          exact absurd (Option.some.inj hu).symm hut
        · rw [hadv.place_self, hp]
          exact h.suits a' u hu
      · rw [hadv.place_of_ne haa]
        exact h.suits a' u hu

/-- `active_tasks` does not depend on where a cell is. -/
theorem Advance.active (hr : r.active = (b.record t).active) :
    b'.active = b.active := by
  unfold Book.active
  rw [hadv.count]
  congr 1
  apply Finset.filter_congr
  intro u _
  by_cases hut : u = t
  · rw [hut, hadv.record_self, hr]
  · rw [hadv.record_of_ne hut]

theorem Advance.active_in (ht : t < b.count)
    (hold : (b.record t).active = false) (hr : r.active = true) :
    b'.active = b.active + 1 := by
  unfold Book.active
  have hinsert : ((Finset.range b'.count).filter fun u =>
      (b'.record u).active = true)
      = insert t ((Finset.range b.count).filter fun u =>
        (b.record u).active = true) := by
    ext u
    rw [hadv.count]
    simp only [Finset.mem_filter, Finset.mem_range, Finset.mem_insert]
    by_cases hut : u = t
    · rw [hut, hadv.record_self, hr]
      simp [ht]
    · rw [hadv.record_of_ne hut]
      simp [hut]
  rw [hinsert, Finset.card_insert_of_notMem]
  simp [hold]

theorem Advance.active_out (ht : t < b.count)
    (hold : (b.record t).active = true) (hr : r.active = false) :
    b'.active + 1 = b.active := by
  unfold Book.active
  have herase : ((Finset.range b'.count).filter fun u =>
      (b'.record u).active = true)
      = ((Finset.range b.count).filter fun u =>
        (b.record u).active = true).erase t := by
    ext u
    rw [hadv.count]
    simp only [Finset.mem_filter, Finset.mem_range, Finset.mem_erase]
    by_cases hut : u = t
    · rw [hut, hadv.record_self, hr]
      simp
    · rw [hadv.record_of_ne hut]
      simp [hut]
  rw [herase]
  apply Finset.card_erase_add_one
  simp [ht, hold]

end Advance

-- ================================================================ new tasks

theorem Booked.unoccupied (h : Booked b) (t : Nat)
    (hocc : b.occupant a = some t) : t ≠ b.count :=
  Nat.ne_of_lt (h.cell a t hocc).1

/-- A free cell is handed out for a new task. -/
theorem Booked.create (h : Booked b) (hfree : b.place a = .free)
    (function arg c : Nat) : Booked (b.create a function arg c) := by
  have hold : ∀ u, u ≠ b.count →
      (b.create a function arg c).record u = b.record u :=
    fun u hu => Function.update_of_ne hu ..
  have hnew : (b.create a function arg c).record b.count
      = ⟨function, arg, a, false, false, false, none, [], false, false⟩ :=
    Function.update_self ..
  have hocc : ∀ a', a' ≠ a →
      (b.create a function arg c).occupant a' = b.occupant a' :=
    fun a' ha => Function.update_of_ne ha ..
  have hocca : (b.create a function arg c).occupant a = some b.count :=
    Function.update_self ..
  have hplace : ∀ a', a' ≠ a →
      (b.create a function arg c).place a' = b.place a' :=
    fun a' ha => Function.update_of_ne ha ..
  have hplacea : (b.create a function arg c).place a = .thread (.client c) :=
    Function.update_self ..
  have hcount : (b.create a function arg c).count = b.count + 1 := rfl
  refine ⟨?_, ?_, ?_, ?_, ?_, ?_⟩
  · intro t ht
    by_cases htn : t = b.count
    · rw [htn, hnew]
      exact ⟨nofun, nofun, fun hne => absurd rfl hne, Or.inl rfl, nofun, nofun⟩
    · rw [hold t htn]
      exact h.ordered t (by omega)
  · intro a' ha'
    by_cases haa : a' = a
    · subst haa
      exact ⟨_, hocca⟩
    · rw [hplace a' haa] at ha'
      rw [hocc a' haa]
      exact h.occupied a' ha'
  · intro a' t ht
    by_cases haa : a' = a
    · subst haa
      rw [hocca] at ht
      cases ht
      rw [hnew]
      exact ⟨by omega, rfl⟩
    · rw [hocc a' haa] at ht
      obtain ⟨hlt, hcell⟩ := h.cell a' t ht
      rw [hold t (by omega)]
      exact ⟨by omega, hcell⟩
  · intro t ht
    by_cases htn : t = b.count
    · rw [htn, hnew, hocca]
      exact ⟨_, rfl, Nat.le_refl _⟩
    · rw [hold t htn]
      by_cases haa : (b.record t).cell = a
      · rw [haa, hocca]
        exact ⟨_, rfl, by omega⟩
      · rw [hocc _ haa]
        exact h.latest t (by omega)
  · intro t ht hunfinished
    by_cases htn : t = b.count
    · rw [htn, hnew, hocca, hplacea]
      exact ⟨rfl, nofun⟩
    · rw [hold t htn] at hunfinished ⊢
      obtain ⟨hoccu, hne⟩ := h.current t (by omega) hunfinished
      have haa : (b.record t).cell ≠ a := by
        intro haa
        rw [haa] at hne
        exact hne hfree
      rw [hocc _ haa, hplace _ haa]
      exact ⟨hoccu, hne⟩
  · intro a' t ht
    by_cases haa : a' = a
    · subst haa
      rw [hocca] at ht
      cases ht
      rw [hnew, hplacea]
      rfl
    · rw [hocc a' haa] at ht
      rw [hold t (h.unoccupied t ht), hplace a' haa]
      exact h.suits a' t ht

theorem Book.create_active (b : Book) (a function arg c : Nat) :
    (b.create a function arg c).active = b.active := by
  unfold Book.active
  have hcount : (b.create a function arg c).count = b.count + 1 := rfl
  have hnew : ((b.create a function arg c).record b.count).active = false := by
    show TaskRecord.active (Function.update b.record b.count _ b.count) = false
    rw [Function.update_self]
    rfl
  rw [hcount, Finset.range_add_one, Finset.filter_insert, hnew]
  congr 1
  apply Finset.filter_congr
  intro u hu
  have hne : u ≠ b.count := Nat.ne_of_lt (Finset.mem_range.mp hu)
  show TaskRecord.active (Function.update b.record b.count _ u) = true ↔ _
  rw [Function.update_of_ne hne]

-- ============================================================== first book

/-- A book without tasks. -/
theorem Booked.empty (hcount : b.count = 0) (hplace : ∀ a, b.place a = .free)
    (hocc : ∀ a, b.occupant a = none) : Booked b := by
  refine ⟨?_, ?_, ?_, ?_, ?_, ?_⟩
  · intro t ht
    omega
  · intro a ha
    exact absurd (hplace a) ha
  · intro a t ht
    rw [hocc] at ht
    cases ht
  · intro t ht
    omega
  · intro t ht
    omega
  · intro a t ht
    rw [hocc] at ht
    cases ht

end Cextras.Concurrency
