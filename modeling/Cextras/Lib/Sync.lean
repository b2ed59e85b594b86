/-
Mutexes and condition variables, as POSIX has them. `owner` is who holds
a mutex. `asleep` are the threads in a wait on a condition variable for
which no wake-up is pending; one that was woken still has to take the
mutex again.
-/
import Mathlib.Logic.Function.Basic

namespace Cextras.Lib

structure Sync (μ κ θ : Type) where
  owner : μ → Option θ
  asleep : κ → List θ

namespace Sync

variable {μ κ θ : Type} {y y' : Sync μ κ θ} {m : μ} {k : κ} {t u : θ}
  {held : Option μ}

/-- Nothing is held and nobody sleeps. -/
def init : Sync μ κ θ := ⟨fun _ => none, fun _ => []⟩

/-- The mutex the thread holds, if it holds one. -/
def Holds (y : Sync μ κ θ) (t : θ) (held : Option μ) : Prop :=
  ∀ m, y.owner m = some t ↔ held = some m

/-- What the thread holds is the same. -/
def SameFor (t : θ) (y y' : Sync μ κ θ) : Prop :=
  ∀ m, y'.owner m = some t ↔ y.owner m = some t

theorem Holds.owner (h : y.Holds t (some m)) : y.owner m = some t :=
  (h m).mpr rfl

/-- A mutex has one owner. -/
theorem owner_ne (h : y.owner m = some t) (hu : u ≠ t) : y.owner m ≠ some u := by
  rw [h]
  exact fun heq => hu (Option.some.inj heq).symm

theorem Holds.congr (h : y.Holds t held) (hsame : SameFor t y y') :
    y'.Holds t held :=
  fun m => (hsame m).trans (h m)

theorem SameFor.of_owner (h : y'.owner = y.owner) (t : θ) : SameFor t y y' := by
  intro m
  rw [h]

-- =============================================================== mutexes

section Mutex
variable [DecidableEq μ]

/-- Take a mutex that is free. -/
def lock (y : Sync μ κ θ) (m : μ) (t : θ) : Option (Sync μ κ θ) :=
  match y.owner m with
  | none => some { y with owner := Function.update y.owner m (some t) }
  | some _ => none

def unlock (y : Sync μ κ θ) (m : μ) : Sync μ κ θ :=
  { y with owner := Function.update y.owner m none }

theorem lock_cases (h : y.lock m t = some y') :
    y.owner m = none
      ∧ y' = { y with owner := Function.update y.owner m (some t) } := by
  unfold lock at h
  split at h
  · next hfree => exact ⟨hfree, (Option.some.inj h).symm⟩
  · cases h

theorem Holds.lock (h : y.Holds t none) (hrun : y.lock m t = some y') :
    y'.Holds t (some m) := by
  obtain ⟨-, rfl⟩ := lock_cases hrun
  intro m'
  show Function.update y.owner m (some t) m' = some t ↔ _
  by_cases hm : m' = m
  · rw [hm, Function.update_self]
    exact iff_of_true rfl rfl
  · rw [Function.update_of_ne hm, h m']
    constructor
    · intro heq
      cases heq
    · intro heq
      exact absurd (Option.some.inj heq).symm hm

theorem SameFor.lock (hrun : y.lock m t = some y') (hu : u ≠ t) :
    SameFor u y y' := by
  obtain ⟨hfree, rfl⟩ := lock_cases hrun
  intro m'
  show Function.update y.owner m (some t) m' = some u ↔ _
  by_cases hm : m' = m
  · rw [hm, Function.update_self, hfree]
    constructor
    · intro heq
      exact absurd (Option.some.inj heq).symm hu
    · intro heq
      cases heq
  · rw [Function.update_of_ne hm]

/-- Giving up the one mutex that is held, asleep afterwards or not. -/
theorem Holds.release (h : y.Holds t (some m))
    (howner : y'.owner = Function.update y.owner m none) : y'.Holds t none := by
  intro m'
  rw [howner]
  by_cases hm : m' = m
  · rw [hm, Function.update_self]
    exact iff_of_false nofun nofun
  · rw [Function.update_of_ne hm, h m']
    constructor
    · intro heq
      exact absurd (Option.some.inj heq).symm hm
    · intro heq
      cases heq

theorem SameFor.release (h : y.owner m = some t) (hu : u ≠ t)
    (howner : y'.owner = Function.update y.owner m none) : SameFor u y y' := by
  intro m'
  rw [howner]
  by_cases hm : m' = m
  · rw [hm, Function.update_self, h]
    constructor
    · intro heq
      cases heq
    · intro heq
      exact absurd (Option.some.inj heq).symm hu
  · rw [Function.update_of_ne hm]

end Mutex

-- =================================================== condition variables

section Cond
variable [DecidableEq κ] [DecidableEq θ]

/-- Wake one thread, for whatever reason. -/
def wake (y : Sync μ κ θ) (k : κ) (t : θ) : Sync μ κ θ :=
  { y with asleep := Function.update y.asleep k ((y.asleep k).erase t) }

/-- Wake the `chosen` one of those asleep, if there are any. -/
def signal (y : Sync μ κ θ) (k : κ) (chosen : θ) : Option (Sync μ κ θ) :=
  if y.asleep k = [] then some y
  else if chosen ∈ y.asleep k then some (y.wake k chosen)
  else none

theorem signal_cases (h : y.signal k t = some y') :
    y.asleep k = [] ∧ y' = y ∨ t ∈ y.asleep k ∧ y' = y.wake k t := by
  unfold signal at h
  split at h
  · next hnone => exact Or.inl ⟨hnone, (Option.some.inj h).symm⟩
  · split at h
    · next hin => exact Or.inr ⟨hin, (Option.some.inj h).symm⟩
    · cases h

theorem wake_self (y : Sync μ κ θ) (k : κ) (t : θ) :
    (y.wake k t).asleep k = (y.asleep k).erase t :=
  Function.update_self ..

theorem wake_of_ne {k k' : κ} (h : k' ≠ k) (y : Sync μ κ θ) (t : θ) :
    (y.wake k t).asleep k' = y.asleep k' :=
  Function.update_of_ne h ..

theorem wake_sublist (y : Sync μ κ θ) (k : κ) (t : θ) (k' : κ) :
    ((y.wake k t).asleep k').Sublist (y.asleep k') := by
  by_cases hk : k' = k
  · rw [hk, wake_self]
    exact List.erase_sublist
  · simp [wake_of_ne hk]

/-- A signal puts nobody to sleep, and moves no mutex. -/
theorem signal_frame (h : y.signal k t = some y') :
    y'.owner = y.owner ∧ ∀ k', (y'.asleep k').Sublist (y.asleep k') := by
  rcases signal_cases h with ⟨-, rfl⟩ | ⟨-, rfl⟩
  · exact ⟨rfl, fun _ => List.Sublist.refl _⟩
  · exact ⟨rfl, y.wake_sublist k t⟩

end Cond

section Broadcast
variable [DecidableEq κ]

/-- Wake all of those asleep. -/
def broadcast (y : Sync μ κ θ) (k : κ) : Sync μ κ θ :=
  { y with asleep := Function.update y.asleep k [] }

theorem broadcast_self (y : Sync μ κ θ) (k : κ) :
    (y.broadcast k).asleep k = [] :=
  Function.update_self ..

end Broadcast

section Sleep
variable [DecidableEq μ] [DecidableEq κ]

/-- Release the mutex and go to sleep, in one step. -/
def sleep (y : Sync μ κ θ) (k : κ) (m : μ) (t : θ) : Sync μ κ θ where
  owner := Function.update y.owner m none
  asleep := Function.update y.asleep k (t :: y.asleep k)

theorem sleep_self (y : Sync μ κ θ) (k : κ) (m : μ) (t : θ) :
    (y.sleep k m t).asleep k = t :: y.asleep k :=
  Function.update_self ..

theorem sleep_of_ne {k k' : κ} (h : k' ≠ k) (y : Sync μ κ θ) (m : μ) (t : θ) :
    (y.sleep k m t).asleep k' = y.asleep k' :=
  Function.update_of_ne h ..

end Sleep

section Relock
variable [DecidableEq μ] [DecidableEq θ]

/-- What a woken thread does: it takes the mutex again. -/
def relock (y : Sync μ κ θ) (k : κ) (m : μ) (t : θ) : Option (Sync μ κ θ) :=
  if t ∈ y.asleep k then none else y.lock m t

theorem relock_cases (h : y.relock k m t = some y') :
    t ∉ y.asleep k ∧ y.lock m t = some y' := by
  unfold relock at h
  split at h
  · cases h
  · next hawake => exact ⟨hawake, h⟩

end Relock

-- ============================================================== their end

/-- `EBUSY` -/
def eBusy : Int := 16

/-- `pthread_mutex_destroy`. What becomes of a mutex that is held is not
defined; to notice it is all that is done here. -/
def destroyMutex (y : Sync μ κ θ) (m : μ) : Int :=
  if (y.owner m).isNone then 0 else eBusy

/-- `pthread_cond_destroy`, likewise for one that is waited for. -/
def destroyCond (y : Sync μ κ θ) (k : κ) : Int :=
  if (y.asleep k).isEmpty then 0 else eBusy

theorem destroyMutex_free (h : y.owner m = none) : y.destroyMutex m = 0 := by
  unfold destroyMutex
  rw [h]
  rfl

theorem destroyCond_unused (h : y.asleep k = []) : y.destroyCond k = 0 := by
  unfold destroyCond
  rw [h]
  rfl

end Sync

end Cextras.Lib
