/-
Who holds which mutex. A thread holds at most one at a time, and its
program counter says which (`held`); no step changes what another thread
holds.
-/
import Cextras.Concurrency.Proofs.PoolSteps

namespace Cextras.Concurrency

open Lib Memory

variable {n w c : Nat} {s s' : Shared} {t : Thread} {m : MutexId}

/-- The mutex worker `w` holds. -/
def WorkerPc.held (n w : Nat) : WorkerPc → Option MutexId
  | .findGet i => some (.queue ((i + w) % n))
  | .findSub i _ => some (.queue ((i + w) % n))
  | .findUnlock i _ => some (.queue ((i + w) % n))
  | .waitGet => some (.queue w)
  | .waitSub _ => some (.queue w)
  | .waitTest => some (.queue w)
  | .waitSleep => some (.queue w)
  | .waitUnlock _ => some (.queue w)
  | .freeRecycle _ => some .taskPool
  | .freeUnlock _ => some .taskPool
  | .doneSub _ => some .wait
  | .doneSignal => some .wait
  | .doneUnlock => some .wait
  | _ => none

/-- The mutex a client holds. -/
def ClientPc.held : ClientPc → Option MutexId
  | .newGet _ _ => some .taskPool
  | .newUnlock _ _ _ => some .taskPool
  | .link _ v => some (.queue v)
  | .addActive _ v => some (.queue v)
  | .addLength _ v => some (.queue v)
  | .signal _ v => some (.queue v)
  | .queueUnlock _ v => some (.queue v)
  | .waitTest => some .wait
  | .waitSleep => some .wait
  | .waitUnlock => some .wait
  | .cleanSignal i => some (.queue i)
  | .cleanUnlock i => some (.queue i)
  | _ => none

/-- A thread's mutex after its step, and the others'. -/
structure LockStep (t : Thread) (held' : Option MutexId) (s s' : Shared) :
    Prop where
  holds : s'.sync.Holds t held'
  others : ∀ u, u ≠ t → Sync.SameFor u s.sync s'.sync

theorem LockStep.same {held : Option MutexId} (h : s.sync.Holds t held)
    (howner : s'.sync.owner = s.sync.owner) : LockStep t held s s' :=
  ⟨h.congr (.of_owner howner t), fun u _ => .of_owner howner u⟩

theorem LockStep.lock (h : s.sync.Holds t none) (hrun : s.lock m t = some s') :
    LockStep t (some m) s s' := by
  obtain ⟨-, y, hy, rfl⟩ := Shared.lock_cases hrun
  exact ⟨h.lock hy, fun _ hu => .lock hy hu⟩

theorem LockStep.release (h : s.sync.Holds t (some m))
    (howner : s'.sync.owner = Function.update s.sync.owner m none) :
    LockStep t none s s' :=
  ⟨h.release howner, fun _ hu => .release h.owner hu howner⟩

theorem WorkerRule.lockStep {p p' : WorkerPc} (hr : WorkerRule n w s p p' s')
    (h : s.sync.Holds (.worker w) (p.held n w)) :
    LockStep (.worker w) (p'.held n w) s s' := by
  cases hr with
  | begin => exact .same h rfl
  | exit => exact .same h rfl
  | findLock _ hlock => exact .lock h hlock
  | findNone => exact .same h rfl
  | findGet => exact .same h rfl
  | findEmpty => exact .same h rfl
  | findSub => exact .same h rfl
  | findNext => exact .release h rfl
  | findFound => exact .release h rfl
  | waitLock hlock => exact .lock h hlock
  | waitGet => exact .same h rfl
  | waitEmpty => exact .same h rfl
  | waitSub => exact .same h rfl
  | waitOn => exact .same h rfl
  | waitStop => exact .same h rfl
  | waitSleep => exact .release h rfl
  | spurious => exact .same h rfl
  | relock _ hlock => exact .lock h hlock
  | waitNone => exact .release h rfl
  | waitFound => exact .release h rfl
  | run => exact .same h rfl
  | finish => exact .same h rfl
  | freeLock hlock => exact .lock h hlock
  | recycle => exact .same h rfl
  | freeUnlock => exact .release h rfl
  | doneLock hlock => exact .lock h hlock
  | doneSub hp =>
      rw [hp]
      split
      · exact .same h rfl
      · exact .same h rfl
  | doneSignal hsignal => exact .same h (Sync.signal_frame hsignal).1
  | doneUnlock => exact .release h rfl

theorem Shared.appended_sync (s : Shared) (task v : Nat) :
    (s.appended task v).sync = s.sync := by
  unfold Shared.appended
  split
  · rfl
  · rfl

theorem ClientRule.lockStep {p p' : ClientPc} (hr : ClientRule n c s p p' s')
    (h : s.sync.Holds (.client c) p.held) :
    LockStep (.client c) p'.held s s' := by
  cases hr with
  | schedule => exact .same h rfl
  | wait => exact .same h rfl
  | cleanup => exact .same h rfl
  | newLock hlock => exact .lock h hlock
  | newGet => exact .same h rfl
  | newNone => exact .same h rfl
  | newFail => exact .release h rfl
  | newUnlock => exact .release h rfl
  | newInit => exact .same h rfl
  | scan => exact .same h rfl
  | scanned => exact .same h rfl
  | queueLock hlock => exact .lock h hlock
  | link => exact .same h (congrArg Sync.owner (s.appended_sync _ _))
  | addActive => exact .same h rfl
  | addLength => exact .same h rfl
  | signal hsignal => exact .same h (Sync.signal_frame hsignal).1
  | queueUnlock => exact .release h rfl
  | waitLock hlock => exact .lock h hlock
  | waitOn => exact .same h rfl
  | waitStop => exact .same h rfl
  | waitSleep => exact .release h rfl
  | spurious => exact .same h rfl
  | relock _ hlock => exact .lock h hlock
  | waitUnlock => exact .release h rfl
  | cleanStore => exact .same h rfl
  | cleanLock _ hlock => exact .lock h hlock
  | cleanEnd => exact .same h rfl
  | cleanSignal hsignal => exact .same h (Sync.signal_frame hsignal).1
  | cleanUnlock => exact .release h rfl
  | cleanJoin => exact .same h rfl
  | cleanDestroy => exact .same h rfl
  | cleanFree => exact .same h rfl

end Cextras.Concurrency
