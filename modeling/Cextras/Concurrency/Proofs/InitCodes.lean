/-
What `cx_threadpool_init` returns. It is 0 on all paths, and `worker_init`
returns 0 where it failed as well. So the code is truthful only if nothing
fails: neither the array, nor the mutex, the condition variable or the
thread of some worker (`cxThreadpoolInit_truthful_iff`). What failed is not
made up for later: nothing but its own initialisation makes an object live
(`Lost`).

The clean-up that the error paths share is that of a pool that is complete,
and releases everything once there (`cxThreadpoolCleanup_released`).
-/
import Cextras.Concurrency.ThreadpoolFailures
import Cextras.Memory.Proofs.PoolOps

namespace Cextras.Concurrency

open Lib Memory

variable {pthread : Pthread} {s s' : Setup} {m m' : Machine} {n i w : Nat}
  {o : WorkerObject} {rv : Int} {storage : Nat} {taskPool : CxPreallocPool}

-- ========================================================== specification

/-- The workers array exists, and every worker is initialised and
started. -/
structure Ready (n : Nat) (s : Setup) (m : Machine) : Prop where
  array : ∃ storage, s.workers = some storage ∧ storage ∈ m.arrays
  live : ∀ w < n, s.life (.queueMutex w) = .live
    ∧ s.life (.queueCond w) = .live ∧ s.life (.thread w) = .live
  worker : ∀ w < n, s.worker w = ⟨0, 0, 0⟩

/-- Nothing is left of what there was besides `m`, and nothing was released
that did not exist. -/
structure ReleasedOnce (s : Setup) (m m' : Machine) : Prop where
  gone : ∀ o, s.life o ≠ .live
  once : s.misused = false
  arrays : m'.arrays = m.arrays
  blocks : m'.arena.blocks = m.arena.blocks

/-- `cx_threadpool_init` returns 0 and leaves a pool, or a negative code
and nothing. -/
def InitTruthful (pthread : Pthread) (numCPUs : Int) (workerCount : Nat)
    (m : Machine) : Prop :=
  ∃ rv s m', (cxThreadpoolInit pthread numCPUs workerCount).run m = .ok (rv, s) m'
    ∧ (rv = 0 ∧ Ready (poolSize numCPUs workerCount) s m'
      ∨ rv < 0 ∧ ReleasedOnce s m m')

-- ================================================================== steps

@[simp] theorem Setup.acquire_fst (pthread : Pthread) (o : WorkerObject)
    (s : Setup) : (s.acquire pthread o).1 = pthread.code s.calls := rfl

theorem Setup.acquire_ok (h : pthread.code s.calls = 0) (o : WorkerObject) :
    s.acquire pthread o = (0, { s with
      life := Function.update s.life o .live, calls := s.calls + 1 }) := by
  unfold acquire
  rw [if_pos h, h]

theorem Setup.use_ok (h : s.life o = .live) :
    (s.use pthread o).run m = .ok { s with calls := s.calls + 1 } m := by
  unfold use
  rw [if_pos h, C.run_pure]

theorem Setup.release_ok (h : s.life o = .live)
    (hcode : pthread.code s.calls = 0) :
    (s.release pthread o).run m = .ok { s with
      life := Function.update s.life o .released, calls := s.calls + 1 } m := by
  unfold release
  rw [if_pos h, if_pos hcode, C.run_pure]

/-- What is missing in `s` is missing in `s'`. -/
def Lost (s s' : Setup) : Prop := ∀ o, s.life o ≠ .live → s'.life o ≠ .live

theorem Lost.trans {s'' : Setup} (h : Lost s s') (h' : Lost s' s'') :
    Lost s s'' :=
  fun o ho => h' o (h o ho)

theorem Lost.of_life (h : s'.life = s.life) : Lost s s' := by
  intro o ho
  rwa [h]

theorem Setup.misuse_lost (h : (s.misuse pthread).run m = .ok s' m') :
    Lost s s' := by
  unfold misuse at h
  split at h
  · cases h
    exact .of_life rfl
  · cases h

theorem Setup.use_lost (h : (s.use pthread o).run m = .ok s' m') :
    Lost s s' := by
  unfold use at h
  split at h
  · cases h
    exact .of_life rfl
  · exact misuse_lost h

theorem Setup.release_lost (h : (s.release pthread o).run m = .ok s' m') :
    Lost s s' := by
  unfold release at h
  split at h
  · cases h
    intro o' ho'
    show (if pthread.code s.calls = 0 then _ else _ : WorkerObject → Life) o' ≠ _
    split
    · by_cases heq : o' = o
      · rw [heq, Function.update_self]
        exact nofun
      · rwa [Function.update_of_ne heq]
    · exact ho'
  · exact misuse_lost h

theorem workerCleanup_lost (h : (workerCleanup pthread w s).run m = .ok s' m') :
    Lost s s' := by
  unfold workerCleanup at h
  split at h
  · cases h
  · obtain ⟨s₁, m₁, hlock, h⟩ := bind_cases h
    obtain ⟨s₂, m₂, hsignal, h⟩ := bind_cases h
    obtain ⟨s₃, m₃, hunlock, h⟩ := bind_cases h
    obtain ⟨s₄, m₄, hjoin, h⟩ := bind_cases h
    obtain ⟨s₅, m₅, hmutex, hcond⟩ := bind_cases h
    exact (Setup.use_lost hlock).trans ((Setup.use_lost hsignal).trans
      ((Setup.use_lost hunlock).trans ((Setup.release_lost hjoin).trans
        ((Setup.release_lost hmutex).trans (Setup.release_lost hcond)))))

theorem cleanupWorkers_lost
    (h : (cleanupWorkers pthread n i s).run m = .ok s' m') : Lost s s' := by
  induction hk : n - i generalizing i s m with
  | zero =>
      rw [cleanupWorkers, dif_neg (by omega)] at h
      cases h
      exact .of_life rfl
  | succ k ih =>
      rw [cleanupWorkers, dif_pos (by omega)] at h
      obtain ⟨s₁, m₁, hworker, h⟩ := bind_cases h
      exact (workerCleanup_lost hworker).trans (ih h (by omega))

theorem cxThreadpoolCleanup_lost
    (h : (cxThreadpoolCleanup pthread s).run m = .ok s' m') : Lost s s' := by
  obtain ⟨s₁, m₁, hloop, h⟩ := bind_cases h
  obtain ⟨_, m₂, -, h⟩ := bind_cases h
  obtain ⟨_, m₃, -, h⟩ := bind_cases h
  cases h
  exact fun o ho => cleanupWorkers_lost hloop o ho

/-- An object is made live by its own initialisation only. -/
theorem Setup.acquire_lost {o o' : WorkerObject} (hne : o' ≠ o)
    (h : s.life o' ≠ .live) : (s.acquire pthread o).2.life o' ≠ .live := by
  show (if pthread.code s.calls = 0 then _ else _ : WorkerObject → Life) o' ≠ _
  split
  · rwa [Function.update_of_ne hne]
  · exact h

theorem Setup.acquire_failed (h : pthread.code s.calls ≠ 0)
    (o : WorkerObject) : (s.acquire pthread o).2.life = s.life :=
  if_neg h

-- ============================================================= worker_init

/-- The worker whose `worker_init` makes the object. -/
def WorkerObject.initBy : WorkerObject → Option Nat
  | .queueMutex w => some w
  | .queueCond w => some w
  | .thread _ => none

theorem WorkerObject.ne_thread (h : o.initBy = some w) (i : Nat) :
    o ≠ .thread i := by
  intro heq
  rw [heq] at h
  cases h

/-- The objects of worker `w` are made. -/
def Setup.acquired (s : Setup) (w : Nat) : Setup :=
  { s with
    life := Function.update (Function.update s.life (.queueMutex w) .live)
      (.queueCond w) .live
    calls := s.calls + 1 + 1 }

theorem workerAcquire_ok (h : pthread.code s.calls = 0)
    (h' : pthread.code (s.calls + 1) = 0) :
    workerAcquire pthread w s = (0, s.acquired w) := by
  unfold workerAcquire
  rw [Setup.acquire_ok h]
  dsimp only
  rw [if_neg (not_not.mpr rfl), Setup.acquire_ok h']
  rfl

theorem workerAcquire_mutex (h : pthread.code s.calls ≠ 0) :
    workerAcquire pthread w s
      = (-1, (s.acquire pthread (.queueMutex w)).2) :=
  if_pos h

theorem workerAcquire_cond (h : pthread.code s.calls = 0)
    (h' : pthread.code (s.calls + 1) ≠ 0) :
    workerAcquire pthread w s = (-1, (Setup.acquire pthread (.queueCond w)
      { s with
        life := Function.update s.life (.queueMutex w) .live
        calls := s.calls + 1 }).2) := by
  unfold workerAcquire
  rw [Setup.acquire_ok h]
  dsimp only
  rw [if_neg (not_not.mpr rfl)]
  exact if_pos h'

/-- If one of the two calls fails, its object is missing. -/
theorem workerAcquire_failed
    (h : ¬ (pthread.code s.calls = 0 ∧ pthread.code (s.calls + 1) = 0))
    (hmissing : ∀ o, o.initBy = some w → s.life o ≠ .live) :
    ∃ o, o.initBy = some w ∧ (workerAcquire pthread w s).2.life o ≠ .live := by
  by_cases hmutex : pthread.code s.calls = 0
  · have hcond : pthread.code (s.calls + 1) ≠ 0 := fun hcond => h ⟨hmutex, hcond⟩
    have hne : WorkerObject.queueCond w ≠ .queueMutex w := nofun
    refine ⟨.queueCond w, rfl, ?_⟩
    rw [workerAcquire_cond hmutex hcond, Setup.acquire_failed hcond]
    dsimp only
    rw [Function.update_of_ne hne]
    exact hmissing _ rfl
  · refine ⟨.queueMutex w, rfl, ?_⟩
    rw [workerAcquire_mutex hmutex, Setup.acquire_failed hmutex]
    exact hmissing _ rfl

/-- The objects of other workers stay missing. -/
theorem workerAcquire_lost (ho : o.initBy ≠ some w) (h : s.life o ≠ .live) :
    (workerAcquire pthread w s).2.life o ≠ .live := by
  have hmutex : o ≠ .queueMutex w := fun heq => ho (heq ▸ rfl)
  have hcond : o ≠ .queueCond w := fun heq => ho (heq ▸ rfl)
  unfold workerAcquire
  dsimp only
  split
  · exact Setup.acquire_lost hmutex h
  · split
    · exact Setup.acquire_lost hcond (Setup.acquire_lost hmutex h)
    · exact Setup.acquire_lost hcond (Setup.acquire_lost hmutex h)

theorem workerInit_ok (h : pthread.code s.calls = 0)
    (h' : pthread.code (s.calls + 1) = 0) :
    (workerInit pthread w s).run m = .ok (0, Setup.acquired
      { s with worker := Function.update s.worker w ⟨0, 0, 0⟩ } w) m := by
  have hacquire := workerAcquire_ok (w := w)
    (s := { s with worker := Function.update s.worker w ⟨0, 0, 0⟩ }) h h'
  unfold workerInit
  dsimp only
  rw [hacquire]
  rfl

/-- What `worker_init` returned, and what it made of what was missing. -/
theorem workerInit_cases
    (hrun : (workerInit pthread w s).run m = .ok (rv, s') m') :
    rv = 0 ∧ ∀ o, (workerAcquire pthread w
        { s with worker := Function.update s.worker w ⟨0, 0, 0⟩ }).2.life o ≠ .live →
      s'.life o ≠ .live := by
  unfold workerInit at hrun
  dsimp only at hrun
  split at hrun
  · obtain ⟨s₁, m₁, hclean, hrun⟩ := bind_cases hrun
    cases hrun
    exact ⟨rfl, workerCleanup_lost hclean⟩
  · cases hrun
    exact ⟨rfl, fun _ ho => ho⟩

-- ============================================================ the two loops

/-- The workers before `i` are initialised, and none is started. -/
structure Prepared (storage n : Nat) (taskPool : CxPreallocPool) (i : Nat)
    (s : Setup) : Prop where
  workers : s.workers = some storage
  workerCount : s.workerCount = n
  taskPool : s.taskPool = taskPool
  calls : s.calls = 2 * i
  worker : ∀ w, s.worker w = ⟨0, 0, 0⟩
  live : ∀ o w, o.initBy = some w → (s.life o = .live ↔ w < i)
  unstarted : ∀ w, s.life (.thread w) ≠ .live
  once : s.misused = false

theorem Prepared.acquired (h : Prepared storage n taskPool i s) :
    Prepared storage n taskPool (i + 1) (Setup.acquired
      { s with worker := Function.update s.worker i ⟨0, 0, 0⟩ } i) := by
  refine ⟨h.workers, h.workerCount, h.taskPool, ?_, ?_, ?_, ?_, h.once⟩
  · show s.calls + 1 + 1 = _
    rw [h.calls]
    omega
  · intro w
    show Function.update s.worker i ⟨0, 0, 0⟩ w = _
    by_cases hw : w = i
    · rw [hw, Function.update_self]
    · rw [Function.update_of_ne hw, h.worker]
  · intro o w ho
    show (Function.update (Function.update s.life (.queueMutex i) .live)
      (.queueCond i) .live : WorkerObject → Life) o = _ ↔ _
    by_cases hcond : o = .queueCond i
    · cases hcond
      cases ho
      simp
    · rw [Function.update_of_ne hcond]
      by_cases hmutex : o = .queueMutex i
      · cases hmutex
        cases ho
        simp
      · rw [Function.update_of_ne hmutex, h.live o w ho]
        have hne : w ≠ i := by
          intro heq
          subst heq
          cases o with
          | queueMutex w' => exact hmutex (congrArg _ (Option.some.inj ho))
          | queueCond w' => exact hcond (congrArg _ (Option.some.inj ho))
          | thread w' => cases ho
        omega
  · intro w
    show (Function.update (Function.update s.life (.queueMutex i) .live)
      (.queueCond i) .live : WorkerObject → Life) (.thread w) ≠ _
    have hmutex : WorkerObject.thread w ≠ .queueMutex i := nofun
    have hcond : WorkerObject.thread w ≠ .queueCond i := nofun
    rw [Function.update_of_ne hcond, Function.update_of_ne hmutex]
    exact h.unstarted w

theorem initWorkers_ok (hi : i ≤ n) (h : Prepared storage n taskPool i s)
    (hcode : ∀ t < 2 * n, pthread.code t = 0) :
    ∃ s', (initWorkers pthread n i s).run m = .ok (0, s') m
      ∧ Prepared storage n taskPool n s' := by
  induction hk : n - i generalizing i s with
  | zero =>
      have hin : i = n := by omega
      rw [initWorkers, dif_neg (by omega)]
      exact ⟨s, rfl, hin ▸ h⟩
  | succ k ih =>
      have hcalls := h.calls
      rw [initWorkers, dif_pos (by omega), C.run_bind,
        workerInit_ok (hcode _ (by omega)) (hcode _ (by omega)), C.chain_ok]
      exact ih (by omega) h.acquired (by omega)

/-- The first loop leaves alone what others make. -/
theorem initWorkers_lost (ho : ∀ w, i ≤ w → o.initBy ≠ some w)
    (h : s.life o ≠ .live)
    (hrun : (initWorkers pthread n i s).run m = .ok (rv, s') m') :
    s'.life o ≠ .live := by
  induction hk : n - i generalizing i s m with
  | zero =>
      rw [initWorkers, dif_neg (by omega)] at hrun
      cases hrun
      exact h
  | succ k ih =>
      rw [initWorkers, dif_pos (by omega)] at hrun
      obtain ⟨⟨rv₁, s₁⟩, m₁, hworker, hrun⟩ := bind_cases hrun
      obtain ⟨rfl, hlost⟩ := workerInit_cases hworker
      have hkeep := hlost o (workerAcquire_lost (ho i (Nat.le_refl i)) h)
      exact ih (fun w hw => ho w (by omega)) hkeep hrun (by omega)

/-- The first loop returns 0. -/
theorem initWorkers_code
    (hrun : (initWorkers pthread n i s).run m = .ok (rv, s') m') : rv = 0 := by
  induction hk : n - i generalizing i s m with
  | zero =>
      rw [initWorkers, dif_neg (by omega)] at hrun
      cases hrun
      rfl
  | succ k ih =>
      rw [initWorkers, dif_pos (by omega)] at hrun
      obtain ⟨⟨rv₁, s₁⟩, m₁, hworker, hrun⟩ := bind_cases hrun
      obtain ⟨rfl, -⟩ := workerInit_cases hworker
      exact ih hrun (by omega)

/-- Either nothing failed in the first loop, or some object is missing for
good. -/
theorem initWorkers_cases (hi : i ≤ n) (h : Prepared storage n taskPool i s)
    (hrun : (initWorkers pthread n i s).run m = .ok (rv, s') m') :
    (∀ t, 2 * i ≤ t → t < 2 * n → pthread.code t = 0)
        ∧ Prepared storage n taskPool n s' ∧ m' = m
      ∨ ∃ o w, w < n ∧ o.initBy = some w ∧ s'.life o ≠ .live := by
  induction hk : n - i generalizing i s m with
  | zero =>
      have hin : i = n := by omega
      rw [initWorkers, dif_neg (by omega)] at hrun
      cases hrun
      exact Or.inl ⟨fun t hlo hhi => by omega, hin ▸ h, rfl⟩
  | succ k ih =>
      rw [initWorkers, dif_pos (by omega)] at hrun
      obtain ⟨⟨rv₁, s₁⟩, m₁, hworker, hrun⟩ := bind_cases hrun
      obtain ⟨rfl, hlost⟩ := workerInit_cases hworker
      by_cases hcode : pthread.code s.calls = 0 ∧ pthread.code (s.calls + 1) = 0
      · rw [workerInit_ok hcode.1 hcode.2] at hworker
        cases hworker
        refine (ih (by omega) h.acquired hrun (by omega)).imp_left fun hnext =>
          ⟨?_, hnext.2⟩
        intro t hlo hhi
        rw [h.calls] at hcode
        rcases Nat.lt_or_ge t (2 * (i + 1)) with hlt | hge
        · obtain rfl | rfl : t = 2 * i ∨ t = 2 * i + 1 := by omega
          · exact hcode.1
          · exact hcode.2
        · exact hnext.1 t hge hhi
      · obtain ⟨o, ho, hmissing⟩ := workerAcquire_failed
          (s := { s with worker := Function.update s.worker i ⟨0, 0, 0⟩ }) hcode
          fun o ho hlive => Nat.lt_irrefl i ((h.live o i ho).mp hlive)
        refine Or.inr ⟨o, i, by omega, ho, ?_⟩
        refine initWorkers_lost (i := i + 1) ?_ (hlost o hmissing) hrun
        intro w hw heq
        have hwi : w = i := Option.some.inj (heq.symm.trans ho)
        omega

/-- All workers are initialised, and those before `i` are started. -/
structure Launched (storage n : Nat) (taskPool : CxPreallocPool) (i : Nat)
    (s : Setup) : Prop where
  workers : s.workers = some storage
  workerCount : s.workerCount = n
  taskPool : s.taskPool = taskPool
  calls : s.calls = 2 * n + i
  worker : ∀ w, s.worker w = ⟨0, 0, 0⟩
  live : ∀ o w, o.initBy = some w → (s.life o = .live ↔ w < n)
  started : ∀ w, s.life (.thread w) = .live ↔ w < i
  once : s.misused = false

theorem Prepared.launched (h : Prepared storage n taskPool n s) :
    Launched storage n taskPool 0 s :=
  ⟨h.workers, h.workerCount, h.taskPool, h.calls, h.worker, h.live,
    fun w => iff_of_false (h.unstarted w) (Nat.not_lt_zero w), h.once⟩

theorem Launched.started_next (h : Launched storage n taskPool i s) :
    Launched storage n taskPool (i + 1) { s with
      life := Function.update s.life (.thread i) .live
      calls := s.calls + 1 } := by
  refine ⟨h.workers, h.workerCount, h.taskPool, ?_, h.worker, ?_, ?_, h.once⟩
  · show s.calls + 1 = _
    rw [h.calls, Nat.add_assoc]
  · intro o w ho
    dsimp only
    rw [Function.update_of_ne (WorkerObject.ne_thread ho i)]
    exact h.live o w ho
  · intro w
    dsimp only
    by_cases hw : w = i
    · rw [hw, Function.update_self]
      exact iff_of_true rfl (Nat.lt_succ_self i)
    · have hne : WorkerObject.thread w ≠ .thread i :=
        fun heq => hw (WorkerObject.thread.inj heq)
      rw [Function.update_of_ne hne, h.started w]
      omega

/-- The second loop leaves alone what `worker_init` makes. -/
theorem startWorkers_lost (pthread : Pthread) (n i : Nat)
    (ho : o.initBy = some w) (h : s.life o ≠ .live) :
    (startWorkers pthread n i s).2.life o ≠ .live := by
  induction hk : n - i generalizing i s with
  | zero =>
      rw [startWorkers, dif_neg (by omega)]
      exact h
  | succ k ih =>
      have hkeep : (s.acquire pthread (.thread i)).2.life o ≠ .live :=
        Setup.acquire_lost (WorkerObject.ne_thread ho i) h
      rw [startWorkers, dif_pos (by omega)]
      unfold workerStart
      dsimp only
      split
      · split
        · exact hkeep
        · exact ih (i + 1) hkeep (by omega)
      · split
        · exact hkeep
        · exact ih (i + 1) hkeep (by omega)

/-- The second loop starts all workers, or returns at the first one that
could not be started. -/
theorem startWorkers_cases (pthread : Pthread) (hi : i ≤ n)
    (h : Launched storage n taskPool i s) :
    (∀ t, 2 * n + i ≤ t → t < 3 * n → pthread.code t = 0)
        ∧ (startWorkers pthread n i s).1 = 0
        ∧ Launched storage n taskPool n (startWorkers pthread n i s).2
      ∨ (∃ t < 3 * n, pthread.code t ≠ 0)
        ∧ (startWorkers pthread n i s).1 = -1
        ∧ ∃ w < n, (startWorkers pthread n i s).2.life (.thread w) ≠ .live := by
  induction hk : n - i generalizing i s with
  | zero =>
      have hin : i = n := by omega
      rw [startWorkers, dif_neg (by omega)]
      exact Or.inl ⟨fun t hlo hhi => by omega, rfl, hin ▸ h⟩
  | succ k ih =>
      have hcalls := h.calls
      rw [startWorkers, dif_pos (by omega)]
      unfold workerStart
      by_cases hcode : pthread.code s.calls = 0
      · rw [Setup.acquire_ok hcode]
        simp only [ne_eq, not_true_eq_false, if_false]
        refine (ih (by omega) h.started_next (by omega)).imp_left fun hnext =>
          ⟨?_, hnext.2⟩
        intro t hlo hhi
        rcases Nat.eq_or_lt_of_le hlo with rfl | hlt
        · rwa [hcalls] at hcode
        · exact hnext.1 t (by omega) hhi
      · right
        simp only [Setup.acquire_fst, ne_eq, hcode, not_false_eq_true, if_true,
          reduceCtorEq, true_and, Int.reduceNeg]
        refine ⟨⟨s.calls, by omega, hcode⟩, i, by omega, ?_⟩
        rw [Setup.acquire_failed hcode]
        exact fun hlive => Nat.lt_irrefl i ((h.started i).mp hlive)

-- =================================================================== init

/-- The element pool that `cx_threadpool_init` starts with. -/
def newTaskPool : CxPreallocPool := ⟨none, 8 * taskSize, taskSize, 0, 0, 0, 0⟩

theorem run_newTaskPool (m : Machine) :
    (cxPreallocPoolInit taskSize).run m = .ok newTaskPool m :=
  cxPreallocPoolInit2_ok m (by decide) (by decide) (by decide)

theorem prepared_zero (storage n : Nat) (taskPool : CxPreallocPool) :
    Prepared storage n taskPool 0 (emptySetup (some storage) n taskPool) :=
  ⟨rfl, rfl, rfl, rfl, fun _ => rfl,
    fun _ _ _ => iff_of_false nofun (Nat.not_lt_zero _), fun _ => nofun, rfl⟩

/-- The machine once the workers array is there. -/
def arrayed (m : Machine) : Machine :=
  { m with tick := m.tick + 1, arrays := m.tick :: m.arrays }

/-- Nothing failed. -/
def Unfailed (pthread : Pthread) (n : Nat) (m : Machine) : Prop :=
  m.oracle m.tick ≠ 0 ∧ ∀ t < 3 * n, pthread.code t = 0

variable {numCPUs : Int} {workerCount : Nat}

theorem cxThreadpoolInit_ok (hn : poolSize numCPUs workerCount = n)
    (h : Unfailed pthread n m) :
    ∃ s, (cxThreadpoolInit pthread numCPUs workerCount).run m
        = .ok (0, s) (arrayed m)
      ∧ Launched m.tick n newTaskPool n s := by
  obtain ⟨halloc, hcode⟩ := h
  have harray : C.allocArray.run m = .ok (some m.tick) (arrayed m) :=
    if_neg halloc
  obtain ⟨s₁, hinit, hprepared⟩ := initWorkers_ok (m := arrayed m)
    (Nat.zero_le n) (prepared_zero m.tick n newTaskPool)
    (fun t ht => hcode t (by omega))
  rcases startWorkers_cases pthread (Nat.zero_le n) hprepared.launched
    with ⟨-, hrv, hlaunched⟩ | ⟨⟨t, ht, hfail⟩, -⟩
  · refine ⟨_, ?_, hlaunched⟩
    have hsetup : (setupWorkers pthread n (emptySetup (some m.tick) n
        newTaskPool)).run (arrayed m)
        = .ok (startWorkers pthread n 0 s₁) (arrayed m) := by
      unfold setupWorkers
      simp only [emptySetup] at hinit ⊢
      simp only [C.run_bind, hinit, C.chain_ok, lt_irrefl, if_false, C.run_pure]
    unfold cxThreadpoolInit
    rw [hn]
    simp only [C.run_bind, run_newTaskPool, C.chain_ok, harray, hsetup, lt_irrefl,
      if_false, C.run_pure, hrv]
  · exact absurd (hcode t ht) hfail

/-- The clean-up of a pool without its array gets nowhere. -/
theorem cxThreadpoolCleanup_null (h : s.workers = none)
    (hrun : (cxThreadpoolCleanup pthread s).run m = .ok s' m') :
    s'.workers = none := by
  obtain ⟨s₁, m₁, hloop, hrun⟩ := bind_cases hrun
  obtain ⟨_, m₂, -, hrun⟩ := bind_cases hrun
  obtain ⟨_, m₃, -, hrun⟩ := bind_cases hrun
  cases hrun
  rw [cleanupWorkers] at hloop
  split at hloop
  · obtain ⟨s₂, m₄, hworker, -⟩ := bind_cases hloop
    unfold workerCleanup at hworker
    dsimp only at hworker
    rw [h] at hworker
    cases hworker
  · cases hloop
    exact h

/-- What both loops leave. -/
theorem setupWorkers_cases
    (hrun : (setupWorkers pthread n (emptySetup (some storage) n newTaskPool)).run m
      = .ok (rv, s) m') :
    (∀ t < 3 * n, pthread.code t = 0)
      ∨ ∃ o w, w < n ∧ (o.initBy = some w ∨ o = .thread w) ∧ s.life o ≠ .live := by
  unfold setupWorkers emptySetup at hrun
  obtain ⟨⟨rv₁, s₁⟩, m₁, hinit, hrun⟩ := bind_cases hrun
  have hrv := initWorkers_code hinit
  subst hrv
  simp only [lt_irrefl, if_false, C.run_pure, Outcome.ok.injEq] at hrun
  obtain ⟨hstart, -⟩ := hrun
  rcases initWorkers_cases (Nat.zero_le n) (prepared_zero storage n newTaskPool)
    hinit with ⟨hcode, hprepared, -⟩ | ⟨o, w, hw, ho, hmissing⟩
  · rcases startWorkers_cases pthread (Nat.zero_le n)
      hprepared.launched with ⟨hcode', -⟩ | ⟨-, -, w, hw, hmissing⟩
    · left
      intro t ht
      rcases Nat.lt_or_ge t (2 * n) with hlt | hge
      · exact hcode t (by omega) hlt
      · exact hcode' t hge ht
    · rw [hstart] at hmissing
      exact Or.inr ⟨.thread w, w, hw, Or.inr rfl, hmissing⟩
  · refine Or.inr ⟨o, w, hw, Or.inl ho, ?_⟩
    have hkeep := startWorkers_lost pthread n 0 ho hmissing
    rwa [hstart] at hkeep

/-- It returns 0, and what is there in the end was never missing. -/
theorem cxThreadpoolInit_cases (hn : poolSize numCPUs workerCount = n)
    (hrun : (cxThreadpoolInit pthread numCPUs workerCount).run m
      = .ok (rv, s) m') : rv = 0 ∧ (Ready n s m' → Unfailed pthread n m) := by
  unfold cxThreadpoolInit at hrun
  rw [hn] at hrun
  obtain ⟨pool, m₁, hpool, hrun⟩ := bind_cases hrun
  rw [run_newTaskPool] at hpool
  cases hpool
  obtain ⟨workers, m₂, harray, hrun⟩ := bind_cases hrun
  obtain ⟨⟨rv₁, s₁⟩, m₃, hloops, hrun⟩ := bind_cases hrun
  -- what is missing before the clean-up is missing after it
  have hend : rv = 0 ∧ Lost s₁ s ∧ (s₁.workers = none → s.workers = none) := by
    dsimp only at hrun
    split at hrun
    · obtain ⟨s₂, m₄, hclean, hrun⟩ := bind_cases hrun
      cases hrun
      exact ⟨rfl, cxThreadpoolCleanup_lost hclean,
        fun hnull => cxThreadpoolCleanup_null hnull hclean⟩
    · cases hrun
      exact ⟨rfl, .of_life rfl, id⟩
  obtain ⟨hrv, hlost, hnull⟩ := hend
  refine ⟨hrv, fun hready => ?_⟩
  by_cases halloc : m.oracle m.tick = 0
  · have hrefused : C.allocArray.run m
        = .ok none { m with tick := m.tick + 1, refused := true } := if_pos halloc
    rw [hrefused] at harray
    cases harray
    cases hloops
    obtain ⟨storage, hstorage, -⟩ := hready.array
    cases (hnull rfl).symm.trans hstorage
  · have hgranted : C.allocArray.run m = .ok (some m.tick) (arrayed m) :=
      if_neg halloc
    rw [hgranted] at harray
    cases harray
    rcases setupWorkers_cases hloops with hcode | ⟨o, w, hw, ho, hmissing⟩
    · exact ⟨halloc, hcode⟩
    · have hlive : s.life o = .live := by
        obtain ⟨hmutex, hcond, hthread⟩ := hready.live w hw
        rcases ho with ho | rfl
        · cases o with
          | queueMutex w' =>
              cases ho
              exact hmutex
          | queueCond w' =>
              cases ho
              exact hcond
          | thread w' => cases ho
        · exact hthread
      exact absurd hlive (hlost o hmissing)

/-- The code that `cx_threadpool_init` returns is truthful if and only if
neither the array nor any of the calls that make and start the workers
failed. -/
theorem cxThreadpoolInit_truthful_iff (hn : poolSize numCPUs workerCount = n) :
    InitTruthful pthread numCPUs workerCount m ↔ Unfailed pthread n m := by
  unfold InitTruthful
  rw [hn]
  constructor
  · intro htruthful
    obtain ⟨rv, s, m', hrun, hcode⟩ := htruthful
    obtain ⟨rfl, hready⟩ := cxThreadpoolInit_cases hn hrun
    rcases hcode with ⟨-, hpool⟩ | ⟨hneg, -⟩
    · exact hready hpool
    · exact absurd hneg (by decide)
  · intro hunfailed
    obtain ⟨s, hrun, hlaunched⟩ := cxThreadpoolInit_ok hn hunfailed
    refine ⟨0, s, _, hrun, Or.inl ⟨rfl, ⟨_, hlaunched.workers, List.mem_cons_self⟩,
      ?_, fun w _ => hlaunched.worker w⟩⟩
    intro w hw
    exact ⟨(hlaunched.live _ w rfl).mpr hw, (hlaunched.live _ w rfl).mpr hw,
      (hlaunched.started w).mpr hw⟩

-- ================================================================ clean-up

def WorkerObject.owner : WorkerObject → Nat
  | .queueMutex w => w
  | .queueCond w => w
  | .thread w => w

/-- The workers before `i` are cleaned up. -/
structure Cleared (storage n i : Nat) (s : Setup) : Prop where
  workers : s.workers = some storage
  workerCount : s.workerCount = n
  taskPool : s.taskPool = newTaskPool
  live : ∀ o, s.life o = .live ↔ i ≤ o.owner ∧ o.owner < n
  once : s.misused = false

theorem workerCleanup_ok (hcode : ∀ t, pthread.code t = 0) (hi : i < n)
    (h : Cleared storage n i s) :
    ∃ s', (workerCleanup pthread i s).run m = .ok s' m
      ∧ Cleared storage n (i + 1) s' := by
  have hlive : ∀ o, o.owner = i → s.life o = .live := by
    intro o ho
    exact (h.live o).mpr (by omega)
  have hmutex := hlive (.queueMutex i) rfl
  have hcond := hlive (.queueCond i) rfl
  have hthread := hlive (.thread i) rfl
  refine ⟨{ s with
    life := Function.update (Function.update (Function.update s.life
      (.thread i) .released) (.queueMutex i) .released) (.queueCond i) .released
    calls := s.calls + 1 + 1 + 1 + 1 + 1 + 1 }, ?_, h.workers, h.workerCount,
    h.taskPool, ?_, h.once⟩
  · unfold workerCleanup
    rw [h.workers]
    simp [Setup.use_ok, Setup.release_ok, hmutex, hcond, hthread, hcode, h.workers]
  · intro o
    have hother : o.owner ≠ i → (i + 1 ≤ o.owner ↔ i ≤ o.owner) := by omega
    cases o with
    | queueMutex w =>
        by_cases hw : w = i
        · simp [hw, WorkerObject.owner]
        · simpa [hw, hother hw] using h.live (.queueMutex w)
    | queueCond w =>
        by_cases hw : w = i
        · simp [hw, WorkerObject.owner]
        · simpa [hw, hother hw] using h.live (.queueCond w)
    | thread w =>
        by_cases hw : w = i
        · simp [hw, WorkerObject.owner]
        · simpa [hw, hother hw] using h.live (.thread w)

theorem cleanupWorkers_ok (hcode : ∀ t, pthread.code t = 0) (hi : i ≤ n)
    (h : Cleared storage n i s) :
    ∃ s', (cleanupWorkers pthread n i s).run m = .ok s' m
      ∧ Cleared storage n n s' := by
  induction hk : n - i generalizing i s with
  | zero =>
      have hin : i = n := by omega
      rw [cleanupWorkers, dif_neg (by omega)]
      exact ⟨s, rfl, hin ▸ h⟩
  | succ k ih =>
      obtain ⟨s₁, hworker, hnext⟩ := workerCleanup_ok (m := m) hcode
        (show i < n by omega) h
      rw [cleanupWorkers, dif_pos (by omega), C.run_bind, hworker, C.chain_ok]
      exact ih (by omega) hnext (by omega)

/-- A pool that was set up and is cleaned up again leaves nothing. -/
theorem cxThreadpoolCleanup_released (hn : poolSize numCPUs workerCount = n)
    (halloc : m.oracle m.tick ≠ 0) (hfresh : m.tick ∉ m.arrays)
    (hcode : ∀ t, pthread.code t = 0) :
    ∃ s m' s' m'', (cxThreadpoolInit pthread numCPUs workerCount).run m
        = .ok (0, s) m'
      ∧ (cxThreadpoolCleanup pthread s).run m' = .ok s' m''
      ∧ ReleasedOnce s' m m'' := by
  have hunfailed : Unfailed pthread n m := ⟨halloc, fun t _ => hcode t⟩
  obtain ⟨s, hinit, hlaunched⟩ := cxThreadpoolInit_ok hn hunfailed
  have hcleared : Cleared m.tick n 0 { s with running := false } := by
    refine ⟨hlaunched.workers, hlaunched.workerCount, hlaunched.taskPool, ?_,
      hlaunched.once⟩
    intro o
    cases o with
    | queueMutex w => simpa [WorkerObject.owner] using hlaunched.live _ w rfl
    | queueCond w => simpa [WorkerObject.owner] using hlaunched.live _ w rfl
    | thread w => simpa [WorkerObject.owner] using hlaunched.started w
  obtain ⟨s', hloop, hend⟩ := cleanupWorkers_ok (m := arrayed m) hcode
    (Nat.zero_le n) hcleared
  rw [← hlaunched.workerCount] at hloop
  -- the chunk table is null, and the array is the newest one
  have hfree : (m.tick :: m.arrays).filter (fun i => some i ≠ some m.tick)
      = m.arrays := by
    rw [List.filter_cons_of_neg (by simp), List.filter_eq_self]
    intro i hi
    have hne : i ≠ m.tick := fun heq => hfresh (heq ▸ hi)
    simpa using hne
  have hpool : ∀ m₁ : Machine, (cxPreallocPoolCleanup newTaskPool).run m₁
      = .ok () m₁ := by
    intro m₁
    unfold cxPreallocPoolCleanup
    rw [freeChunks, dif_neg (by decide), C.run_bind, C.run_pure, C.chain_ok]
    show Outcome.ok () { m₁ with arrays := m₁.arrays.filter _ } = _
    simp [newTaskPool]
  refine ⟨s, arrayed m, s', { m with tick := m.tick + 1 }, hinit, ?_, ?_,
    hend.once, rfl, rfl⟩
  · have hrun : (C.freeArray (some m.tick)).run (arrayed m)
        = .ok () { m with tick := m.tick + 1 } := by
      show Outcome.ok () { arrayed m with arrays := _ } = _
      rw [show (arrayed m).arrays = m.tick :: m.arrays from rfl, hfree]
      rfl
    unfold cxThreadpoolCleanup
    dsimp only
    rw [C.run_bind, hloop, C.chain_ok, C.run_bind, hend.workers, hrun,
      C.chain_ok, C.run_bind, hend.taskPool, hpool, C.chain_ok, C.run_pure]
  · intro o
    rw [Ne, hend.live]
    omega

end Cextras.Concurrency
