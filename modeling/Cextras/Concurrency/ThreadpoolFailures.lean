/-
The thread pool (lib/concurrency/threadpool.c) when calls into pthread
fail: `cx_threadpool_init` with the clean-up it shares with
`cx_threadpool_cleanup`, and a call of `cx_threadpool_schedule`.

`Pthread` says what each call returns, in the order in which they are
made. `life` is ghost; it says which mutexes, condition variables and
threads of the workers exist. Calls on others are undefined. They stop the
program, or, if pthread is `lenient`, return an error and do nothing. What
the workers do once they are started is not part of it: they change nothing
that `cx_threadpool_init` goes on to look at.

A call of `cx_threadpool_schedule` goes the way it does in Threadpool.lean,
step by step, as long as nothing fails. Between its steps other threads may
do anything at all (`ScheduleRun`). `ScheduleCall` is ghost: it records
what the call did to the pool.
-/
import Cextras.Concurrency.Threadpool

namespace Cextras.Concurrency

open Lib Memory

-- ================================================================ pthread

/-- `queue_mutex`, `queue_cond` and `thread` of a worker -/
inductive WorkerObject where
  | queueMutex (w : Nat)
  | queueCond (w : Nat)
  | thread (w : Nat)
deriving DecidableEq

inductive Life where
  | fresh
  | live
  | released
deriving DecidableEq

structure Pthread where
  /-- what the `t`-th call returns; 0 is success -/
  code : Nat → Nat
  /-- calls on objects that do not exist return -/
  lenient : Bool

/-- A pool that is being set up. -/
structure Setup where
  workers : Option Nat
  workerCount : Nat
  taskPool : CxPreallocPool
  activeTasks : Nat
  running : Bool
  worker : Nat → CxWorker
  life : WorkerObject → Life
  /-- the calls into pthread so far -/
  calls : Nat
  /-- one of them was on an object that did not exist -/
  misused : Bool

namespace Setup

/-- `pthread_mutex_init`, `pthread_cond_init` and `pthread_create` -/
def acquire (pthread : Pthread) (o : WorkerObject) (s : Setup) : Nat × Setup :=
  (pthread.code s.calls, { s with
    life := if pthread.code s.calls = 0 then Function.update s.life o .live
      else s.life
    calls := s.calls + 1 })

def misuse (pthread : Pthread) (s : Setup) : C Setup :=
  if pthread.lenient then pure { s with calls := s.calls + 1, misused := true }
  else C.fail .badAccess

/-- `pthread_mutex_lock`, `pthread_cond_signal` and `pthread_mutex_unlock`,
whatever they return -/
def use (pthread : Pthread) (o : WorkerObject) (s : Setup) : C Setup :=
  if s.life o = .live then pure { s with calls := s.calls + 1 }
  else s.misuse pthread

/-- `pthread_join`, `pthread_mutex_destroy` and `pthread_cond_destroy`,
whatever they return -/
def release (pthread : Pthread) (o : WorkerObject) (s : Setup) : C Setup :=
  if s.life o = .live then
    pure { s with
      life := if pthread.code s.calls = 0
        then Function.update s.life o .released else s.life
      calls := s.calls + 1 }
  else s.misuse pthread

end Setup

-- =================================================================== init

/-- It returns 0. -/
def workerCleanup (pthread : Pthread) (w : Nat) (s : Setup) : C Setup := do
  match s.workers with
  | none => C.fail .nullDeref
  | some _ =>
      let s ← s.use pthread (.queueMutex w)
      let s ← s.use pthread (.queueCond w)
      let s ← s.use pthread (.queueMutex w)
      let s ← s.release pthread (.thread w)
      let s ← s.release pthread (.queueMutex w)
      s.release pthread (.queueCond w)

/-- `pthread_mutex_init` and `pthread_cond_init` in `worker_init`. -/
def workerAcquire (pthread : Pthread) (w : Nat) (s : Setup) : Int × Setup :=
  let (code, s) := s.acquire pthread (.queueMutex w)
  if code ≠ 0 then (-1, s)
  else
    let (code, s) := s.acquire pthread (.queueCond w)
    if code ≠ 0 then (-1, s) else (0, s)

/-- It returns 0 even where it cleaned up. -/
def workerInit (pthread : Pthread) (w : Nat) (s : Setup) : C (Int × Setup) := do
  let s := { s with worker := Function.update s.worker w ⟨0, 0, 0⟩ }
  let (rv, s) := workerAcquire pthread w s
  if rv < 0 then
    let s ← workerCleanup pthread w s
    pure (0, s)
  else
    pure (0, s)

def workerStart (pthread : Pthread) (w : Nat) (s : Setup) : Int × Setup :=
  let (code, s) := s.acquire pthread (.thread w)
  if code ≠ 0 then (-1, s) else (0, s)

/-- The first loop of `cx_threadpool_init`, from worker `i` on. -/
def initWorkers (pthread : Pthread) (workerCount i : Nat) (s : Setup) :
    C (Int × Setup) := do
  if _h : i < workerCount then
    let (rv, s) ← workerInit pthread i s
    if rv < 0 then pure (rv, s)
    else initWorkers pthread workerCount (i + 1) s
  else
    pure (0, s)
termination_by workerCount - i

/-- The second one. -/
def startWorkers (pthread : Pthread) (workerCount i : Nat) (s : Setup) :
    Int × Setup :=
  if _h : i < workerCount then
    let (rv, s) := workerStart pthread i s
    if rv ≠ 0 then (-1, s)
    else startWorkers pthread workerCount (i + 1) s
  else
    (0, s)
termination_by workerCount - i

/-- The loop of `cx_threadpool_cleanup`, from worker `i` on. -/
def cleanupWorkers (pthread : Pthread) (workerCount i : Nat) (s : Setup) :
    C Setup := do
  if _h : i < workerCount then
    let s ← workerCleanup pthread i s
    cleanupWorkers pthread workerCount (i + 1) s
  else
    pure s
termination_by workerCount - i

/-- It returns 0. -/
def cxThreadpoolCleanup (pthread : Pthread) (s : Setup) : C Setup := do
  let s := { s with running := false }
  let s ← cleanupWorkers pthread s.workerCount 0 s
  C.freeArray s.workers
  cxPreallocPoolCleanup s.taskPool
  pure s

/-- The number of workers: `(int)numCPUs`, as `sysconf` has it, if none is
asked for. -/
def poolSize (numCPUs : Int) (workerCount : Nat) : Nat :=
  if workerCount = 0 then (numCPUs % 2 ^ 64).toNat else workerCount

/-- The pool before its workers are set up. -/
def emptySetup (workers : Option Nat) (workerCount : Nat)
    (taskPool : CxPreallocPool) : Setup where
  workers := workers
  workerCount := workerCount
  taskPool := taskPool
  activeTasks := 0
  running := true
  worker := fun _ => ⟨0, 0, 0⟩
  life := fun _ => .fresh
  calls := 0
  misused := false

/-- `cx_threadpool_init` between the `calloc` and `out`. -/
def setupWorkers (pthread : Pthread) (workerCount : Nat) (s : Setup) :
    C (Int × Setup) := do
  match s.workers with
  | none => pure (-1, s)
  | some _ =>
      let (rv, s) ← initWorkers pthread workerCount 0 s
      if rv < 0 then pure (rv, s)
      else pure (startWorkers pthread workerCount 0 s)

/-- It returns 0, whatever `rv` is. -/
def cxThreadpoolInit (pthread : Pthread) (numCPUs : Int) (workerCount : Nat) :
    C (Int × Setup) := do
  let workerCount := poolSize numCPUs workerCount
  let taskPool ← cxPreallocPoolInit taskSize
  let workers ← C.allocArray
  let (rv, s) ← setupWorkers pthread workerCount
    (emptySetup workers workerCount taskPool)
  if rv < 0 then
    let s ← cxThreadpoolCleanup pthread s
    pure (0, s)
  else
    pure (0, s)

-- =============================================================== schedule

/-- Where a call of `cx_threadpool_schedule` is. -/
inductive SchedulePc where
  /-- before `out`, and in what follows there if nothing failed -/
  | call (p : ClientPc)
  /-- `task_free` -/
  | freeLock (task : Nat)
  | freeRecycle (task : Nat)
  | freeUnlock
  | returned (rv : Int)
deriving DecidableEq

/-- How a step is resolved: the call into pthread it makes may fail. -/
inductive ScheduleChoice where
  | ok (choice : Choice)
  | fail
deriving DecidableEq

/-- A step whose call into pthread fails. Only that of `queue_mutex` is
looked at. -/
def scheduleFail (s : Shared) : ClientPc → Option (SchedulePc × Shared)
  | .newLock function arg => some (.call (.newGet function arg), s)
  | .newUnlock function arg task =>
      some (if task = 0 then .returned 0 else .call (.newInit function arg task), s)
  | .queueLock task _ => some (.freeLock task, s)
  | .signal task v => some (.call (.queueUnlock task v), s)
  | .queueUnlock task _ =>
      some (.returned 0, { s with book := s.book.accept task })
  | _ => none

/-- A step of a call that client `c` made. It returns 0 on all paths. -/
def scheduleStep (n c : Nat) (choice : ScheduleChoice) (s : Shared) :
    SchedulePc → Option (SchedulePc × Shared)
  | .call p =>
      match choice with
      | .ok x => (clientStep n c x s p).map fun r =>
          (if r.1 = .idle then .returned 0 else .call r.1, r.2)
      | .fail => scheduleFail s p
  | .freeLock task =>
      match choice with
      | .ok _ => do
          let s ← s.lock .taskPool (.client c)
          some (.freeRecycle task, s)
      | .fail => some (.freeRecycle task, s)
  | .freeRecycle task => do
      let (taskPool, s) ← s.run (cxPreallocPoolRecycle s.taskPool task)
      some (.freeUnlock, { s with
        taskPool := taskPool, book := s.book.move task .free })
  | .freeUnlock =>
      match choice with
      | .ok _ => some (.returned 0, s.unlock .taskPool)
      | .fail => some (.returned 0, s)
  | .returned _ => none

/-- `task` was linked as the last one of the queue of `v`. -/
def LinkedLast (s s' : Shared) (task v : Nat) : Prop :=
  (s'.workers v).tail = task
    ∧ if (s.workers v).tail = 0 then (s'.workers v).head = task
      else s'.machine.mem.load64 ((s.workers v).tail + nextOffset) = task

instance (s s' : Shared) (task v : Nat) : Decidable (LinkedLast s s' task v) :=
  inferInstanceAs (Decidable (_ ∧ _))

/-- What a call did to the pool. -/
structure ScheduleCall where
  /-- the cell the element pool gave it, or null -/
  cell : Nat
  /-- `pthread_mutex_lock` of the `queue_mutex` succeeded -/
  locked : Bool
  linked : Bool
  /-- in `active_tasks` -/
  counted : Bool
  /-- the element pool has the cell back -/
  recycled : Bool
deriving DecidableEq

namespace ScheduleCall

def start : ScheduleCall := ⟨0, false, false, false, false⟩

/-- What there is to see of a step from `s` to `s'`. -/
def note (p p' : SchedulePc) (s s' : Shared) (call : ScheduleCall) :
    ScheduleCall :=
  match p, p' with
  | .call (.newGet _ _), .call (.newUnlock _ _ task) => { call with cell := task }
  | .call (.queueLock _ _), .call (.link _ _) => { call with locked := true }
  | .call (.link task v), _ =>
      { call with linked := decide (LinkedLast s s' task v) }
  | .call (.addActive _ _), _ =>
      { call with counted := decide (s'.activeTasks = s.activeTasks + 1) }
  | .freeRecycle task, _ =>
      { call with recycled := decide (s'.taskPool.reusePool = task) }
  | _, _ => call

end ScheduleCall

/-- The ways a call `cx_threadpool_schedule(pool, function, arg)` can go. -/
inductive ScheduleRun (n c function arg : Nat) :
    SchedulePc → Shared → ScheduleCall → Prop where
  | start {s : Shared} :
      ScheduleRun n c function arg (.call (.newLock function arg)) s .start
  /-- other threads move -/
  | others {p : SchedulePc} {s s' : Shared} {call : ScheduleCall} :
      ScheduleRun n c function arg p s call →
      ScheduleRun n c function arg p s' call
  | step {p p' : SchedulePc} {s s' : Shared} {call : ScheduleCall}
      {x : ScheduleChoice} : ScheduleRun n c function arg p s call →
      scheduleStep n c x s p = some (p', s') →
      ScheduleRun n c function arg p' s' (call.note p p' s s')

end Cextras.Concurrency
