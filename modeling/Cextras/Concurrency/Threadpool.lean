/-
The thread pool (lib/concurrency/threadpool.c): workers that each have a
queue of tasks and take tasks from one another's, client threads that
schedule tasks, wait for all of them or shut the pool down.

A step is one access to shared state: taking or releasing a mutex, one
atomic operation, or what a thread does in one go to data a mutex it
holds guards, or that only it refers to. Locking a mutex waits until it
is free and then succeeds. An access to what is destroyed or freed is
undefined in C; here it is no step. A function that is run as a task
takes as long as it likes; calls it makes to the pool are those of a
client.

The cells of tasks, their `next` pointers included, are in flat memory
and come from the element pool. `Book` is ghost: it records which call of
`cx_threadpool_schedule` a cell belongs to and what happened to it, and no
step depends on it but the one call of `cx_threadpool_cleanup`.
-/
import Cextras.Lib.Interleave
import Cextras.Lib.Sync
import Cextras.Memory.PreallocPool

namespace Cextras.Concurrency

open Lib Memory

-- ================================================================ threads

inductive Thread where
  | worker (w : Nat)
  | client (c : Nat)
deriving DecidableEq

/-- `queue_mutex` of a worker, `wait_mutex`, `task_pool_mutex` -/
inductive MutexId where
  | queue (w : Nat)
  | wait
  | taskPool
deriving DecidableEq

/-- `queue_cond` of a worker, `wait_cond` -/
inductive CondId where
  | queue (w : Nat)
  | wait
deriving DecidableEq

-- ================================================================== tasks

/-- `sizeof(struct CxTask)` -/
def taskSize : Nat := 24

/-- `offsetof(struct CxTask, arg)` -/
def argOffset : Nat := 8

/-- `offsetof(struct CxTask, next)` -/
def nextOffset : Nat := 16

/-- The list part of `struct CxWorker`. -/
structure CxWorker where
  head : Nat
  tail : Nat
  queueLength : Nat
deriving DecidableEq

/-- The members `task_new` sets. -/
def taskInit (task function arg : Nat) : C Unit := do
  C.store64 task function
  C.store64 (task + argOffset) arg
  C.store64 (task + nextOffset) 0

/-- `worker_get_task` up to the update of `queue_length`. -/
def workerGetTask (worker : CxWorker) : C (Nat × CxWorker) := do
  let task := worker.head
  if task ≠ 0 then
    let next ← C.load64 (task + nextOffset)
    let worker := { worker with head := next }
    if worker.head = 0 then
      pure (task, { worker with tail := 0 })
    else
      pure (task, worker)
  else
    pure (task, worker)

/-- The linking of `new_task` in `cx_threadpool_schedule`. -/
def appendTask (worker : CxWorker) (newTask : Nat) : C CxWorker := do
  if worker.tail ≠ 0 then
    C.store64 (worker.tail + nextOffset) newTask
    pure { worker with tail := newTask }
  else
    pure { worker with head := newTask, tail := newTask }

/-- `task->function(task->arg)`: what is called on what. -/
def taskCall (task : Nat) : C (Nat × Nat) := do
  let function ← C.load64 task
  let arg ← C.load64 (task + argOffset)
  pure (function, arg)

/-- `atomic_fetch_sub(x, 1)`. Counting up is plain: a count of tasks is one
of cells in memory and does not reach the end of the word. -/
def fetchSub (x : Nat) : Nat := if x = 0 then 2 ^ 64 - 1 else x - 1

-- ================================================================== ghost

/-- Where a cell is. -/
inductive Place where
  | free
  | thread (t : Thread)
  | queue (w : Nat)
deriving DecidableEq

/-- What became of one call of `cx_threadpool_schedule`. -/
structure TaskRecord where
  function : Nat
  arg : Nat
  cell : Nat
  /-- it is linked into a queue -/
  linked : Bool
  /-- it is counted in `active_tasks` -/
  counted : Bool
  /-- the call returned -/
  accepted : Bool
  /-- the worker that took it -/
  taker : Option Nat
  /-- the calls made for it, of what on what -/
  starts : List (Nat × Nat)
  /-- the function returned -/
  finished : Bool
  /-- it is no longer counted in `active_tasks` -/
  uncounted : Bool

structure Book where
  /-- the number of tasks so far -/
  count : Nat
  record : Nat → TaskRecord
  /-- the last task a cell was handed out for -/
  occupant : Nat → Option Nat
  place : Nat → Place
  /-- the tasks accepted before a client's last wait began -/
  before : Nat → Nat → Bool
  /-- the workers `cx_threadpool_cleanup` signalled -/
  signalled : Nat → Bool
  /-- `cx_threadpool_cleanup` was called -/
  cleaned : Bool

namespace Book

def modify (b : Book) (t : Nat) (f : TaskRecord → TaskRecord) : Book :=
  { b with record := Function.update b.record t (f (b.record t)) }

/-- Changes the record of the task in a cell. -/
def modifyAt (b : Book) (cell : Nat) (f : TaskRecord → TaskRecord) : Book :=
  match b.occupant cell with
  | some t => b.modify t f
  | none => b

def move (b : Book) (cell : Nat) (place : Place) : Book :=
  { b with place := Function.update b.place cell place }

/-- A client got a cell for a new task. -/
def create (b : Book) (cell function arg c : Nat) : Book :=
  { b with
    count := b.count + 1
    record := Function.update b.record b.count
      ⟨function, arg, cell, false, false, false, none, [], false, false⟩
    occupant := Function.update b.occupant cell (some b.count)
    place := Function.update b.place cell (.thread (.client c)) }

def link (b : Book) (cell v : Nat) : Book :=
  (b.move cell (.queue v)).modifyAt cell fun r => { r with linked := true }

def countIn (b : Book) (cell : Nat) : Book :=
  b.modifyAt cell fun r => { r with counted := true }

def accept (b : Book) (cell : Nat) : Book :=
  b.modifyAt cell fun r => { r with accepted := true }

def take (b : Book) (cell w : Nat) : Book :=
  (b.move cell (.thread (.worker w))).modifyAt cell fun r =>
    { r with taker := some w }

def start (b : Book) (cell : Nat) (call : Nat × Nat) : Book :=
  b.modifyAt cell fun r => { r with starts := r.starts ++ [call] }

def finish (b : Book) (cell : Nat) : Book :=
  b.modifyAt cell fun r => { r with finished := true }

def countOut (b : Book) (t : Nat) : Book :=
  b.modify t fun r => { r with uncounted := true }

def beginWait (b : Book) (c : Nat) : Book :=
  { b with before := Function.update b.before c fun t =>
      decide (t < b.count) && (b.record t).accepted }

def signal (b : Book) (w : Nat) : Book :=
  { b with signalled := Function.update b.signalled w true }

end Book

-- ================================================================= shared

/-- `struct CxThreadpool`, its workers and the machine. -/
structure Shared where
  machine : Machine
  taskPool : CxPreallocPool
  workers : Nat → CxWorker
  running : Bool
  activeTasks : Nat
  sync : Sync MutexId CondId Thread
  /-- the worker's thread has ended -/
  exited : Nat → Bool
  /-- the worker's mutex and condition variable are destroyed -/
  destroyed : Nat → Bool
  /-- the workers and the task pool are freed -/
  freed : Bool
  book : Book

namespace Shared

/-- Run machine code, if it does not fault. -/
def run {α : Type} (s : Shared) (x : C α) : Option (α × Shared) :=
  match x.run s.machine with
  | .ok a m => some (a, { s with machine := m })
  | .fault _ _ => none

def gone (s : Shared) : MutexId → Bool
  | .queue w => s.destroyed w
  | .wait => false
  | .taskPool => false

def lock (s : Shared) (m : MutexId) (t : Thread) : Option Shared :=
  if s.gone m then none
  else (s.sync.lock m t).map fun y => { s with sync := y }

def unlock (s : Shared) (m : MutexId) : Shared :=
  { s with sync := s.sync.unlock m }

def sleep (s : Shared) (k : CondId) (m : MutexId) (t : Thread) : Shared :=
  { s with sync := s.sync.sleep k m t }

def wake (s : Shared) (k : CondId) (t : Thread) : Shared :=
  { s with sync := s.sync.wake k t }

def relock (s : Shared) (k : CondId) (m : MutexId) (t : Thread) :
    Option Shared :=
  if s.gone m then none
  else (s.sync.relock k m t).map fun y => { s with sync := y }

def signal (s : Shared) (k : CondId) (chosen : Thread) : Option Shared :=
  (s.sync.signal k chosen).map fun y => { s with sync := y }

/-- Worker `w` takes a task off the queue of `v`. -/
def getTask (s : Shared) (v w : Nat) : Option (Nat × Shared) := do
  let ((task, worker), s) ← s.run (workerGetTask (s.workers v))
  let s := { s with workers := Function.update s.workers v worker }
  some (task, if task = 0 then s else { s with book := s.book.take task w })

def setLength (s : Shared) (v length : Nat) : Shared :=
  let worker := s.workers v
  { s with
    workers := Function.update s.workers v { worker with queueLength := length } }

end Shared

-- ================================================================ workers

/-- Where in `worker_run` a worker is. What it found is the address of a
task, or null. -/
inductive WorkerPc where
  | top
  /-- `worker_find_task`, at the `i`-th candidate -/
  | findLock (i : Nat)
  | findGet (i : Nat)
  | findSub (i task : Nat)
  | findUnlock (i task : Nat)
  /-- `worker_wait_for_task` -/
  | waitLock
  | waitGet
  | waitSub (task : Nat)
  | waitTest
  | waitSleep
  | blocked
  | waitUnlock (task : Nat)
  | run (task : Nat)
  | running (task : Nat)
  /-- `task_free`; the task itself (ghost) is what is counted out later -/
  | freeLock (task : Nat)
  | freeRecycle (task : Nat)
  | freeUnlock (done : Option Nat)
  | doneLock (done : Option Nat)
  | doneSub (done : Option Nat)
  | doneSignal
  | doneUnlock
  | exited
deriving DecidableEq

/-- How a step is resolved: which call an idle client makes, whom a signal
wakes, or that a wait ends for no reason. -/
inductive Choice where
  | go
  | spurious
  | wake (c : Nat)
  | schedule (function arg : Nat)
  | wait
  | cleanup
deriving DecidableEq

/-- A step of worker `w` of `n`. -/
def workerStep (n w : Nat) (choice : Choice) (s : Shared) :
    WorkerPc → Option (WorkerPc × Shared)
  | .top =>
      if s.running then some (.findLock 0, s)
      else some (.exited, { s with exited := Function.update s.exited w true })
  | .findLock i =>
      if i < n then do
        let s ← s.lock (.queue ((i + w) % n)) (.worker w)
        some (.findGet i, s)
      else some (.waitLock, s)
  | .findGet i => do
      let (task, s) ← s.getTask ((i + w) % n) w
      some (if task = 0 then .findUnlock i 0 else .findSub i task, s)
  | .findSub i task =>
      some (.findUnlock i task, s.setLength ((i + w) % n)
        (fetchSub (s.workers ((i + w) % n)).queueLength))
  | .findUnlock i task =>
      some (if task = 0 then .findLock (i + 1) else .run task,
        s.unlock (.queue ((i + w) % n)))
  | .waitLock => do
      let s ← s.lock (.queue w) (.worker w)
      some (.waitGet, s)
  | .waitGet => do
      let (task, s) ← s.getTask w w
      some (if task = 0 then .waitTest else .waitSub task, s)
  | .waitSub task =>
      some (.waitUnlock task, s.setLength w (fetchSub (s.workers w).queueLength))
  | .waitTest => some (if s.running then .waitSleep else .waitUnlock 0, s)
  | .waitSleep => some (.blocked, s.sleep (.queue w) (.queue w) (.worker w))
  | .blocked =>
      match choice with
      | .spurious => some (.blocked, s.wake (.queue w) (.worker w))
      | _ => do
          let s ← s.relock (.queue w) (.queue w) (.worker w)
          some (.waitGet, s)
  | .waitUnlock task =>
      some (if task = 0 then .top else .run task, s.unlock (.queue w))
  | .run task => do
      let (call, s) ← s.run (taskCall task)
      some (.running task, { s with book := s.book.start task call })
  | .running task => some (.freeLock task, { s with book := s.book.finish task })
  | .freeLock task => do
      let s ← s.lock .taskPool (.worker w)
      some (.freeRecycle task, s)
  | .freeRecycle task => do
      let (taskPool, s) ← s.run (cxPreallocPoolRecycle s.taskPool task)
      some (.freeUnlock (s.book.occupant task),
        { s with taskPool := taskPool, book := s.book.move task .free })
  | .freeUnlock done => some (.doneLock done, s.unlock .taskPool)
  | .doneLock done => do
      let s ← s.lock .wait (.worker w)
      some (.doneSub done, s)
  | .doneSub done =>
      some (if s.activeTasks = 1 then .doneSignal else .doneUnlock,
        { s with
          activeTasks := fetchSub s.activeTasks
          book := (done.map s.book.countOut).getD s.book })
  | .doneSignal =>
      match choice with
      | .wake c => do
          let s ← s.signal .wait (.client c)
          some (.doneUnlock, s)
      | _ => none
  | .doneUnlock => some (.top, s.unlock .wait)
  | .exited => none

-- ================================================================ clients

inductive ClientPc where
  | idle
  /-- `task_new` -/
  | newLock (function arg : Nat)
  | newGet (function arg : Nat)
  | newUnlock (function arg task : Nat)
  | newInit (function arg task : Nat)
  /-- `cx_threadpool_schedule`, looking at candidate `i` -/
  | scan (task i : Nat) (worker : Option Nat) (minQueueLength : Nat)
  | queueLock (task v : Nat)
  | link (task v : Nat)
  | addActive (task v : Nat)
  | addLength (task v : Nat)
  | signal (task v : Nat)
  | queueUnlock (task v : Nat)
  /-- `cx_threadpool_wait` -/
  | waitLock
  | waitTest
  | waitSleep
  | blocked
  | waitUnlock
  /-- `cx_threadpool_cleanup`, at worker `i` -/
  | cleanStore
  | cleanLock (i : Nat)
  | cleanSignal (i : Nat)
  | cleanUnlock (i : Nat)
  | cleanJoin (i : Nat)
  | cleanDestroy (i : Nat)
  | cleanFree
deriving DecidableEq

/-- A step of client `c` of a pool of `n` workers. -/
def clientStep (n c : Nat) (choice : Choice) (s : Shared) :
    ClientPc → Option (ClientPc × Shared)
  | .idle =>
      match choice with
      | .schedule function arg =>
          if function < 2 ^ 64 ∧ arg < 2 ^ 64 then
            some (.newLock function arg, s)
          else none
      | .wait => some (.waitLock, { s with book := s.book.beginWait c })
      | .cleanup =>
          if s.book.cleaned then none
          else some (.cleanStore, { s with book.cleaned := true })
      | _ => none
  | .newLock function arg => do
      let s ← s.lock .taskPool (.client c)
      some (.newGet function arg, s)
  | .newGet function arg => do
      let ((task, taskPool), s) ← s.run (cxPreallocPoolGet s.taskPool)
      let s := { s with taskPool := taskPool }
      some (.newUnlock function arg task, if task = 0 then s
        else { s with book := s.book.create task function arg c })
  | .newUnlock function arg task =>
      some (if task = 0 then .idle else .newInit function arg task,
        s.unlock .taskPool)
  | .newInit function arg task => do
      let (_, s) ← s.run (taskInit task function arg)
      some (.scan task 0 none (2 ^ 64 - 1), s)
  | .scan task i worker minQueueLength =>
      if s.freed then none
      else if i < n then
        let queueLength := (s.workers i).queueLength
        if queueLength < minQueueLength then
          some (.scan task (i + 1) (some i) queueLength, s)
        else some (.scan task (i + 1) worker minQueueLength, s)
      else
        match worker with
        | none => none
        | some v => some (.queueLock task v, s)
  | .queueLock task v => do
      let s ← s.lock (.queue v) (.client c)
      some (.link task v, s)
  | .link task v => do
      let (worker, s) ← s.run (appendTask (s.workers v) task)
      some (.addActive task v, { s with
        workers := Function.update s.workers v worker
        book := s.book.link task v })
  | .addActive task v =>
      some (.addLength task v, { s with
        activeTasks := s.activeTasks + 1
        book := s.book.countIn task })
  | .addLength task v =>
      some (.signal task v, s.setLength v ((s.workers v).queueLength + 1))
  | .signal task v => do
      let s ← s.signal (.queue v) (.worker v)
      some (.queueUnlock task v, s)
  | .queueUnlock task v =>
      let s := { s with book := s.book.accept task }
      some (.idle, s.unlock (.queue v))
  | .waitLock => do
      let s ← s.lock .wait (.client c)
      some (.waitTest, s)
  | .waitTest => some (if s.activeTasks > 0 then .waitSleep else .waitUnlock, s)
  | .waitSleep => some (.blocked, s.sleep .wait .wait (.client c))
  | .blocked =>
      match choice with
      | .spurious => some (.blocked, s.wake .wait (.client c))
      | _ => do
          let s ← s.relock .wait .wait (.client c)
          some (.waitTest, s)
  | .waitUnlock => some (.idle, s.unlock .wait)
  | .cleanStore => some (.cleanLock 0, { s with running := false })
  | .cleanLock i =>
      if i < n then do
        let s ← s.lock (.queue i) (.client c)
        some (.cleanSignal i, s)
      else some (.cleanFree, s)
  | .cleanSignal i => do
      let s ← s.signal (.queue i) (.worker i)
      some (.cleanUnlock i, { s with book := s.book.signal i })
  | .cleanUnlock i => some (.cleanJoin i, s.unlock (.queue i))
  | .cleanJoin i => if s.exited i then some (.cleanDestroy i, s) else none
  | .cleanDestroy i =>
      if s.sync.owner (.queue i) = none then
        some (.cleanLock (i + 1), { s with
          destroyed := Function.update s.destroyed i true })
      else none
  | .cleanFree => do
      let (_, s) ← s.run (cxPreallocPoolCleanup s.taskPool)
      some (.idle, { s with freed := true })

-- =================================================================== pool

/-- The program counter of a thread. -/
@[reducible] def Pc : Thread → Type
  | .worker _ => WorkerPc
  | .client _ => ClientPc

/-- A pool of `n` workers. -/
def program (n : Nat) : Program Pc Shared Choice
  | .worker w, choice, pc, s => workerStep n w choice s pc
  | .client c, choice, pc, s => clientStep n c choice s pc

/-- What `cx_threadpool_init` leaves, given its task pool. Nothing in the
code initialises `task_pool_mutex`, `wait_mutex` and `wait_cond`; they are
taken as valid and unused, as those of a zeroed structure are. -/
def initShared (taskPool : CxPreallocPool) (m : Machine) : Shared where
  machine := m
  taskPool := taskPool
  workers := fun _ => ⟨0, 0, 0⟩
  running := true
  activeTasks := 0
  sync := Sync.init
  exited := fun _ => false
  destroyed := fun _ => false
  freed := false
  book := {
    count := 0
    record := fun _ => ⟨0, 0, 0, false, false, false, none, [], false, false⟩
    occupant := fun _ => none
    place := fun _ => .free
    before := fun _ _ => false
    signalled := fun _ => false
    cleaned := false }

/-- The `n` workers are started, and no client has made a call. -/
def initPc (n : Nat) : (t : Thread) → Pc t
  | .worker w => if w < n then WorkerPc.top else WorkerPc.exited
  | .client _ => ClientPc.idle

/-- The pool as `cx_threadpool_init` started it. -/
def Started (n : Nat) (mem : Mem) (oracle : Nat → Nat) (c : Config Pc Shared) :
    Prop :=
  ∃ taskPool m, (cxPreallocPoolInit taskSize).run (Machine.boot mem oracle)
      = .ok taskPool m
    ∧ c = ⟨initPc n, initShared taskPool m⟩

/-- The configurations of all interleavings. -/
abbrev Run (n : Nat) (mem : Mem) (oracle : Nat → Nat) :
    Config Pc Shared → Prop :=
  Interleaved (program n) (fun _ _ _ => True) (Started n mem oracle)

end Cextras.Concurrency
