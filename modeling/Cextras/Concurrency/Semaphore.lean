/-
The counting semaphore (lib/concurrency/semaphore.c) and the threads that
post to it and wait for it, any number of them (`θ`), each as often as it
likes. The semaphore was set up with the count it started with; its one
mutex and its one condition variable are `()`.

A step is one access to what the threads share: taking or releasing the
mutex, reading or changing `count`, a signal, falling asleep. The calls to
the mutex and the condition variable do not fail. `SemaphoreBook` is ghost.
-/
import Mathlib.Algebra.Group.Nat.Defs
import Cextras.Lib.Interleave
import Cextras.Lib.Sync

namespace Cextras.Concurrency

open Lib

variable {θ : Type} [DecidableEq θ]

-- ================================================================= shared

structure SemaphoreBook (θ : Type) where
  /-- the posts that changed `count` -/
  posts : Nat
  /-- the posts that returned -/
  posted : Nat
  /-- the waits that changed `count` -/
  waits : Nat
  /-- the waits that returned -/
  waited : Nat
  /-- the posts that found `count` at `SIZE_MAX` -/
  wraps : Nat
  /-- the threads that were woken and are not through their wait loop yet -/
  woken : List θ

/-- `struct CxSemaphore` -/
structure CxSemaphore (θ : Type) where
  count : Nat
  sync : Sync Unit Unit θ
  book : SemaphoreBook θ

namespace CxSemaphore

/-- `semaphore->count++` -/
def increment (s : CxSemaphore θ) : CxSemaphore θ :=
  { s with
    count := (s.count + 1) % 2 ^ 64
    book.posts := s.book.posts + 1
    book.wraps := s.book.wraps + (s.count + 1) / 2 ^ 64 }

/-- `semaphore->count--`, on a count that is not 0 -/
def decrement (s : CxSemaphore θ) : CxSemaphore θ :=
  { s with count := s.count - 1, book.waits := s.book.waits + 1 }

/-- A thread that is asleep is woken. -/
def wake (s : CxSemaphore θ) (t : θ) : CxSemaphore θ :=
  if t ∈ s.sync.asleep () then
    { s with sync := s.sync.wake () t, book.woken := t :: s.book.woken }
  else s

/-- A thread is through its wait loop, or about to sleep (again). -/
def resumed (s : CxSemaphore θ) (t : θ) : CxSemaphore θ :=
  { s with book.woken := s.book.woken.erase t }

def lock (s : CxSemaphore θ) (t : θ) : Option (CxSemaphore θ) :=
  (s.sync.lock () t).map fun y => { s with sync := y }

def unlock (s : CxSemaphore θ) : CxSemaphore θ :=
  { s with sync := s.sync.unlock () }

def sleep (s : CxSemaphore θ) (t : θ) : CxSemaphore θ :=
  { s with sync := s.sync.sleep () () t }

/-- `pthread_cond_signal` -/
def signal (s : CxSemaphore θ) (chosen : θ) : Option (CxSemaphore θ) :=
  (s.sync.signal () chosen).map fun _ => s.wake chosen

/-- The end of `pthread_cond_wait`. -/
def relock (s : CxSemaphore θ) (t : θ) : Option (CxSemaphore θ) :=
  (s.sync.relock () () t).map fun y => { s with sync := y }

end CxSemaphore

-- ================================================================ threads

inductive SemaphorePc where
  | idle
  /-- `cx_semaphore_wait`; `woken` is false the first time round its loop -/
  | waitLock
  | waitTest (woken : Bool)
  | waitSleep
  | blocked
  | waitTake (woken : Bool)
  | waitUnlock
  /-- `cx_semaphore_post` -/
  | postLock
  | postAdd
  | postSignal
  | postUnlock
deriving DecidableEq

/-- How a step is resolved: which call an idle thread makes, whom a signal
wakes, or that a wait ends for no reason. -/
inductive SemaphoreChoice (θ : Type) where
  | go
  | spurious
  | wake (chosen : θ)
  | wait
  | post
deriving DecidableEq

/-- A step of thread `t`. -/
def semaphoreStep (t : θ) (choice : SemaphoreChoice θ) (s : CxSemaphore θ) :
    SemaphorePc → Option (SemaphorePc × CxSemaphore θ)
  | .idle =>
      match choice with
      | .wait => some (.waitLock, s)
      | .post => some (.postLock, s)
      | _ => none
  | .waitLock => do
      let s ← s.lock t
      some (.waitTest false, s)
  | .waitTest woken =>
      if s.count = 0 then some (.waitSleep, s.resumed t)
      else some (.waitTake woken, s)
  | .waitSleep => some (.blocked, s.sleep t)
  | .blocked =>
      match choice with
      | .spurious => some (.blocked, s.wake t)
      | _ => do
          let s ← s.relock t
          some (.waitTest true, s)
  | .waitTake _ => some (.waitUnlock, s.decrement.resumed t)
  | .waitUnlock =>
      some (.idle, { s.unlock with book.waited := s.book.waited + 1 })
  | .postLock => do
      let s ← s.lock t
      some (.postAdd, s)
  | .postAdd => some (.postSignal, s.increment)
  | .postSignal =>
      match choice with
      | .wake chosen => do
          let s ← s.signal chosen
          some (.postUnlock, s)
      | _ => none
  | .postUnlock =>
      some (.idle, { s.unlock with book.posted := s.book.posted + 1 })

def semaphoreProgram (θ : Type) [DecidableEq θ] :
    Program (fun _ : θ => SemaphorePc) (CxSemaphore θ) (SemaphoreChoice θ) :=
  fun t choice p s => semaphoreStep t choice s p

/-- What `cx_semaphore_init` leaves. -/
def cxSemaphoreInit (count : Nat) : CxSemaphore θ :=
  ⟨count, Sync.init, ⟨0, 0, 0, 0, 0, []⟩⟩

def cxSemaphoreDestroy (s : CxSemaphore θ) : Int :=
  let rv := s.sync.destroyMutex ()
  if rv ≠ 0 then rv else s.sync.destroyCond ()

abbrev SemaphoreConfig (θ : Type) : Type :=
  Config (fun _ : θ => SemaphorePc) (CxSemaphore θ)

def semaphoreStart (count : Nat) : SemaphoreConfig θ :=
  ⟨fun _ => .idle, cxSemaphoreInit count⟩

/-- The configurations of all interleavings, from a count that is a
`size_t`. -/
abbrev SemaphoreRun (count : Nat) : SemaphoreConfig θ → Prop :=
  Interleaved (semaphoreProgram θ) (fun _ _ _ => True)
    (fun c => count < 2 ^ 64 ∧ c = semaphoreStart count)

end Cextras.Concurrency
