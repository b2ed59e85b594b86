/-
The future (lib/concurrency/future.c) and the threads that resolve it and
wait for it, any number of them (`θ`), each as often as it likes. Its one
mutex and its one condition variable are `()`.

A step is one access to what the threads share: taking or releasing the
mutex, reading or storing `out_value`, the broadcast, falling asleep.
`FutureBook` is ghost.
-/
import Cextras.Lib.Interleave
import Cextras.Lib.Sync

namespace Cextras.Concurrency

open Lib

variable {θ : Type} [DecidableEq θ]

-- ================================================================= shared

structure FutureBook where
  /-- the resolves that returned, oldest first: the argument and what was
  returned -/
  resolved : List (Nat × Int)
  /-- what waits returned, oldest first -/
  waited : List Nat

/-- `struct CxFuture`; a null `out_value` is 0. -/
structure CxFuture (θ : Type) where
  outValue : Nat
  sync : Sync Unit Unit θ
  book : FutureBook

namespace CxFuture

def lock (s : CxFuture θ) (t : θ) : Option (CxFuture θ) :=
  (s.sync.lock () t).map fun y => { s with sync := y }

def unlock (s : CxFuture θ) : CxFuture θ :=
  { s with sync := s.sync.unlock () }

def sleep (s : CxFuture θ) (t : θ) : CxFuture θ :=
  { s with sync := s.sync.sleep () () t }

def wake (s : CxFuture θ) (t : θ) : CxFuture θ :=
  { s with sync := s.sync.wake () t }

/-- The end of `pthread_cond_wait`. -/
def relock (s : CxFuture θ) (t : θ) : Option (CxFuture θ) :=
  (s.sync.relock () () t).map fun y => { s with sync := y }

/-- `pthread_cond_broadcast` -/
def broadcast (s : CxFuture θ) : CxFuture θ :=
  { s with sync := s.sync.broadcast () }

end CxFuture

-- ================================================================ threads

inductive FuturePc where
  | idle
  /-- `cx_future_wait` -/
  | waitLock
  | waitTest
  | waitSleep
  | blocked
  | waitRead
  | waitUnlock (outValue : Nat)
  /-- `cx_future_resolve` -/
  | resolveLock (value : Nat)
  | resolveTest (value : Nat)
  | resolveStore (value : Nat)
  | resolveBroadcast (value : Nat)
  | resolveUnlock (value : Nat) (rv : Int)
deriving DecidableEq

/-- How a step is resolved: which call an idle thread makes, or that a wait
ends for no reason. -/
inductive FutureChoice where
  | go
  | spurious
  | wait
  | resolve (value : Nat)
deriving DecidableEq

/-- A step of thread `t`. -/
def futureStep (t : θ) (choice : FutureChoice) (s : CxFuture θ) :
    FuturePc → Option (FuturePc × CxFuture θ)
  | .idle =>
      match choice with
      | .wait => some (.waitLock, s)
      | .resolve value => some (.resolveLock value, s)
      | _ => none
  | .waitLock => do
      let s ← s.lock t
      some (.waitTest, s)
  | .waitTest =>
      if s.outValue = 0 then some (.waitSleep, s) else some (.waitRead, s)
  | .waitSleep => some (.blocked, s.sleep t)
  | .blocked =>
      match choice with
      | .spurious => some (.blocked, s.wake t)
      | _ => do
          let s ← s.relock t
          some (.waitTest, s)
  | .waitRead => some (.waitUnlock s.outValue, s)
  | .waitUnlock outValue =>
      some (.idle, { s.unlock with
        book.waited := s.book.waited ++ [outValue] })
  | .resolveLock value => do
      let s ← s.lock t
      some (.resolveTest value, s)
  | .resolveTest value =>
      if s.outValue ≠ 0 then some (.resolveUnlock value (-1), s)
      else some (.resolveStore value, s)
  | .resolveStore value =>
      some (.resolveBroadcast value, { s with outValue := value })
  | .resolveBroadcast value => some (.resolveUnlock value 0, s.broadcast)
  | .resolveUnlock value rv =>
      some (.idle, { s.unlock with
        book.resolved := s.book.resolved ++ [(value, rv)] })

def futureProgram (θ : Type) [DecidableEq θ] :
    Program (fun _ : θ => FuturePc) (CxFuture θ) FutureChoice :=
  fun t choice p s => futureStep t choice s p

abbrev FutureConfig (θ : Type) : Type :=
  Config (fun _ : θ => FuturePc) (CxFuture θ)

/-- What `cx_future_init` leaves. -/
def cxFutureInit : CxFuture θ := ⟨0, Sync.init, ⟨[], []⟩⟩

/-- What `pthread_mutex_destroy` and `pthread_cond_destroy` return, which is
dropped, and what `cx_future_destroy` returns. Then the future is freed. -/
def cxFutureDestroy (s : CxFuture θ) : Int × Int × Int :=
  (s.sync.destroyMutex (), s.sync.destroyCond (), 0)

def futureStart : FutureConfig θ := ⟨fun _ => .idle, cxFutureInit⟩

/-- The configurations of all interleavings. -/
abbrev FutureRun (allowed : θ → FuturePc → CxFuture θ → Prop) :
    FutureConfig θ → Prop :=
  Interleaved (futureProgram θ) allowed (fun c => c = futureStart)

end Cextras.Concurrency
