/-
The reference count (lib/memory/rc.c) of an object that any number of
threads (`θ`) share. A thread that holds a reference may use the object,
take another reference, hand one of its own to another thread, or release
it; a release that returns true is for the thread to free the object.

`count` is an `_Atomic(unsigned int)`: a step is one atomic access to it,
one use of the object, or its end. Whose the references are (`holders`,
one entry each) and `RcBook` are ghost.
-/
import Cextras.Lib.Interleave

namespace Cextras.Memory

open Lib

variable {θ : Type} [DecidableEq θ]

/-- `struct CxRc` -/
structure CxRc where
  count : UInt32

def cxRcInit : CxRc := ⟨1⟩

def cxRcRetain (rc : CxRc) : CxRc := ⟨rc.count + 1⟩

/-- `atomic_fetch_sub` gives the count as it was before. -/
def cxRcRelease (rc : CxRc) : Bool × CxRc := (rc.count == 1, ⟨rc.count - 1⟩)

-- ================================================================= shared

structure RcBook (θ : Type) where
  /-- the most references there were -/
  peak : Nat
  /-- the threads whose release returned true, until they free the object -/
  freeing : List θ
  /-- the releases that returned true with references left -/
  early : Nat
  /-- the times the object was freed -/
  freed : Nat
  /-- the accesses to it after that -/
  dangling : Nat

structure RcObject (θ : Type) where
  rc : CxRc
  holders : List θ
  book : RcBook θ

namespace RcObject

/-- What the thread that has a new object makes of it. -/
def start (owner : θ) : RcObject θ := ⟨cxRcInit, [owner], ⟨1, [], 0, 0, 0⟩⟩

/-- An access to the object. -/
def access (s : RcObject θ) : RcObject θ :=
  { s with book.dangling := s.book.dangling + if s.book.freed = 0 then 0 else 1 }

def retain (s : RcObject θ) (t : θ) : RcObject θ :=
  { s with
    rc := cxRcRetain s.rc
    holders := t :: s.holders
    book.peak := max s.book.peak (s.holders.length + 1) }

def give (s : RcObject θ) (t u : θ) : RcObject θ :=
  { s with holders := u :: s.holders.erase t }

def release (s : RcObject θ) (t : θ) : RcObject θ :=
  let released := cxRcRelease s.rc
  let left := s.holders.erase t
  { s with
    rc := released.2
    holders := left
    book.freeing := if released.1 then t :: s.book.freeing else s.book.freeing
    book.early := s.book.early + if released.1 ∧ left ≠ [] then 1 else 0 }

def free (s : RcObject θ) (t : θ) : RcObject θ :=
  { s with
    book.freeing := s.book.freeing.erase t, book.freed := s.book.freed + 1 }

end RcObject

-- ================================================================ threads

inductive RcPc where
  | idle
  /-- about to free the object -/
  | freeing
deriving DecidableEq

inductive RcChoice (θ : Type) where
  | use
  | retain
  | give (receiver : θ)
  | release
  | free

/-- A step of thread `t`. -/
def rcStep (t : θ) (choice : RcChoice θ) (s : RcObject θ) :
    RcPc → Option (RcPc × RcObject θ)
  | .idle =>
      if t ∈ s.holders then
        match choice with
        | .use => some (.idle, s.access)
        | .retain => some (.idle, s.access.retain t)
        | .give u => some (.idle, s.give t u)
        | .release =>
            some (if (cxRcRelease s.rc).1 then .freeing else .idle,
              s.access.release t)
        | .free => none
      else none
  | .freeing =>
      match choice with
      | .free => some (.idle, s.free t)
      | _ => none

def rcProgram (θ : Type) [DecidableEq θ] :
    Program (fun _ : θ => RcPc) (RcObject θ) (RcChoice θ) :=
  fun t choice p s => rcStep t choice s p

abbrev RcConfig (θ : Type) : Type := Config (fun _ : θ => RcPc) (RcObject θ)

def rcStart (owner : θ) : RcConfig θ := ⟨fun _ => .idle, RcObject.start owner⟩

/-- The configurations of all interleavings, of an object of `owner`. -/
abbrev RcRun (owner : θ) : RcConfig θ → Prop :=
  Interleaved (rcProgram θ) (fun _ _ _ => True) (fun c => c = rcStart owner)

end Cextras.Memory
