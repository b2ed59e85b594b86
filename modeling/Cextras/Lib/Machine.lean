/-
The machine the embedded C code runs on: flat memory, the allocator's
live blocks, a placement oracle for coming allocations, and the log of
callback invocations. `C` is the monad of machine computations; every
model of a C function that touches memory lives in it.

# Allocation

The allocator is an oracle: `oracle t` is the address the `t`-th
request would be given. A request is granted when that address really
is a fresh block (`Arena.Fits`) and refused, with a null pointer,
otherwise. Quantifying over the oracle therefore covers every placement
a real allocator can choose and every pattern of refusals. `refused`
records that some request was turned down; "allocation succeeding" is
`refused = false` at the end of a run, and `C.keeps_refused` is what
makes the end of the run speak for all of it.

Arrays no flat pointer ever reaches into (the chunk table of a pool, the
counters of a map) are not laid out in flat memory: they are Lean lists
held by their owner, and only their allocation is recorded, in `arrays`.

# Faults

Whatever C leaves undefined, and every failed `assert`, ends the
computation in `Outcome.fault`. A load or a store outside the live
blocks is such a fault, so a computation that ends in `Outcome.ok` has
touched no memory it does not own.
-/
import Mathlib.Data.List.Pairwise
import Cextras.Lib.Mem

namespace Cextras.Lib

-- ================================================================ blocks

/-- A contiguous run of `size` bytes the allocator handed out. -/
structure Block where
  base : Nat
  size : Nat
deriving DecidableEq, Repr

/-- No byte in common. -/
def Block.Disjoint (b c : Block) : Prop :=
  b.base + b.size ≤ c.base ∨ c.base + c.size ≤ b.base

/-- The `n` bytes from `a` on lie inside the block. -/
def Block.Has (b : Block) (a n : Nat) : Prop :=
  b.base ≤ a ∧ a + n ≤ b.base + b.size

instance (b c : Block) : Decidable (b.Disjoint c) :=
  inferInstanceAs (Decidable (_ ∨ _))

instance (b : Block) (a n : Nat) : Decidable (b.Has a n) :=
  inferInstanceAs (Decidable (_ ∧ _))

theorem Block.Disjoint.symm {b c : Block} (h : b.Disjoint c) :
    c.Disjoint b := Or.symm h

instance : Std.Symm Block.Disjoint := ⟨fun _ _ h => h.symm⟩

/-- The allocator's live blocks: pairwise disjoint, off the null pointer
and inside the 64-bit address space. -/
structure Arena where
  blocks : List Block
  disjoint : blocks.Pairwise Block.Disjoint
  bounded : ∀ b ∈ blocks, 0 < b.base ∧ b.base + b.size < 2 ^ 64

/-- The placements an allocator may answer a request with. Objects larger
than `PTRDIFF_MAX` are never granted. -/
def Arena.Fits (ar : Arena) (b : Block) : Prop :=
  (0 < b.base ∧ b.base + b.size < 2 ^ 64 ∧ b.size < 2 ^ 63)
    ∧ ∀ c ∈ ar.blocks, b.Disjoint c

instance (ar : Arena) (b : Block) : Decidable (ar.Fits b) :=
  inferInstanceAs (Decidable (_ ∧ _))

/-- The arena with one more block. -/
def Arena.add (ar : Arena) (b : Block) (h : ar.Fits b) : Arena where
  blocks := b :: ar.blocks
  disjoint := List.pairwise_cons.mpr ⟨h.2, ar.disjoint⟩
  bounded := by
    intro c hc
    rcases List.mem_cons.mp hc with rfl | hc
    · exact ⟨h.1.1, h.1.2.1⟩
    · exact ar.bounded c hc

/-- The arena without the block that starts at `a`. -/
def Arena.remove (ar : Arena) (a : Nat) : Arena where
  blocks := ar.blocks.eraseP fun b => b.base = a
  disjoint := ar.disjoint.sublist List.eraseP_sublist
  bounded := fun b hb => ar.bounded b (List.mem_of_mem_eraseP hb)

/-- The block that starts at `a`. -/
def Arena.blockAt (ar : Arena) (a : Nat) : Option Block :=
  ar.blocks.find? fun b => b.base = a

/-- The arena nothing has been allocated in. -/
def Arena.empty : Arena := ⟨[], List.Pairwise.nil, by simp⟩

/-- Two live blocks are the same block or share no byte. -/
theorem Arena.eq_or_disjoint (ar : Arena) {b c : Block}
    (hb : b ∈ ar.blocks) (hc : c ∈ ar.blocks) : b = c ∨ b.Disjoint c := by
  by_cases h : b = c
  · exact Or.inl h
  · exact Or.inr (ar.disjoint.forall hb hc h)

-- =============================================================== machine

/-- The ways an embedded computation stops short. -/
inductive Fault where
  /-- a member was reached through a null pointer -/
  | nullDeref
  /-- a load or store outside the live blocks -/
  | badAccess
  /-- an index outside a list-held array -/
  | outOfBounds
  /-- a read of storage nothing was ever written to -/
  | uninitialised
  /-- signed arithmetic past `INT_MAX` -/
  | signedOverflow
  | divisionByZero
  /-- an `assert` that did not hold -/
  | assertion
deriving DecidableEq, Repr

structure Machine where
  mem : Mem
  arena : Arena
  /-- the allocations that back list-held arrays, by request number -/
  arrays : List Nat
  oracle : Nat → Nat
  tick : Nat
  /-- ghost: some request so far was refused -/
  refused : Bool
  /-- ghost: the values the callbacks were run on, oldest first -/
  calls : List (List Byte)

/-- The `n` bytes from `a` on lie in one live block. -/
def Machine.Valid (m : Machine) (a n : Nat) : Prop :=
  ∃ b ∈ m.arena.blocks, b.Has a n

instance (m : Machine) (a n : Nat) : Decidable (m.Valid a n) :=
  inferInstanceAs (Decidable (∃ b ∈ m.arena.blocks, b.Has a n))

/-- A machine that has not run anything, under the given oracle. -/
def Machine.boot (mem : Mem) (oracle : Nat → Nat) : Machine :=
  ⟨mem, Arena.empty, [], oracle, 0, false, []⟩

/-- A list-held array: the allocation that backs it and its cells. -/
structure CArray (α : Type) where
  storage : Nat
  cells : List α

/-- The array after `realloc` to `n` cells; new cells hold `pad`. -/
def CArray.resized {α : Type} (old : Option (CArray α)) (storage n : Nat)
    (pad : α) : CArray α :=
  let cells := (old.map CArray.cells).getD []
  ⟨storage, cells.take n ++ List.replicate (n - cells.length) pad⟩

/-- What running a computation ends in. -/
inductive Outcome (α : Type) where
  | ok (a : α) (m : Machine)
  | fault (f : Fault) (m : Machine)

/-- The machine a computation ended on. -/
def Outcome.machine {α : Type} : Outcome α → Machine
  | .ok _ m => m
  | .fault _ m => m

/-- What a computation that ended normally returned. -/
def Outcome.value {α : Type} : Outcome α → Option α
  | .ok a _ => some a
  | .fault _ _ => none

/-- Machine computations. A refused allocation is never forgotten. -/
structure C (α : Type) where
  run : Machine → Outcome α
  keeps_refused : ∀ m, m.refused = true → (run m).machine.refused = true

namespace C

variable {α β : Type}

/-- The outcome of `f` on what `o` returned. -/
def chain (o : Outcome α) (f : α → C β) : Outcome β :=
  match o with
  | .ok a m => (f a).run m
  | .fault e m => .fault e m

instance : Monad C where
  pure a := ⟨fun m => .ok a m, fun _ h => h⟩
  bind x f := ⟨fun m => chain (x.run m) f, fun m h => by
    have hx := x.keeps_refused m h
    cases hr : x.run m with
    | ok a m' =>
        rw [hr] at hx
        exact (f a).keeps_refused m' hx
    | fault e m' =>
        rw [hr] at hx
        exact hx⟩

@[simp] theorem run_pure (a : α) (m : Machine) :
    (pure a : C α).run m = .ok a m := rfl

@[simp] theorem run_bind (x : C α) (f : α → C β) (m : Machine) :
    (x >>= f).run m = chain (x.run m) f := rfl

@[simp] theorem chain_ok (a : α) (m : Machine) (f : α → C β) :
    chain (.ok a m) f = (f a).run m := rfl

@[simp] theorem chain_fault (e : Fault) (m : Machine) (f : α → C β) :
    chain (.fault e m : Outcome α) f = .fault e m := rfl

@[simp] theorem run_ite {p : Prop} [Decidable p] (x y : C α) (m : Machine) :
    (if p then x else y).run m = if p then x.run m else y.run m := by
  split <;> rfl

-- ============================================================ primitives

/-- Stop with a fault. -/
def fail (f : Fault) : C α := ⟨fun m => .fault f m, fun _ h => h⟩

/-- `assert(p)` -/
def assert (p : Prop) [Decidable p] : C Unit :=
  if p then pure () else fail .assertion

/-- The check a member access makes on its pointer. -/
def nonNull (a : Nat) : C Unit :=
  if a = 0 then fail .nullDeref else pure ()

/-- Read the 64-bit word at `a`. -/
def load64 (a : Nat) : C Nat :=
  ⟨fun m => if m.Valid a 8 then .ok (m.mem.load64 a) m else .fault .badAccess m,
    fun m h => by split <;> exact h⟩

/-- Write the 64-bit word `v` to `a`. -/
def store64 (a v : Nat) : C Unit :=
  ⟨fun m => if m.Valid a 8 then .ok () { m with mem := m.mem.store64 a v }
      else .fault .badAccess m,
    fun m h => by split <;> exact h⟩

/-- Read `n` bytes from `a` on. -/
def readBytes (a n : Nat) : C (List Byte) :=
  ⟨fun m => if m.Valid a n then .ok (m.mem.read a n) m else .fault .badAccess m,
    fun m h => by split <;> exact h⟩

/-- `memcpy` of the given bytes to `a`. -/
def writeBytes (a : Nat) (bs : List Byte) : C Unit :=
  ⟨fun m => if m.Valid a bs.length then .ok () { m with mem := m.mem.write a bs }
      else .fault .badAccess m,
    fun m h => by split <;> exact h⟩

/-- `memset(a, 0, n)` -/
def zeroBytes (a n : Nat) : C Unit :=
  ⟨fun m => if m.Valid a n then .ok () { m with mem := m.mem.zero a n }
      else .fault .badAccess m,
    fun m h => by split <;> exact h⟩

/-- `calloc` of `n` bytes of flat memory; null when refused. -/
def calloc (n : Nat) : C Nat :=
  ⟨fun m =>
      if h : m.arena.Fits ⟨m.oracle m.tick, n⟩ then
        .ok (m.oracle m.tick) { m with
          mem := m.mem.zero (m.oracle m.tick) n
          arena := m.arena.add _ h
          tick := m.tick + 1 }
      else .ok 0 { m with tick := m.tick + 1, refused := true },
    fun m h => by split <;> first | exact h | rfl⟩

/-- `free` of flat memory; freeing null does nothing. -/
def free (a : Nat) : C Unit :=
  ⟨fun m =>
      if a = 0 then .ok () m
      else if ∃ b ∈ m.arena.blocks, b.base = a then
        .ok () { m with arena := m.arena.remove a }
      else .fault .badAccess m,
    fun m h => by split <;> [exact h; split <;> exact h]⟩

/-- `malloc` of `n` bytes of flat memory; null when refused. -/
def malloc (n : Nat) : C Nat :=
  ⟨fun m =>
      if h : m.arena.Fits ⟨m.oracle m.tick, n⟩ then
        .ok (m.oracle m.tick) { m with
          arena := m.arena.add _ h
          tick := m.tick + 1 }
      else .ok 0 { m with tick := m.tick + 1, refused := true },
    fun m h => by split <;> first | exact h | rfl⟩

/-- `realloc` of the block at `a`, which stays when the request is
refused and may stay in its place when it is granted. -/
def reallocBlock (a n : Nat) : C Nat :=
  ⟨fun m =>
      match m.arena.blockAt a with
      | none => .fault .badAccess m
      | some b =>
          if h : (m.arena.remove a).Fits ⟨m.oracle m.tick, n⟩ then
            .ok (m.oracle m.tick) { m with
              mem := m.mem.write (m.oracle m.tick) (m.mem.read a (min b.size n))
              arena := (m.arena.remove a).add _ h
              tick := m.tick + 1 }
          else .ok 0 { m with tick := m.tick + 1, refused := true },
    fun m h => by
      split
      · exact h
      · split <;> first | exact h | rfl⟩

/-- `realloc` of flat memory; null is no block yet. -/
def realloc (a n : Nat) : C Nat :=
  if a = 0 then malloc n else reallocBlock a n

/-- Allocate the storage of a list-held array; none when refused. -/
def allocArray : C (Option Nat) :=
  ⟨fun m =>
      if m.oracle m.tick = 0 then
        .ok none { m with tick := m.tick + 1, refused := true }
      else .ok (some m.tick) { m with
        tick := m.tick + 1, arrays := m.tick :: m.arrays },
    fun m h => by split <;> first | exact h | rfl⟩

/-- `realloc` of a list-held array's storage: the old storage is released
only when the request is granted. -/
def reallocArray (old : Option Nat) : C (Option Nat) :=
  ⟨fun m =>
      if m.oracle m.tick = 0 then
        .ok none { m with tick := m.tick + 1, refused := true }
      else .ok (some m.tick) { m with
        tick := m.tick + 1
        arrays := m.tick :: m.arrays.filter (fun i => some i ≠ old) },
    fun m h => by split <;> first | exact h | rfl⟩

/-- `free` of a list-held array's storage. -/
def freeArray (old : Option Nat) : C Unit :=
  ⟨fun m => .ok () { m with arrays := m.arrays.filter (fun i => some i ≠ old) },
    fun _ h => h⟩

/-- Cell `i` of a list-held array. -/
def cell (xs : List α) (i : Nat) : C α :=
  match xs[i]? with
  | some x => pure x
  | none => fail .outOfBounds

/-- Ghost: what there is to see of the machine. -/
def observe (f : Machine → α) : C α := ⟨fun m => .ok (f m) m, fun _ h => h⟩

/-- Run the client's callback on a value. -/
def callback (v : List Byte) : C Unit :=
  ⟨fun m => .ok () { m with calls := m.calls ++ [v] }, fun _ h => h⟩

end C

-- ================================================== running a primitive

section Run

variable {m : Machine} {a n : Nat}

theorem run_assert {p : Prop} [Decidable p] (h : p) :
    (C.assert p).run m = .ok () m := by simp [C.assert, h]

theorem run_assert_false {p : Prop} [Decidable p] (h : ¬ p) :
    (C.assert p).run m = .fault .assertion m := by
  simp [C.assert, h, C.fail]

theorem run_nonNull (h : a ≠ 0) : (C.nonNull a).run m = .ok () m := by
  simp [C.nonNull, h]

theorem run_load64 (h : m.Valid a 8) :
    (C.load64 a).run m = .ok (m.mem.load64 a) m := if_pos h

theorem run_store64 (h : m.Valid a 8) (v : Nat) :
    (C.store64 a v).run m = .ok () { m with mem := m.mem.store64 a v } :=
  if_pos h

theorem run_readBytes (h : m.Valid a n) :
    (C.readBytes a n).run m = .ok (m.mem.read a n) m := if_pos h

theorem run_writeBytes {bs : List Byte} (h : m.Valid a bs.length) :
    (C.writeBytes a bs).run m = .ok () { m with mem := m.mem.write a bs } :=
  if_pos h

theorem run_zeroBytes (h : m.Valid a n) :
    (C.zeroBytes a n).run m = .ok () { m with mem := m.mem.zero a n } :=
  if_pos h

theorem run_cell {α : Type} {xs : List α} {i : Nat} {x : α}
    (h : xs[i]? = some x) : (C.cell xs i).run m = .ok x m := by
  simp [C.cell, h]

@[simp] theorem run_observe {α : Type} (f : Machine → α) :
    (C.observe f).run m = .ok (f m) m := rfl

@[simp] theorem run_callback (v : List Byte) :
    (C.callback v).run m = .ok () { m with calls := m.calls ++ [v] } := rfl

end Run

end Cextras.Lib
