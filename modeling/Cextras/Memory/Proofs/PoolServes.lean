/-
What a pool will be answered. `draw n` asks for `n` elements in a row, and
`Serves p n m` says that none of these requests would be refused. It is a
fact about the state before them: what a caller stores between two requests
is no part of it, as long as nothing is waiting to be reused
(`serves_mem`).

A get that is refused returns null and leaves memory and the blocks alone
(`cxPreallocPoolGet_refused`); only the pool itself is damaged.
-/
import Cextras.Memory.Proofs.PoolOps

namespace Cextras.Memory

open Lib

/-- Ask for `n` elements. -/
def draw : Nat → CxPreallocPool → C CxPreallocPool
  | 0, pool => pure pool
  | n + 1, pool => do
      let (_, pool) ← cxPreallocPoolGet pool
      draw n pool

/-- The next `n` requests are all granted. -/
def Serves (pool : CxPreallocPool) (n : Nat) (m : Machine) : Prop :=
  ((draw n pool).run m).machine.refused = false

instance (pool : CxPreallocPool) (n : Nat) (m : Machine) :
    Decidable (Serves pool n m) :=
  inferInstanceAs (Decidable (_ = false))

variable {m m' : Machine} {p p' : CxPreallocPool} {chunks : List Block}
  {free live : List Nat} {n : Nat}

-- ============================================================== refusals

/-- `add_chunk` ends normally. It is refused without having touched memory,
or refuses nothing. -/
theorem addChunk_cases (p : CxPreallocPool) (m : Machine) :
    (∃ p' m', (addChunk p).run m = .ok (-1, p') m' ∧ m'.refused = true
      ∧ m'.mem = m.mem ∧ m'.arena = m.arena)
    ∨ ∃ p' m', (addChunk p).run m = .ok (0, p') m' ∧ m'.refused = m.refused := by
  unfold addChunk
  rw [C.run_bind]
  by_cases htable : m.oracle m.tick = 0
  · left
    rw [show (C.reallocArray (p.pools.map CArray.storage)).run m
      = .ok none { m with tick := m.tick + 1, refused := true } from
        if_pos htable]
    exact ⟨_, _, rfl, rfl, rfl, rfl⟩
  · rw [show (C.reallocArray (p.pools.map CArray.storage)).run m = _ from
      if_neg htable, C.chain_ok]
    dsimp only
    rw [C.run_bind]
    simp only [C.calloc]
    split
    case isTrue hfits =>
      right
      rw [C.chain_ok, if_neg (Nat.pos_iff_ne_zero.mp hfits.1.1)]
      exact ⟨_, _, rfl, rfl⟩
    case isFalse =>
      left
      rw [C.chain_ok, if_pos rfl]
      exact ⟨_, _, rfl, rfl, rfl, rfl⟩

/-- A refused get returns null; memory and the blocks are as before. -/
theorem cxPreallocPoolGet_refused (h : PoolInv m p chunks free live)
    (hu : m.refused = false)
    (hr : ((cxPreallocPoolGet p).run m).machine.refused = true) :
    ∃ p' m', (cxPreallocPoolGet p).run m = .ok (0, p') m'
      ∧ m'.refused = true ∧ m'.mem = m.mem ∧ m'.arena = m.arena := by
  unfold cxPreallocPoolGet at hr ⊢
  by_cases hreuse : p.reusePool = 0
  · rw [if_neg (not_not.mpr hreuse)] at hr ⊢
    by_cases hroom : p.pools.isNone
        ∨ (p.nextOffset + p.elementSize) % 2 ^ 64 > p.chunkSize
    · rw [if_pos hroom, C.run_bind] at hr ⊢
      rcases addChunk_cases p m with ⟨p', m', hrun, hu', hmem, harena⟩
        | ⟨p', m', hrun, hu'⟩
      · rw [hrun]
        exact ⟨p', m', rfl, hu', hmem, harena⟩
      · -- nothing was refused after all
        rw [hrun, C.chain_ok] at hr
        have hr' : m'.refused = true := hr
        rw [hu', hu] at hr'
        cases hr'
    · rw [if_neg hroom] at hr
      have hr' : m.refused = true := hr
      rw [hu] at hr'
      cases hr'
  · -- the reuse list asks for nothing
    rw [if_pos hreuse] at hr
    obtain ⟨a, rest, rfl⟩ := h.exists_free hreuse
    rw [run_reuseNode h] at hr
    have hr' : m.refused = true := hr
    rw [hu] at hr'
    cases hr'

-- ============================================================== requests

@[simp] theorem serves_zero : Serves p 0 m ↔ m.refused = false := Iff.rfl

theorem serves_succ {a : Nat}
    (hrun : (cxPreallocPoolGet p).run m = .ok (a, p') m') :
    Serves p (n + 1) m ↔ Serves p' n m' := by
  unfold Serves
  rw [draw, C.run_bind, hrun, C.chain_ok]

/-- Fewer requests are granted too. -/
theorem serves_mono {k : Nat} (hs : Serves p (n + k) m) : Serves p n m := by
  induction n generalizing p m with
  | zero =>
      rw [Nat.zero_add] at hs
      rw [serves_zero]
      by_contra hu
      have hk := (draw k p).keeps_refused m (by simpa using hu)
      unfold Serves at hs
      rw [hk] at hs
      cases hs
  | succ n ih =>
      rw [show n + 1 + k = n + k + 1 by omega] at hs
      cases hrun : (cxPreallocPoolGet p).run m with
      | ok r m₁ =>
          obtain ⟨a, p'⟩ := r
          rw [serves_succ hrun] at hs ⊢
          exact ih hs
      | fault e m₁ =>
          unfold Serves at hs ⊢
          rw [draw, C.run_bind, hrun] at hs ⊢
          exact hs

/-- The first request is granted, and the others by what it leaves. -/
theorem Serves.next (hs : Serves p (n + 1) m)
    (h : PoolInv m p chunks [] live) :
    ∃ a p' m' chunks', (cxPreallocPoolGet p).run m = .ok (a, p') m'
      ∧ m'.refused = false ∧ Handout m p chunks [] live a p' m' chunks' []
      ∧ Serves p' n m' := by
  have hu := unrefused_first (by rwa [Serves, draw] at hs)
  obtain ⟨⟨a, p'⟩, m', hrun, chunks', hh⟩ :=
    (cxPreallocPoolGet_keeps h).elim hu
  rw [hrun] at hu
  exact ⟨a, p', m', chunks', hrun, hu, hh, (serves_succ hrun).mp hs⟩

/-- Some request is refused: the first one, or a later one. -/
theorem not_serves_next (hs : ¬ Serves p (n + 1) m)
    (h : PoolInv m p chunks [] live) (hu : m.refused = false) :
    (∃ p' m', (cxPreallocPoolGet p).run m = .ok (0, p') m'
      ∧ m'.refused = true ∧ m'.mem = m.mem ∧ m'.arena = m.arena)
    ∨ ∃ a p' m' chunks', (cxPreallocPoolGet p).run m = .ok (a, p') m'
      ∧ m'.refused = false ∧ Handout m p chunks [] live a p' m' chunks' []
      ∧ ¬ Serves p' n m' := by
  cases hr : ((cxPreallocPoolGet p).run m).machine.refused with
  | true => exact Or.inl (cxPreallocPoolGet_refused h hu hr)
  | false =>
      right
      obtain ⟨⟨a, p'⟩, m', hrun, chunks', hh⟩ :=
        (cxPreallocPoolGet_keeps h).elim hr
      rw [hrun] at hr
      exact ⟨a, p', m', chunks', hrun, hr, hh, fun h0 =>
        hs ((serves_succ hrun).mpr h0)⟩

-- ================================================================ memory

/-- With nothing to reuse, a get does not look at memory. -/
theorem cxPreallocPoolGet_mem (hp : p.reusePool = 0) (m : Machine)
    (mem : Mem) :
    ∃ r m₁ mem₁, (cxPreallocPoolGet p).run m = .ok r m₁
      ∧ (cxPreallocPoolGet p).run { m with mem := mem }
        = .ok r { m₁ with mem := mem₁ }
      ∧ r.2.reusePool = 0 := by
  unfold cxPreallocPoolGet
  rw [if_neg (not_not.mpr hp)]
  by_cases hroom : p.pools.isNone
      ∨ (p.nextOffset + p.elementSize) % 2 ^ 64 > p.chunkSize
  · rw [if_pos hroom, addChunk]
    simp only [C.run_bind]
    by_cases htable : m.oracle m.tick = 0
    · have hrefused : ∀ m₀ : Machine, m₀.oracle m₀.tick = 0 →
          (C.reallocArray (p.pools.map CArray.storage)).run m₀
            = .ok none { m₀ with tick := m₀.tick + 1, refused := true } :=
        fun m₀ h0 => if_pos h0
      rw [hrefused m htable, hrefused { m with mem := mem } htable]
      exact ⟨_, _, mem, rfl, rfl, hp⟩
    · have hgranted : ∀ m₀ : Machine, m₀.oracle m₀.tick ≠ 0 →
          (C.reallocArray (p.pools.map CArray.storage)).run m₀
            = .ok (some m₀.tick) { m₀ with
                tick := m₀.tick + 1
                arrays := m₀.tick :: m₀.arrays.filter
                  (fun i => some i ≠ p.pools.map CArray.storage) } :=
        fun m₀ h0 => if_neg h0
      rw [hgranted m htable, hgranted { m with mem := mem } htable]
      simp only [C.chain_ok, C.calloc, C.run_bind]
      split
      case isTrue hfits =>
        simp only [C.chain_ok, if_neg (Nat.pos_iff_ne_zero.mp hfits.1.1)]
        exact ⟨_, _, _, rfl, rfl, hp⟩
      case isFalse =>
        simp only [C.chain_ok, if_pos]
        exact ⟨_, _, _, rfl, rfl, hp⟩
  · rw [if_neg hroom]
    exact ⟨_, _, mem, rfl, rfl, hp⟩

/-- What is stored before the requests does not matter to them. -/
theorem serves_mem (hp : p.reusePool = 0) (mem : Mem) :
    Serves p n { m with mem := mem } ↔ Serves p n m := by
  induction n generalizing p m mem with
  | zero => exact Iff.rfl
  | succ n ih =>
      obtain ⟨r, m₁, mem₁, hrun, hrun', hreuse⟩ := cxPreallocPoolGet_mem hp m mem
      obtain ⟨a, p'⟩ := r
      rw [serves_succ hrun', serves_succ hrun]
      exact ih hreuse mem₁

end Cextras.Memory
