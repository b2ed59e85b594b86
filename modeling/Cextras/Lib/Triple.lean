/-
Reasoning rules for machine computations.

`Granted x m Q` is total correctness up to the allocator: running `x` on
`m` ends normally in a state where `Q` holds, unless some request was
refused on the way. The rule that makes it compose is `granted_bind`:
because a refusal is never forgotten (`C.keeps_refused`), an unrefused
end means every earlier stage was unrefused too, so each stage may be
argued on its own postcondition.
-/
import Cextras.Lib.Machine

namespace Cextras.Lib

variable {α β : Type} {m : Machine}

/-- Running `x` on `m` ends normally with `Q`, or a request was refused. -/
def C.Granted (x : C α) (m : Machine) (Q : α → Machine → Prop) : Prop :=
  match x.run m with
  | .ok a m' => m'.refused = false → Q a m'
  | .fault _ m' => m'.refused = true

theorem granted_of_run {x : C α} {Q : α → Machine → Prop} {a : α}
    {m' : Machine} (hrun : x.run m = .ok a m') (hq : Q a m') :
    x.Granted m Q := by
  unfold C.Granted
  rw [hrun]
  exact fun _ => hq

theorem granted_pure {Q : α → Machine → Prop} {a : α} (hq : Q a m) :
    (pure a : C α).Granted m Q := granted_of_run rfl hq

/-- Only the run counts. -/
theorem C.Granted.of_run_eq {x y : C α} {Q : α → Machine → Prop}
    (h : y.Granted m Q) (hrun : x.run m = y.run m) : x.Granted m Q := by
  unfold C.Granted at h ⊢
  rwa [hrun]

/-- A weaker postcondition. -/
theorem C.Granted.imp {x : C α} {Q R : α → Machine → Prop}
    (h : x.Granted m Q) (himp : ∀ a m', Q a m' → R a m') :
    x.Granted m R := by
  unfold C.Granted at h ⊢
  cases hr : x.run m with
  | ok a m' =>
      rw [hr] at h
      exact fun hu => himp a m' (h hu)
  | fault e m' =>
      rw [hr] at h
      exact h

/-- Two postconditions of one run. -/
theorem C.Granted.and {x : C α} {Q R : α → Machine → Prop}
    (hq : x.Granted m Q) (hr : x.Granted m R) :
    x.Granted m fun a m' => Q a m' ∧ R a m' := by
  unfold C.Granted at hq hr ⊢
  cases hrun : x.run m with
  | ok a m' =>
      rw [hrun] at hq hr
      exact fun hu => ⟨hq hu, hr hu⟩
  | fault e m' =>
      rw [hrun] at hq
      exact hq

/-- An unrefused end means nothing was refused before. -/
theorem unrefused_of_run {x : C α} {a : α} {m' : Machine}
    (hrun : x.run m = .ok a m') (hu : m'.refused = false) :
    m.refused = false := by
  cases hr : m.refused with
  | false => rfl
  | true =>
      have hk := x.keeps_refused m hr
      rw [hrun] at hk
      have ht : m'.refused = true := hk
      rw [ht] at hu
      cases hu

/-- A sequence that was refused nothing was refused nothing at first. -/
theorem unrefused_first {x : C α} {f : α → C β}
    (h : ((x >>= f).run m).machine.refused = false) :
    (x.run m).machine.refused = false := by
  rw [C.run_bind] at h
  cases hr : x.run m with
  | fault e m' =>
      rw [hr] at h
      exact h
  | ok a m' =>
      rw [hr, C.chain_ok] at h
      cases hu : m'.refused with
      | false => exact hu
      | true =>
          have hk := (f a).keeps_refused m' hu
          rw [hk] at h
          cases h

/-- Sequencing: argue the second stage on the first one's result. -/
theorem granted_bind {x : C α} {f : α → C β} {Q : α → Machine → Prop}
    {R : β → Machine → Prop} (hx : x.Granted m Q)
    (hf : ∀ a m', Q a m' → (f a).Granted m' R) :
    (x >>= f).Granted m R := by
  unfold C.Granted at hx ⊢
  rw [C.run_bind]
  cases hr : x.run m with
  | fault e m' =>
      rw [hr] at hx
      exact hx
  | ok a m' =>
      rw [hr] at hx
      rw [C.chain_ok]
      cases hu : m'.refused with
      | false => exact hf a m' (hx hu)
      | true =>
          -- the refusal is still on record when the second stage ends
          have hk := (f a).keeps_refused m' hu
          cases hr2 : (f a).run m' with
          | ok b m'' =>
              rw [hr2] at hk
              intro hu'
              have ht : m''.refused = true := hk
              rw [ht] at hu'
              cases hu'
          | fault e m'' =>
              rw [hr2] at hk
              exact hk

/-- Sequencing after a stage whose outcome is known. -/
theorem granted_bind_run {x : C α} {f : α → C β} {R : β → Machine → Prop}
    {a : α} {m' : Machine} (hrun : x.run m = .ok a m')
    (hf : (f a).Granted m' R) : (x >>= f).Granted m R :=
  granted_bind (Q := fun b m'' => b = a ∧ m'' = m')
    (granted_of_run hrun ⟨rfl, rfl⟩)
    (by rintro b m'' ⟨rfl, rfl⟩; exact hf)

/-- What the mapped end of a computation satisfies. -/
theorem granted_of_map {x : C α} {f : α → β}
    {Q : β → Machine → Prop} (h : (do let a ← x; pure (f a) : C β).Granted m Q) :
    x.Granted m fun a m' => Q (f a) m' := by
  unfold C.Granted at h ⊢
  rw [C.run_bind] at h
  cases hrun : x.run m with
  | ok a m' => rwa [hrun] at h
  | fault e m' => rwa [hrun] at h

/-- A granted computation that was not refused ended normally. -/
theorem C.Granted.elim {x : C α} {Q : α → Machine → Prop}
    (h : x.Granted m Q) (hu : (x.run m).machine.refused = false) :
    ∃ a m', x.run m = .ok a m' ∧ Q a m' := by
  unfold C.Granted at h
  cases hr : x.run m with
  | ok a m' =>
      rw [hr] at h hu
      exact ⟨a, m', rfl, h hu⟩
  | fault e m' =>
      rw [hr] at h hu
      have ht : m'.refused = true := h
      have hf : m'.refused = false := hu
      rw [ht] at hf
      cases hf

/-- `calloc`: a granted request is a fresh zeroed block. -/
theorem granted_calloc {n : Nat} {Q : Nat → Machine → Prop}
    (hq : ∀ h : m.arena.Fits ⟨m.oracle m.tick, n⟩,
      Q (m.oracle m.tick) { m with
        mem := m.mem.zero (m.oracle m.tick) n
        arena := m.arena.add _ h
        tick := m.tick + 1 }) : (C.calloc n).Granted m Q := by
  unfold C.Granted C.calloc
  by_cases h : m.arena.Fits ⟨m.oracle m.tick, n⟩
  · simp only [dif_pos h]
    exact fun _ => hq h
  · simp only [dif_neg h]
    exact fun hu => absurd hu (by decide)

/-- `realloc` of list-held storage: a granted request moves it. -/
theorem granted_reallocArray {old : Option Nat}
    {Q : Option Nat → Machine → Prop}
    (hq : Q (some m.tick) { m with
      tick := m.tick + 1
      arrays := m.tick :: m.arrays.filter (fun i => some i ≠ old) }) :
    (C.reallocArray old).Granted m Q := by
  unfold C.Granted C.reallocArray
  by_cases h : m.oracle m.tick = 0
  · simp only [if_pos h]
    exact fun hu => absurd hu (by decide)
  · simp only [if_neg h]
    exact fun _ => hq

/-- `calloc` of list-held storage. -/
theorem granted_allocArray {Q : Option Nat → Machine → Prop}
    (hq : Q (some m.tick) { m with
      tick := m.tick + 1, arrays := m.tick :: m.arrays }) :
    C.allocArray.Granted m Q := by
  unfold C.Granted C.allocArray
  by_cases h : m.oracle m.tick = 0
  · simp only [if_pos h]
    exact fun hu => absurd hu (by decide)
  · simp only [if_neg h]
    exact fun _ => hq

-- ============================================================ normal ends

/-- What a computation that ended normally did. -/
theorem load64_cases {a v : Nat} {m' : Machine}
    (h : (C.load64 a).run m = .ok v m') : v = m.mem.load64 a ∧ m' = m := by
  by_cases hvalid : m.Valid a 8
  · rw [run_load64 hvalid, Outcome.ok.injEq] at h
    exact ⟨h.1.symm, h.2.symm⟩
  · have hfault : (C.load64 a).run m = .fault .badAccess m := if_neg hvalid
    rw [hfault] at h
    cases h

theorem store64_cases {a v : Nat} {m' : Machine}
    (h : (C.store64 a v).run m = .ok () m') :
    m' = { m with mem := m.mem.store64 a v } := by
  by_cases hvalid : m.Valid a 8
  · rw [run_store64 hvalid] at h
    cases h
    rfl
  · have hfault : (C.store64 a v).run m = .fault .badAccess m := if_neg hvalid
    rw [hfault] at h
    cases h

theorem bind_cases {x : C α} {f : α → C β} {b : β}
    {m' : Machine} (h : (x >>= f).run m = .ok b m') :
    ∃ a m₁, x.run m = .ok a m₁ ∧ (f a).run m₁ = .ok b m' := by
  rw [C.run_bind] at h
  cases hx : x.run m with
  | ok a m₁ =>
      rw [hx, C.chain_ok] at h
      exact ⟨a, m₁, rfl, h⟩
  | fault e m₁ =>
      rw [hx] at h
      cases h

end Cextras.Lib
