/-
How often a computation asks the allocator. Every request moves the machine's
`tick`, whether it is granted or refused; `C.Asks` says of each normal end
what came out and after how many of them, and the rules add them up.
-/
import Cextras.Lib.Footprint

namespace Cextras.Lib

variable {α β : Type} {x : C α} {k : α → C β} {Q S : α → Nat → Prop}
  {R : β → Nat → Prop} {P : α → Prop}

/-- What comes out, and after how many requests. -/
def C.Asks (x : C α) (Q : α → Nat → Prop) : Prop :=
  ∀ m a m', x.run m = .ok a m' → ∃ n, m'.tick = m.tick + n ∧ Q a n

theorem asks_pure {a : α} (hq : Q a 0) : (pure a : C α).Asks Q := by
  intro m b m' hrun
  cases hrun
  exact ⟨0, rfl, hq⟩

theorem asks_fail (e : Fault) : (C.fail e : C α).Asks Q := by
  intro m a m' hrun
  cases hrun

theorem asks_bind (hx : x.Asks Q)
    (hk : ∀ a i, Q a i → (k a).Asks fun b j => R b (i + j)) :
    (x >>= k).Asks R := by
  intro m b m' hrun
  obtain ⟨a, m₁, hfirst, hsecond⟩ := bind_cases hrun
  obtain ⟨i, hi, hq⟩ := hx m a m₁ hfirst
  obtain ⟨j, hj, hr⟩ := hk a i hq m₁ b m' hsecond
  exact ⟨i + j, by omega, hr⟩

theorem C.Asks.imp (hx : x.Asks Q) (himp : ∀ a n, Q a n → S a n) :
    x.Asks S := by
  intro m a m' hrun
  obtain ⟨n, htick, hq⟩ := hx m a m' hrun
  exact ⟨n, htick, himp a n hq⟩

theorem asks_ite {p : Prop} [Decidable p] {y : C α} (hx : p → x.Asks Q)
    (hy : ¬ p → y.Asks Q) : (if p then x else y).Asks Q := by
  split
  · next hp => exact hx hp
  · next hp => exact hy hp

/-- No request where nothing is allocated. -/
theorem C.Stays.asks (hx : x.Stays P) (hq : ∀ a, P a → Q a 0) : x.Asks Q := by
  intro m a m' hrun
  obtain ⟨⟨-, -, htick⟩, hp⟩ := hx m a m' hrun
  exact ⟨0, htick, hq a hp⟩

/-- A first step that allocates and frees nothing. -/
theorem asks_after (hx : x.Stays P) (hk : ∀ a, P a → (k a).Asks R) :
    (x >>= k).Asks R := by
  apply asks_bind (hx.asks (Q := fun a i => P a ∧ i = 0) fun _ hp => ⟨hp, rfl⟩)
  intro a i hi
  obtain ⟨hp, rfl⟩ := hi
  simpa using hk a hp

theorem asks_malloc (n : Nat) : (C.malloc n).Asks fun _ k => k = 1 := by
  intro m a m' hrun
  unfold C.malloc at hrun
  dsimp only at hrun
  split at hrun
  · cases hrun
    exact ⟨1, rfl, rfl⟩
  · cases hrun
    exact ⟨1, rfl, rfl⟩

theorem asks_reallocBlock (a n : Nat) :
    (C.reallocBlock a n).Asks fun _ k => k = 1 := by
  intro m b m' hrun
  unfold C.reallocBlock at hrun
  dsimp only at hrun
  split at hrun
  · cases hrun
  · split at hrun
    · cases hrun
      exact ⟨1, rfl, rfl⟩
    · cases hrun
      exact ⟨1, rfl, rfl⟩

theorem asks_realloc (a n : Nat) : (C.realloc a n).Asks fun _ k => k = 1 := by
  unfold C.realloc
  exact asks_ite (fun _ => asks_malloc n) fun _ => asks_reallocBlock a n

theorem asks_free (a : Nat) : (C.free a).Asks fun _ k => k = 0 := by
  intro m b m' hrun
  unfold C.free at hrun
  dsimp only at hrun
  split at hrun
  · cases hrun
    exact ⟨0, rfl, rfl⟩
  · split at hrun
    · cases hrun
      exact ⟨0, rfl, rfl⟩
    · cases hrun

end Cextras.Lib
