/-
Computations the machine does not matter to. One on list-held data alone
neither reads nor changes the machine, so a run on one machine is a run on
every other (`Inert.run`). `Ensures` says what holds of a result, whatever
the machine.
-/
import Cextras.Lib.Machine

namespace Cextras.Lib

variable {α β : Type} {x : C α} {m m' : Machine}

/-- Ends the same way on every machine, and leaves it as it was. -/
def C.Inert (x : C α) : Prop :=
  (∃ a, ∀ m, x.run m = .ok a m) ∨ ∃ e, ∀ m, x.run m = .fault e m

namespace C.Inert

theorem pure (a : α) : (Pure.pure a : C α).Inert := Or.inl ⟨a, fun _ => rfl⟩

theorem fail (e : Fault) : (C.fail e : C α).Inert := Or.inr ⟨e, fun _ => rfl⟩

theorem cell (xs : List α) (i : Nat) : (C.cell xs i).Inert := by
  unfold C.cell
  cases xs[i]? with
  | none => exact fail _
  | some x => exact pure x

theorem bind {f : α → C β} (hx : x.Inert) (hf : ∀ a, (f a).Inert) :
    (x >>= f).Inert := by
  rcases hx with ⟨a, hrun⟩ | ⟨e, hrun⟩
  · rcases hf a with ⟨b, hrun'⟩ | ⟨e, hrun'⟩
    · refine Or.inl ⟨b, fun m => ?_⟩
      rw [C.run_bind, hrun, C.chain_ok, hrun']
    · refine Or.inr ⟨e, fun m => ?_⟩
      rw [C.run_bind, hrun, C.chain_ok, hrun']
  · refine Or.inr ⟨e, fun m => ?_⟩
    rw [C.run_bind, hrun, C.chain_fault]

theorem ite {p : Prop} [Decidable p] {y : C α} (hx : x.Inert) (hy : y.Inert) :
    (if p then x else y).Inert := by
  split
  · exact hx
  · exact hy

/-- A normal end on one machine is one on every machine. -/
theorem run {a : α} (h : x.Inert) (hrun : x.run m = .ok a m') (m₁ : Machine) :
    x.run m₁ = .ok a m₁ := by
  rcases h with ⟨b, hall⟩ | ⟨e, hall⟩
  · rw [hall m] at hrun
    cases hrun
    exact hall m₁
  · rw [hall m] at hrun
    cases hrun

end C.Inert

-- ================================================================= results

/-- What a normal end returns satisfies `Q`. -/
structure C.Ensures (x : C α) (Q : α → Prop) : Prop where
  result : ∀ m a m', x.run m = .ok a m' → Q a

namespace C.Ensures

variable {P : α → Prop} {Q : β → Prop}

theorem pure {a : α} (h : P a) : (Pure.pure a : C α).Ensures P := by
  refine ⟨fun m b m' hrun => ?_⟩
  cases hrun
  exact h

theorem imp {P' : α → Prop} (h : x.Ensures P) (himp : ∀ a, P a → P' a) :
    x.Ensures P' :=
  ⟨fun m a m' hrun => himp a (h.result m a m' hrun)⟩

theorem fail {e : Fault} : (C.fail e : C α).Ensures P := by
  refine ⟨fun m a m' hrun => ?_⟩
  cases hrun

theorem bind {f : α → C β} (hx : x.Ensures P)
    (hf : ∀ a, P a → (f a).Ensures Q) : (x >>= f).Ensures Q := by
  refine ⟨fun m b m' hrun => ?_⟩
  rw [C.run_bind] at hrun
  cases hfirst : x.run m with
  | fault e m₁ =>
      rw [hfirst] at hrun
      cases hrun
  | ok a m₁ =>
      rw [hfirst, C.chain_ok] at hrun
      exact (hf a (hx.result m a m₁ hfirst)).result m₁ b m' hrun

/-- Nothing is known of the first result. -/
theorem after {f : α → C β} (hf : ∀ a, (f a).Ensures Q) :
    (x >>= f).Ensures Q := by
  have hx : x.Ensures fun _ => True := ⟨fun _ _ _ _ => trivial⟩
  exact hx.bind fun a _ => hf a

theorem ite {p : Prop} [Decidable p] {y : C α} (hx : x.Ensures P)
    (hy : y.Ensures P) : (if p then x else y).Ensures P := by
  split
  · exact hx
  · exact hy

theorem of_run_eq {y : C α} (hrun : ∀ m, x.run m = y.run m)
    (hy : y.Ensures P) : x.Ensures P := by
  refine ⟨fun m a m' h => hy.result m a m' ?_⟩
  rw [← hrun, h]

theorem assert (p : Prop) [Decidable p] : (C.assert p).Ensures fun _ => p := by
  unfold C.assert
  by_cases h : p
  · rw [if_pos h]
    exact .pure h
  · rw [if_neg h]
    exact .fail

end C.Ensures

end Cextras.Lib
