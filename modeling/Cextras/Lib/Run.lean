/-
Runs of a client of machine code. A client keeps its own record `σ` of
what it did; `exec op` performs one operation and brings the record up
to date. `Reached` collects the pairs of record and machine such a run
can be in, when every operation was `allowed` where it was issued and no
request was refused so far.

`Reached.invariant` is the one induction over runs; `replay` evaluates a
run on given operations, and `Reached.replay` turns what it found into a
reached state.

`Steps` collects the states of runs in which any request may be refused;
those where none was are the reached ones (`Steps.reached`).
-/
import Cextras.Lib.Triple

namespace Cextras.Lib

variable {σ ι : Type}

/-- The record and machine of a run that started on `m₀`. -/
inductive Reached (start : C σ) (exec : ι → σ → C σ)
    (allowed : σ → Machine → ι → Prop) (m₀ : Machine) :
    σ → Machine → Prop where
  | start {s : σ} {m : Machine} :
      start.run m₀ = .ok s m → m.refused = false →
      Reached start exec allowed m₀ s m
  | step {s s' : σ} {m m' : Machine} {op : ι} :
      Reached start exec allowed m₀ s m → allowed s m op →
      (exec op s).run m = .ok s' m' → m'.refused = false →
      Reached start exec allowed m₀ s' m'

variable {start : C σ} {exec : ι → σ → C σ}
  {allowed allowed' : σ → Machine → ι → Prop} {m₀ m m' : Machine} {s s' : σ}

/-- A postcondition holds of every unrefused normal end. -/
theorem C.Granted.of_run {α : Type} {x : C α} {Q : α → Machine → Prop}
    {a : α} (h : x.Granted m Q) (hrun : x.run m = .ok a m')
    (hu : m'.refused = false) : Q a m' := by
  unfold C.Granted at h
  rw [hrun] at h
  exact h hu

/-- What the start establishes and every allowed operation keeps holds in
every reached state. -/
theorem Reached.invariant (h : Reached start exec allowed m₀ s m)
    (inv : σ → Machine → Prop)
    (hstart : ∀ s m, start.run m₀ = .ok s m → m.refused = false → inv s m)
    (hstep : ∀ s m op, inv s m → allowed s m op →
      (exec op s).Granted m inv) : inv s m := by
  induction h with
  | start hrun hu => exact hstart _ _ hrun hu
  | step _ hop hrun hu ih => exact (hstep _ _ _ ih hop).of_run hrun hu

/-- The same where operations may fault: those that end normally keep
it. -/
theorem Reached.invariant_returned (h : Reached start exec allowed m₀ s m)
    (inv : σ → Machine → Prop)
    (hstart : ∀ s m, start.run m₀ = .ok s m → m.refused = false → inv s m)
    (hstep : ∀ s m op s' m', inv s m → allowed s m op →
      (exec op s).run m = .ok s' m' → m'.refused = false → inv s' m') :
    inv s m := by
  induction h with
  | start hrun hu => exact hstart _ _ hrun hu
  | step _ hop hrun hu ih => exact hstep _ _ _ _ _ ih hop hrun hu

/-- The same for a start that is known not to fault. -/
theorem Reached.invariant_granted (h : Reached start exec allowed m₀ s m)
    (inv : σ → Machine → Prop) (hstart : start.Granted m₀ inv)
    (hstep : ∀ s m op, inv s m → allowed s m op →
      (exec op s).Granted m inv) : inv s m :=
  h.invariant inv (fun _ _ => hstart.of_run) hstep

-- ============================================================== refusals

/-- The record and machine of a run that started on `m₀`, whatever the
allocator turned down. -/
inductive Steps (start : C σ) (exec : ι → σ → C σ)
    (allowed : σ → Machine → ι → Prop) (m₀ : Machine) :
    σ → Machine → Prop where
  | start {s : σ} {m : Machine} :
      start.run m₀ = .ok s m → Steps start exec allowed m₀ s m
  | step {s s' : σ} {m m' : Machine} {op : ι} :
      Steps start exec allowed m₀ s m → allowed s m op →
      (exec op s).run m = .ok s' m' → Steps start exec allowed m₀ s' m'

/-- A run that was refused nothing. -/
theorem Steps.reached (h : Steps start exec allowed m₀ s m)
    (hu : m.refused = false) : Reached start exec allowed m₀ s m := by
  induction h with
  | start hrun => exact .start hrun hu
  | step _ hop hrun ih => exact .step (ih (unrefused_of_run hrun hu)) hop hrun hu

/-- Under a stricter rule, and refused nothing. -/
theorem Reached.steps (h : Reached start exec allowed m₀ s m)
    (himp : ∀ s m op, allowed s m op → allowed' s m op) :
    Steps start exec allowed' m₀ s m := by
  induction h with
  | start hrun _ => exact .start hrun
  | step _ hop hrun _ ih => exact .step ih (himp _ _ _ hop) hrun

/-- What the start establishes and every allowed operation that ends
keeps holds in every state of every run. -/
theorem Steps.invariant (h : Steps start exec allowed m₀ s m)
    (inv : σ → Machine → Prop)
    (hstart : ∀ s m, start.run m₀ = .ok s m → inv s m)
    (hstep : ∀ s m op s' m', inv s m → allowed s m op →
      (exec op s).run m = .ok s' m' → inv s' m') : inv s m := by
  induction h with
  | start hrun => exact hstart _ _ hrun
  | step _ hop hrun ih => exact hstep _ _ _ _ _ ih hop hrun

-- ================================================================ replay

/-- Perform the operations in turn, as long as each one is allowed, ends
normally and is refused nothing. -/
def replay (exec : ι → σ → C σ) (allowed : σ → Machine → ι → Prop)
    [∀ s m op, Decidable (allowed s m op)] :
    List ι → σ → Machine → Option (σ × Machine)
  | [], s, m => some (s, m)
  | op :: ops, s, m =>
      if allowed s m op then
        match (exec op s).run m with
        | .ok s' m' => if m'.refused then none else replay exec allowed ops s' m'
        | .fault _ _ => none
      else none

/-- Start a client and perform the operations. -/
def replayFrom (start : C σ) (exec : ι → σ → C σ)
    (allowed : σ → Machine → ι → Prop)
    [∀ s m op, Decidable (allowed s m op)] (ops : List ι) (m₀ : Machine) :
    Option (σ × Machine) :=
  match start.run m₀ with
  | .ok s m => if m.refused then none else replay exec allowed ops s m
  | .fault _ _ => none

theorem Reached.replay [∀ s m op, Decidable (allowed s m op)] {ops : List ι}
    (h : Reached start exec allowed m₀ s m)
    (hr : Lib.replay exec allowed ops s m = some (s', m')) :
    Reached start exec allowed m₀ s' m' := by
  induction ops generalizing s m with
  | nil =>
      simp only [Lib.replay, Option.some.injEq, Prod.mk.injEq] at hr
      rcases hr with ⟨rfl, rfl⟩
      exact h
  | cons op ops ih =>
      rw [Lib.replay] at hr
      split at hr
      case isFalse => cases hr
      case isTrue hop =>
        split at hr
        case h_2 => cases hr
        case h_1 s₁ m₁ hrun =>
          split at hr
          case isTrue => cases hr
          case isFalse hu =>
            exact ih (h.step hop hrun (by simpa using hu)) hr

/-- A test the replayed run passes is passed in a reached state. -/
theorem reached_of_replayFrom (start : C σ) (exec : ι → σ → C σ)
    (allowed : σ → Machine → ι → Prop)
    [∀ s m op, Decidable (allowed s m op)] (m₀ : Machine) (ops : List ι)
    (test : σ × Machine → Bool)
    (ht : (replayFrom start exec allowed ops m₀).any test = true) :
    ∃ s m, Reached start exec allowed m₀ s m ∧ test (s, m) = true := by
  unfold replayFrom at ht
  cases hrun : start.run m₀ with
  | fault e m => simp [hrun] at ht
  | ok s m =>
      rw [hrun] at ht
      dsimp only at ht
      by_cases hu : m.refused = true
      · simp [hu] at ht
      · rw [if_neg hu] at ht
        obtain ⟨⟨s', m'⟩, hr, htest⟩ := Option.any_eq_true _ _ |>.mp ht
        exact ⟨s', m', (Reached.start hrun (by simpa using hu)).replay hr, htest⟩

/-- Perform the operations in turn, refusals or not. -/
def trySteps (exec : ι → σ → C σ) (allowed : σ → Machine → ι → Prop)
    [∀ s m op, Decidable (allowed s m op)] :
    List ι → σ → Machine → Option (σ × Machine)
  | [], s, m => some (s, m)
  | op :: ops, s, m =>
      if allowed s m op then
        match (exec op s).run m with
        | .ok s' m' => trySteps exec allowed ops s' m'
        | .fault _ _ => none
      else none

theorem Steps.trySteps [∀ s m op, Decidable (allowed s m op)] {ops : List ι}
    (h : Steps start exec allowed m₀ s m)
    (hr : Lib.trySteps exec allowed ops s m = some (s', m')) :
    Steps start exec allowed m₀ s' m' := by
  induction ops generalizing s m with
  | nil =>
      cases hr
      exact h
  | cons op ops ih =>
      rw [Lib.trySteps] at hr
      split at hr
      case isFalse => cases hr
      case isTrue hop =>
        split at hr
        case h_1 s₁ m₁ hrun => exact ih (h.step hop hrun) hr
        case h_2 => cases hr

/-- Start a client and perform the operations, refusals or not. -/
def tryFrom (start : C σ) (exec : ι → σ → C σ)
    (allowed : σ → Machine → ι → Prop)
    [∀ s m op, Decidable (allowed s m op)] (ops : List ι) (m₀ : Machine) :
    Option (σ × Machine) :=
  match start.run m₀ with
  | .ok s m => trySteps exec allowed ops s m
  | .fault _ _ => none

/-- A test the run passes is passed in a state of a run. -/
theorem steps_of_tryFrom (start : C σ) (exec : ι → σ → C σ)
    (allowed : σ → Machine → ι → Prop)
    [∀ s m op, Decidable (allowed s m op)] (m₀ : Machine) (ops : List ι)
    (test : σ × Machine → Bool)
    (ht : (tryFrom start exec allowed ops m₀).any test = true) :
    ∃ s m, Steps start exec allowed m₀ s m ∧ test (s, m) = true := by
  unfold tryFrom at ht
  cases hrun : start.run m₀ with
  | fault e m => simp [hrun] at ht
  | ok s m =>
      rw [hrun] at ht
      obtain ⟨⟨s', m'⟩, hr, htest⟩ := Option.any_eq_true _ _ |>.mp ht
      exact ⟨s', m', (Steps.start hrun).trySteps hr, htest⟩

end Cextras.Lib
