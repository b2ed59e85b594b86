/-
Threads that take turns on shared state. Each thread has a program
counter of its own; a step of one thread may read and write what is
shared but no other thread's counter.

`Interleaved.rely` is the rule for reasoning about them. What a thread
knows at its program counter (`know`) has to survive what the others do,
and of that it may rely only on `rely`; each step has to establish what
the thread knows next, keep what holds globally (`inv`), and give every
other thread what that one relies on. So each step is looked at once,
whatever the number of threads.
-/
import Mathlib.Logic.Function.Basic

namespace Cextras.Lib

variable {θ : Type} {Pc : θ → Type} {σ χ : Type}

/-- The program counters, and what is shared. -/
structure Config (Pc : θ → Type) (σ : Type) where
  pc : (t : θ) → Pc t
  shared : σ

/-- What a step of a thread does; a choice in `χ` says which of its steps
it is. It is `none` for a thread that cannot take the step. -/
abbrev Program (Pc : θ → Type) (σ χ : Type) : Type :=
  (t : θ) → χ → Pc t → σ → Option (Pc t × σ)

variable [DecidableEq θ]

def Program.step (prog : Program Pc σ χ) (t : θ) (x : χ) (c : Config Pc σ) :
    Option (Config Pc σ) :=
  (prog t x (c.pc t) c.shared).map fun r =>
    ⟨Function.update c.pc t r.1, r.2⟩

/-- The configurations of all interleavings, the steps being `allowed`
where they are taken. -/
inductive Interleaved (prog : Program Pc σ χ)
    (allowed : (t : θ) → Pc t → σ → Prop) (start : Config Pc σ → Prop) :
    Config Pc σ → Prop where
  | start {c : Config Pc σ} : start c → Interleaved prog allowed start c
  | step {c c' : Config Pc σ} {t : θ} {x : χ} :
      Interleaved prog allowed start c → allowed t (c.pc t) c.shared →
      prog.step t x c = some c' → Interleaved prog allowed start c'

variable {prog : Program Pc σ χ} {allowed : (t : θ) → Pc t → σ → Prop}
  {start : Config Pc σ → Prop} {c c' : Config Pc σ}

/-- The one thread that moved, and the state it left. -/
theorem Program.step_cases {t : θ} {x : χ} (h : prog.step t x c = some c') :
    ∃ p s, prog t x (c.pc t) c.shared = some (p, s) ∧ c'.shared = s
      ∧ c'.pc t = p ∧ ∀ u, u ≠ t → c'.pc u = c.pc u := by
  obtain ⟨⟨p, s⟩, hrun, rfl⟩ := Option.map_eq_some_iff.mp h
  refine ⟨p, s, hrun, rfl, Function.update_self .., ?_⟩
  intro u hu
  exact Function.update_of_ne hu ..

/-- The rule for invariants of interleavings, for as long as `ok` holds. A
step may use what is already known of the configurations reached. -/
theorem Interleaved.relyOn (h : Interleaved prog allowed start c)
    (ok inv : σ → Prop) (know : (t : θ) → Pc t → σ → Prop)
    (rely : θ → σ → σ → Prop)
    (hback : ∀ t x p s p' s', prog t x p s = some (p', s') → ok s' → ok s)
    (hstart : ∀ c, start c → inv c.shared ∧ ∀ t, know t (c.pc t) c.shared)
    (hstep : ∀ c, Interleaved prog allowed start c → ∀ t x p' s',
      prog t x (c.pc t) c.shared = some (p', s') → ok s' →
      allowed t (c.pc t) c.shared → inv c.shared → know t (c.pc t) c.shared →
      inv s' ∧ know t p' s' ∧ ∀ u, u ≠ t → rely u c.shared s')
    (hstable : ∀ t p s s', rely t s s' → know t p s → know t p s') :
    ok c.shared → inv c.shared ∧ ∀ t, know t (c.pc t) c.shared := by
  induction h with
  | start h => exact fun _ => hstart _ h
  | @step c₀ c₁ t x h₀ hallowed hrun ih =>
      intro hok
      obtain ⟨p, s, hrun, rfl, rfl, hother⟩ := Program.step_cases hrun
      obtain ⟨hinv, hknow⟩ := ih (hback _ _ _ _ _ _ hrun hok)
      obtain ⟨hinv', hknow', hrely⟩ :=
        hstep c₀ h₀ _ _ _ _ hrun hok hallowed hinv (hknow _)
      refine ⟨hinv', ?_⟩
      intro u
      by_cases hu : u = t
      · subst hu
        exact hknow'
      · rw [hother u hu]
        exact hstable _ _ _ _ (hrely u hu) (hknow u)

/-- The rule where a step needs no more than the invariant. -/
theorem Interleaved.rely (h : Interleaved prog allowed start c)
    (ok inv : σ → Prop) (know : (t : θ) → Pc t → σ → Prop)
    (rely : θ → σ → σ → Prop)
    (hback : ∀ t x p s p' s', prog t x p s = some (p', s') → ok s' → ok s)
    (hstart : ∀ c, start c → inv c.shared ∧ ∀ t, know t (c.pc t) c.shared)
    (hstep : ∀ t x p s p' s', prog t x p s = some (p', s') → ok s' →
      allowed t p s → inv s → know t p s →
      inv s' ∧ know t p' s' ∧ ∀ u, u ≠ t → rely u s s')
    (hstable : ∀ t p s s', rely t s s' → know t p s → know t p s') :
    ok c.shared → inv c.shared ∧ ∀ t, know t (c.pc t) c.shared :=
  h.relyOn ok inv know rely hback hstart
    (fun _ _ _ _ _ _ hrun => hstep _ _ _ _ _ _ hrun) hstable

/-- An interleaving that goes on. -/
theorem Interleaved.trans (h : Interleaved prog allowed start c)
    (hlater : Interleaved prog allowed (fun d => d = c) c') :
    Interleaved prog allowed start c' := by
  induction hlater with
  | start heq =>
      subst heq
      exact h
  | step _ hallowed hrun ih => exact .step ih hallowed hrun

-- ============================================================= histories

section History
variable {η : Type} {note : (t : θ) → Pc t → η → η} {y : η}

/-- The program with a history beside what is shared. What a step adds to
it is read off the program counter it leads to. -/
def Program.recorded (prog : Program Pc σ χ) (note : (t : θ) → Pc t → η → η) :
    Program Pc (σ × η) χ :=
  fun t x p s => (prog t x p s.1).map fun r => (r.1, r.2, note t r.1 s.2)

/-- The configuration without its history. -/
def Config.erase (c : Config Pc (σ × η)) : Config Pc σ := ⟨c.pc, c.shared.1⟩

omit [DecidableEq θ] in
theorem Program.recorded_cases {t : θ} {x : χ} {p p' : Pc t} {s s' : σ × η}
    (h : prog.recorded note t x p s = some (p', s')) :
    prog t x p s.1 = some (p', s'.1) ∧ s'.2 = note t p' s.2 := by
  obtain ⟨⟨p₁, s₁⟩, hrun, heq⟩ := Option.map_eq_some_iff.mp h
  cases heq
  exact ⟨hrun, rfl⟩

/-- The interleavings with the history `y` to begin with. -/
abbrev Recorded (prog : Program Pc σ χ)
    (allowed : (t : θ) → Pc t → σ → Prop) (start : Config Pc σ → Prop)
    (note : (t : θ) → Pc t → η → η) (y : η) : Config Pc (σ × η) → Prop :=
  Interleaved (prog.recorded note) (fun t p s => allowed t p s.1)
    fun c => start c.erase ∧ c.shared.2 = y

/-- A history is of an interleaving that takes place without it. -/
theorem Interleaved.erase {d : Config Pc (σ × η)}
    (h : Recorded prog allowed start note y d) :
    Interleaved prog allowed start d.erase := by
  induction h with
  | start h => exact .start h.1
  | @step d d' t x _ hallowed hrun ih =>
      refine .step (t := t) (x := x) ih hallowed ?_
      obtain ⟨⟨p, s⟩, hstep, rfl⟩ := Option.map_eq_some_iff.mp hrun
      have hstep' : prog t x (d.erase.pc t) d.erase.shared = some (p, s.1) :=
        (Program.recorded_cases hstep).1
      unfold Program.step
      rw [hstep']
      rfl

/-- Every interleaving has a history. -/
theorem Interleaved.recorded (h : Interleaved prog allowed start c)
    (note : (t : θ) → Pc t → η → η) (y : η) :
    ∃ y', Recorded prog allowed start note y ⟨c.pc, c.shared, y'⟩ := by
  induction h with
  | start h => exact ⟨y, .start ⟨h, rfl⟩⟩
  | @step c c' t x _ hallowed hrun ih =>
      obtain ⟨y', ih⟩ := ih
      obtain ⟨⟨p, s⟩, hstep, rfl⟩ := Option.map_eq_some_iff.mp hrun
      refine ⟨note t p y', .step (t := t) (x := x) ih hallowed ?_⟩
      unfold Program.step Program.recorded
      dsimp only
      rw [hstep]
      rfl

end History

-- ============================================================= schedules

/-- Let the threads take turns as listed. -/
def Program.follow (prog : Program Pc σ χ) :
    List (θ × χ) → Config Pc σ → Option (Config Pc σ)
  | [], c => some c
  | (t, x) :: turns, c =>
      match prog.step t x c with
      | some c => prog.follow turns c
      | none => none

/-- A thread that has no turn stays where it is. -/
theorem Program.follow_pc {turns : List (θ × χ)} {u : θ}
    (hrun : prog.follow turns c = some c') (hu : ∀ turn ∈ turns, turn.1 ≠ u) :
    c'.pc u = c.pc u := by
  induction turns generalizing c with
  | nil =>
      cases hrun
      rfl
  | cons turn turns ih =>
      obtain ⟨t, x⟩ := turn
      rw [Program.follow] at hrun
      split at hrun
      case h_1 c₁ hstep =>
        obtain ⟨-, -, -, -, -, hother⟩ := Program.step_cases hstep
        rw [ih hrun fun turn hturn => hu turn (List.mem_cons_of_mem _ hturn)]
        exact hother u (hu _ List.mem_cons_self).symm
      case h_2 => cases hrun

theorem Interleaved.follow {turns : List (θ × χ)}
    (h : Interleaved prog allowed start c)
    (hallowed : ∀ turn ∈ turns, ∀ p s, allowed turn.1 p s)
    (hrun : prog.follow turns c = some c') :
    Interleaved prog allowed start c' := by
  induction turns generalizing c with
  | nil =>
      cases hrun
      exact h
  | cons turn turns ih =>
      obtain ⟨t, x⟩ := turn
      rw [Program.follow] at hrun
      split at hrun
      case h_1 c₁ hstep =>
        refine ih (h.step (hallowed _ List.mem_cons_self _ _) hstep) ?_ hrun
        intro turn hturn
        exact hallowed turn (List.mem_cons_of_mem _ hturn)
      case h_2 => cases hrun

/-- Let the threads take turns as listed, as long as each one is allowed. -/
def Program.play (prog : Program Pc σ χ)
    (allowed : (t : θ) → Pc t → σ → Prop)
    [∀ t p s, Decidable (allowed t p s)] :
    List (θ × χ) → Config Pc σ → Option (Config Pc σ)
  | [], c => some c
  | (t, x) :: turns, c =>
      if allowed t (c.pc t) c.shared then
        match prog.step t x c with
        | some c => prog.play allowed turns c
        | none => none
      else none

theorem Interleaved.play [∀ t p s, Decidable (allowed t p s)]
    {turns : List (θ × χ)} (h : Interleaved prog allowed start c)
    (hrun : prog.play allowed turns c = some c') :
    Interleaved prog allowed start c' := by
  induction turns generalizing c with
  | nil =>
      cases hrun
      exact h
  | cons turn turns ih =>
      obtain ⟨t, x⟩ := turn
      rw [Program.play] at hrun
      split at hrun
      case isFalse => cases hrun
      case isTrue hallowed =>
        split at hrun
        case h_1 c₁ hstep => exact ih (h.step hallowed hstep) hrun
        case h_2 => cases hrun

end Cextras.Lib
