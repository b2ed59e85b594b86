/-
How long an interleaving can go on, and where it ends. Some choices are
paid for from outside (`fuel`): a call an idle thread makes, a wake-up
for no reason. All other steps have to be paid for out of the `work` that
is left in the configuration. So a schedule is no longer than what was
left at first and what came in on the way (`Program.follow_work`), and
without anything coming in a program settles: it reaches a configuration
in which no thread has a step of its own (`Program.settles`).

The work left is mostly a `total` of what each thread still has to do. A
step counts towards the thread that moves (`total_step`); one that wakes
others counts them as well (`total_wake`, `total_wakeAll`).
-/
import Mathlib.Algebra.BigOperators.Group.Finset.Basic
import Mathlib.Algebra.Order.BigOperators.Group.Finset
import Cextras.Lib.Interleave
import Cextras.Lib.Sync

namespace Cextras.Lib

variable {θ : Type} {Pc : θ → Type} {σ χ : Type} [DecidableEq θ]
  {prog : Program Pc σ χ} {c c' : Config Pc σ}

-- ================================================================= paying

/-- What comes in with the turns of a schedule. -/
def paid (fuel : χ → Nat) : List (θ × χ) → Nat
  | [] => 0
  | turn :: turns => fuel turn.2 + paid fuel turns

omit [DecidableEq θ] in
@[simp] theorem paid_nil (fuel : χ → Nat) :
    paid fuel ([] : List (θ × χ)) = 0 := rfl

omit [DecidableEq θ] in
@[simp] theorem paid_cons (fuel : χ → Nat) (t : θ) (x : χ)
    (turns : List (θ × χ)) :
    paid fuel ((t, x) :: turns) = fuel x + paid fuel turns := rfl

omit [DecidableEq θ] in
/-- Where nothing comes in, nothing comes in with any turn. -/
theorem fuel_eq_zero {fuel : χ → Nat} {turns : List (θ × χ)}
    (h : paid fuel turns = 0) : ∀ turn ∈ turns, fuel turn.2 = 0 := by
  induction turns with
  | nil =>
      intro turn hturn
      cases hturn
  | cons first turns ih =>
      obtain ⟨hfirst, hrest⟩ := Nat.add_eq_zero_iff.mp h
      intro turn hturn
      rcases List.mem_cons.mp hturn with rfl | hturn
      · exact hfirst
      · exact ih hrest turn hturn

/-- Every step is paid for, for as long as `ok` holds: by what comes in with
it, or out of the work left. -/
theorem Program.follow_workOn {T : Finset θ} {turns : List (θ × χ)}
    (fuel : χ → Nat) (work : Config Pc σ → Nat) (inv ok : Config Pc σ → Prop)
    (hstep : ∀ c c' t x, t ∈ T → inv c → prog.step t x c = some c' →
      inv c' ∧ (ok c' → ok c ∧ work c' + 1 ≤ work c + fuel x))
    (hT : ∀ turn ∈ turns, turn.1 ∈ T) (hinv : inv c)
    (hrun : prog.follow turns c = some c') (hok : ok c') :
    ok c ∧ turns.length + work c' ≤ work c + paid fuel turns := by
  induction turns generalizing c with
  | nil =>
      cases hrun
      exact ⟨hok, by simp⟩
  | cons turn turns ih =>
      obtain ⟨t, x⟩ := turn
      rw [Program.follow] at hrun
      split at hrun
      case h_2 => cases hrun
      case h_1 c₁ hfirst =>
        obtain ⟨hinv₁, hpaid⟩ :=
          hstep c c₁ t x (hT _ List.mem_cons_self) hinv hfirst
        obtain ⟨hok₁, hrest⟩ :=
          ih (fun turn hturn => hT turn (List.mem_cons_of_mem _ hturn)) hinv₁ hrun
        obtain ⟨hok₀, hfirst⟩ := hpaid hok₁
        refine ⟨hok₀, ?_⟩
        rw [List.length_cons, paid_cons]
        omega

/-- The rule where nothing can go wrong. -/
theorem Program.follow_work {T : Finset θ} {turns : List (θ × χ)}
    (fuel : χ → Nat) (work : Config Pc σ → Nat) (inv : Config Pc σ → Prop)
    (hstep : ∀ c c' t x, t ∈ T → inv c → prog.step t x c = some c' →
      inv c' ∧ work c' + 1 ≤ work c + fuel x)
    (hT : ∀ turn ∈ turns, turn.1 ∈ T) (hinv : inv c)
    (hrun : prog.follow turns c = some c') :
    turns.length + work c' ≤ work c + paid fuel turns := by
  refine (Program.follow_workOn fuel work inv (fun _ => True) ?_ hT hinv hrun
    trivial).2
  intro c c' t x ht hc hone
  obtain ⟨hinv', hpaid⟩ := hstep c c' t x ht hc hone
  exact ⟨hinv', fun _ => ⟨trivial, hpaid⟩⟩

-- =============================================================== settling

/-- No thread has a step that nobody pays for. -/
def Program.Settled (prog : Program Pc σ χ) (fuel : χ → Nat)
    (c : Config Pc σ) : Prop :=
  ∀ t x, fuel x = 0 → prog.step t x c = none

/-- Left to itself, a program settles or stops being `ok`, if all that
happens is up to the threads of `T`: the others are `idle` and take no step
unless it is paid for. -/
theorem Program.settlesOn (fuel : χ → Nat) (work : Config Pc σ → Nat)
    (inv ok : Config Pc σ → Prop) (idle : (t : θ) → Pc t → Prop) (T : Finset θ)
    (hidle : ∀ t x p s, idle t p → fuel x = 0 → prog t x p s = none)
    (hstep : ∀ c c' t x, t ∈ T → fuel x = 0 → inv c → ok c →
      prog.step t x c = some c' → inv c' ∧ (ok c' → work c' < work c))
    (houtside : ∀ t ∉ T, idle t (c.pc t)) (hinv : inv c) :
    ∃ turns c', prog.follow turns c = some c' ∧ inv c' ∧ paid fuel turns = 0
      ∧ (ok c' → prog.Settled fuel c') := by
  induction hw : work c using Nat.strong_induction_on generalizing c with
  | _ n ih =>
      subst hw
      by_cases hgo : ok c → prog.Settled fuel c
      · exact ⟨[], c, rfl, hinv, rfl, hgo⟩
      · unfold Program.Settled at hgo
        push Not at hgo
        obtain ⟨hok, t, x, hx, hsome⟩ := hgo
        obtain ⟨c₁, hfirst⟩ := Option.ne_none_iff_exists'.mp hsome
        obtain ⟨p, s, hone, -, -, hother⟩ := Program.step_cases hfirst
        have ht : t ∈ T := by
          by_contra hout
          rw [hidle t x _ _ (houtside t hout) hx] at hone
          cases hone
        have houtside₁ : ∀ u ∉ T, idle u (c₁.pc u) := by
          intro u hu
          rw [hother u fun heq => hu (heq ▸ ht)]
          exact houtside u hu
        obtain ⟨hinv₁, hlt⟩ := hstep c c₁ t x ht hx hinv hok hfirst
        by_cases hok₁ : ok c₁
        · obtain ⟨turns, c', hrun, hinv', hpaid, hset'⟩ :=
            ih (work c₁) (hlt hok₁) houtside₁ hinv₁ rfl
          refine ⟨(t, x) :: turns, c', ?_, hinv', ?_, hset'⟩
          · rw [Program.follow, hfirst]
            exact hrun
          · rw [paid_cons, hx, hpaid]
        · refine ⟨[(t, x)], c₁, ?_, hinv₁, ?_, fun hok' => absurd hok' hok₁⟩
          · rw [Program.follow, hfirst]
            rfl
          · rw [paid_cons, hx, paid_nil]

/-- The rule where nothing can go wrong. -/
theorem Program.settles (fuel : χ → Nat) (work : Config Pc σ → Nat)
    (inv : Config Pc σ → Prop) (idle : (t : θ) → Pc t → Prop) (T : Finset θ)
    (hidle : ∀ t x p s, idle t p → fuel x = 0 → prog t x p s = none)
    (hstep : ∀ c c' t x, t ∈ T → fuel x = 0 → inv c →
      prog.step t x c = some c' → inv c' ∧ work c' < work c)
    (houtside : ∀ t ∉ T, idle t (c.pc t)) (hinv : inv c) :
    ∃ turns c', prog.follow turns c = some c' ∧ inv c' ∧ paid fuel turns = 0
      ∧ prog.Settled fuel c' := by
  obtain ⟨turns, c', hrun, hinv', hpaid, hset⟩ :=
    Program.settlesOn fuel work inv (fun _ => True) idle T hidle
      (fun c c' t x ht hx hc _ hone =>
        ⟨(hstep c c' t x ht hx hc hone).1,
          fun _ => (hstep c c' t x ht hx hc hone).2⟩)
      houtside hinv
  exact ⟨turns, c', hrun, hinv', hpaid, hset trivial⟩

/-- Threads that have no turn stay where they are. -/
theorem Program.follow_outside {turns : List (θ × χ)} {T : Finset θ}
    (hrun : prog.follow turns c = some c') (hT : ∀ turn ∈ turns, turn.1 ∈ T)
    {t : θ} (ht : t ∉ T) : c'.pc t = c.pc t := by
  refine Program.follow_pc hrun ?_
  rintro turn hturn rfl
  exact ht (hT turn hturn)

/-- The threads that have a turn. -/
def threadsOf (turns : List (θ × χ)) : Finset θ := (turns.map Prod.fst).toFinset

theorem mem_threadsOf {turns : List (θ × χ)} :
    ∀ turn ∈ turns, turn.1 ∈ threadsOf turns := by
  intro turn hturn
  rw [threadsOf, List.mem_toFinset]
  exact List.mem_map_of_mem hturn

/-- Only finitely many threads have moved. -/
theorem Interleaved.moved {allowed : (t : θ) → Pc t → σ → Prop}
    {start : Config Pc σ → Prop} (h : Interleaved prog allowed start c) :
    ∃ c₀, start c₀ ∧ ∃ T : Finset θ, ∀ t ∉ T, c.pc t = c₀.pc t := by
  induction h with
  | @start c h => exact ⟨c, h, ∅, fun _ _ => rfl⟩
  | @step c c' t x _ _ hstep ih =>
      obtain ⟨c₀, hstart, T, hT⟩ := ih
      obtain ⟨-, -, -, -, -, hother⟩ := Program.step_cases hstep
      refine ⟨c₀, hstart, insert t T, ?_⟩
      intro u hu
      rw [Finset.mem_insert, not_or] at hu
      rw [hother u hu.1]
      exact hT u hu.2

-- ================================================================ threads

/-- What the threads of `T` still have to do. -/
def total (rank : (t : θ) → Pc t → σ → Nat) (T : Finset θ)
    (pc : (t : θ) → Pc t) (s : σ) : Nat :=
  ∑ t ∈ T, rank t (pc t) s

variable {T : Finset θ} {pc pc' : (t : θ) → Pc t} {t : θ}

/-- A step of `t` by which the others have `extra` more to do. -/
theorem total_step (rank : (t : θ) → Pc t → σ → Nat) (s s' : σ) (extra : Nat)
    (ht : t ∈ T) (hother : ∀ u, u ≠ t → pc' u = pc u)
    (hrest : ∑ u ∈ T.erase t, rank u (pc u) s'
      ≤ ∑ u ∈ T.erase t, rank u (pc u) s + extra) :
    total rank T pc' s' + rank t (pc t) s
      ≤ total rank T pc s + rank t (pc' t) s' + extra := by
  unfold total
  rw [← Finset.add_sum_erase T (fun u => rank u (pc' u) s') ht,
    ← Finset.add_sum_erase T (fun u => rank u (pc u) s) ht]
  have hsame : ∑ u ∈ T.erase t, rank u (pc' u) s'
      = ∑ u ∈ T.erase t, rank u (pc u) s' :=
    Finset.sum_congr rfl fun u hu => by rw [hother u (Finset.ne_of_mem_erase hu)]
  omega

/-- The others have nothing more to do. -/
theorem total_quiet (rank : (t : θ) → Pc t → σ → Nat) (s s' : σ) (ht : t ∈ T)
    (hother : ∀ u, u ≠ t → pc' u = pc u)
    (hrest : ∀ u, u ≠ t → rank u (pc u) s' ≤ rank u (pc u) s) :
    total rank T pc' s' + rank t (pc t) s
      ≤ total rank T pc s + rank t (pc' t) s' := by
  have hsum : ∑ u ∈ T.erase t, rank u (pc u) s'
      ≤ ∑ u ∈ T.erase t, rank u (pc u) s + 0 :=
    Finset.sum_le_sum fun u hu => hrest u (Finset.ne_of_mem_erase hu)
  exact total_step rank s s' 0 ht hother hsum

/-- One of the others, `v`, has `extra` more to do. -/
theorem total_wake (rank : (t : θ) → Pc t → σ → Nat) (s s' : σ) (extra : Nat)
    (ht : t ∈ T) (v : θ) (hother : ∀ u, u ≠ t → pc' u = pc u)
    (hrest : ∀ u, u ≠ t → u ≠ v → rank u (pc u) s' ≤ rank u (pc u) s)
    (hwoken : v ≠ t → rank v (pc v) s' ≤ rank v (pc v) s + extra) :
    total rank T pc' s' + rank t (pc t) s
      ≤ total rank T pc s + rank t (pc' t) s' + extra := by
  refine total_step rank s s' _ ht hother ?_
  by_cases hv : v ∈ T.erase t
  · rw [← Finset.add_sum_erase (T.erase t) (fun u => rank u (pc u) s') hv,
      ← Finset.add_sum_erase (T.erase t) (fun u => rank u (pc u) s) hv]
    have hle : ∑ u ∈ (T.erase t).erase v, rank u (pc u) s'
        ≤ ∑ u ∈ (T.erase t).erase v, rank u (pc u) s := by
      refine Finset.sum_le_sum fun u hu => ?_
      obtain ⟨huv, hut⟩ := Finset.mem_erase.mp hu
      exact hrest u (Finset.ne_of_mem_erase hut) huv
    have hone := hwoken (Finset.ne_of_mem_erase hv)
    omega
  · have hle : ∑ u ∈ T.erase t, rank u (pc u) s'
        ≤ ∑ u ∈ T.erase t, rank u (pc u) s := by
      refine Finset.sum_le_sum fun u hu => ?_
      refine hrest u (Finset.ne_of_mem_erase hu) ?_
      rintro rfl
      exact hv hu
    omega

/-- Each of the others may have `extra` more to do. -/
theorem total_wakeAll (rank : (t : θ) → Pc t → σ → Nat) (s s' : σ)
    (extra : Nat) (ht : t ∈ T) (hother : ∀ u, u ≠ t → pc' u = pc u)
    (hrest : ∀ u, u ≠ t → rank u (pc u) s' ≤ rank u (pc u) s + extra) :
    total rank T pc' s' + rank t (pc t) s
      ≤ total rank T pc s + rank t (pc' t) s' + T.card * extra := by
  refine total_step rank s s' _ ht hother ?_
  have hle : ∑ u ∈ T.erase t, rank u (pc u) s'
      ≤ ∑ u ∈ T.erase t, (rank u (pc u) s + extra) :=
    Finset.sum_le_sum fun u hu => hrest u (Finset.ne_of_mem_erase hu)
  rw [Finset.sum_add_distrib, Finset.sum_const_nat fun _ _ => rfl] at hle
  have hcard : (T.erase t).card * extra ≤ T.card * extra :=
    Nat.mul_le_mul_right _ (Finset.card_erase_le)
  omega

-- =============================================================== sleepers

namespace Sync

variable {μ κ : Type} {y : Sync μ κ θ} {k : κ} {u v : θ}

/-- Waking one thread wakes no other. -/
theorem mem_wake_of_ne [DecidableEq κ] (hu : u ≠ v) (k' : κ) :
    u ∈ (y.wake k v).asleep k' ↔ u ∈ y.asleep k' := by
  by_cases hk : k' = k
  · rw [hk, wake_self]
    exact List.mem_erase_of_ne hu
  · rw [wake_of_ne hk]

omit [DecidableEq θ] in
/-- Nor does one that goes to sleep put another to sleep. -/
theorem mem_sleep_of_ne [DecidableEq μ] [DecidableEq κ] (hu : u ≠ v) (m : μ)
    (k' : κ) : u ∈ (y.sleep k m v).asleep k' ↔ u ∈ y.asleep k' := by
  by_cases hk : k' = k
  · rw [hk, sleep_self, List.mem_cons]
    exact or_iff_right hu
  · rw [sleep_of_ne hk]

end Sync

end Cextras.Lib
