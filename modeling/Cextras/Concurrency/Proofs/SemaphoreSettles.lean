/-
A semaphore settles. A wait that sleeps takes no step until it is woken,
and a post wakes one thread, so a schedule is no longer than its calls and
its wake-ups for no reason pay for. Where no thread can go on by itself,
all posts have returned, and if a wait has not, it sleeps, the count is 0
and every post there was has let a wait through (`cxSemaphore_settles`).
-/
import Cextras.Concurrency.Proofs.SemaphoreCounts
import Cextras.Lib.Settle

namespace Cextras.Concurrency

open Lib

variable {θ : Type} [DecidableEq θ] {s s' : CxSemaphore θ} {t u : θ}
  {p p' q : SemaphorePc} {x : SemaphoreChoice θ} {initial : Nat}
  {cfg cfg' : SemaphoreConfig θ}

-- ================================================================ the work

/-- The steps thread `t` is from the end of its call, or from its sleep. A
post has a thread to wake, and four steps to pay for it. -/
def semaphoreRank (t : θ) (p : SemaphorePc) (s : CxSemaphore θ) : Nat :=
  match p with
  | .idle => 0
  | .waitLock => 4
  | .waitTest _ => 3
  | .waitSleep => 1
  | .blocked => if t ∈ s.sync.asleep () then 0 else 4
  | .waitTake _ => 2
  | .waitUnlock => 1
  | .postLock => 8
  | .postAdd => 7
  | .postSignal => 6
  | .postUnlock => 1

/-- What a call brings in, and a wake-up for no reason. -/
def semaphoreFuel : SemaphoreChoice θ → Nat
  | .go => 0
  | .wake _ => 0
  | .spurious => 5
  | .wait => 5
  | .post => 9

/-- A thread that goes on sleeping has nothing more to do. -/
theorem semaphoreRank_le (h : u ∈ s.sync.asleep () → u ∈ s'.sync.asleep ()) :
    semaphoreRank u q s' ≤ semaphoreRank u q s := by
  cases q with
  | blocked =>
      simp only [semaphoreRank]
      split
      · exact Nat.zero_le _
      · next hawake => rw [if_neg fun ha => hawake (h ha)]
  | _ => exact Nat.le_refl _

/-- At worst it was woken. -/
theorem semaphoreRank_woken (u : θ) (q : SemaphorePc) (s s' : CxSemaphore θ) :
    semaphoreRank u q s' ≤ semaphoreRank u q s + 4 := by
  cases q with
  | blocked =>
      simp only [semaphoreRank]
      split
      · exact Nat.zero_le _
      · exact Nat.le_add_left _ _
  | _ => exact Nat.le_add_right _ _

theorem CxSemaphore.mem_wake_of_ne {chosen : θ} (hu : u ≠ chosen)
    (ha : u ∈ s.sync.asleep ()) : u ∈ (s.wake chosen).sync.asleep () := by
  unfold CxSemaphore.wake
  split
  · exact (Sync.mem_wake_of_ne hu ()).mpr ha
  · exact ha

/-- Only a signal wakes another thread. -/
theorem SemaphoreRule.keeps_asleep (hr : SemaphoreRule t s p p' s')
    (hp : p ≠ .postSignal) (hu : u ≠ t) (ha : u ∈ s.sync.asleep ()) :
    u ∈ s'.sync.asleep () := by
  cases hr with
  | waitLock hlock =>
      obtain ⟨y, hy, rfl⟩ := CxSemaphore.lock_cases hlock
      obtain ⟨-, rfl⟩ := Sync.lock_cases hy
      exact ha
  | relock _ hlock =>
      obtain ⟨y, hy, rfl⟩ := CxSemaphore.lock_cases hlock
      obtain ⟨-, rfl⟩ := Sync.lock_cases hy
      exact ha
  | postLock hlock =>
      obtain ⟨y, hy, rfl⟩ := CxSemaphore.lock_cases hlock
      obtain ⟨-, rfl⟩ := Sync.lock_cases hy
      exact ha
  | waitSleep => exact (Sync.mem_sleep_of_ne hu () ()).mpr ha
  | spurious => exact CxSemaphore.mem_wake_of_ne hu ha
  | postSignal => exact absurd rfl hp
  | _ => exact ha

/-- What the thread that moves has less to do. A signal has paid for the
one it wakes. -/
theorem semaphoreStep_rank (h : semaphoreStep t x s p = some (p', s')) :
    semaphoreRank t p' s' + (if p = .postSignal then 4 else 0) + 1
      ≤ semaphoreRank t p s + semaphoreFuel x := by
  cases p with
  | idle =>
      cases x with
      | wait =>
          cases h
          exact Nat.le_refl _
      | post =>
          cases h
          exact Nat.le_refl _
      | _ => cases h
  | waitLock =>
      obtain ⟨s₁, -, hs⟩ := Option.bind_eq_some_iff.mp h
      cases hs
      exact Nat.le_add_right _ _
  | waitTest woken =>
      simp only [semaphoreStep] at h
      split at h
      · cases h
        show 1 + 0 + 1 ≤ 3 + _
        omega
      · cases h
        exact Nat.le_add_right _ _
  | waitSleep =>
      cases h
      have hin : t ∈ (s.sleep t).sync.asleep () := by
        show t ∈ (s.sync.sleep () () t).asleep ()
        rw [Sync.sleep_self]
        exact List.mem_cons_self
      simp only [semaphoreRank, if_pos hin]
      exact Nat.le_add_right _ _
  | blocked =>
      have hrelock : ∀ {r}, (s.relock t >>= fun s =>
          some (SemaphorePc.waitTest true, s)) = some r →
          semaphoreRank t r.1 r.2 + 0 + 1 ≤ semaphoreRank t .blocked s := by
        intro r hrun
        obtain ⟨s₁, hrelock, hs⟩ := Option.bind_eq_some_iff.mp hrun
        cases hs
        simp only [semaphoreRank, if_neg (CxSemaphore.relock_cases hrelock).1]
        exact Nat.le_refl _
      cases x with
      | spurious =>
          cases h
          have hwoken : semaphoreRank t .blocked (s.wake t) ≤ 4 := by
            simp only [semaphoreRank]
            split <;> omega
          show _ + 0 + 1 ≤ _ + 5
          omega
      | _ => exact Nat.le_trans (hrelock h) (Nat.le_add_right _ _)
  | postSignal =>
      cases x with
      | wake chosen =>
          obtain ⟨s₁, -, hs⟩ := Option.bind_eq_some_iff.mp h
          cases hs
          exact Nat.le_refl _
      | _ => cases h
  | postLock =>
      obtain ⟨s₁, -, hs⟩ := Option.bind_eq_some_iff.mp h
      cases hs
      exact Nat.le_add_right _ _
  | waitTake woken =>
      cases h
      exact Nat.le_add_right _ _
  | waitUnlock =>
      cases h
      exact Nat.le_add_right _ _
  | postAdd =>
      cases h
      exact Nat.le_add_right _ _
  | postUnlock =>
      cases h
      exact Nat.le_add_right _ _

/-- An idle thread makes a call, or does nothing. -/
theorem semaphoreStep_idle (hp : p = .idle) (hx : semaphoreFuel x = 0) :
    semaphoreStep t x s p = none := by
  subst hp
  cases x with
  | wait => cases hx
  | post => cases hx
  | _ => rfl

/-- The work of the threads of `T`. -/
def semaphoreWork (T : Finset θ) (cfg : SemaphoreConfig θ) : Nat :=
  total semaphoreRank T cfg.pc cfg.shared

theorem semaphoreWork_step {T : Finset θ} (ht : t ∈ T)
    (hrun : (semaphoreProgram θ).step t x cfg = some cfg') :
    semaphoreWork T cfg' + 1 ≤ semaphoreWork T cfg + semaphoreFuel x := by
  obtain ⟨p', s', hstep, hs', hp', hother⟩ := Program.step_cases hrun
  have hr : SemaphoreRule t cfg.shared (cfg.pc t) p' s' :=
    semaphoreStep_rule hstep
  have hrank := semaphoreStep_rank hstep
  unfold semaphoreWork
  rw [hs']
  subst hp'
  by_cases hsignal : cfg.pc t = .postSignal
  · rw [if_pos hsignal] at hrank
    rw [hsignal] at hr
    generalize hq : cfg'.pc t = q at hr
    cases hr with
    | @postSignal chosen _ =>
        have hsum := total_wake semaphoreRank cfg.shared
          (cfg.shared.wake chosen) 4 ht chosen hother
          (fun u _ hu => semaphoreRank_le (CxSemaphore.mem_wake_of_ne hu))
          fun _ => semaphoreRank_woken chosen _ _ _
        omega
  · have hsum := total_quiet semaphoreRank cfg.shared s' ht hother
      fun u hu => semaphoreRank_le (hr.keeps_asleep hsignal hu)
    rw [if_neg hsignal] at hrank
    omega

-- ================================================================= the end

omit [DecidableEq θ] in
theorem CxSemaphore.lock_free (h : s.sync.owner () = none) (t : θ) :
    ∃ s', s.lock t = some s' := by
  unfold CxSemaphore.lock Sync.lock
  rw [h]
  exact ⟨_, rfl⟩

theorem CxSemaphore.relock_free (h : s.sync.owner () = none)
    (hawake : t ∉ s.sync.asleep ()) : ∃ s', s.relock t = some s' := by
  unfold CxSemaphore.relock Sync.relock Sync.lock
  rw [if_neg hawake, h]
  exact ⟨_, rfl⟩

theorem CxSemaphore.signal_some (s : CxSemaphore θ) (t : θ) :
    ∃ chosen s', s.signal chosen = some s' := by
  unfold CxSemaphore.signal Sync.signal
  cases hasleep : s.sync.asleep () with
  | nil => exact ⟨t, _, rfl⟩
  | cons chosen rest =>
      refine ⟨chosen, s.wake chosen, ?_⟩
      rw [if_neg (List.cons_ne_nil _ _), if_pos List.mem_cons_self]
      rfl

/-- A thread in a call goes on by itself, unless it has to wait for the
mutex or sleeps. -/
theorem semaphoreStep_goes (hp : p ≠ .idle)
    (hfree : p.held = none → s.sync.owner () = none)
    (hawake : p = .blocked → t ∉ s.sync.asleep ()) :
    ∃ x, semaphoreFuel x = 0 ∧ (semaphoreStep t x s p).isSome := by
  cases p with
  | idle => exact absurd rfl hp
  | waitLock =>
      obtain ⟨s₁, hlock⟩ := CxSemaphore.lock_free (hfree rfl) t
      exact ⟨.go, rfl, by simp [semaphoreStep, hlock]⟩
  | postLock =>
      obtain ⟨s₁, hlock⟩ := CxSemaphore.lock_free (hfree rfl) t
      exact ⟨.go, rfl, by simp [semaphoreStep, hlock]⟩
  | blocked =>
      obtain ⟨s₁, hrelock⟩ := CxSemaphore.relock_free (hfree rfl) (hawake rfl)
      exact ⟨.go, rfl, by simp [semaphoreStep, hrelock]⟩
  | postSignal =>
      obtain ⟨chosen, s₁, hsignal⟩ := s.signal_some t
      exact ⟨.wake chosen, rfl, by simp [semaphoreStep, hsignal]⟩
  | waitTest woken =>
      refine ⟨.go, rfl, ?_⟩
      simp only [semaphoreStep]
      split <;> rfl
  | _ => exact ⟨.go, rfl, rfl⟩

/-- A semaphore at rest: nobody has its mutex, and some calls may be left. -/
structure SemaphoreRest (initial : Nat) (cfg : SemaphoreConfig θ) : Prop where
  free : cfg.shared.sync.owner () = none
  /-- those are waits that sleep -/
  asleep : ∀ t, cfg.pc t = .idle
    ∨ cfg.pc t = .blocked ∧ t ∈ cfg.shared.sync.asleep ()
  /-- as many calls returned as were counted -/
  returned : cfg.shared.count + cfg.shared.book.waited
    + 2 ^ 64 * cfg.shared.book.wraps = initial + cfg.shared.book.posted
  /-- a wait sleeps only where there is nothing to take -/
  empty : (∃ t, cfg.pc t ≠ .idle) → cfg.shared.count = 0

theorem semaphoreRun_ends (h : SemaphoreRun initial cfg)
    (hset : (semaphoreProgram θ).Settled semaphoreFuel cfg) :
    SemaphoreRest initial cfg := by
  obtain ⟨hs, hk⟩ := SemaphoreRun.counted h
  have hstuck : ∀ u, ¬ ∃ x, semaphoreFuel x = 0
      ∧ (semaphoreStep u x cfg.shared (cfg.pc u)).isSome := by
    intro u hr
    obtain ⟨x, hx, hsome⟩ := hr
    obtain ⟨r, hr⟩ := Option.isSome_iff_exists.mp hsome
    have hstep : (semaphoreProgram θ).step u x cfg = some _ :=
      Option.map_eq_some_iff.mpr ⟨r, hr, rfl⟩
    rw [hset u x hx] at hstep
    cases hstep
  have hfree : cfg.shared.sync.owner () = none := by
    cases howner : cfg.shared.sync.owner () with
    | none => rfl
    | some u =>
        -- whoever has the mutex goes on
        have hu : (cfg.pc u).held = some () := ((hk u).holds ()).mp howner
        refine absurd (semaphoreStep_goes ?_ ?_ ?_) (hstuck u)
        · intro hidle
          rw [hidle] at hu
          cases hu
        · intro hnone
          cases hu.symm.trans hnone
        · intro hblocked
          rw [hblocked] at hu
          cases hu
  have hasleep : ∀ t, cfg.pc t = .idle
      ∨ cfg.pc t = .blocked ∧ t ∈ cfg.shared.sync.asleep () := by
    intro t
    by_cases hidle : cfg.pc t = .idle
    · exact Or.inl hidle
    · refine Or.inr ?_
      by_contra hsleep
      refine absurd (semaphoreStep_goes hidle (fun _ => hfree) ?_) (hstuck t)
      exact fun hblocked ha => hsleep ⟨hblocked, ha⟩
  refine ⟨hfree, hasleep, ?_, ?_⟩
  · obtain ⟨hposts, hwaits⟩ := hs.returned hfree
    have hcount := hs.count
    omega
  · intro hx
    obtain ⟨t, ht⟩ := hx
    have hin := ((hasleep t).resolve_left ht).2
    have hcovered := hs.covered hfree (List.ne_nil_of_mem hin)
    -- nobody that was woken is left
    have hnone : cfg.shared.book.woken = [] := by
      refine List.eq_nil_iff_forall_not_mem.mpr fun v hv => ?_
      rcases (hk v).woken.mp hv with ⟨hp, hawake⟩ | hp
      · have hsleeps := (hasleep v).resolve_left (by rw [hp]; exact nofun)
        exact hawake hsleeps.2
      · rcases hasleep v with hidle | ⟨hblocked, -⟩
        · rw [hidle] at hp
          cases hp
        · rw [hblocked] at hp
          cases hp
    rw [hnone] at hcovered
    exact Nat.le_zero.mp hcovered

-- ==================================================================== runs

/-- What is promised of a schedule and of where it ends. -/
structure SemaphoreSettles (initial : Nat)
    (turns : List (θ × SemaphoreChoice θ)) (cfg : SemaphoreConfig θ) :
    Prop where
  /-- each wait and each wake-up for no reason pays for 5 steps, each post
  for 9 -/
  bounded : turns.length ≤ paid semaphoreFuel turns
  ends : (semaphoreProgram θ).Settled semaphoreFuel cfg →
    SemaphoreRest initial cfg
  /-- left to themselves the threads get there -/
  completes : ∃ rest cfg', (semaphoreProgram θ).follow rest cfg = some cfg'
    ∧ paid semaphoreFuel rest = 0 ∧ SemaphoreRest initial cfg'

/-- Every schedule settles. -/
theorem cxSemaphore_settles (turns : List (θ × SemaphoreChoice θ))
    (hinitial : initial < 2 ^ 64)
    (hrun : (semaphoreProgram θ).follow turns (semaphoreStart initial)
      = some cfg) : SemaphoreSettles initial turns cfg := by
  have hreach : SemaphoreRun initial cfg :=
    Interleaved.follow (.start ⟨hinitial, rfl⟩) (fun _ _ _ _ => trivial) hrun
  refine ⟨?_, semaphoreRun_ends hreach, ?_⟩
  · have hwork := Program.follow_work semaphoreFuel
      (semaphoreWork (threadsOf turns)) (fun _ => True)
      (fun _ _ _ _ ht _ hstep => ⟨trivial, semaphoreWork_step ht hstep⟩)
      mem_threadsOf trivial hrun
    have hnone : semaphoreWork (threadsOf turns) (semaphoreStart initial)
        = 0 := by
      unfold semaphoreWork total
      exact Finset.sum_eq_zero fun _ _ => rfl
    omega
  · have houtside : ∀ t ∉ threadsOf turns, cfg.pc t = .idle :=
      fun t ht => Program.follow_outside hrun mem_threadsOf ht
    obtain ⟨rest, cfg', hrest, hreach', hpaid, hset⟩ :=
      (semaphoreProgram θ).settles semaphoreFuel (semaphoreWork (threadsOf turns))
        (SemaphoreRun initial) (fun _ p => p = .idle) (threadsOf turns)
        (fun _ _ _ _ => semaphoreStep_idle) (by
        intro c c' t x ht hx hc hstep
        have hwork := semaphoreWork_step ht hstep
        rw [hx] at hwork
        exact ⟨hc.step trivial hstep, hwork⟩) houtside hreach
    exact ⟨rest, cfg', hrest, hpaid, semaphoreRun_ends hreach' hset⟩

/-- Threads 0 and 1 sleep, and a post of thread 2 is under way for one of
them. -/
theorem cxSemaphore_settles_posting : ∃ turns, ∃ cfg : SemaphoreConfig Nat,
    SemaphoreSettles 0 turns cfg ∧ cfg.shared.sync.asleep () = [1, 0]
      ∧ cfg.pc 2 = .postSignal := by
  have h : ((semaphoreProgram Nat).follow
      [(0, .wait), (0, .go), (0, .go), (0, .go), (1, .wait), (1, .go), (1, .go),
        (1, .go), (2, .post), (2, .go), (2, .go)] (semaphoreStart 0)).any
      (fun cfg => decide (cfg.shared.sync.asleep () = [1, 0]
        ∧ cfg.pc 2 = .postSignal)) = true := by decide +kernel
  obtain ⟨cfg, hrun, htest⟩ := (Option.any_eq_true _ _).mp h
  exact ⟨_, cfg, cxSemaphore_settles _ (by decide) hrun,
    of_decide_eq_true htest⟩

end Cextras.Concurrency
