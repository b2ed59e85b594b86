/-
A future settles. A wait that sleeps takes no step until it is woken, a
woken one takes four, and only a resolve wakes, so a schedule is no longer
than its calls and its wake-ups for no reason pay for. Where no thread can
go on by itself the mutex is free and all calls have returned but for
waits that sleep because there is no value (`cxFuture_settles`). Null
arguments are not excluded: a resolve with null wakes everybody and leaves
the future as it was.
-/
import Cextras.Concurrency.Proofs.FutureOnce
import Cextras.Lib.Settle

namespace Cextras.Concurrency

open Lib

variable {θ : Type} [DecidableEq θ] {s s' : CxFuture θ} {t u : θ}
  {p p' q : FuturePc} {x : FutureChoice} {n : Nat} {cfg cfg' : FutureConfig θ}

-- ================================================================ the work

/-- The steps thread `t` is from the end of its call, or from its sleep. A
resolve has `n` threads to wake, and four steps to pay for each. -/
def futureRank (n : Nat) (t : θ) (p : FuturePc) (s : CxFuture θ) : Nat :=
  match p with
  | .idle => 0
  | .waitLock => 4
  | .waitTest => 3
  | .waitSleep => 1
  | .blocked => if t ∈ s.sync.asleep () then 0 else 4
  | .waitRead => 2
  | .waitUnlock _ => 1
  | .resolveLock _ => 5 + n * 4
  | .resolveTest _ => 4 + n * 4
  | .resolveStore _ => 3 + n * 4
  | .resolveBroadcast _ => 2 + n * 4
  | .resolveUnlock _ _ => 1

/-- What a call brings in, and a wake-up for no reason. -/
def futureFuel (n : Nat) : FutureChoice → Nat
  | .go => 0
  | .spurious => 5
  | .wait => 5
  | .resolve _ => 6 + n * 4

def FuturePc.broadcasts : FuturePc → Bool
  | .resolveBroadcast _ => true
  | _ => false

/-- A thread that goes on sleeping has nothing more to do. -/
theorem futureRank_le
    (h : u ∈ s.sync.asleep () → u ∈ s'.sync.asleep ()) :
    futureRank n u q s' ≤ futureRank n u q s := by
  cases q with
  | blocked =>
      simp only [futureRank]
      split
      · exact Nat.zero_le _
      · next hawake => rw [if_neg fun ha => hawake (h ha)]
  | _ => exact Nat.le_refl _

/-- At worst it was woken. -/
theorem futureRank_woken (n : Nat) (u : θ) (q : FuturePc)
    (s s' : CxFuture θ) : futureRank n u q s' ≤ futureRank n u q s + 4 := by
  cases q with
  | blocked =>
      simp only [futureRank]
      split
      · exact Nat.zero_le _
      · exact Nat.le_add_left _ _
  | _ => exact Nat.le_add_right _ _

/-- Only a broadcast wakes another thread. -/
theorem FutureRule.keeps_asleep (hr : FutureRule t s p p' s')
    (hp : p.broadcasts = false) (hu : u ≠ t)
    (ha : u ∈ s.sync.asleep ()) : u ∈ s'.sync.asleep () := by
  cases hr with
  | waitLock hlock =>
      obtain ⟨y, hy, rfl⟩ := CxFuture.lock_cases hlock
      obtain ⟨-, rfl⟩ := Sync.lock_cases hy
      exact ha
  | relock hlock =>
      obtain ⟨y, hy, rfl⟩ := CxFuture.lock_cases hlock
      obtain ⟨-, rfl⟩ := Sync.lock_cases hy
      exact ha
  | resolveLock hlock =>
      obtain ⟨y, hy, rfl⟩ := CxFuture.lock_cases hlock
      obtain ⟨-, rfl⟩ := Sync.lock_cases hy
      exact ha
  | waitSleep => exact (Sync.mem_sleep_of_ne hu () ()).mpr ha
  | spurious => exact (Sync.mem_wake_of_ne hu ()).mpr ha
  | resolveBroadcast => cases hp
  | _ => exact ha

/-- What the thread that moves has less to do. A broadcast has paid for
those it wakes. -/
theorem futureStep_rank (h : futureStep t x s p = some (p', s')) :
    futureRank n t p' s' + (if p.broadcasts = true then n * 4 else 0) + 1
      ≤ futureRank n t p s + futureFuel n x := by
  cases p with
  | idle =>
      cases x with
      | wait =>
          cases h
          exact Nat.le_refl _
      | resolve value =>
          cases h
          show 5 + n * 4 + 0 + 1 ≤ 0 + (6 + n * 4)
          omega
      | _ => cases h
  | waitLock =>
      obtain ⟨s₁, -, hs⟩ := Option.bind_eq_some_iff.mp h
      cases hs
      exact Nat.le_add_right _ _
  | waitTest =>
      simp only [futureStep] at h
      split at h
      · cases h
        show 1 + 0 + 1 ≤ 3 + _
        omega
      · cases h
        exact Nat.le_add_right _ _
  | waitSleep =>
      cases h
      have hin : t ∈ (s.sleep t).sync.asleep () := by
        show t ∈ (s.sync.sleep () () t).asleep ()
        rw [Sync.sleep_self]
        exact List.mem_cons_self
      simp only [futureRank, if_pos hin]
      exact Nat.le_add_right _ _
  | blocked =>
      cases x with
      | spurious =>
          cases h
          have hwoken : futureRank n t .blocked (s.wake t) ≤ 4 := by
            simp only [futureRank]
            split <;> omega
          show _ + 0 + 1 ≤ _ + 5
          omega
      | _ =>
          obtain ⟨s₁, hrelock, hs⟩ := Option.bind_eq_some_iff.mp h
          obtain ⟨y, hy, -⟩ := Option.map_eq_some_iff.mp hrelock
          cases hs
          simp only [futureRank, if_neg (Sync.relock_cases hy).1]
          exact Nat.le_add_right _ _
  | waitRead =>
      cases h
      exact Nat.le_add_right _ _
  | waitUnlock v =>
      cases h
      exact Nat.le_add_right _ _
  | resolveLock value =>
      obtain ⟨s₁, -, hs⟩ := Option.bind_eq_some_iff.mp h
      cases hs
      show 4 + n * 4 + 0 + 1 ≤ 5 + n * 4 + _
      omega
  | resolveTest value =>
      simp only [futureStep] at h
      split at h
      · cases h
        show 1 + 0 + 1 ≤ 4 + n * 4 + _
        omega
      · cases h
        show 3 + n * 4 + 0 + 1 ≤ 4 + n * 4 + _
        omega
  | resolveStore value =>
      cases h
      show 2 + n * 4 + 0 + 1 ≤ 3 + n * 4 + _
      omega
  | resolveBroadcast value =>
      cases h
      show 1 + n * 4 + 1 ≤ 2 + n * 4 + _
      omega
  | resolveUnlock value rv =>
      cases h
      exact Nat.le_add_right _ _

theorem futureFuel_eq_zero (hx : futureFuel n x = 0) : x = .go := by
  cases x with
  | go => rfl
  | resolve value => exact absurd hx (by simp [futureFuel])
  | _ => cases hx

/-- An idle thread makes a call, or does nothing. -/
theorem futureStep_idle (hp : p = .idle) (hx : futureFuel n x = 0) :
    futureStep t x s p = none := by
  subst hp
  rw [futureFuel_eq_zero hx]
  rfl

/-- The work of the threads of `T`. -/
def futureWork (T : Finset θ) (cfg : FutureConfig θ) : Nat :=
  total (futureRank T.card) T cfg.pc cfg.shared

theorem futureWork_step {T : Finset θ} (ht : t ∈ T)
    (hrun : (futureProgram θ).step t x cfg = some cfg') :
    futureWork T cfg' + 1 ≤ futureWork T cfg + futureFuel T.card x := by
  obtain ⟨p', s', hstep, hs', hp', hother⟩ := Program.step_cases hrun
  have hr : FutureRule t cfg.shared (cfg.pc t) p' s' := futureStep_rule hstep
  have hrank := futureStep_rank (n := T.card) hstep
  unfold futureWork
  rw [hs']
  subst hp'
  cases hb : (cfg.pc t).broadcasts with
  | false =>
      have hsum := total_quiet (futureRank T.card) cfg.shared s' ht
        hother
        fun u hu => futureRank_le (hr.keeps_asleep hb hu)
      rw [hb, if_neg Bool.false_ne_true] at hrank
      omega
  | true =>
      have hsum := total_wakeAll (futureRank T.card) cfg.shared s' 4 ht
        hother
        fun u _ => futureRank_woken T.card u (cfg.pc u) cfg.shared s'
      rw [hb, if_pos rfl] at hrank
      omega

-- ============================================================= invariants

/-- A future that has a value has no sleepers, unless a thread has the
mutex. -/
def Unslept (s : CxFuture θ) : Prop :=
  s.sync.owner () = none → s.outValue ≠ 0 → s.sync.asleep () = []

def FuturePc.findsNull : FuturePc → Bool
  | .waitSleep => true
  | .resolveStore _ => true
  | _ => false

/-- What thread `t` knows, whatever is stored. -/
structure FutureSleeps (t : θ) (p : FuturePc) (s : CxFuture θ) : Prop where
  holds : s.sync.Holds t p.held
  asleep : t ∈ s.sync.asleep () → p = .blocked
  null : p.findsNull = true → s.outValue = 0
  unslept : p.held = some () → p.broadcasts = false → s.outValue ≠ 0 →
    s.sync.asleep () = []

/-- What a thread relies on when others move. -/
structure FutureSleepRely (u : θ) (s s' : CxFuture θ) : Prop where
  rely : FutureRely u s s'
  asleep : u ∈ s'.sync.asleep () → u ∈ s.sync.asleep ()

omit [DecidableEq θ] in
theorem FutureSleeps.stable (hk : FutureSleeps t p s)
    (hr : FutureSleepRely t s s') : FutureSleeps t p s' := by
  have howned : p.held = some () → _ :=
    fun hp => hr.rely.owned ((hk.holds ()).mpr hp)
  refine ⟨hk.holds.congr hr.rely.same, fun ha => hk.asleep (hr.asleep ha), ?_, ?_⟩
  · intro hp
    have hheld : p.held = some () := by
      cases p with
      | waitSleep => rfl
      | resolveStore _ => rfl
      | _ => cases hp
    rw [(howned hheld).1]
    exact hk.null hp
  · intro hp hb
    obtain ⟨hvalue, -, hasleep⟩ := howned hp
    rw [hvalue]
    exact fun hne => hasleep (hk.unslept hp hb hne)

/-- A step puts no other thread to sleep. -/
theorem FutureRule.asleep (hr : FutureRule t s p p' s') (hu : u ≠ t)
    (ha : u ∈ s'.sync.asleep ()) : u ∈ s.sync.asleep () := by
  cases hr with
  | waitLock hlock =>
      obtain ⟨y, hy, rfl⟩ := CxFuture.lock_cases hlock
      obtain ⟨-, rfl⟩ := Sync.lock_cases hy
      exact ha
  | relock hlock =>
      obtain ⟨y, hy, rfl⟩ := CxFuture.lock_cases hlock
      obtain ⟨-, rfl⟩ := Sync.lock_cases hy
      exact ha
  | resolveLock hlock =>
      obtain ⟨y, hy, rfl⟩ := CxFuture.lock_cases hlock
      obtain ⟨-, rfl⟩ := Sync.lock_cases hy
      exact ha
  | waitSleep => exact (Sync.mem_sleep_of_ne hu () ()).mp ha
  | spurious => exact (Sync.mem_wake_of_ne hu ()).mp ha
  | resolveBroadcast =>
      have hnil : (s.broadcast).sync.asleep () = [] := s.sync.broadcast_self ()
      rw [hnil] at ha
      cases ha
  | _ => exact ha

/-- A thread leaves its wait only when it is awake. -/
theorem futureStep_awake (h : futureStep t x s .blocked = some (p', s'))
    (hp : p' ≠ .blocked) : t ∉ s.sync.asleep () := by
  cases x with
  | spurious =>
      cases h
      exact absurd rfl hp
  | _ =>
      obtain ⟨s₁, hrelock, -⟩ := Option.bind_eq_some_iff.mp h
      obtain ⟨y, hy, -⟩ := Option.map_eq_some_iff.mp hrelock
      exact (Sync.relock_cases hy).1

/-- What a step of `t` gives. -/
structure FutureSleepStep (t : θ) (p' : FuturePc) (s s' : CxFuture θ) :
    Prop where
  unslept : Unslept s'
  knows : FutureSleeps t p' s'
  rely : ∀ u, u ≠ t → FutureSleepRely u s s'

/-- The thread takes the mutex. -/
theorem FutureSleepStep.lock (hr : FutureRule t s p p' s') (hs : Unslept s)
    (hk : FutureSleeps t p s) (hlock : s.lock t = some s')
    (hawake : t ∉ s.sync.asleep ()) (hp' : p'.held = some ())
    (hnull : p'.findsNull = false) : FutureSleepStep t p' s s' := by
  have hframe := hr.frame hk.holds
  refine ⟨?_, ⟨hframe.holds, ?_, ?_, ?_⟩,
    fun u hu => ⟨hframe.rely u hu, hr.asleep hu⟩⟩
  · intro hfree
    cases ((hframe.holds ()).mpr hp').symm.trans hfree
  · obtain ⟨y, hy, rfl⟩ := CxFuture.lock_cases hlock
    obtain ⟨-, rfl⟩ := Sync.lock_cases hy
    exact fun ha => absurd ha hawake
  · rw [hnull]
    exact nofun
  · obtain ⟨y, hy, rfl⟩ := CxFuture.lock_cases hlock
    obtain ⟨hfree, rfl⟩ := Sync.lock_cases hy
    exact fun _ _ => hs hfree

/-- The thread goes on with the mutex. -/
theorem FutureSleepStep.inside (hr : FutureRule t s p p' s')
    (hk : FutureSleeps t p s) (hp' : p'.held = some ())
    (hblocked : p ≠ .blocked) (hasleep : s'.sync.asleep () ⊆ s.sync.asleep ())
    (hnull : p'.findsNull = true → s'.outValue = 0)
    (hunslept : p'.broadcasts = false → s'.outValue ≠ 0 →
      s'.sync.asleep () = []) : FutureSleepStep t p' s s' := by
  have hframe := hr.frame hk.holds
  refine ⟨?_, ⟨hframe.holds, ?_, hnull, fun _ => hunslept⟩,
    fun u hu => ⟨hframe.rely u hu, hr.asleep hu⟩⟩
  · intro hfree
    cases ((hframe.holds ()).mpr hp').symm.trans hfree
  · exact fun ha => absurd (hk.asleep (hasleep ha)) hblocked

/-- The thread lets go of the mutex. -/
theorem FutureSleepStep.unlock (hr : FutureRule t s p p' s')
    (hk : FutureSleeps t p s) (hp' : p'.held = none)
    (hnull : p'.findsNull = false)
    (hblocked : t ∈ s'.sync.asleep () → p' = .blocked)
    (hunslept : s'.outValue ≠ 0 → s'.sync.asleep () = []) :
    FutureSleepStep t p' s s' := by
  have hframe := hr.frame hk.holds
  refine ⟨fun _ => hunslept, ⟨hframe.holds, hblocked, ?_, ?_⟩,
    fun u hu => ⟨hframe.rely u hu, hr.asleep hu⟩⟩
  · rw [hnull]
    exact nofun
  · rw [hp']
    exact nofun

theorem futureStep_sleeps (h : futureStep t x s p = some (p', s'))
    (hs : Unslept s) (hk : FutureSleeps t p s) :
    FutureSleepStep t p' s s' := by
  have hr : FutureRule t s p p' s' := futureStep_rule h
  have hframe := hr.frame hk.holds
  have hstays : ∀ {q : FuturePc}, p = q → q ≠ .blocked →
      t ∉ s.sync.asleep () :=
    fun hq hne ha => hne (hq ▸ hk.asleep ha)
  cases hr with
  | wait =>
      exact ⟨hs, ⟨hframe.holds, fun ha => absurd ha (hstays rfl nofun), nofun,
        nofun⟩, fun u hu => ⟨hframe.rely u hu, id⟩⟩
  | resolve =>
      exact ⟨hs, ⟨hframe.holds, fun ha => absurd ha (hstays rfl nofun), nofun,
        nofun⟩, fun u hu => ⟨hframe.rely u hu, id⟩⟩
  | waitLock hlock =>
      exact .lock (.waitLock hlock) hs hk hlock (hstays rfl nofun) rfl rfl
  | relock hlock =>
      exact .lock (.relock hlock) hs hk hlock (futureStep_awake h nofun) rfl rfl
  | resolveLock hlock =>
      exact .lock (.resolveLock hlock) hs hk hlock (hstays rfl nofun) rfl rfl
  | waitNull hnull =>
      exact .inside (.waitNull hnull) hk rfl nofun (List.Subset.refl _)
        (fun _ => hnull) fun _ hne => absurd hnull hne
  | waitFound hfound =>
      exact .inside (.waitFound hfound) hk rfl nofun (List.Subset.refl _)
        nofun fun _ => hk.unslept rfl rfl
  | waitRead =>
      exact .inside .waitRead hk rfl nofun (List.Subset.refl _) nofun
        fun _ => hk.unslept rfl rfl
  | resolveLate hlate =>
      exact .inside (.resolveLate hlate) hk rfl nofun (List.Subset.refl _)
        nofun fun _ => hk.unslept rfl rfl
  | resolveFirst hfirst =>
      exact .inside (.resolveFirst hfirst) hk rfl nofun (List.Subset.refl _)
        (fun _ => hfirst) fun _ hne => absurd hfirst hne
  | resolveStore =>
      exact .inside .resolveStore hk rfl nofun (List.Subset.refl _) nofun
        nofun
  | resolveBroadcast =>
      have hnil : (s.broadcast).sync.asleep () = [] := s.sync.broadcast_self ()
      refine .inside .resolveBroadcast hk rfl nofun ?_ nofun
        fun _ _ => hnil
      rw [hnil]
      exact List.nil_subset _
  | waitSleep =>
      refine .unlock .waitSleep hk rfl rfl (fun _ => rfl) ?_
      exact fun hne => absurd (hk.null rfl) hne
  | waitUnlock =>
      exact .unlock .waitUnlock hk rfl rfl
        (fun ha => absurd ha (hstays rfl nofun)) (hk.unslept rfl rfl)
  | resolveUnlock =>
      exact .unlock .resolveUnlock hk rfl rfl
        (fun ha => absurd ha (hstays rfl nofun)) (hk.unslept rfl rfl)
  | spurious =>
      refine ⟨?_, ⟨hframe.holds, fun _ => rfl, nofun, nofun⟩,
        fun u hu => ⟨hframe.rely u hu, FutureRule.asleep .spurious hu⟩⟩
      exact fun hfree hne => CxFuture.wake_nil (hs hfree hne) t

-- ==================================================================== runs

theorem FutureRun.unslept {allowed : θ → FuturePc → CxFuture θ → Prop}
    (h : FutureRun allowed cfg) :
    Unslept cfg.shared ∧ ∀ t, FutureSleeps t (cfg.pc t) cfg.shared := by
  refine h.rely (fun _ => True) Unslept FutureSleeps FutureSleepRely
    (fun _ _ _ _ _ _ _ _ => trivial) ?_ ?_
    (fun _ _ _ _ hr hk => hk.stable hr) trivial
  · intro c hc
    subst hc
    exact ⟨fun _ _ => rfl, fun t => ⟨fun _ => ⟨nofun, nofun⟩, nofun, nofun, nofun⟩⟩
  · intro t x p s p' s' hrun _ _ hs hk
    have hstep := futureStep_sleeps hrun hs hk
    exact ⟨hstep.unslept, hstep.knows, hstep.rely⟩

theorem CxFuture.relock_awake (h : s.sync.owner () = none)
    (hawake : t ∉ s.sync.asleep ()) : (s.relock t).isSome := by
  unfold CxFuture.relock Sync.relock Sync.lock
  rw [if_neg hawake, h]
  rfl

/-- A thread in a call goes on by itself, unless it has to wait for the
mutex or sleeps. -/
theorem futureStep_goes (hp : p ≠ .idle)
    (hfree : p.held = none → s.sync.owner () = none)
    (hawake : p = .blocked → t ∉ s.sync.asleep ()) :
    (futureStep t .go s p).isSome := by
  cases p with
  | idle => exact absurd rfl hp
  | waitLock =>
      obtain ⟨s₁, hlock⟩ := Option.isSome_iff_exists.mp
        (CxFuture.lock_free (hfree rfl) t)
      simp [futureStep, hlock]
  | blocked =>
      obtain ⟨s₁, hrelock⟩ := Option.isSome_iff_exists.mp
        (CxFuture.relock_awake (hfree rfl) (hawake rfl))
      simp [futureStep, hrelock]
  | resolveLock value =>
      obtain ⟨s₁, hlock⟩ := Option.isSome_iff_exists.mp
        (CxFuture.lock_free (hfree rfl) t)
      simp [futureStep, hlock]
  | waitTest =>
      simp only [futureStep]
      split <;> rfl
  | resolveTest value =>
      simp only [futureStep]
      split <;> rfl
  | _ => rfl

/-- The thread sleeps in a wait, and there is no value to wake it for. -/
def SleepsUnresolved (cfg : FutureConfig θ) (t : θ) : Prop :=
  cfg.pc t = .blocked ∧ t ∈ cfg.shared.sync.asleep ()
    ∧ cfg.shared.outValue = 0

/-- A future at rest: nobody has its mutex, and calls have returned or sleep
for a reason. -/
structure FutureRest (cfg : FutureConfig θ) : Prop where
  free : cfg.shared.sync.owner () = none
  asleep : ∀ t, cfg.pc t = .idle ∨ SleepsUnresolved cfg t

/-- Where nobody can go on, the future is at rest. -/
theorem futureRun_ends {allowed : θ → FuturePc → CxFuture θ → Prop}
    (h : FutureRun allowed cfg)
    (hset : ∀ t, (futureProgram θ).step t .go cfg = none) :
    FutureRest cfg := by
  obtain ⟨hs, hk⟩ := h.unslept
  have hstuck : ∀ u, ¬ (futureStep u .go cfg.shared (cfg.pc u)).isSome := by
    intro u hsome
    obtain ⟨c, hc⟩ := step_of_isSome hsome
    rw [hset u] at hc
    cases hc
  have hfree : cfg.shared.sync.owner () = none := by
    cases howner : cfg.shared.sync.owner () with
    | none => rfl
    | some u =>
        -- whoever has the mutex goes on
        have hu : (cfg.pc u).held = some () := ((hk u).holds ()).mp howner
        refine absurd (futureStep_goes ?_ ?_ ?_) (hstuck u)
        · intro hidle
          rw [hidle] at hu
          cases hu
        · intro hnone
          cases hu.symm.trans hnone
        · intro hblocked
          rw [hblocked] at hu
          cases hu
  refine ⟨hfree, fun t => ?_⟩
  by_cases hidle : cfg.pc t = .idle
  · exact Or.inl hidle
  · by_cases hsleep : cfg.pc t = .blocked ∧ t ∈ cfg.shared.sync.asleep ()
    · refine Or.inr ⟨hsleep.1, hsleep.2, ?_⟩
      by_contra hvalue
      have hin := hsleep.2
      rw [hs hfree hvalue] at hin
      cases hin
    · refine absurd (futureStep_goes hidle (fun _ => hfree) ?_) (hstuck t)
      exact fun hblocked ha => hsleep ⟨hblocked, ha⟩

/-- A value that was stored is not taken away. -/
theorem FutureRule.keeps_value (hr : FutureRule t s p p' s')
    (hk : FutureSleeps t p s) (hvalue : s.outValue ≠ 0) : s'.outValue ≠ 0 := by
  cases hr with
  | waitLock hlock =>
      obtain ⟨y, -, rfl⟩ := CxFuture.lock_cases hlock
      exact hvalue
  | relock hlock =>
      obtain ⟨y, -, rfl⟩ := CxFuture.lock_cases hlock
      exact hvalue
  | resolveLock hlock =>
      obtain ⟨y, -, rfl⟩ := CxFuture.lock_cases hlock
      exact hvalue
  | resolveStore => exact absurd (hk.null rfl) hvalue
  | _ => exact hvalue

/-- What is promised of a schedule and of where it ends. -/
structure FutureSettles (turns : List (θ × FutureChoice))
    (cfg : FutureConfig θ) : Prop where
  /-- each wait and each wake-up for no reason pays for 5 steps, each resolve
  for 6 and for 4 more for every thread there is -/
  bounded : turns.length
    ≤ paid (futureFuel (threadsOf turns).card) turns
  /-- a thread in a call that cannot go on, when none can, sleeps because
  there is no value -/
  ends : (∀ t, (futureProgram θ).step t .go cfg = none) → FutureRest cfg
  /-- left to themselves the threads get there, and have all returned if
  there was a value -/
  completes : ∃ rest cfg', (futureProgram θ).follow rest cfg = some cfg'
    ∧ (∀ turn ∈ rest, turn.2 = .go)
    ∧ FutureRest cfg'
    ∧ (cfg.shared.outValue ≠ 0 → ∀ t, cfg'.pc t = .idle)

omit [DecidableEq θ] in
theorem paid_eq_zero {turns : List (θ × FutureChoice)}
    (h : paid (futureFuel n) turns = 0) : ∀ turn ∈ turns, turn.2 = .go :=
  fun turn hturn => futureFuel_eq_zero (fuel_eq_zero h turn hturn)

/-- Every schedule settles. -/
theorem cxFuture_settles (turns : List (θ × FutureChoice))
    (hrun : (futureProgram θ).follow turns futureStart = some cfg) :
    FutureSettles turns cfg := by
  have hreach : FutureRun (fun _ _ _ => True) cfg :=
    Interleaved.follow (.start rfl) (fun _ _ _ _ => trivial) hrun
  refine ⟨?_, futureRun_ends hreach, ?_⟩
  · have hwork := Program.follow_work
      (futureFuel (threadsOf turns).card) (futureWork (threadsOf turns))
      (fun _ => True)
      (fun _ _ _ _ ht _ hstep => ⟨trivial, futureWork_step ht hstep⟩)
      mem_threadsOf trivial hrun
    have hnone : futureWork (threadsOf turns) (futureStart (θ := θ)) = 0 := by
      unfold futureWork total
      exact Finset.sum_eq_zero fun _ _ => rfl
    omega
  · have houtside : ∀ t ∉ threadsOf turns, cfg.pc t = .idle :=
      fun t ht => Program.follow_outside hrun mem_threadsOf ht
    obtain ⟨rest, cfg', hrest, ⟨hreach', hkept⟩, hpaid, hset⟩ :=
      (futureProgram θ).settles (futureFuel (threadsOf turns).card)
        (futureWork (threadsOf turns))
        (fun c => FutureRun (fun _ _ _ => True) c
          ∧ (cfg.shared.outValue ≠ 0 → c.shared.outValue ≠ 0))
        (fun _ p => p = .idle) (threadsOf turns)
        (fun _ _ _ _ => futureStep_idle) (by
        intro c c' t x ht hx hr hstep
        obtain ⟨hc, hvalue⟩ := hr
        obtain ⟨p', s', hone, hs', -, -⟩ := Program.step_cases hstep
        have hwork := futureWork_step ht hstep
        rw [hx] at hwork
        refine ⟨⟨hc.step trivial hstep, fun hne => ?_⟩, hwork⟩
        rw [hs']
        exact (futureStep_rule hone).keeps_value (hc.unslept.2 t) (hvalue hne))
        houtside ⟨hreach, id⟩
    have hends := futureRun_ends hreach' fun t => hset t .go rfl
    refine ⟨rest, cfg', hrest, paid_eq_zero hpaid, hends, ?_⟩
    intro hvalue t
    rcases hends.asleep t with hidle | hsleeps
    · exact hidle
    · exact absurd hsleeps.2.2 (hkept hvalue)

/-- Thread 0 is woken by a resolve with null, sleeps again, and is woken by
one with 7. -/
theorem cxFuture_settles_woken : ∃ turns, ∃ cfg : FutureConfig Nat,
    FutureSettles turns cfg ∧ cfg.pc 0 = .blocked
      ∧ cfg.shared.outValue = 7 ∧ turns.length = 19 := by
  have h : ((futureProgram Nat).follow
      [(0, .wait), (0, .go), (0, .go), (0, .go), (1, .resolve 0), (1, .go),
        (1, .go), (1, .go), (1, .go), (1, .go), (0, .go), (0, .go), (0, .go),
        (1, .resolve 7), (1, .go), (1, .go), (1, .go), (1, .go), (1, .go)]
      futureStart).any
      (fun cfg => decide (cfg.pc 0 = .blocked ∧ cfg.shared.outValue = 7))
      = true := by decide +kernel
  obtain ⟨cfg, hrun, htest⟩ := (Option.any_eq_true _ _).mp h
  obtain ⟨hpc, hvalue⟩ := of_decide_eq_true htest
  exact ⟨_, cfg, cxFuture_settles _ hrun, hpc, hvalue, rfl⟩

end Cextras.Concurrency
