/-
Clients that sleep in `cx_threadpool_wait`. The worker that counts the
last task out signals one of them, holding the mutex they all go to sleep
with. That is enough as long as there is only one (`OneSleeper`); with
two or more, all but one are forgotten.
-/
import Cextras.Concurrency.Proofs.WorkerSleep

namespace Cextras.Concurrency

open Lib Memory

variable {n w c : Nat} {s s' : Shared} {t u : Thread} {m : MutexId}
  {cfg cfg' : Config Pc Shared} {mem : Mem} {oracle : Nat → Nat} {x : Choice}

-- ============================================================== condition

/-- A worker signals the end of the last task while at most one client
sleeps, unless there is a new task by now. -/
def OneSleeper : (t : Thread) → Pc t → Shared → Prop
  | .worker _, p, s => p = WorkerPc.doneSignal → s.activeTasks = 0 →
      (s.sync.asleep .wait).length ≤ 1
  | .client _, _, _ => True

instance OneSleeper.decidable :
    (t : Thread) → (p : Pc t) → (s : Shared) → Decidable (OneSleeper t p s)
  | .worker _, p, _ =>
      inferInstanceAs (Decidable ((p : WorkerPc) = .doneSignal → _ = 0 → _ ≤ 1))
  | .client _, _, _ => inferInstanceAs (Decidable True)

/-- Nothing is left to do, nobody is about to say so, and a client still
sleeps. -/
structure Forgotten (n : Nat) (cfg : Config Pc Shared) : Prop where
  done : cfg.shared.activeTasks = 0
  unsignalled : ∀ w < n, cfg.pc (.worker w) ≠ WorkerPc.doneSignal
  asleep : ∃ t, t ∈ cfg.shared.sync.asleep .wait

-- ============================================================= invariants

/-- A client sleeps while nothing is left to do only if a worker has the
mutex. -/
structure Remembered (s : Shared) : Prop where
  owner : s.activeTasks = 0 → s.sync.asleep .wait ≠ [] →
    ∃ w, s.sync.owner .wait = some (.worker w)

/-- The worker has the mutex of the waiters and leaves nothing to signal. -/
def WorkerPc.settled : WorkerPc → Bool
  | .doneSub _ => true
  | .doneUnlock => true
  | _ => false

structure WorkerWaits (n w : Nat) (p : WorkerPc) (s : Shared) : Prop where
  holds : s.sync.Holds (.worker w) (p.held n w)
  settled : p.settled = true → s.activeTasks = 0 → s.sync.asleep .wait = []
  absent : n ≤ w → p = .exited

structure ClientWaits (c : Nat) (p : ClientPc) (s : Shared) : Prop where
  holds : s.sync.Holds (.client c) p.held
  active : p = .waitSleep → 0 < s.activeTasks

def Waits (n : Nat) : (t : Thread) → Pc t → Shared → Prop
  | .worker w, p, s => WorkerWaits n w p s
  | .client c, p, s => ClientWaits c p s

structure WaitRely (u : Thread) (s s' : Shared) : Prop where
  same : Sync.SameFor u s.sync s'.sync
  wait : s.sync.owner .wait = some u →
    (s'.sync.asleep .wait).Sublist (s.sync.asleep .wait)
      ∧ s.activeTasks ≤ s'.activeTasks

theorem WorkerWaits.stable {p : WorkerPc} (h : WorkerWaits n w p s)
    (hr : WaitRely (.worker w) s s') : WorkerWaits n w p s' := by
  refine ⟨h.holds.congr hr.same, ?_, h.absent⟩
  intro hp hzero
  have howner : s.sync.owner .wait = some (.worker w) := by
    rw [h.holds]
    cases p with
    | doneSub done => rfl
    | doneUnlock => rfl
    | _ => cases hp
  obtain ⟨hsub, hle⟩ := hr.wait howner
  rw [h.settled hp (by omega)] at hsub
  exact List.sublist_nil.mp hsub

theorem ClientWaits.stable {p : ClientPc} (h : ClientWaits c p s)
    (hr : WaitRely (.client c) s s') : ClientWaits c p s' := by
  refine ⟨h.holds.congr hr.same, ?_⟩
  intro hp
  subst hp
  have := (hr.wait h.holds.owner).2
  have := h.active rfl
  omega

theorem Waits.stable {p : Pc t} (hr : WaitRely t s s') (h : Waits n t p s) :
    Waits n t p s' := by
  cases t with
  | worker w => exact WorkerWaits.stable h hr
  | client c => exact ClientWaits.stable h hr

-- ========================================================== kinds of steps

structure WaitStep (t : Thread) (s s' : Shared) : Prop where
  remembered : Remembered s'
  rely : ∀ u, u ≠ t → WaitRely u s s'

/-- A step that puts no client to sleep and counts no task out. -/
theorem WaitStep.of_awake
    (hsame : ∀ u, u ≠ t → Sync.SameFor u s.sync s'.sync)
    (hsub : (s'.sync.asleep .wait).Sublist (s.sync.asleep .wait))
    (hactive : s.activeTasks ≤ s'.activeTasks)
    (howner : s.activeTasks = 0 → s.sync.asleep .wait ≠ [] →
      ∃ w, s'.sync.owner .wait = some (.worker w)) : WaitStep t s s' := by
  refine ⟨⟨?_⟩, fun u hu => ⟨hsame u hu, fun _ => ⟨hsub, hactive⟩⟩⟩
  intro hzero hsome
  refine howner (by omega) fun hnone => hsome ?_
  rw [hnone] at hsub
  exact List.sublist_nil.mp hsub

/-- A step that has nothing to do with the waiters. -/
theorem Remembered.quiet (h : Remembered s)
    (howner : s'.sync.owner = s.sync.owner)
    (hasleep : s'.sync.asleep .wait = s.sync.asleep .wait)
    (hactive : s.activeTasks ≤ s'.activeTasks) : WaitStep t s s' := by
  apply WaitStep.of_awake (fun u _ => .of_owner howner u)
  · rw [hasleep]
  · exact hactive
  · intro hzero hsome
    rw [howner]
    exact h.owner hzero hsome

theorem Remembered.woken (h : Remembered s) {y : Sync MutexId CondId Thread}
    (howner : y.owner = s.sync.owner)
    (hsub : (y.asleep .wait).Sublist (s.sync.asleep .wait)) {book : Book} :
    WaitStep t s { s with sync := y, book := book } := by
  have hsame : ∀ u, u ≠ t → Sync.SameFor u s.sync y :=
    fun u _ => .of_owner howner u
  apply WaitStep.of_awake hsame
  · exact hsub
  · exact Nat.le_refl _
  · intro hzero hsome
    obtain ⟨w, hw⟩ := h.owner hzero hsome
    exact ⟨w, (congrFun howner _).trans hw⟩

theorem Remembered.lock (h : Remembered s) (hlock : s.lock m t = some s') :
    WaitStep t s s' := by
  obtain ⟨-, y, hy, rfl⟩ := Shared.lock_cases hlock
  have hsame : ∀ u, u ≠ t → Sync.SameFor u s.sync y := fun _ hu => .lock hy hu
  obtain ⟨hfree, rfl⟩ := Sync.lock_cases hy
  apply WaitStep.of_awake hsame
  · exact List.Sublist.refl _
  · exact Nat.le_refl _
  · intro hzero hsome
    obtain ⟨w, hw⟩ := h.owner hzero hsome
    refine ⟨w, ?_⟩
    show Function.update s.sync.owner m (some t) .wait = _
    by_cases hm : MutexId.wait = m
    · rw [← hm, hw] at hfree
      cases hfree
    · rw [Function.update_of_ne hm, hw]

/-- Giving up a mutex, going to sleep on a queue or not. -/
theorem Remembered.release (h : Remembered s)
    (howner : s.sync.owner m = some t)
    (howner' : s'.sync.owner = Function.update s.sync.owner m none)
    (hasleep : s'.sync.asleep .wait = s.sync.asleep .wait)
    (hactive : s'.activeTasks = s.activeTasks)
    (hnone : ∀ w, m = .wait → t = .worker w → s.activeTasks = 0 →
      s.sync.asleep .wait = []) : WaitStep t s s' := by
  apply WaitStep.of_awake (fun _ hu => .release howner hu howner')
  · rw [hasleep]
  · rw [hactive]
  · intro hzero hsome
    obtain ⟨w, hw⟩ := h.owner hzero hsome
    by_cases hm : m = .wait
    · subst hm
      rw [hw] at howner
      exact absurd (hnone w rfl (Option.some.inj howner).symm hzero) hsome
    · refine ⟨w, ?_⟩
      rw [howner', Function.update_of_ne (Ne.symm hm), hw]

-- ================================================================= workers

theorem WorkerWaits.plain {p : WorkerPc}
    (hholds : s.sync.Holds (.worker w) (p.held n w)) (hw : w < n)
    (hp : p.settled = false) : WorkerWaits n w p s := by
  refine ⟨hholds, ?_, fun hle => absurd hle (Nat.not_le.mpr hw)⟩
  intro htrue
  rw [hp] at htrue
  cases htrue

theorem WorkerWaits.present {p : WorkerPc} (h : WorkerWaits n w p s)
    (hp : p ≠ .exited) : w < n :=
  Nat.not_le.mp fun hle => hp (h.absent hle)

theorem WorkerRule.waitStep {p p' : WorkerPc} (hr : WorkerRule n w s p p' s')
    (hs : Remembered s) (h : WorkerWaits n w p s) : WaitStep (.worker w) s s' := by
  cases hr with
  | begin => exact hs.quiet rfl rfl (Nat.le_refl _)
  | exit => exact hs.quiet rfl rfl (Nat.le_refl _)
  | findLock _ hlock => exact hs.lock hlock
  | findNone => exact hs.quiet rfl rfl (Nat.le_refl _)
  | findGet => exact hs.quiet rfl rfl (Nat.le_refl _)
  | findEmpty => exact hs.quiet rfl rfl (Nat.le_refl _)
  | findSub => exact hs.quiet rfl rfl (Nat.le_refl _)
  | findNext => exact hs.release h.holds.owner rfl rfl rfl nofun
  | findFound => exact hs.release h.holds.owner rfl rfl rfl nofun
  | waitLock hlock => exact hs.lock hlock
  | waitGet => exact hs.quiet rfl rfl (Nat.le_refl _)
  | waitEmpty => exact hs.quiet rfl rfl (Nat.le_refl _)
  | waitSub => exact hs.quiet rfl rfl (Nat.le_refl _)
  | waitOn => exact hs.quiet rfl rfl (Nat.le_refl _)
  | waitStop => exact hs.quiet rfl rfl (Nat.le_refl _)
  | waitSleep =>
      have hne : CondId.wait ≠ .queue w := nofun
      exact hs.release h.holds.owner rfl (Sync.sleep_of_ne hne ..) rfl nofun
  | spurious =>
      have hne : CondId.wait ≠ .queue w := nofun
      exact hs.quiet rfl (Sync.wake_of_ne hne ..) (Nat.le_refl _)
  | relock _ hlock => exact hs.lock hlock
  | waitNone => exact hs.release h.holds.owner rfl rfl rfl nofun
  | waitFound => exact hs.release h.holds.owner rfl rfl rfl nofun
  | run => exact hs.quiet rfl rfl (Nat.le_refl _)
  | finish => exact hs.quiet rfl rfl (Nat.le_refl _)
  | freeLock hlock => exact hs.lock hlock
  | recycle => exact hs.quiet rfl rfl (Nat.le_refl _)
  | freeUnlock => exact hs.release h.holds.owner rfl rfl rfl nofun
  | doneLock hlock => exact hs.lock hlock
  | doneSub =>
      -- the worker itself has the mutex
      refine ⟨⟨fun _ _ => ⟨w, h.holds.owner⟩⟩, ?_⟩
      intro u hu
      refine ⟨.of_owner rfl u, ?_⟩
      exact fun howner => absurd howner (Sync.owner_ne h.holds.owner hu)
  | doneSignal hsignal =>
      exact hs.woken (Sync.signal_frame hsignal).1 ((Sync.signal_frame hsignal).2 _)
  | doneUnlock =>
      refine hs.release h.holds.owner rfl rfl rfl ?_
      intro _ _ _ hzero
      exact h.settled rfl hzero

theorem WorkerRule.waits {p p' : WorkerPc} (hr : WorkerRule n w s p p' s')
    (hs : Remembered s) (h : WorkerWaits n w p s)
    (hone : p = .doneSignal → s.activeTasks = 0 →
      (s.sync.asleep .wait).length ≤ 1) : WorkerWaits n w p' s' := by
  have hholds := (hr.lockStep h.holds).holds
  cases hr with
  | begin => exact .plain hholds (h.present nofun) rfl
  | exit => exact .plain hholds (h.present nofun) rfl
  | findLock => exact .plain hholds (h.present nofun) rfl
  | findNone => exact .plain hholds (h.present nofun) rfl
  | findGet => exact .plain hholds (h.present nofun) rfl
  | findEmpty => exact .plain hholds (h.present nofun) rfl
  | findSub => exact .plain hholds (h.present nofun) rfl
  | findNext => exact .plain hholds (h.present nofun) rfl
  | findFound => exact .plain hholds (h.present nofun) rfl
  | waitLock => exact .plain hholds (h.present nofun) rfl
  | waitGet => exact .plain hholds (h.present nofun) rfl
  | waitEmpty => exact .plain hholds (h.present nofun) rfl
  | waitSub => exact .plain hholds (h.present nofun) rfl
  | waitOn => exact .plain hholds (h.present nofun) rfl
  | waitStop => exact .plain hholds (h.present nofun) rfl
  | waitSleep => exact .plain hholds (h.present nofun) rfl
  | spurious => exact .plain hholds (h.present nofun) rfl
  | relock => exact .plain hholds (h.present nofun) rfl
  | waitNone => exact .plain hholds (h.present nofun) rfl
  | waitFound => exact .plain hholds (h.present nofun) rfl
  | run => exact .plain hholds (h.present nofun) rfl
  | finish => exact .plain hholds (h.present nofun) rfl
  | freeLock => exact .plain hholds (h.present nofun) rfl
  | recycle => exact .plain hholds (h.present nofun) rfl
  | freeUnlock => exact .plain hholds (h.present nofun) rfl
  | doneLock hlock =>
      refine ⟨hholds, ?_, fun hle => absurd (h.absent hle) nofun⟩
      obtain ⟨-, y, hy, rfl⟩ := Shared.lock_cases hlock
      obtain ⟨hfree, rfl⟩ := Sync.lock_cases hy
      intro _ hzero
      by_contra hsome
      obtain ⟨w', hw'⟩ := hs.owner hzero hsome
      rw [hw'] at hfree
      cases hfree
  | doneSub hp =>
      refine ⟨hholds, ?_, fun hle => absurd (h.absent hle) nofun⟩
      intro hsettled hzero
      have hzero' : fetchSub s.activeTasks = 0 := hzero
      unfold fetchSub at hzero'
      rw [hp] at hsettled
      split at hsettled
      · cases hsettled
      · split at hzero'
        · cases hzero'
        · omega
  | doneSignal hsignal =>
      refine ⟨hholds, ?_, fun hle => absurd (h.absent hle) nofun⟩
      intro _ hzero
      have hlen := hone rfl hzero
      rcases Sync.signal_cases hsignal with ⟨hnone, rfl⟩ | ⟨hin, rfl⟩
      · exact hnone
      · show (s.sync.wake _ _).asleep _ = []
        rw [Sync.wake_self]
        apply List.eq_nil_of_length_eq_zero
        rw [List.length_erase_of_mem hin]
        omega
  | doneUnlock => exact .plain hholds (h.present nofun) rfl

-- ================================================================= clients

theorem ClientRule.waitStep {p p' : ClientPc} (hr : ClientRule n c s p p' s')
    (hs : Remembered s) (h : ClientWaits c p s) : WaitStep (.client c) s s' := by
  cases hr with
  | schedule => exact hs.quiet rfl rfl (Nat.le_refl _)
  | wait => exact hs.quiet rfl rfl (Nat.le_refl _)
  | cleanup => exact hs.quiet rfl rfl (Nat.le_refl _)
  | newLock hlock => exact hs.lock hlock
  | newGet => exact hs.quiet rfl rfl (Nat.le_refl _)
  | newNone => exact hs.quiet rfl rfl (Nat.le_refl _)
  | newFail => exact hs.release h.holds.owner rfl rfl rfl nofun
  | newUnlock => exact hs.release h.holds.owner rfl rfl rfl nofun
  | newInit => exact hs.quiet rfl rfl (Nat.le_refl _)
  | scan => exact hs.quiet rfl rfl (Nat.le_refl _)
  | scanned => exact hs.quiet rfl rfl (Nat.le_refl _)
  | queueLock hlock => exact hs.lock hlock
  | @link task v =>
      have hactive : (s.appended task v).activeTasks = s.activeTasks := by
        unfold Shared.appended
        split
        · rfl
        · rfl
      have hsync := s.appended_sync task v
      exact hs.quiet (congrArg Sync.owner hsync)
        (congrFun (congrArg Sync.asleep hsync) _) (Nat.le_of_eq hactive.symm)
  | addActive => exact hs.quiet rfl rfl (Nat.le_succ _)
  | addLength => exact hs.quiet rfl rfl (Nat.le_refl _)
  | signal hsignal =>
      exact hs.woken (Sync.signal_frame hsignal).1 ((Sync.signal_frame hsignal).2 _)
  | queueUnlock => exact hs.release h.holds.owner rfl rfl rfl nofun
  | waitLock hlock => exact hs.lock hlock
  | waitOn => exact hs.quiet rfl rfl (Nat.le_refl _)
  | waitStop => exact hs.quiet rfl rfl (Nat.le_refl _)
  | waitSleep =>
      have hactive := h.active rfl
      refine ⟨⟨?_⟩, ?_⟩
      · intro hzero
        have hzero' : s.activeTasks = 0 := hzero
        omega
      · intro u hu
        refine ⟨.release h.holds.owner hu rfl, ?_⟩
        exact fun howner => absurd howner (Sync.owner_ne h.holds.owner hu)
  | spurious =>
      exact hs.woken (y := s.sync.wake .wait (.client c)) rfl
        (s.sync.wake_sublist ..)
  | relock _ hlock => exact hs.lock hlock
  | waitUnlock =>
      refine hs.release h.holds.owner rfl rfl rfl ?_
      intro w _ hw
      cases hw
  | cleanStore => exact hs.quiet rfl rfl (Nat.le_refl _)
  | cleanLock _ hlock => exact hs.lock hlock
  | cleanEnd => exact hs.quiet rfl rfl (Nat.le_refl _)
  | cleanSignal hsignal =>
      exact hs.woken (Sync.signal_frame hsignal).1 ((Sync.signal_frame hsignal).2 _)
  | cleanUnlock => exact hs.release h.holds.owner rfl rfl rfl nofun
  | cleanJoin => exact hs.quiet rfl rfl (Nat.le_refl _)
  | cleanDestroy => exact hs.quiet rfl rfl (Nat.le_refl _)
  | cleanFree => exact hs.quiet rfl rfl (Nat.le_refl _)

theorem ClientRule.waits {p p' : ClientPc} (hr : ClientRule n c s p p' s')
    (h : ClientWaits c p s) : ClientWaits c p' s' := by
  refine ⟨(hr.lockStep h.holds).holds, ?_⟩
  intro hp
  cases hr with
  | waitOn hactive => exact hactive
  | _ => cases hp

-- ==================================================================== runs

theorem started_waits (h : Started n mem oracle cfg) :
    Remembered cfg.shared ∧ ∀ t, Waits n t (cfg.pc t) cfg.shared := by
  obtain ⟨taskPool, m, -, rfl⟩ := h
  refine ⟨⟨fun _ hsome => absurd rfl hsome⟩, ?_⟩
  intro t
  cases t with
  | worker w =>
      show WorkerWaits n w (if w < n then .top else .exited) _
      split
      · next hw => exact .plain (holds_init _) hw rfl
      · exact ⟨holds_init _, nofun, fun _ => rfl⟩
  | client c => exact ⟨holds_init _, nofun⟩

/-- Clients are remembered for as long as there is one to signal. -/
theorem Run.remembered
    (h : Interleaved (program n) OneSleeper (Started n mem oracle) cfg) :
    Remembered cfg.shared ∧ ∀ t, Waits n t (cfg.pc t) cfg.shared := by
  refine h.rely (fun _ => True) Remembered (Waits n) WaitRely
    (fun _ _ _ _ _ _ _ _ => trivial) (fun _ => started_waits) ?_
    (fun _ _ _ _ hr hk => hk.stable hr) trivial
  intro t x p s p' s' hrun _ hone hs hk
  cases t with
  | worker w =>
      have hr := workerStep_rule hrun
      have hstep := hr.waitStep hs hk
      exact ⟨hstep.remembered, hr.waits hs hk hone, hstep.rely⟩
  | client c =>
      have hr := clientStep_rule hrun
      have hstep := hr.waitStep hs hk
      exact ⟨hstep.remembered, hr.waits hk, hstep.rely⟩

/-- The worker that has the mutex is about to signal, or there is nobody to
signal to. -/
theorem Remembered.unforgotten (hs : Remembered cfg.shared)
    (hk : ∀ t, Waits n t (cfg.pc t) cfg.shared) : ¬ Forgotten n cfg := by
  intro hf
  obtain ⟨c, hc⟩ := hf.asleep
  obtain ⟨w, hw⟩ := hs.owner hf.done (List.ne_nil_of_mem hc)
  have hkw : WorkerWaits n w (cfg.pc (.worker w)) cfg.shared := hk (.worker w)
  have hheld := (hkw.holds _).mp hw
  have hpc : w < n → cfg.pc (.worker w) ≠ WorkerPc.doneSignal :=
    hf.unsignalled w
  have hnil := hkw.settled
  have hn := hkw.present
  generalize (cfg.pc (.worker w) : WorkerPc) = p at hheld hpc hnil hn
  cases p with
  | doneSub done =>
      rw [hnil rfl hf.done] at hc
      cases hc
  | doneUnlock =>
      rw [hnil rfl hf.done] at hc
      cases hc
  | doneSignal => exact hpc (hn nofun) rfl
  | _ => cases hheld

/-- The signal of a worker wakes one of those that sleep. -/
theorem Forgotten.signalled (h : Run n mem oracle cfg)
    (hpc : cfg.pc (.worker w) = WorkerPc.doneSignal)
    (hzero : cfg.shared.activeTasks = 0)
    (hlen : 1 < (cfg.shared.sync.asleep .wait).length)
    (hrun : (program n).step (.worker w) x cfg = some cfg') :
    Forgotten n cfg' := by
  obtain ⟨p', s', hstep, hs', hpc', hother⟩ := Program.step_cases hrun
  have hknow := (Run.awake h).2
  have hkw : WorkerKnows n w (cfg.pc (.worker w)) cfg.shared := hknow (.worker w)
  have hr : WorkerRule n w cfg.shared (cfg.pc (.worker w)) p' s' :=
    workerStep_rule hstep
  rw [hpc] at hkw hr
  cases hr with
  | @doneSignal c y hsignal =>
      refine ⟨?_, ?_, ?_⟩
      · rw [hs']
        exact hzero
      · -- only one worker can have the mutex
        intro w' _ hsame
        by_cases hw : w' = w
        · subst hw
          rw [hpc'] at hsame
          cases hsame
        · have hne : Thread.worker w' ≠ .worker w :=
            fun heq => hw (Thread.worker.inj heq)
          have hkw' : WorkerKnows n w' (cfg.pc (.worker w')) cfg.shared :=
            hknow (.worker w')
          rw [← hother _ hne, hsame] at hkw'
          have howner := hkw'.holds.owner.symm.trans hkw.holds.owner
          exact hne (Option.some.inj howner)
      · rw [hs']
        show ∃ t, t ∈ y.asleep .wait
        rcases Sync.signal_cases hsignal with ⟨hnone, rfl⟩ | ⟨hin, rfl⟩
        · rw [hnone] at hlen
          cases hlen
        · apply List.exists_mem_of_length_pos
          rw [Sync.wake_self, List.length_erase_of_mem hin]
          omega

/-- No client is forgotten as long as a worker that signals finds at most
one of them asleep, and only then. -/
theorem cxThreadpoolWait_remembers (n : Nat) (mem : Mem) (oracle : Nat → Nat) :
    (∀ cfg, Interleaved (program n) OneSleeper (Started n mem oracle) cfg →
      ¬ Forgotten n cfg)
    ∧ ∀ cfg cfg' w x, Run n mem oracle cfg →
      ¬ OneSleeper (.worker w) (cfg.pc (.worker w)) cfg.shared →
      (program n).step (.worker w) x cfg = some cfg' → Forgotten n cfg' := by
  constructor
  · intro cfg h
    obtain ⟨hs, hk⟩ := Run.remembered h
    exact hs.unforgotten hk
  · intro cfg cfg' w x h hone hrun
    obtain ⟨hpc, hzero, hlen⟩ :
        cfg.pc (.worker w) = WorkerPc.doneSignal ∧ cfg.shared.activeTasks = 0
          ∧ 1 < (cfg.shared.sync.asleep .wait).length := by
      unfold OneSleeper at hone
      push Not at hone
      exact hone
    exact Forgotten.signalled h hpc hzero hlen hrun

/-- Client 1 sleeps until the task client 0 scheduled is done, and the worker
wakes it. -/
theorem cxThreadpoolWait_remembers_sleeper : ∃ cfg cfg',
    cfg.shared.sync.asleep .wait = [.client 1]
      ∧ (program 1).step (.worker 0) (.wake 1) cfg = some cfg'
      ∧ cfg'.shared.activeTasks = 0 ∧ cfg'.shared.sync.asleep .wait = []
      ∧ ¬ Forgotten 1 cfg' := by
  obtain ⟨cfg, hrun, htest⟩ := interleaved_of_playAllowed OneSleeper 1
    (turnsOf (.client 0) (.schedule 1 2 :: List.replicate 12 .go)
      ++ turnsOf (.client 1) (.wait :: List.replicate 3 .go)
      ++ turnsOf (.worker 0) (List.replicate 12 .go))
    (fun _ => 0) (fun t => 1024 * (t + 1))
    (fun cfg => decide (cfg.shared.sync.asleep .wait = [.client 1])
      && ((program 1).step (.worker 0) (.wake 1) cfg).any
        fun (cfg' : Config Pc Shared) =>
          decide (cfg'.shared.activeTasks = 0
            ∧ cfg'.shared.sync.asleep .wait = []))
    (by decide +kernel)
  rw [Bool.and_eq_true] at htest
  obtain ⟨hasleep, hnext⟩ := htest
  have hone := of_decide_eq_true hasleep
  obtain ⟨cfg', hstep, hend⟩ := (Option.any_eq_true _ _).mp hnext
  obtain ⟨hzero, hnone⟩ := of_decide_eq_true hend
  have hallowed : OneSleeper (.worker 0) (cfg.pc (.worker 0)) cfg.shared := by
    intro _ _
    rw [hone]
    exact Nat.le_refl 1
  exact ⟨cfg, cfg', hone, hstep, hzero, hnone,
    (cxThreadpoolWait_remembers 1 _ _).1 cfg' (hrun.step hallowed hstep)⟩

/-- Client 0 schedules a task, clients 1 and 2 wait for it, and the worker
that runs it wakes client 1. -/
theorem cxThreadpoolWait_forgets :
    ∃ cfg, Run 1 (fun _ => 0) (fun t => 1024 * (t + 1)) cfg ∧ Forgotten 1 cfg
      ∧ .client 2 ∈ cfg.shared.sync.asleep .wait
      ∧ ∀ c, c ≠ 2 → cfg.pc (.client c) = ClientPc.idle := by
  obtain ⟨cfg, hrun, htest, hrest⟩ := run_of_playFrom 1
    (turnsOf (.client 0) (.schedule 1 2 :: List.replicate 12 .go)
      ++ turnsOf (.client 1) (.wait :: List.replicate 3 .go)
      ++ turnsOf (.client 2) (.wait :: List.replicate 3 .go)
      ++ turnsOf (.worker 0) (List.replicate 12 .go ++ [.wake 1, .go])
      ++ turnsOf (.client 1) (List.replicate 3 .go))
    (fun _ => 0) (fun t => 1024 * (t + 1))
    (fun cfg => decide (cfg.shared.activeTasks = 0
      ∧ (cfg.pc (.worker 0) : WorkerPc) = .top
      ∧ .client 2 ∈ cfg.shared.sync.asleep .wait
      ∧ (cfg.pc (.client 0) : ClientPc) = .idle
      ∧ (cfg.pc (.client 1) : ClientPc) = .idle)) (by decide +kernel)
  obtain ⟨hzero, hw, hin, hc₀, hc₁⟩ := of_decide_eq_true htest
  refine ⟨cfg, hrun, ⟨hzero, ?_, _, hin⟩, hin, ?_⟩
  · intro w hlt hsignal
    obtain rfl : w = 0 := by omega
    have htop : (cfg.pc (.worker 0) : WorkerPc) = .top := hw
    rw [hsignal] at htop
    cases htop
  · intro c hc
    by_cases hc' : c = 0 ∨ c = 1
    · rcases hc' with rfl | rfl
      · exact hc₀
      · exact hc₁
    · refine hrest (.client c) ?_
      intro turn hturn heq
      simp only [turnsOf, List.mem_append, List.mem_map] at hturn
      rcases hturn with (((⟨_, _, rfl⟩ | ⟨_, _, rfl⟩) | ⟨_, _, rfl⟩) | ⟨_, _, rfl⟩)
        | ⟨_, _, rfl⟩
      · exact hc' (Or.inl (Thread.client.inj heq).symm)
      · exact hc' (Or.inr (Thread.client.inj heq).symm)
      · exact hc (Thread.client.inj heq).symm
      · cases heq
      · exact hc' (Or.inr (Thread.client.inj heq).symm)

end Cextras.Concurrency
