/-
What `cx_threadpool_schedule` returns, next to `cx_threadpool_init`
(InitCodes.lean). A call that got no cell and a call that could not lock the
queue's mutex return 0 like all others. They leak no cell, though: the call
has none, or gives it back (`ScheduleRun.noLeak`). So the code is truthful
exactly for calls that got a cell and the lock, whatever other threads do
meanwhile and whatever else fails (`cxThreadpool_truthful`).
-/
import Cextras.Concurrency.Proofs.InitCodes
import Cextras.Concurrency.Proofs.PoolSteps

namespace Cextras.Concurrency

open Lib Memory

variable {n c function arg : Nat} {p p' : SchedulePc} {s s' : Shared}
  {call : ScheduleCall} {x : ScheduleChoice} {rv : Int}

-- ========================================================== specification

namespace ScheduleCall

/-- The call is over, and its cell is in a queue or the pool has it back. -/
def NoLeak (call : ScheduleCall) : Prop :=
  call.cell = 0 ∨ call.linked = true ∨ call.recycled = true

/-- 0 says that the task was linked and counted, and a negative code that it
was not and that its cell is back. -/
def Truthful (rv : Int) (call : ScheduleCall) : Prop :=
  rv = 0 ∧ call.linked = true ∧ call.counted = true
    ∨ rv < 0 ∧ call.linked = false ∧ (call.cell = 0 ∨ call.recycled = true)

instance (rv : Int) (call : ScheduleCall) : Decidable (Truthful rv call) :=
  inferInstanceAs (Decidable (_ ∨ _))

end ScheduleCall

-- =============================================================== invariant

/-- What a call recorded by the time it is at a program counter. -/
def SchedulePc.Recorded (call : ScheduleCall) : SchedulePc → Prop
  | .call (.newLock _ _) => call = .start
  | .call (.newGet _ _) => call = .start
  | .call (.newUnlock _ _ task) => call = ⟨task, false, false, false, false⟩
  | .call (.newInit _ _ task) =>
      task ≠ 0 ∧ call = ⟨task, false, false, false, false⟩
  | .call (.scan task _ _ _) =>
      task ≠ 0 ∧ task < 2 ^ 64 ∧ call = ⟨task, false, false, false, false⟩
  | .call (.queueLock task _) =>
      task ≠ 0 ∧ task < 2 ^ 64 ∧ call = ⟨task, false, false, false, false⟩
  | .call (.link task _) =>
      task ≠ 0 ∧ task < 2 ^ 64 ∧ call = ⟨task, true, false, false, false⟩
  | .call (.addActive task _) =>
      task ≠ 0 ∧ call = ⟨task, true, true, false, false⟩
  | .call (.addLength task _) =>
      task ≠ 0 ∧ call = ⟨task, true, true, true, false⟩
  | .call (.signal task _) =>
      task ≠ 0 ∧ call = ⟨task, true, true, true, false⟩
  | .call (.queueUnlock task _) =>
      task ≠ 0 ∧ call = ⟨task, true, true, true, false⟩
  | .call _ => False
  | .freeLock task =>
      task ≠ 0 ∧ call = ⟨task, false, false, false, false⟩
  | .freeRecycle task =>
      task ≠ 0 ∧ call = ⟨task, false, false, false, false⟩
  | .freeUnlock => ∃ task, task ≠ 0 ∧ call = ⟨task, false, false, false, true⟩
  | .returned rv => rv = 0 ∧ (call = .start ∨ ∃ task, task ≠ 0
      ∧ (call = ⟨task, true, true, true, false⟩
        ∨ call = ⟨task, false, false, false, true⟩))

/-- The cell a call writes to is in memory. -/
theorem taskInit_lt {task : Nat} {m m' : Machine}
    (h : (taskInit task function arg).run m = .ok () m') : task < 2 ^ 64 := by
  obtain ⟨_, m₁, hstore, -⟩ := bind_cases h
  by_cases hvalid : m.Valid task 8
  · obtain ⟨b, hb, hlo, hhi⟩ := hvalid
    have hbound := (m.arena.bounded b hb).2
    omega
  · have hfault : (C.store64 task function).run m = .fault .badAccess m :=
      if_neg hvalid
    rw [hfault] at hstore
    cases hstore

theorem Shared.appended_last {task : Nat} (htask : task < 2 ^ 64) (s : Shared)
    (v : Nat) : LinkedLast s (s.appended task v) task v := by
  unfold LinkedLast Shared.appended
  by_cases htail : (s.workers v).tail = 0
  · rw [if_pos htail, if_pos htail]
    simp
  · rw [if_neg htail, if_neg htail]
    simp only [Function.update_self, load64_store64_self, true_and]
    exact Nat.mod_eq_of_lt htask

theorem recycle_reusePool {pool pool' : CxPreallocPool} {task : Nat}
    {m m' : Machine} (htask : task ≠ 0)
    (h : (cxPreallocPoolRecycle pool task).run m = .ok pool' m') :
    pool'.reusePool = task := by
  unfold cxPreallocPoolRecycle at h
  rw [if_pos htask] at h
  obtain ⟨_, m₁, -, h⟩ := bind_cases h
  cases h
  rfl

/-- A step of the call whose call into pthread succeeds. -/
theorem ClientRule.recorded {q q' : ClientPc} (hr : ClientRule n c s q q' s')
    (h : SchedulePc.Recorded call (.call q)) :
    SchedulePc.Recorded (call.note (.call q)
        (if q' = .idle then .returned 0 else .call q') s s')
      (if q' = .idle then .returned 0 else .call q') := by
  cases hr with
  | newLock hlock => exact h
  | newGet hget htask =>
      cases h
      rfl
  | newNone hget =>
      cases h
      rfl
  | newFail => exact ⟨rfl, Or.inl h⟩
  | newUnlock htask => exact ⟨htask, h⟩
  | newInit hinit => exact ⟨h.1, taskInit_lt hinit, h.2⟩
  | scan => exact h
  | scanned => exact h
  | queueLock hlock =>
      obtain ⟨htask, hword, rfl⟩ := h
      exact ⟨htask, hword, rfl⟩
  | @link task v =>
      obtain ⟨htask, hword, rfl⟩ := h
      refine ⟨htask, ?_⟩
      have hlast := decide_eq_true (s.appended_last hword v)
      exact congrArg (ScheduleCall.mk task true · false false) hlast
  | addActive =>
      obtain ⟨htask, rfl⟩ := h
      exact ⟨htask, congrArg (ScheduleCall.mk _ true true · false)
        (decide_eq_true rfl)⟩
  | addLength => exact h
  | signal => exact h
  | queueUnlock => exact ⟨rfl, Or.inr ⟨_, h.1, Or.inl h.2⟩⟩
  | _ => exact h.elim

theorem scheduleFail_recorded {q : ClientPc}
    (hrun : scheduleFail s q = some (p', s'))
    (h : SchedulePc.Recorded call (.call q)) :
    SchedulePc.Recorded (call.note (.call q) p' s s') p' := by
  cases q with
  | newLock function arg =>
      cases hrun
      exact h
  | newUnlock function arg task =>
      simp only [scheduleFail] at hrun
      by_cases htask : task = 0
      · subst htask
        cases hrun
        exact ⟨rfl, Or.inl h⟩
      · rw [if_neg htask] at hrun
        cases hrun
        exact ⟨htask, h⟩
  | queueLock task v =>
      cases hrun
      exact ⟨h.1, h.2.2⟩
  | signal task v =>
      cases hrun
      exact h
  | queueUnlock task v =>
      cases hrun
      exact ⟨rfl, Or.inr ⟨task, h.1, Or.inl h.2⟩⟩
  | _ => cases hrun

theorem scheduleStep_recorded (hrun : scheduleStep n c x s p = some (p', s'))
    (h : p.Recorded call) : p'.Recorded (call.note p p' s s') := by
  cases p with
  | call q =>
      cases x with
      | ok y =>
          obtain ⟨⟨q', s₁⟩, hstep, heq⟩ := Option.map_eq_some_iff.mp hrun
          cases heq
          exact (clientStep_rule hstep).recorded h
      | fail => exact scheduleFail_recorded hrun h
  | freeLock task =>
      cases x with
      | ok y =>
          obtain ⟨s₁, -, hs⟩ := Option.bind_eq_some_iff.mp hrun
          cases hs
          exact h
      | fail =>
          cases hrun
          exact h
  | freeRecycle task =>
      obtain ⟨htask, rfl⟩ := h
      obtain ⟨⟨taskPool, s₁⟩, hrec, hs⟩ := Option.bind_eq_some_iff.mp hrun
      obtain ⟨m', hm, rfl⟩ := Shared.run_cases hrec
      cases hs
      refine ⟨task, htask, ?_⟩
      exact congrArg (ScheduleCall.mk task false false false)
        (decide_eq_true (recycle_reusePool htask hm))
  | freeUnlock =>
      obtain ⟨task, htask, rfl⟩ := h
      cases x with
      | ok y =>
          cases hrun
          exact ⟨rfl, Or.inr ⟨task, htask, Or.inr rfl⟩⟩
      | fail =>
          cases hrun
          exact ⟨rfl, Or.inr ⟨task, htask, Or.inr rfl⟩⟩
  | returned rv => cases hrun

-- ==================================================================== runs

theorem ScheduleRun.recorded (h : ScheduleRun n c function arg p s call) :
    p.Recorded call := by
  induction h with
  | start => rfl
  | others _ ih => exact ih
  | step _ hrun ih => exact scheduleStep_recorded hrun ih

/-- No call leaks its cell, whatever fails. -/
theorem ScheduleRun.noLeak
    (h : ScheduleRun n c function arg (.returned rv) s call) : call.NoLeak := by
  obtain ⟨-, rfl | ⟨task, -, rfl | rfl⟩⟩ := h.recorded
  · exact Or.inl rfl
  · exact Or.inr (Or.inl rfl)
  · exact Or.inr (Or.inr rfl)

theorem ScheduleRun.truthful_iff
    (h : ScheduleRun n c function arg (.returned rv) s call) :
    call.Truthful rv ↔ call.cell ≠ 0 ∧ call.locked = true := by
  obtain ⟨rfl, rfl | ⟨task, htask, rfl | rfl⟩⟩ := h.recorded
  · exact iff_of_false (by decide) fun hcell => hcell.1 rfl
  · exact iff_of_true (Or.inl ⟨rfl, rfl, rfl⟩) ⟨htask, rfl⟩
  · refine iff_of_false ?_ nofun
    simp [ScheduleCall.Truthful]

-- ======================================================== calls of a pool

/-- In a call of `cx_threadpool_schedule`. -/
def ClientPc.inSchedule : ClientPc → Bool
  | .newLock _ _ => true
  | .newGet _ _ => true
  | .newUnlock _ _ _ => true
  | .newInit _ _ _ => true
  | .scan _ _ _ _ => true
  | .queueLock _ _ => true
  | .link _ _ => true
  | .addActive _ _ => true
  | .addLength _ _ => true
  | .signal _ _ => true
  | .queueUnlock _ _ => true
  | _ => false

theorem ClientRule.inSchedule {q q' : ClientPc}
    (hr : ClientRule n c s q q' s') (h : q'.inSchedule = true) :
    q.inSchedule = true
      ∨ q = .idle ∧ ∃ function arg, q' = .newLock function arg := by
  cases hr with
  | schedule => exact Or.inr ⟨rfl, _, _, rfl⟩
  | newLock => exact Or.inl rfl
  | newGet => exact Or.inl rfl
  | newNone => exact Or.inl rfl
  | newUnlock => exact Or.inl rfl
  | newInit => exact Or.inl rfl
  | scan => exact Or.inl rfl
  | scanned => exact Or.inl rfl
  | queueLock => exact Or.inl rfl
  | link => exact Or.inl rfl
  | addActive => exact Or.inl rfl
  | addLength => exact Or.inl rfl
  | signal => exact Or.inl rfl
  | _ => cases h

/-- A call that a client of a pool makes is one in which nothing failed, the
rest of the pool being the other threads. -/
theorem Run.scheduleRun {mem : Mem} {oracle : Nat → Nat}
    {cfg : Config Pc Shared} (h : Run n mem oracle cfg)
    (hpc : ClientPc.inSchedule (cfg.pc (.client c)) = true) :
    ∃ function arg call, ScheduleRun n c function arg
      (.call (cfg.pc (.client c))) cfg.shared call := by
  induction h with
  | start hstart =>
      obtain ⟨taskPool, m, -, rfl⟩ := hstart
      cases hpc
  | @step cfg cfg' t y _ _ hrun ih =>
      obtain ⟨q, s₁, hstep, rfl, hself, hother⟩ := Program.step_cases hrun
      by_cases ht : .client c = t
      · subst ht
        have hrule : ClientRule n c cfg.shared (cfg.pc (.client c)) q cfg'.shared :=
          clientStep_rule hstep
        rw [hself] at hpc ⊢
        rcases hrule.inSchedule hpc with hbefore | ⟨-, function, arg, rfl⟩
        · obtain ⟨function, arg, call, hcall⟩ := ih hbefore
          have hne : q ≠ .idle := by
            intro hidle
            rw [hidle] at hpc
            cases hpc
          refine ⟨function, arg, _, hcall.step (x := .ok y) ?_⟩
          refine Option.map_eq_some_iff.mpr ⟨(q, cfg'.shared), hstep, ?_⟩
          rw [if_neg hne]
        · exact ⟨function, arg, _, .start⟩
      · rw [hother _ ht] at hpc ⊢
        obtain ⟨function, arg, call, hcall⟩ := ih hpc
        exact ⟨function, arg, call, hcall.others⟩

-- =================================================================== codes

/-- Let the call take its steps, with nobody else moving. -/
def scheduleFollow (n c : Nat) :
    List ScheduleChoice → SchedulePc → Shared → ScheduleCall →
      Option (SchedulePc × Shared × ScheduleCall)
  | [], p, s, call => some (p, s, call)
  | x :: xs, p, s, call =>
      match scheduleStep n c x s p with
      | some (p', s') => scheduleFollow n c xs p' s' (call.note p p' s s')
      | none => none

theorem ScheduleRun.follow {xs : List ScheduleChoice} {call' : ScheduleCall}
    (h : ScheduleRun n c function arg p s call)
    (hrun : scheduleFollow n c xs p s call = some (p', s', call')) :
    ScheduleRun n c function arg p' s' call' := by
  induction xs generalizing p s call with
  | nil =>
      cases hrun
      exact h
  | cons x xs ih =>
      rw [scheduleFollow] at hrun
      split at hrun
      · next hstep => exact ih (h.step hstep) hrun
      · cases hrun

/-- A call that returned with the given record, from a pool as
`cx_threadpool_init` leaves it. -/
theorem scheduleRun_of_follow (n c function arg : Nat) (m : Machine)
    (xs : List ScheduleChoice) (call : ScheduleCall)
    (h : (scheduleFollow n c xs (.call (.newLock function arg))
      (initShared newTaskPool m) .start).any
      (fun r => decide (r.1 = .returned 0 ∧ r.2.2 = call)) = true) :
    ∃ s, ScheduleRun n c function arg (.returned 0) s call := by
  obtain ⟨⟨p, s, call'⟩, hfollow, htest⟩ := (Option.any_eq_true _ _).mp h
  obtain ⟨rfl, rfl⟩ := of_decide_eq_true htest
  exact ⟨s, ScheduleRun.start.follow hfollow⟩

/-- The return codes of the pool are truthful if and only if nothing fails
that they should tell of: in `cx_threadpool_init` the array and the calls
that make and start the workers, and in `cx_threadpool_schedule` the cell
and the lock of the queue. -/
theorem cxThreadpool_truthful (pthread : Pthread) (numCPUs : Int)
    (workerCount : Nat) (m : Machine) (n c function arg : Nat) :
    (InitTruthful pthread numCPUs workerCount m
        ↔ Unfailed pthread (poolSize numCPUs workerCount) m)
      ∧ ∀ rv s call, ScheduleRun n c function arg (.returned rv) s call →
        (call.Truthful rv ↔ call.cell ≠ 0 ∧ call.locked = true) :=
  ⟨cxThreadpoolInit_truthful_iff rfl, fun _ _ _ h => h.truthful_iff⟩

/-- Nothing fails: a pool of two workers, and a task in a pool of one. -/
theorem cxThreadpool_truthful_unfailed :
    InitTruthful ⟨fun _ => 0, false⟩ 4 2
        (Machine.boot (fun _ => 0) fun t => 2 ^ 20 * (t + 1))
      ∧ ∃ s call, ScheduleRun 1 0 1 2 (.returned 0) s call
        ∧ call.Truthful 0 := by
  obtain ⟨hinit, hschedule⟩ := cxThreadpool_truthful ⟨fun _ => 0, false⟩ 4 2
    (Machine.boot (fun _ => 0) fun t => 2 ^ 20 * (t + 1)) 1 0 1 2
  refine ⟨hinit.mpr ⟨by decide, fun _ _ => rfl⟩, ?_⟩
  obtain ⟨s, hrun⟩ := scheduleRun_of_follow 1 0 1 2
    (Machine.boot (fun _ => 0) fun t => 2 ^ 20 * (t + 1))
    (List.replicate 12 (.ok .go)) ⟨2097152, true, true, true, false⟩
    (by decide +kernel)
  exact ⟨s, _, hrun, (hschedule _ _ _ hrun).mpr ⟨by decide, rfl⟩⟩

/-- The thread of the only worker cannot be created, and the init returns 0
without one. The element pool has no cell, or the queue cannot be locked,
and the schedule returns 0 without a task. -/
theorem cxThreadpool_swallowed :
    (∃ s m', (cxThreadpoolInit ⟨fun t => if t = 2 then 11 else 0, true⟩ 4 1).run
        (Machine.boot (fun _ => 0) fun t => 2 ^ 20 * (t + 1)) = .ok (0, s) m'
      ∧ s.life (.thread 0) ≠ .live)
    ∧ ¬ InitTruthful ⟨fun t => if t = 2 then 11 else 0, true⟩ 4 1
        (Machine.boot (fun _ => 0) fun t => 2 ^ 20 * (t + 1))
    ∧ (∃ s call, ScheduleRun 1 0 1 2 (.returned 0) s call
      ∧ call.cell = 0 ∧ ¬ call.Truthful 0)
    ∧ ∃ s call, ScheduleRun 1 0 1 2 (.returned 0) s call
      ∧ call.recycled = true ∧ ¬ call.Truthful 0 := by
  refine ⟨?_, ?_, ?_, ?_⟩
  · have h : (match (cxThreadpoolInit ⟨fun t => if t = 2 then 11 else 0, true⟩
        4 1).run (Machine.boot (fun _ => 0) fun t => 2 ^ 20 * (t + 1)) with
        | .ok (rv, s) _ => decide (rv = 0 ∧ s.life (.thread 0) ≠ .live)
        | .fault _ _ => false) = true := by
      decide +kernel
    split at h
    · next rv s m' hrun =>
        obtain ⟨rfl, hlife⟩ := of_decide_eq_true h
        exact ⟨s, m', hrun, hlife⟩
    · cases h
  · rw [cxThreadpoolInit_truthful_iff (n := 1) rfl]
    exact fun hunfailed => absurd (hunfailed.2 2 (by decide)) (by decide)
  · obtain ⟨s, hrun⟩ := scheduleRun_of_follow 1 0 1 2
      (Machine.boot (fun _ => 0) fun _ => 0) (List.replicate 3 (.ok .go)) .start
      (by decide +kernel)
    exact ⟨s, _, hrun, rfl, by decide⟩
  · obtain ⟨s, hrun⟩ := scheduleRun_of_follow 1 0 1 2
      (Machine.boot (fun _ => 0) fun t => 2 ^ 20 * (t + 1))
      (List.replicate 6 (.ok .go) ++ .fail :: List.replicate 3 (.ok .go))
      ⟨2097152, false, false, false, true⟩ (by decide +kernel)
    exact ⟨s, _, hrun, rfl, by decide⟩

end Cextras.Concurrency
