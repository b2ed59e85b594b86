/-
No task is lost and none is duplicated: in every interleaving each task
that was linked is in one queue, held by one worker, or finished, its
function is called once, and its cell is not handed out again before it
is finished.
-/
import Cextras.Concurrency.Proofs.TaskClients
import Cextras.Concurrency.Proofs.TaskWorkers
import Cextras.Concurrency.Proofs.WorkerSleep

namespace Cextras.Concurrency

open Lib Memory

variable {n w c a v : Nat} {s s' : Shared} {t u : Thread} {m : MutexId}
  {cfg : Config Pc Shared} {mem : Mem} {oracle : Nat → Nat}

-- ==================================================================== runs

def Has (n : Nat) : (t : Thread) → Pc t → Shared → Prop
  | .worker w, p, s => WorkerHas n w p s
  | .client c, p, s => ClientHas n c p s

theorem Has.stable {p : Pc t} (hr : TaskRely t s s') (h : Has n t p s) :
    Has n t p s' := by
  cases t with
  | worker w => exact WorkerHas.stable h hr
  | client c => exact ClientHas.stable h hr

/-- What is intact after a step was so before. -/
theorem Shared.Intact.of_run {α : Type} {x : C α} {r : α} {m' : Machine}
    (h : x.run s.machine = .ok r m') (hrefused : m'.refused = false)
    (hfreed : s.freed = false) : s.Intact :=
  ⟨unrefused_of_run h hrefused, hfreed⟩

theorem Shared.Intact.of_lock (hrun : s.lock m t = some s') (h : s'.Intact) :
    s.Intact := by
  obtain ⟨-, y, -, rfl⟩ := Shared.lock_cases hrun
  exact h

theorem WorkerRule.intact {p p' : WorkerPc} (hr : WorkerRule n w s p p' s')
    (h : s'.Intact) : s.Intact := by
  cases hr with
  | findLock _ hlock => exact .of_lock hlock h
  | waitLock hlock => exact .of_lock hlock h
  | relock _ hlock => exact .of_lock hlock h
  | run hrun => exact .of_run hrun h.1 h.2
  | freeLock hlock => exact .of_lock hlock h
  | recycle hrun => exact .of_run hrun h.1 h.2
  | doneLock hlock => exact .of_lock hlock h
  | _ => exact h

theorem ClientRule.intact {p p' : ClientPc} (hr : ClientRule n c s p p' s')
    (h : s'.Intact) : s.Intact := by
  cases hr with
  | newLock hlock => exact .of_lock hlock h
  | newGet hrun => exact .of_run hrun h.1 h.2
  | newNone hrun => exact .of_run hrun h.1 h.2
  | newInit hrun => exact .of_run hrun h.1 h.2
  | queueLock hlock => exact .of_lock hlock h
  | @link task v =>
      unfold Shared.appended at h
      split at h
      · exact h
      · exact h
  | waitLock hlock => exact .of_lock hlock h
  | relock _ hlock => exact .of_lock hlock h
  | cleanLock _ hlock => exact .of_lock hlock h
  | cleanFree => cases h.2
  | _ => exact h

theorem started_sound (h : Started n mem oracle cfg) :
    Sound n cfg.shared ∧ ∀ t, Has n t (cfg.pc t) cfg.shared := by
  obtain ⟨taskPool, m, hinit, rfl⟩ := h
  obtain ⟨p, hrun, hsize, hpool⟩ := run_cxPreallocPoolInit2
    (Machine.boot mem oracle) 8 taskSize (by decide) (by decide) (by decide)
  have hinit' : (cxPreallocPoolInit2 8 taskSize).run (Machine.boot mem oracle)
      = .ok taskPool m := hinit
  rw [hrun] at hinit'
  obtain ⟨rfl, rfl⟩ := Outcome.ok.inj hinit'
  refine ⟨⟨?_, ?_, ?_, ?_, nofun, rfl⟩, ?_⟩
  · refine ⟨fun _ => [], ⟨[], [], [], hpool, ?_⟩, hsize, fun _ => .nil,
      fun _ => rfl, fun _ => List.nodup_nil, ?_⟩
    · intro a
      exact iff_of_false nofun fun hne => hne rfl
    · intro v a
      exact iff_of_false nofun nofun
  · exact Booked.empty rfl (fun _ => rfl) fun _ => rfl
  · intro b i hb
    exact absurd rfl hb
  · intro v
    left
    intro b i hb
    cases hb
  · intro t
    cases t with
    | worker w =>
        show WorkerHas n w (if w < n then .top else .exited) _
        split
        · next hw =>
            refine ⟨holds_init _, fun b => iff_of_false nofun nofun, nofun,
              nofun, ?_, fun hle => absurd hle (Nat.not_le.mpr hw)⟩
            intro i hi
            cases hi
        · refine ⟨holds_init _, fun b => iff_of_false nofun nofun, nofun, nofun,
            ?_, fun _ => rfl⟩
          intro i hi
          cases hi
    | client c =>
        exact ⟨holds_init _, fun b => iff_of_false nofun nofun, nofun, nofun,
          nofun, nofun, nofun, nofun, nofun, nofun, nofun⟩

theorem Run.sound (h : Run n mem oracle cfg) (hok : cfg.shared.Intact) :
    Sound n cfg.shared ∧ ∀ t, Has n t (cfg.pc t) cfg.shared := by
  refine h.rely Shared.Intact (Sound n) (Has n) TaskRely ?_
    (fun _ => started_sound) ?_ (fun _ _ _ _ hr hk => hk.stable hr) hok
  · intro t x p s p' s' hrun hok
    cases t with
    | worker w => exact (workerStep_rule hrun).intact hok
    | client c => exact (clientStep_rule hrun).intact hok
  · intro t x p s p' s' hrun hok _ hs hk
    cases t with
    | worker w =>
        have hr := workerStep_rule hrun
        have hstep := hr.taskStep hs hk
        exact ⟨hstep.sound, hr.has hs hk, hstep.rely⟩
    | client c =>
        have hr := clientStep_rule hrun
        have hstep := hr.taskStep hs hk hok
        exact ⟨hstep.sound, hr.has hs hk hok, hstep.rely⟩

-- ============================================================ where it is

/-- The cell of the task a worker has taken and whose function has not
returned. -/
def WorkerPc.holding : WorkerPc → Option Nat
  | .findSub _ task => some task
  | .findUnlock _ task => if task = 0 then none else some task
  | .waitSub task => some task
  | .waitUnlock task => if task = 0 then none else some task
  | .run task => some task
  | .running task => some task
  | _ => none

inductive Whereabouts where
  | queue (v : Nat)
  | worker (w : Nat)
  | finished

/-- Task `t` is there. A cell is that of the last task it was handed out
for. -/
def At (n : Nat) (cfg : Config Pc Shared) (q : Nat → List Nat) (t : Nat) :
    Whereabouts → Prop
  | .queue v => v < n ∧ (cfg.shared.book.record t).cell ∈ q v
      ∧ cfg.shared.book.occupant (cfg.shared.book.record t).cell = some t
      ∧ (cfg.shared.book.record t).finished = false
  | .worker w => w < n
      ∧ WorkerPc.holding (cfg.pc (.worker w))
        = some (cfg.shared.book.record t).cell
      ∧ cfg.shared.book.occupant (cfg.shared.book.record t).cell = some t
      ∧ (cfg.shared.book.record t).finished = false
  | .finished => (cfg.shared.book.record t).finished = true

/-- The memory a thread's next step accesses may be accessed, or a request
for more is refused. To lock a mutex that `cx_threadpool_cleanup` has
destroyed is undefined as well, but that is not ruled out here: it is no
step, so interleavings that do it end before it. -/
def Defined (n : Nat) : (t : Thread) → Pc t → Shared → Prop
  | .worker w, .findGet i, s => (s.getTask ((i + w) % n) w).isSome
  | .worker w, .waitGet, s => (s.getTask w w).isSome
  | .worker _, .run task, s => (s.run (taskCall task)).isSome
  | .worker _, .freeRecycle task, s =>
      (s.run (cxPreallocPoolRecycle s.taskPool task)).isSome
  | .client _, .newGet _ _, s =>
      ((cxPreallocPoolGet s.taskPool).run s.machine).machine.refused = true
        ∨ (s.run (cxPreallocPoolGet s.taskPool)).isSome
  | .client _, .newInit function arg task, s =>
      (s.run (taskInit task function arg)).isSome
  | .client _, .link task v, s =>
      (s.run (appendTask (s.workers v) task)).isSome
  | _, _, _ => True

/-- No task is lost, and none is there twice. -/
structure NoTaskLost (n : Nat) (cfg : Config Pc Shared) : Prop where
  /-- `q` are the queues as their links have them -/
  place : ∃ q : Nat → List Nat,
    (∀ v, Linked cfg.shared.machine.mem nextOffset
      (cfg.shared.workers v).head (q v) ∧ (q v).Nodup)
      ∧ (∀ v, ∀ b ∈ q v, ∃ t < cfg.shared.book.count,
        (cfg.shared.book.record t).cell = b
          ∧ (cfg.shared.book.record t).linked = true
          ∧ At n cfg q t (.queue v))
      ∧ ∀ t < cfg.shared.book.count, (cfg.shared.book.record t).linked = true →
        ∃! x, At n cfg q t x
  once : ∀ t < cfg.shared.book.count,
    (cfg.shared.book.record t).starts = []
      ∨ (cfg.shared.book.record t).starts
        = [((cfg.shared.book.record t).function,
          (cfg.shared.book.record t).arg)]
  called : ∀ t < cfg.shared.book.count,
    (cfg.shared.book.record t).finished = true →
    (cfg.shared.book.record t).starts ≠ []
  /-- an earlier task of a cell was finished before a later one got it -/
  reuse : ∀ t t', t < t' → t' < cfg.shared.book.count →
    (cfg.shared.book.record t).cell = (cfg.shared.book.record t').cell →
    (cfg.shared.book.record t).finished = true
  defined : ∀ t, Defined n t (cfg.pc t) cfg.shared

theorem WorkerPc.holding_eq (p : WorkerPc) :
    p.holding = if p.returned = true then none else p.cell := by
  cases p with
  | _ => rfl

/-- The record of a task that is done says so. -/
theorem TaskRecord.Ordered.unfinished {r : TaskRecord} (h : r.Ordered)
    (htaker : r.taker = none) : r.finished = false := by
  by_contra hfin
  exact (h.finished (Bool.not_eq_false _ ▸ hfin)).1 htaker

/-- A linked task that is not finished is in a queue or with a worker. -/
theorem Sound.whereabouts {q : Nat → List Nat} (hs : Sound n cfg.shared)
    (hq : Stored cfg.shared q) (hk : ∀ t, Has n t (cfg.pc t) cfg.shared)
    {j : Nat} (hj : j < cfg.shared.book.count)
    (hlinked : (cfg.shared.book.record j).linked = true) :
    ∃ x, At n cfg q j x := by
  cases hfin : (cfg.shared.book.record j).finished with
  | true => exact ⟨.finished, hfin⟩
  | false =>
      obtain ⟨hocc, hne⟩ := hs.booked.current j hj hfin
      have hsuits := hs.booked.suits _ j hocc
      cases hplace : cfg.shared.book.place (cfg.shared.book.record j).cell with
      | free => exact absurd hplace hne
      | queue v =>
          exact ⟨.queue v, hs.range _ v hplace, (hq.queued v _).mpr hplace, hocc,
            hfin⟩
      | thread u =>
          cases u with
          | client c =>
              rw [hplace] at hsuits
              have hunlinked : (cfg.shared.book.record j).linked = false := hsuits
              rw [hlinked] at hunlinked
              cases hunlinked
          | worker w =>
              have hw : WorkerHas n w (cfg.pc (.worker w)) cfg.shared :=
                hk (.worker w)
              have hcell := (hw.cell _).mp hplace
              have hreturned := (hw.called _ j hcell hocc).2
              rw [hfin] at hreturned
              refine ⟨.worker w, ?_, ?_, hocc, hfin⟩
              · by_contra hle
                have hexited := hw.absent (Nat.not_lt.mp hle)
                rw [hexited] at hcell
                cases hcell
              · rw [WorkerPc.holding_eq, ← hreturned]
                exact hcell

/-- It is in one place only. -/
theorem At.unique {q : Nat → List Nat} (hq : Stored cfg.shared q)
    (hk : ∀ t, Has n t (cfg.pc t) cfg.shared) {j : Nat} {x y : Whereabouts}
    (hx : At n cfg q j x) (hy : At n cfg q j y) : x = y := by
  have hworker : ∀ w, At n cfg q j (.worker w) →
      cfg.shared.book.place (cfg.shared.book.record j).cell
        = .thread (.worker w) := by
    intro w hw
    have hkw : WorkerHas n w (cfg.pc (.worker w)) cfg.shared := hk (.worker w)
    have hhold := hw.2.1
    rw [WorkerPc.holding_eq] at hhold
    split at hhold
    · cases hhold
    · exact (hkw.cell _).mpr hhold
  have hqueue : ∀ v, At n cfg q j (.queue v) →
      cfg.shared.book.place (cfg.shared.book.record j).cell = .queue v :=
    fun v hv => (hq.queued v _).mp hv.2.1
  have hfinished : At n cfg q j .finished →
      (cfg.shared.book.record j).finished ≠ false := by
    intro hfin hunfin
    exact absurd (hfin.symm.trans hunfin) nofun
  cases x with
  | queue v =>
      have hpx := hqueue v hx
      cases y with
      | queue v' =>
          rw [hqueue v' hy] at hpx
          rw [Place.queue.inj hpx]
      | worker w =>
          rw [hworker w hy] at hpx
          cases hpx
      | finished => exact absurd hx.2.2.2 (hfinished hy)
  | worker w =>
      have hpx := hworker w hx
      cases y with
      | queue v =>
          rw [hqueue v hy] at hpx
          cases hpx
      | worker w' =>
          rw [hworker w' hy] at hpx
          rw [Thread.worker.inj (Place.thread.inj hpx)]
      | finished => exact absurd hx.2.2.2 (hfinished hy)
  | finished =>
      cases y with
      | queue v => exact absurd hy.2.2.2 (hfinished hx)
      | worker w => exact absurd hy.2.2.2 (hfinished hx)
      | finished => rfl

-- ================================================================ accesses

theorem Shared.isSome_run {α : Type} {x : C α} {r : α} (m' : Machine)
    (h : x.run s.machine = .ok r m') : (s.run x).isSome := by
  unfold Shared.run
  rw [h]
  rfl

theorem Stored.getTask_defined {q : Nat → List Nat} (hq : Stored s q)
    (v w : Nat) : (s.getTask v w).isSome := by
  have hrun : ∃ r m', (workerGetTask (s.workers v)).run s.machine = .ok r m' := by
    unfold workerGetTask
    by_cases hhead : (s.workers v).head = 0
    · rw [if_neg (not_not.mpr hhead)]
      exact ⟨_, _, rfl⟩
    · have hne : s.book.place (s.workers v).head ≠ .free := by
        rw [hq.head_place hhead]
        nofun
      have hvalid := hq.valid hne (i := nextOffset) (k := 8) (by decide)
      rw [if_pos hhead, C.run_bind, run_load64 hvalid, C.chain_ok, C.run_ite]
      split
      · exact ⟨_, _, rfl⟩
      · exact ⟨_, _, rfl⟩
  obtain ⟨r, m', hrun⟩ := hrun
  unfold Shared.getTask Shared.run
  rw [hrun]
  rfl

theorem Stored.taskCall_defined {q : Nat → List Nat} (hq : Stored s q)
    (ha : s.book.place a ≠ .free) : (s.run (taskCall a)).isSome := by
  have hfunction : s.machine.Valid a 8 := hq.valid ha (i := 0) (by decide)
  have harg := hq.valid ha (i := argOffset) (k := 8) (by decide)
  unfold taskCall
  apply Shared.isSome_run s.machine
  rw [C.run_bind, run_load64 hfunction, C.chain_ok, C.run_bind,
    run_load64 harg, C.chain_ok, C.run_pure]

theorem Stored.taskInit_defined {q : Nat → List Nat} (hq : Stored s q)
    (ha : s.book.place a ≠ .free) (function arg : Nat) :
    (s.run (taskInit a function arg)).isSome := by
  have hvalid : ∀ mem' i, i + 8 ≤ taskSize →
      Machine.Valid { s.machine with mem := mem' } (a + i) 8 :=
    fun mem' i hi => hq.valid ha hi
  have hfirst : s.machine.Valid a 8 := hq.valid ha (i := 0) (by decide)
  unfold taskInit
  apply Shared.isSome_run
  rw [C.run_bind, run_store64 hfirst, C.chain_ok, C.run_bind,
    run_store64 (hvalid _ argOffset (by decide)), C.chain_ok,
    run_store64 (hvalid _ nextOffset (by decide))]

theorem Stored.append_defined {q : Nat → List Nat} (hq : Stored s q)
    (a v : Nat) : (s.run (appendTask (s.workers v) a)).isSome := by
  unfold appendTask
  rcases hq.last (v := v) with ⟨hzero, -⟩ | ⟨-, hmem⟩
  · apply Shared.isSome_run s.machine
    rw [if_neg (not_not.mpr hzero), C.run_pure]
  · have hplace := hq.in_place hmem
    have hvalid := hq.valid hplace (i := nextOffset) (k := 8) (by decide)
    apply Shared.isSome_run
    rw [if_pos (hq.ne_zero hplace), C.run_bind, run_store64 hvalid, C.chain_ok,
      C.run_pure]

theorem Stored.recycle_defined {q : Nat → List Nat} (hq : Stored s q)
    (ha : s.book.place a ≠ .free) :
    (s.run (cxPreallocPoolRecycle s.taskPool a)).isSome := by
  obtain ⟨chunks, free, live, hpool, hlive⟩ := hq.pool
  exact Shared.isSome_run _
    (run_cxPreallocPoolRecycle hpool ((hlive a).mpr ha)).1

theorem Stored.get_defined {q : Nat → List Nat} (hq : Stored s q) :
    ((cxPreallocPoolGet s.taskPool).run s.machine).machine.refused = true
      ∨ (s.run (cxPreallocPoolGet s.taskPool)).isSome := by
  obtain ⟨chunks, free, live, hpool, -⟩ := hq.pool
  cases hr : ((cxPreallocPoolGet s.taskPool).run s.machine).machine.refused with
  | true => exact Or.inl rfl
  | false =>
      obtain ⟨r, m', hrun, -⟩ := (cxPreallocPoolGet_granted hpool).elim hr
      exact Or.inr (Shared.isSome_run _ hrun)

/-- A thread touches only cells that have a place. -/
theorem Sound.defined {p : Pc t} (hs : Sound n s) (h : Has n t p s) :
    Defined n t p s := by
  obtain ⟨q, hq⟩ := hs.stored
  cases t with
  | worker w =>
      have hw : WorkerHas n w p s := h
      have hcell : ∀ b, WorkerPc.cell p = some b → s.book.place b ≠ .free := by
        intro b hb
        rw [(hw.cell b).mpr hb]
        nofun
      have hp : ∀ p' : WorkerPc, p = p' → Defined n (.worker w) p' s := by
        intro p' hp'
        subst hp'
        cases p with
        | findGet i => exact hq.getTask_defined _ w
        | waitGet => exact hq.getTask_defined w w
        | run task => exact hq.taskCall_defined (hcell task rfl)
        | freeRecycle task => exact hq.recycle_defined (hcell task rfl)
        | _ => trivial
      exact hp p rfl
  | client c =>
      have hc : ClientHas n c p s := h
      have hp : ∀ p' : ClientPc, p = p' → Defined n (.client c) p' s := by
        intro p' hp'
        subst hp'
        cases p with
        | newGet function arg => exact hq.get_defined
        | newInit function arg task =>
            apply hq.taskInit_defined
            rw [(hc.cell task).mpr rfl]
            nofun
        | link task v => exact hq.append_defined task v
        | _ => trivial
      exact hp p rfl

-- =========================================================== no task is lost

/-- No task is lost and none is duplicated, in any interleaving. -/
theorem cxThreadpool_noTaskLost (h : Run n mem oracle cfg)
    (hgranted : cfg.shared.machine.refused = false)
    (hfreed : cfg.shared.freed = false) : NoTaskLost n cfg := by
  obtain ⟨hs, hk⟩ := h.sound ⟨hgranted, hfreed⟩
  obtain ⟨q, hq⟩ := hs.stored
  refine ⟨⟨q, fun v => ⟨hq.chain v, hq.nodup v⟩, ?_, ?_⟩, ?_, ?_, ?_, ?_⟩
  · intro v b hb
    have hplace := (hq.queued v b).mp hb
    obtain ⟨i, hi, hlt, hcell, hsuits⟩ := hs.occupant (hq.in_place hb)
    rw [hplace] at hsuits
    obtain ⟨hlinked, htaker⟩ := hsuits
    refine ⟨i, hlt, hcell, hlinked, hs.range b v hplace, ?_, ?_,
      (hs.booked.ordered i hlt).unfinished htaker⟩
    · rw [hcell]
      exact hb
    · rw [hcell]
      exact hi
  · intro t ht hlinked
    obtain ⟨x, hx⟩ := hs.whereabouts hq hk ht hlinked
    exact ⟨x, hx, fun y hy => At.unique hq hk hy hx⟩
  · intro t ht
    rcases (hs.booked.ordered t ht).called with hnil | ⟨-, hcall⟩
    · exact Or.inl hnil
    · exact Or.inr hcall
  · intro t ht hfin
    rw [((hs.booked.ordered t ht).finished hfin).2]
    exact List.cons_ne_nil _ _
  · intro t t' hlt ht' hcell
    by_contra hfin
    have ht : t < cfg.shared.book.count := Nat.lt_trans hlt ht'
    obtain ⟨hocc, -⟩ := hs.booked.current t ht (Bool.not_eq_true _ ▸ hfin)
    obtain ⟨u, hu, hle⟩ := hs.booked.latest t' ht'
    rw [← hcell, hocc] at hu
    cases hu
    omega
  · intro t
    exact hs.defined (hk t)

/-- Two tasks, one done and its cell handed out again. -/
theorem cxThreadpool_noTaskLost_reused :
    ∃ cfg, NoTaskLost 2 cfg ∧ cfg.shared.book.count = 2
      ∧ (cfg.shared.book.record 0).cell = (cfg.shared.book.record 1).cell := by
  obtain ⟨cfg, hrun, htest, -⟩ := run_of_playFrom 2
    (turnsOf (.client 0) (.schedule 1 2 :: List.replicate 13 .go)
      ++ turnsOf (.worker 1) (List.replicate 13 .go)
      ++ turnsOf (.client 1) (.schedule 3 4 :: List.replicate 13 .go))
    (fun _ => 0) (fun t => 1024 * (t + 1))
    (fun cfg => decide (cfg.shared.machine.refused = false
      ∧ cfg.shared.freed = false ∧ cfg.shared.book.count = 2
      ∧ (cfg.shared.book.record 0).cell = (cfg.shared.book.record 1).cell))
    (by decide +kernel)
  obtain ⟨hgranted, hfreed, hcount, hcell⟩ := of_decide_eq_true htest
  exact ⟨cfg, cxThreadpool_noTaskLost hrun hgranted hfreed, hcount, hcell⟩

end Cextras.Concurrency
