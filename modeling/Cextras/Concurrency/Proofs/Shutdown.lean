/-
What becomes of the tasks when the pool is shut down. The cleanup clears
`running`, and joins every worker before it frees the pool; a worker that
finds `running` cleared leaves, whatever is in the queues. So when the
cleanup returns, a task has been executed, once, if a worker took it, and
otherwise not at all; all that was accepted has been executed if no worker
left while any of it was in a queue (`cxThreadpoolCleanup_executes`).

A thread that looks for tasks or schedules one may come to lock a mutex
that the cleanup destroyed already (`LocksDestroyed`, PoolShutdown.lean).
That is undefined in C and no step here, so nothing is said of
interleavings that do it.
-/
import Cextras.Concurrency.Proofs.TaskRuns

namespace Cextras.Concurrency

open Lib Memory

variable {n w c j : Nat} {s s' : Shared} {t u : Thread} {b : Book}
  {cfg cfg₀ cfg' : Config Pc Shared} {mem : Mem} {oracle : Nat → Nat}
  {x : Choice}

-- ============================================================ what is kept

/-- What no step takes from a task. -/
structure TaskRecord.Kept (r r' : TaskRecord) : Prop where
  function : r'.function = r.function
  arg : r'.arg = r.arg
  accepted : r.accepted = true → r'.accepted = true
  taken : r.taker ≠ none → r'.taker ≠ none

theorem TaskRecord.Kept.refl (r : TaskRecord) : r.Kept r := ⟨rfl, rfl, id, id⟩

theorem TaskRecord.Kept.trans {r₁ r₂ r₃ : TaskRecord} (h : r₁.Kept r₂)
    (h' : r₂.Kept r₃) : r₁.Kept r₃ :=
  ⟨h'.function.trans h.function, h'.arg.trans h.arg,
    fun ha => h'.accepted (h.accepted ha), fun ht => h'.taken (h.taken ht)⟩

/-- The book goes on. -/
structure Book.Onward (b b' : Book) : Prop where
  count : b.count ≤ b'.count
  kept : ∀ j < b.count, (b.record j).Kept (b'.record j)
  cleaned : b.cleaned = true → b'.cleaned = true

theorem Book.Onward.refl (b : Book) : b.Onward b :=
  ⟨Nat.le_refl _, fun _ _ => .refl _, id⟩

theorem Book.Onward.trans {b₁ b₂ b₃ : Book} (h : b₁.Onward b₂)
    (h' : b₂.Onward b₃) : b₁.Onward b₃ := by
  refine ⟨Nat.le_trans h.count h'.count, ?_, fun hc => h'.cleaned (h.cleaned hc)⟩
  intro j hj
  exact (h.kept j hj).trans (h'.kept j (Nat.lt_of_lt_of_le hj h.count))

theorem Book.Onward.modify (b : Book) (i : Nat) {f : TaskRecord → TaskRecord}
    (hf : ∀ r : TaskRecord, r.Kept (f r)) : b.Onward (b.modify i f) := by
  refine ⟨Nat.le_refl _, fun j _ => ?_, id⟩
  show (b.record j).Kept (Function.update b.record i (f (b.record i)) j)
  by_cases hj : j = i
  · rw [hj, Function.update_self]
    exact hf _
  · rw [Function.update_of_ne hj]
    exact .refl _

theorem Book.Onward.modifyAt (b : Book) (cell : Nat)
    {f : TaskRecord → TaskRecord} (hf : ∀ r : TaskRecord, r.Kept (f r)) :
    b.Onward (b.modifyAt cell f) := by
  unfold Book.modifyAt
  split
  · exact .modify b _ hf
  · exact .refl b

theorem Book.Onward.moveModify (b : Book) (cell : Nat) (p : Place)
    {f : TaskRecord → TaskRecord} (hf : ∀ r : TaskRecord, r.Kept (f r)) :
    b.Onward ((b.move cell p).modifyAt cell f) := by
  have h := Book.Onward.modifyAt (b.move cell p) cell hf
  exact ⟨h.count, h.kept, h.cleaned⟩

theorem Book.Onward.create (b : Book) (cell function arg c : Nat) :
    b.Onward (b.create cell function arg c) := by
  refine ⟨Nat.le_succ _, fun j hj => ?_, id⟩
  show (b.record j).Kept (Function.update b.record b.count _ j)
  rw [Function.update_of_ne (Nat.ne_of_lt hj)]
  exact .refl _

theorem Book.Onward.lock {m : MutexId} (h : s.lock m t = some s') :
    s.book.Onward s'.book := by
  obtain ⟨-, y, -, rfl⟩ := Shared.lock_cases h
  exact .refl _

theorem WorkerRule.onward {p p' : WorkerPc} (hr : WorkerRule n w s p p' s') :
    s.book.Onward s'.book := by
  cases hr with
  | findLock _ hlock => exact .lock hlock
  | findGet => exact .moveModify _ _ _ fun _ => ⟨rfl, rfl, id, fun _ => nofun⟩
  | waitLock hlock => exact .lock hlock
  | waitGet => exact .moveModify _ _ _ fun _ => ⟨rfl, rfl, id, fun _ => nofun⟩
  | relock _ hlock => exact .lock hlock
  | run => exact .modifyAt _ _ fun _ => ⟨rfl, rfl, id, id⟩
  | finish => exact .modifyAt _ _ fun _ => ⟨rfl, rfl, id, id⟩
  | freeLock hlock => exact .lock hlock
  | recycle => exact ⟨Nat.le_refl _, fun _ _ => .refl _, id⟩
  | doneLock hlock => exact .lock hlock
  | @doneSub done =>
      cases done with
      | none => exact .refl _
      | some i =>
          show s.book.Onward (s.book.countOut i)
          exact .modify _ i fun _ => ⟨rfl, rfl, id, id⟩
  | _ => exact .refl _

theorem ClientRule.onward {p p' : ClientPc} (hr : ClientRule n c s p p' s') :
    s.book.Onward s'.book := by
  cases hr with
  | cleanup => exact ⟨Nat.le_refl _, fun _ _ => .refl _, fun _ => rfl⟩
  | wait => exact ⟨Nat.le_refl _, fun _ _ => .refl _, id⟩
  | newLock hlock => exact .lock hlock
  | newGet => exact .create ..
  | queueLock hlock => exact .lock hlock
  | @link task v =>
      rw [Shared.appended_book]
      exact .moveModify _ _ _ fun _ => ⟨rfl, rfl, id, id⟩
  | addActive => exact .modifyAt _ _ fun _ => ⟨rfl, rfl, id, id⟩
  | queueUnlock => exact .modifyAt _ _ fun _ => ⟨rfl, rfl, fun _ => rfl, id⟩
  | waitLock hlock => exact .lock hlock
  | relock _ hlock => exact .lock hlock
  | cleanLock _ hlock => exact .lock hlock
  | cleanSignal => exact ⟨Nat.le_refl _, fun _ _ => .refl _, id⟩
  | _ => exact .refl _

theorem program_onward {p p' : Pc t}
    (h : program n t x p s = some (p', s')) : s.book.Onward s'.book := by
  cases t with
  | worker w => exact (workerStep_rule h).onward
  | client c => exact (clientStep_rule h).onward

-- ================================================================== the end

/-- Nobody leaves before the cleanup. -/
structure Ending (s : Shared) : Prop where
  started : s.book.cleaned = false → s.running = true
  staying : s.running = true → ∀ w, s.exited w = false

/-- The number of workers a client has joined. -/
def ClientPc.joined (n : Nat) : ClientPc → Nat
  | .cleanLock i => i
  | .cleanSignal i => i
  | .cleanUnlock i => i
  | .cleanJoin i => i
  | .cleanDestroy i => i + 1
  | .cleanFree => n
  | _ => 0

/-- What a thread knows of the end. -/
def KnowsEnd (n : Nat) : (t : Thread) → Pc t → Shared → Prop
  | .worker w, p, s => s.exited w = true → p = WorkerPc.exited
  | .client _, p, s => (p = ClientPc.cleanStore → s.book.cleaned = true)
      ∧ ∀ i < ClientPc.joined n p, s.exited i = true

/-- What a thread relies on when others move. -/
structure EndRely (u : Thread) (s s' : Shared) : Prop where
  cleaned : s.book.cleaned = true → s'.book.cleaned = true
  exited : ∀ i, s.exited i = true → s'.exited i = true
  worker : ∀ w, u = .worker w → s'.exited w = s.exited w

theorem KnowsEnd.stable {p : Pc t} (hr : EndRely t s s')
    (h : KnowsEnd n t p s) : KnowsEnd n t p s' := by
  cases t with
  | worker w =>
      intro hexited
      rw [hr.worker w rfl] at hexited
      exact h hexited
  | client c =>
      exact ⟨fun hp => hr.cleaned (h.1 hp), fun i hi => hr.exited i (h.2 i hi)⟩

/-- The step leaves the end alone. -/
structure SameEnd (s s' : Shared) : Prop where
  running : s'.running = s.running
  exited : s'.exited = s.exited

theorem SameEnd.lock {m : MutexId} (h : s.lock m t = some s') :
    SameEnd s s' := by
  obtain ⟨-, y, -, rfl⟩ := Shared.lock_cases h
  exact ⟨rfl, rfl⟩

theorem WorkerRule.sameEnd {p p' : WorkerPc} (hr : WorkerRule n w s p p' s') :
    SameEnd s s' ∨ p = .top ∧ s.running = false ∧ p' = .exited
      ∧ s'.running = s.running
      ∧ s'.exited = Function.update s.exited w true := by
  cases hr with
  | exit hstop => exact Or.inr ⟨rfl, hstop, rfl, rfl, rfl⟩
  | findLock _ hlock => exact Or.inl (.lock hlock)
  | waitLock hlock => exact Or.inl (.lock hlock)
  | relock _ hlock => exact Or.inl (.lock hlock)
  | freeLock hlock => exact Or.inl (.lock hlock)
  | doneLock hlock => exact Or.inl (.lock hlock)
  | _ => exact Or.inl ⟨rfl, rfl⟩

theorem ClientRule.sameEnd {p p' : ClientPc} (hr : ClientRule n c s p p' s') :
    s'.exited = s.exited
      ∧ (s'.running = s.running ∨ p = .cleanStore) := by
  cases hr with
  | cleanStore => exact ⟨rfl, Or.inr rfl⟩
  | newLock hlock => exact ⟨(SameEnd.lock hlock).exited,
      Or.inl (SameEnd.lock hlock).running⟩
  | queueLock hlock => exact ⟨(SameEnd.lock hlock).exited,
      Or.inl (SameEnd.lock hlock).running⟩
  | @link task v =>
      unfold Shared.appended
      split
      · exact ⟨rfl, Or.inl rfl⟩
      · exact ⟨rfl, Or.inl rfl⟩
  | waitLock hlock => exact ⟨(SameEnd.lock hlock).exited,
      Or.inl (SameEnd.lock hlock).running⟩
  | relock _ hlock => exact ⟨(SameEnd.lock hlock).exited,
      Or.inl (SameEnd.lock hlock).running⟩
  | cleanLock _ hlock => exact ⟨(SameEnd.lock hlock).exited,
      Or.inl (SameEnd.lock hlock).running⟩
  | _ => exact ⟨rfl, Or.inl rfl⟩

theorem WorkerRule.knowsEnd {p p' : WorkerPc} (hr : WorkerRule n w s p p' s')
    (hk : KnowsEnd n (.worker w) p s) : KnowsEnd n (.worker w) p' s' := by
  intro hexited
  rcases hr.sameEnd with hsame | ⟨-, -, hp', -⟩
  · -- one that has left takes no step
    rw [hsame.exited] at hexited
    have hp : p = WorkerPc.exited := hk hexited
    subst hp
    cases hr
  · exact hp'

theorem ClientRule.knowsEnd {p p' : ClientPc} (hr : ClientRule n c s p p' s')
    (hk : KnowsEnd n (.client c) p s) : KnowsEnd n (.client c) p' s' := by
  obtain ⟨-, hjoined⟩ := hk
  have hexited := hr.sameEnd.1
  have hsame : ClientPc.joined n p' ≤ ClientPc.joined n p →
      ∀ i < ClientPc.joined n p', s'.exited i = true := by
    intro hle i hi
    rw [hexited]
    exact hjoined i (by omega)
  cases hr with
  | cleanup => exact ⟨fun _ => rfl, hsame (Nat.le_refl _)⟩
  | cleanEnd hend => exact ⟨nofun, hsame (Nat.not_lt.mp hend)⟩
  | @cleanJoin i hend =>
      refine ⟨nofun, ?_⟩
      intro i' hi'
      have hle : i' < i ∨ i' = i := Nat.lt_succ_iff_lt_or_eq.mp hi'
      rcases hle with hlt | rfl
      · exact hjoined i' hlt
      · exact hend
  | cleanFree => exact ⟨nofun, hsame (Nat.zero_le _)⟩
  | _ => exact ⟨nofun, hsame (Nat.le_refl _)⟩

theorem EndRely.of_step {p p' : Pc t} (h : program n t x p s = some (p', s'))
    (hu : u ≠ t) : EndRely u s s' := by
  have honward := program_onward h
  refine ⟨honward.cleaned, ?_, ?_⟩
  · intro i hi
    cases t with
    | worker w =>
        rcases (workerStep_rule h).sameEnd with hsame | ⟨-, -, -, -, hexited⟩
        · rw [hsame.exited]
          exact hi
        · rw [hexited, Function.update_apply]
          split
          · rfl
          · exact hi
    | client c =>
        rw [(clientStep_rule h).sameEnd.1]
        exact hi
  · intro w' hw'
    cases t with
    | worker w =>
        rcases (workerStep_rule h).sameEnd with hsame | ⟨-, -, -, -, hexited⟩
        · rw [hsame.exited]
        · rw [hexited, Function.update_of_ne]
          intro heq
          exact hu (hw'.trans (congrArg Thread.worker heq))
    | client c => rw [(clientStep_rule h).sameEnd.1]

theorem Ending.step {p p' : Pc t} (h : program n t x p s = some (p', s'))
    (hs : Ending s) (hk : KnowsEnd n t p s) : Ending s' := by
  have hcleaned : s'.book.cleaned = false → s.book.cleaned = false := by
    intro hopen
    cases hc : s.book.cleaned with
    | false => rfl
    | true =>
        rw [(program_onward h).cleaned hc] at hopen
        cases hopen
  cases t with
  | worker w =>
      rcases (workerStep_rule h).sameEnd with hsame | ⟨-, hstop, -, hrunning, -⟩
      · refine ⟨?_, ?_⟩
        · rw [hsame.running]
          exact fun hopen => hs.started (hcleaned hopen)
        · rw [hsame.running, hsame.exited]
          exact hs.staying
      · rw [← hrunning] at hstop
        refine ⟨?_, ?_⟩
        · intro hopen
          rw [hrunning]
          exact hs.started (hcleaned hopen)
        · intro hgoes
          cases hstop.symm.trans hgoes
  | client c =>
      have hr := clientStep_rule h
      obtain ⟨hexited, hrunning⟩ := hr.sameEnd
      rcases hrunning with hrunning | hp
      · refine ⟨?_, ?_⟩
        · rw [hrunning]
          exact fun hopen => hs.started (hcleaned hopen)
        · rw [hrunning, hexited]
          exact hs.staying
      · refine ⟨?_, ?_⟩
        · intro hopen
          cases (hk.1 hp).symm.trans (hcleaned hopen)
        · rw [hp] at hr
          cases hr
          exact nofun

theorem Run.ending (h : Run n mem oracle cfg) :
    Ending cfg.shared ∧ ∀ t, KnowsEnd n t (cfg.pc t) cfg.shared := by
  refine h.rely (fun _ => True) Ending (KnowsEnd n) EndRely
    (fun _ _ _ _ _ _ _ _ => trivial) ?_ ?_ (fun _ _ _ _ hr hk => hk.stable hr)
    trivial
  · intro c hc
    obtain ⟨taskPool, m, -, rfl⟩ := hc
    refine ⟨⟨fun _ => rfl, fun _ _ => rfl⟩, ?_⟩
    intro t
    cases t with
    | worker w => exact nofun
    | client c => exact ⟨nofun, nofun⟩
  · intro t x p s p' s' hrun _ _ hs hk
    refine ⟨hs.step hrun hk, ?_, fun u hu => .of_step hrun hu⟩
    cases t with
    | worker w => exact (workerStep_rule hrun).knowsEnd hk
    | client c => exact (clientStep_rule hrun).knowsEnd hk

-- ============================================================ what it leaves

/-- The interleavings that go on from a configuration. -/
abbrev From (n : Nat) (allowed : (t : Thread) → Pc t → Shared → Prop)
    (cfg₀ : Config Pc Shared) : Config Pc Shared → Prop :=
  Interleaved (program n) allowed (fun cfg => cfg = cfg₀)

/-- `cx_threadpool_schedule` returned 0 with the task in a queue. -/
def Accepted (cfg : Config Pc Shared) (j : Nat) : Prop :=
  j < cfg.shared.book.count ∧ (cfg.shared.book.record j).accepted = true

/-- A worker took the task off its queue. -/
def Taken (s : Shared) (j : Nat) : Prop := (s.book.record j).taker ≠ none

/-- The function of the task was called on its argument, once, and
returned. -/
def Executed (cfg₀ : Config Pc Shared) (s : Shared) (j : Nat) : Prop :=
  (s.book.record j).starts = [((cfg₀.shared.book.record j).function,
      (cfg₀.shared.book.record j).arg)]
    ∧ (s.book.record j).finished = true

/-- No worker leaves while a task that was accepted in `cfg₀` is in a
queue. -/
def Draining (cfg₀ : Config Pc Shared) : (t : Thread) → Pc t → Shared → Prop
  | .worker _, p, s => p = WorkerPc.top → s.running = false →
      ∀ j, Accepted cfg₀ j → Taken s j
  | .client _, _, _ => True

/-- What the cleanup leaves of the tasks accepted in `cfg₀`. -/
structure Shutdown (n : Nat) (cfg₀ cfg cfg' : Config Pc Shared) : Prop where
  /-- a task is executed if it was taken, and only then -/
  executed : ∀ j, Accepted cfg₀ j →
    (Executed cfg₀ cfg'.shared j ↔ Taken cfg'.shared j)
  dropped : ∀ j, Accepted cfg₀ j → ¬ Taken cfg'.shared j →
    (cfg'.shared.book.record j).starts = []
  /-- what was taken before is -/
  taken : ∀ j, Accepted cfg₀ j → Taken cfg₀.shared j →
    Executed cfg₀ cfg'.shared j
  /-- and everything is, if no worker left too early -/
  drained : From n (Draining cfg₀) cfg₀ cfg →
    ∀ j, Accepted cfg₀ j → Executed cfg₀ cfg'.shared j

theorem From.onward {allowed : (t : Thread) → Pc t → Shared → Prop}
    (h : From n allowed cfg₀ cfg) :
    cfg₀.shared.book.Onward cfg.shared.book := by
  induction h with
  | start heq =>
      rw [heq]
      exact .refl _
  | step _ _ hrun ih =>
      obtain ⟨p, s, hrun, rfl, -⟩ := Program.step_cases hrun
      exact ih.trans (program_onward hrun)

theorem Accepted.taken (hb : cfg₀.shared.book.Onward s.book)
    (hb' : s.book.Onward s'.book) (hj : Accepted cfg₀ j) (ht : Taken s j) :
    Taken s' j :=
  (hb'.kept j (Nat.lt_of_lt_of_le hj.1 hb.count)).taken ht

/-- Once a worker has left a pool that is drained, all is taken. -/
theorem From.drained (h : From n (Draining cfg₀) cfg₀ cfg)
    (hnone : ∀ w, cfg₀.shared.exited w = false) :
    ∀ w, cfg.shared.exited w = true → ∀ j, Accepted cfg₀ j →
      Taken cfg.shared j := by
  induction h with
  | start heq =>
      intro w hw
      rw [heq, hnone] at hw
      cases hw
  | @step c c' t x h hallowed hrun ih =>
      obtain ⟨p, s, hrun, rfl, -⟩ := Program.step_cases hrun
      have honward := program_onward hrun
      have hold : ∀ w, c.shared.exited w = true → ∀ j, Accepted cfg₀ j →
          Taken c'.shared j := fun w hw j hj =>
        hj.taken (From.onward h) honward (ih w hw j hj)
      intro w hw
      cases t with
      | worker w' =>
          rcases (workerStep_rule hrun).sameEnd with
            hsame | ⟨hp, hstop, -, -, hexited⟩
          · rw [hsame.exited] at hw
            exact hold w hw
          · intro j hj
            exact hj.taken (From.onward h) honward (hallowed hp hstop j hj)
      | client i =>
          rw [(clientStep_rule hrun).sameEnd.1] at hw
          exact hold w hw

theorem Shared.lock_freed {m : MutexId} (h : s.lock m t = some s') :
    s'.freed = s.freed := by
  obtain ⟨-, y, -, rfl⟩ := Shared.lock_cases h
  rfl

theorem WorkerRule.freed {p p' : WorkerPc} (hr : WorkerRule n w s p p' s') :
    s'.freed = s.freed := by
  cases hr with
  | findLock _ hlock => exact Shared.lock_freed hlock
  | waitLock hlock => exact Shared.lock_freed hlock
  | relock _ hlock => exact Shared.lock_freed hlock
  | freeLock hlock => exact Shared.lock_freed hlock
  | doneLock hlock => exact Shared.lock_freed hlock
  | _ => rfl

theorem ClientRule.freed {p p' : ClientPc} (hr : ClientRule n c s p p' s') :
    s'.freed = s.freed ∨ p = .cleanFree ∧ s'.book = s.book := by
  cases hr with
  | newLock hlock => exact Or.inl (Shared.lock_freed hlock)
  | queueLock hlock => exact Or.inl (Shared.lock_freed hlock)
  | @link task v =>
      left
      unfold Shared.appended
      split
      · rfl
      · rfl
  | waitLock hlock => exact Or.inl (Shared.lock_freed hlock)
  | relock _ hlock => exact Or.inl (Shared.lock_freed hlock)
  | cleanLock _ hlock => exact Or.inl (Shared.lock_freed hlock)
  | cleanFree => exact Or.inr ⟨rfl, rfl⟩
  | _ => exact Or.inl rfl

/-- The step in which the cleanup frees the pool comes after all workers
have left, and changes no task. -/
theorem Run.freeing (h : Run n mem oracle cfg)
    (hstep : (program n).step t x cfg = some cfg')
    (hfreed : cfg.shared.freed = false) (hfreed' : cfg'.shared.freed = true) :
    cfg'.shared.book = cfg.shared.book
      ∧ ∀ w < n, cfg.shared.exited w = true
        ∧ cfg.pc (.worker w) = WorkerPc.exited := by
  obtain ⟨p, s, hrun, rfl, -⟩ := Program.step_cases hstep
  have hk := (Run.ending h).2
  cases t with
  | worker w =>
      rw [(workerStep_rule hrun).freed, hfreed] at hfreed'
      cases hfreed'
  | client c =>
      rcases (clientStep_rule hrun).freed with hsame | ⟨hp, hbook⟩
      · rw [hsame, hfreed] at hfreed'
        cases hfreed'
      · refine ⟨hbook, ?_⟩
        intro w hw
        have hc : KnowsEnd n (.client c) (cfg.pc (.client c)) cfg.shared :=
          hk (.client c)
        rw [hp] at hc
        exact ⟨hc.2 w hw, hk (.worker w) (hc.2 w hw)⟩

/-- When all workers have left, a task was executed if and only if it was
taken. -/
theorem Sound.fate (hs : Sound n cfg.shared)
    (hk : ∀ t, Has n t (cfg.pc t) cfg.shared)
    (hleft : ∀ w < n, cfg.pc (.worker w) = WorkerPc.exited)
    (hj : j < cfg.shared.book.count) :
    ((cfg.shared.book.record j).taker ≠ none →
      (cfg.shared.book.record j).starts = [((cfg.shared.book.record j).function,
        (cfg.shared.book.record j).arg)]
      ∧ (cfg.shared.book.record j).finished = true)
    ∧ ((cfg.shared.book.record j).taker = none →
      (cfg.shared.book.record j).starts = []) := by
  have hordered := hs.booked.ordered j hj
  refine ⟨?_, ?_⟩
  · intro htaken
    obtain ⟨w, hw⟩ := Option.ne_none_iff_exists'.mp htaken
    have hhas : WorkerHas n w (cfg.pc (.worker w)) cfg.shared := hk (.worker w)
    have hpc : cfg.pc (.worker w) = WorkerPc.exited := by
      by_cases hlt : w < n
      · exact hleft w hlt
      · exact hhas.absent (Nat.not_lt.mp hlt)
    -- one that has left has nothing to count out
    have huncounted : (cfg.shared.book.record j).uncounted = true := by
      by_contra hun
      have htasks := hhas.tasks j hj hw (Bool.not_eq_true _ ▸ hun)
      rw [hpc] at htasks
      rcases htasks with hdone | ⟨hcell, -⟩
      · cases hdone
      · cases hcell
    have hfinished := hordered.uncounted huncounted
    exact ⟨(hordered.finished hfinished).2, hfinished⟩
  · intro hnone
    rcases hordered.called with hnil | ⟨htaken, -⟩
    · exact hnil
    · exact absurd hnone htaken

/-- A task that was accepted is taken in the end, if there is no worker or
one cannot leave before it is. -/
theorem Sound.taken_of_drained (hs : Sound n cfg.shared)
    (hk : ∀ t, Has n t (cfg.pc t) cfg.shared)
    (hleft : ∀ w < n, cfg.pc (.worker w) = WorkerPc.exited)
    (hj : j < cfg.shared.book.count)
    (haccepted : (cfg.shared.book.record j).accepted = true)
    (hdrained : 0 < n → Taken cfg.shared j) : Taken cfg.shared j := by
  have hordered := hs.booked.ordered j hj
  obtain ⟨q, hq⟩ := hs.stored
  obtain ⟨place, hplace⟩ := hs.whereabouts hq hk hj
    (hordered.linked (hordered.counted haccepted))
  cases place with
  | queue v => exact hdrained (Nat.zero_lt_of_lt hplace.1)
  | worker w =>
      obtain ⟨hw, hholding, -⟩ := hplace
      rw [hleft w hw] at hholding
      cases hholding
  | finished => exact (hordered.finished hplace).1

/-- What the cleanup leaves, whatever the interleaving: `cfg'` is where it
has freed the pool and returns. -/
theorem cxThreadpoolCleanup_executes (h₀ : Run n mem oracle cfg₀)
    (hopen : cfg₀.shared.book.cleaned = false)
    (hlater : From n (fun _ _ _ => True) cfg₀ cfg)
    (hstep : (program n).step t x cfg = some cfg')
    (hfreed : cfg.shared.freed = false) (hfreed' : cfg'.shared.freed = true)
    (hgranted : cfg.shared.machine.refused = false) :
    Shutdown n cfg₀ cfg cfg' := by
  have h : Run n mem oracle cfg := Interleaved.trans h₀ hlater
  obtain ⟨hs, hk⟩ := h.sound ⟨hgranted, hfreed⟩
  obtain ⟨hbook, hjoined⟩ := Run.freeing h hstep hfreed hfreed'
  have hleft := fun w hw => (hjoined w hw).2
  have honward := From.onward hlater
  have hlt : ∀ j, Accepted cfg₀ j → j < cfg.shared.book.count :=
    fun j hj => Nat.lt_of_lt_of_le hj.1 honward.count
  have hexecuted : ∀ j, Accepted cfg₀ j → Taken cfg.shared j →
      Executed cfg₀ cfg'.shared j := by
    intro j hj ht
    have hkept := honward.kept j hj.1
    have hfate := (hs.fate hk hleft (hlt j hj)).1 ht
    unfold Executed
    rw [hbook, ← hkept.function, ← hkept.arg]
    exact hfate
  have hdropped : ∀ j, Accepted cfg₀ j → ¬ Taken cfg.shared j →
      (cfg'.shared.book.record j).starts = [] := by
    intro j hj ht
    rw [hbook]
    exact (hs.fate hk hleft (hlt j hj)).2 (not_not.mp ht)
  have htaken : ∀ j, Taken cfg'.shared j ↔ Taken cfg.shared j := by
    intro j
    unfold Taken
    rw [hbook]
  refine ⟨?_, ?_, ?_, ?_⟩
  · intro j hj
    rw [htaken]
    refine ⟨?_, hexecuted j hj⟩
    intro hdone
    by_contra hnot
    have hstarts := hdone.1
    rw [hdropped j hj hnot] at hstarts
    cases hstarts
  · intro j hj
    rw [htaken]
    exact hdropped j hj
  · intro j hj ht
    exact hexecuted j hj (hj.taken (.refl _) honward ht)
  · intro hdraining j hj
    have hending := (Run.ending h₀).1
    have hnone := hending.staying (hending.started hopen)
    refine hexecuted j hj (hs.taken_of_drained hk hleft (hlt j hj)
      ((honward.kept j hj.1).accepted hj.2) ?_)
    intro hn
    exact hdraining.drained hnone 0 (hjoined 0 hn).1 j hj

/-- Play up to a configuration, on from there, and one step more. -/
theorem shutdown_of_play (n : Nat) (turns₀ turns : List (Thread × Choice))
    (t : Thread) (x : Choice) (mem : Mem) (oracle : Nat → Nat)
    (test : Config Pc Shared → Config Pc Shared → Config Pc Shared → Bool)
    (h : (((playFrom n turns₀ (Machine.boot mem oracle)).bind fun cfg₀ =>
      ((program n).follow turns cfg₀).bind fun cfg =>
        ((program n).step t x cfg).map fun cfg' => test cfg₀ cfg cfg')
      = some true)) :
    ∃ cfg₀ cfg cfg', Run n mem oracle cfg₀
      ∧ From n (fun _ _ _ => True) cfg₀ cfg
      ∧ (program n).step t x cfg = some cfg' ∧ test cfg₀ cfg cfg' = true := by
  obtain ⟨cfg₀, hplay, h⟩ := Option.bind_eq_some_iff.mp h
  obtain ⟨cfg, hfollow, h⟩ := Option.bind_eq_some_iff.mp h
  obtain ⟨cfg', hstep, htest⟩ := Option.map_eq_some_iff.mp h
  unfold playFrom at hplay
  split at hplay
  · next taskPool m hinit =>
      refine ⟨cfg₀, cfg, cfg', ?_, ?_, hstep, htest⟩
      · refine Interleaved.follow ?_ (fun _ _ _ _ => trivial) hplay
        exact .start ⟨taskPool, m, hinit, rfl⟩
      · exact Interleaved.follow (.start rfl) (fun _ _ _ _ => trivial) hfollow
  · cases hplay

/-- The turns of a cleanup of one worker that has left, but for the last. -/
def cleanupTurns : List (Thread × Choice) :=
  turnsOf (.client 0) (.cleanup :: List.replicate 4 .go)
    ++ turnsOf (.worker 0) [.go]
    ++ turnsOf (.client 0) (List.replicate 3 .go)

/-- A task the worker did before the cleanup was called. -/
theorem cxThreadpoolCleanup_executes_done : ∃ cfg₀ cfg cfg',
    Shutdown 1 cfg₀ cfg cfg' ∧ Accepted cfg₀ 0 ∧ Taken cfg₀.shared 0 := by
  obtain ⟨cfg₀, cfg, cfg', h₀, hlater, hstep, htest⟩ := shutdown_of_play 1
    (turnsOf (.client 0) (.schedule 1 2 :: List.replicate 12 .go)
      ++ turnsOf (.worker 0) (List.replicate 12 .go ++ [.wake 0, .go]))
    cleanupTurns (.client 0) .go (fun _ => 0) (fun t => 1024 * (t + 1))
    (fun cfg₀ cfg cfg' => decide (cfg₀.shared.book.cleaned = false
      ∧ 0 < cfg₀.shared.book.count
      ∧ (cfg₀.shared.book.record 0).accepted = true
      ∧ (cfg₀.shared.book.record 0).taker ≠ none
      ∧ cfg.shared.freed = false ∧ cfg.shared.machine.refused = false
      ∧ cfg'.shared.freed = true))
    (by decide +kernel)
  obtain ⟨hopen, hcount, haccepted, htaken, hfreed, hgranted, hfreed'⟩ :=
    of_decide_eq_true htest
  exact ⟨cfg₀, cfg, cfg', cxThreadpoolCleanup_executes h₀ hopen hlater hstep
    hfreed hfreed' hgranted, ⟨hcount, haccepted⟩, htaken⟩

/-- A task is accepted, the cleanup clears `running`, and the worker leaves
before it looked at its queue. -/
theorem cxThreadpoolCleanup_drops : ∃ cfg₀ cfg cfg',
    Run 1 (fun _ => 0) (fun t => 1024 * (t + 1)) cfg₀
      ∧ cfg₀.shared.book.cleaned = false ∧ Accepted cfg₀ 0
      ∧ From 1 (fun _ _ _ => True) cfg₀ cfg
      ∧ (program 1).step (.client 0) .go cfg = some cfg'
      ∧ cfg'.shared.freed = true
      ∧ (cfg'.shared.book.record 0).starts = [] := by
  obtain ⟨cfg₀, cfg, cfg', h₀, hlater, hstep, htest⟩ := shutdown_of_play 1
    (turnsOf (.client 0) (.schedule 1 2 :: List.replicate 12 .go))
    cleanupTurns (.client 0) .go (fun _ => 0) (fun t => 1024 * (t + 1))
    (fun cfg₀ _ cfg' => decide (cfg₀.shared.book.cleaned = false
      ∧ 0 < cfg₀.shared.book.count
      ∧ (cfg₀.shared.book.record 0).accepted = true
      ∧ cfg'.shared.freed = true ∧ (cfg'.shared.book.record 0).starts = []))
    (by decide +kernel)
  obtain ⟨hopen, hcount, haccepted, hfreed, hstarts⟩ := of_decide_eq_true htest
  exact ⟨cfg₀, cfg, cfg', h₀, hopen, ⟨hcount, haccepted⟩, hlater, hstep, hfreed,
    hstarts⟩

end Cextras.Concurrency
