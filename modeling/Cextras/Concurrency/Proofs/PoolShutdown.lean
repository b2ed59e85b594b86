/-
How a shutdown ends. `cx_threadpool_cleanup` destroys the mutex of a worker
as soon as that worker has left, while those after it still look for tasks
in every queue. So a shutdown left to itself ends in one of two ways: the
pool is freed, all workers have left and all memory is back, or a worker is
about to lock a mutex that is destroyed already (`LocksDestroyed`). There is
no third way, such as a worker that sleeps through its end
(`cxThreadpoolCleanup_ends`).

`Closing` says how far the cleanup has come, and `Banked` what the pool's
machine holds.
-/
import Cextras.Concurrency.Proofs.PoolSettles
import Cextras.Memory.Proofs.PoolFootprint

namespace Cextras.Concurrency

open Lib Memory

variable {n w c v i : Nat} {s s' : Shared} {t u : Thread} {x : Choice}
  {cfg cfg' : Config Pc Shared} {mem : Mem} {oracle : Nat → Nat}

-- ============================================================== the cleanup

/-- The client is in `cx_threadpool_cleanup`. -/
def ClientPc.cleaning : ClientPc → Bool
  | .cleanStore => true
  | p => p.stopped

/-- The worker the cleanup has come to. -/
def ClientPc.reached : ClientPc → Option Nat
  | .cleanStore => some 0
  | .cleanLock i => some i
  | .cleanSignal i => some i
  | .cleanUnlock i => some i
  | .cleanJoin i => some i
  | .cleanDestroy i => some i
  | _ => none

/-- The worker the cleanup ends. -/
def ClientPc.visiting : ClientPc → Option Nat
  | .cleanSignal i => some i
  | .cleanUnlock i => some i
  | .cleanJoin i => some i
  | _ => none

/-- How far the cleanup has come. -/
structure Closing (n : Nat) (cfg : Config Pc Shared) : Prop where
  unopened : cfg.shared.book.cleaned = false →
    ∀ c, ClientPc.cleaning (cfg.pc (.client c)) = false
  sole : ∀ c d, ClientPc.cleaning (cfg.pc (.client c)) = true →
    ClientPc.cleaning (cfg.pc (.client d)) = true → c = d
  underway : cfg.shared.book.cleaned = true → cfg.shared.freed = false →
    ∃ c, ClientPc.cleaning (cfg.pc (.client c)) = true
  behind : ∀ c i, ClientPc.reached (cfg.pc (.client c)) = some i →
    ∀ v, cfg.shared.destroyed v = true → v < i
  within : ∀ c i, ClientPc.visiting (cfg.pc (.client c)) = some i → i < n
  left : ∀ w < n, cfg.pc (.worker w) = WorkerPc.exited →
    cfg.shared.exited w = true
  ended : cfg.shared.freed = true →
    ∀ w < n, cfg.pc (.worker w) = WorkerPc.exited

/-- What a client's step is to the cleanup. -/
structure CleanStep (n : Nat) (p p' : ClientPc) (s s' : Shared) : Prop where
  joins : p'.cleaning = true → p.cleaning = true
    ∨ s.book.cleaned = false ∧ s'.book.cleaned = true
  leaves : p.cleaning = true → p'.cleaning = true ∨ s'.freed = true
  called : s'.book.cleaned = true → s.book.cleaned = true ∨ p'.cleaning = true
  reached : ∀ i, p'.reached = some i →
    s'.destroyed = s.destroyed
        ∧ (p.reached = some i ∨ s.book.cleaned = false)
      ∨ ∃ j, p.reached = some j ∧ i = j + 1
        ∧ s'.destroyed = Function.update s.destroyed j true
  destroys : s'.destroyed = s.destroyed ∨ p.cleaning = true
  visits : ∀ i, p'.visiting = some i → p.visiting = some i ∨ i < n

/-- A step outside the cleanup. -/
theorem CleanStep.outside {p p' : ClientPc} (hp : p.cleaning = false)
    (hp' : p'.cleaning = false) (hdestroyed : s'.destroyed = s.destroyed)
    (hcleaned : s'.book.cleaned = s.book.cleaned) : CleanStep n p p' s s' := by
  refine ⟨?_, ?_, ?_, ?_, Or.inl hdestroyed, ?_⟩
  · intro h
    rw [hp'] at h
    cases h
  · intro h
    rw [hp] at h
    cases h
  · intro h
    rw [hcleaned] at h
    exact Or.inl h
  · intro i hi
    cases p' with
    | cleanStore => cases hp'
    | cleanLock i => cases hp'
    | cleanSignal i => cases hp'
    | cleanUnlock i => cases hp'
    | cleanJoin i => cases hp'
    | cleanDestroy i => cases hp'
    | _ => cases hi
  · intro i hi
    cases p' with
    | cleanSignal i => cases hp'
    | cleanUnlock i => cases hp'
    | cleanJoin i => cases hp'
    | _ => cases hi

/-- A step of the cleanup that destroys nothing. -/
theorem CleanStep.inside {p p' : ClientPc} (hp : p.cleaning = true)
    (hp' : p'.cleaning = true) (hdestroyed : s'.destroyed = s.destroyed)
    (hcleaned : s'.book.cleaned = s.book.cleaned)
    (hreached : ∀ i, p'.reached = some i → p.reached = some i)
    (hvisits : ∀ i, p'.visiting = some i → p.visiting = some i ∨ i < n) :
    CleanStep n p p' s s' :=
  ⟨fun _ => Or.inl hp, fun _ => Or.inl hp',
    fun h => Or.inl (hcleaned ▸ h),
    fun i hi => Or.inl ⟨hdestroyed, Or.inl (hreached i hi)⟩,
    Or.inl hdestroyed, hvisits⟩

theorem Shared.lock_destroyed {m : MutexId} (h : s.lock m t = some s') :
    s'.destroyed = s.destroyed := by
  obtain ⟨-, y, -, rfl⟩ := Shared.lock_cases h
  rfl

theorem Shared.lock_book {m : MutexId} (h : s.lock m t = some s') :
    s'.book.cleaned = s.book.cleaned := by
  obtain ⟨-, y, -, rfl⟩ := Shared.lock_cases h
  rfl

theorem ClientRule.cleanStep {p p' : ClientPc} (hr : ClientRule n c s p p' s') :
    CleanStep n p p' s s' := by
  cases hr with
  | cleanup hopen =>
      exact ⟨fun _ => Or.inr ⟨hopen, rfl⟩, nofun, fun _ => Or.inr rfl,
        fun i _ => Or.inl ⟨rfl, Or.inr hopen⟩, Or.inl rfl, nofun⟩
  | newLock hlock =>
      exact .outside rfl rfl (Shared.lock_destroyed hlock) (Shared.lock_book hlock)
  | queueLock hlock =>
      exact .outside rfl rfl (Shared.lock_destroyed hlock) (Shared.lock_book hlock)
  | @link task v =>
      refine .outside rfl rfl ?_ ?_
      · unfold Shared.appended
        split <;> rfl
      · rw [Shared.appended_book]
        exact Book.cleaned_modifyAt ..
  | addActive => exact .outside rfl rfl rfl (Book.cleaned_modifyAt ..)
  | queueUnlock => exact .outside rfl rfl rfl (Book.cleaned_modifyAt ..)
  | waitLock hlock =>
      exact .outside rfl rfl (Shared.lock_destroyed hlock) (Shared.lock_book hlock)
  | relock _ hlock =>
      exact .outside rfl rfl (Shared.lock_destroyed hlock) (Shared.lock_book hlock)
  | cleanStore => exact .inside rfl rfl rfl rfl (fun _ => id) nofun
  | cleanLock hi hlock =>
      refine .inside rfl rfl (Shared.lock_destroyed hlock)
        (Shared.lock_book hlock) (fun _ => id) ?_
      intro i' hi'
      cases hi'
      exact Or.inr hi
  | cleanEnd => exact .inside rfl rfl rfl rfl nofun nofun
  | cleanSignal => exact .inside rfl rfl rfl rfl (fun _ => id) fun _ => Or.inl
  | cleanUnlock => exact .inside rfl rfl rfl rfl (fun _ => id) fun _ => Or.inl
  | cleanJoin => exact .inside rfl rfl rfl rfl (fun _ => id) nofun
  | @cleanDestroy i =>
      refine ⟨fun _ => Or.inl rfl, fun _ => Or.inl rfl, Or.inl, ?_, Or.inr rfl,
        nofun⟩
      intro i' hi'
      cases hi'
      exact Or.inr ⟨i, rfl, rfl, rfl⟩
  | cleanFree =>
      exact ⟨nofun, fun _ => Or.inr rfl, Or.inl, nofun, Or.inl rfl, nofun⟩
  | _ => exact .outside rfl rfl rfl rfl

theorem WorkerRule.destroyed {p p' : WorkerPc} (hr : WorkerRule n w s p p' s') :
    s'.destroyed = s.destroyed := by
  cases hr with
  | findLock _ hlock => exact Shared.lock_destroyed hlock
  | waitLock hlock => exact Shared.lock_destroyed hlock
  | relock _ hlock => exact Shared.lock_destroyed hlock
  | freeLock hlock => exact Shared.lock_destroyed hlock
  | doneLock hlock => exact Shared.lock_destroyed hlock
  | _ => rfl

/-- A worker that is gone after its step said so. -/
theorem WorkerRule.left {p p' : WorkerPc} (hr : WorkerRule n w s p p' s')
    (hp' : p' = .exited) : s'.exited w = true := by
  rcases hr.sameEnd with - | ⟨-, -, -, -, hexited⟩
  · cases hr with
    | exit => exact Function.update_self ..
    | @doneSub done p' hif =>
        rw [hp'] at hif
        split at hif <;> cases hif
    | _ => cases hp'
  · rw [hexited]
    exact Function.update_self ..

theorem ClientPc.cleaning_of_reached {p : ClientPc} (h : p.reached = some i) :
    p.cleaning = true := by
  cases p with
  | cleanStore => rfl
  | cleanLock i => rfl
  | cleanSignal i => rfl
  | cleanUnlock i => rfl
  | cleanJoin i => rfl
  | cleanDestroy i => rfl
  | _ => cases h

-- ====================================================================== runs

theorem Closing.start (h : Started n mem oracle cfg) : Closing n cfg := by
  obtain ⟨taskPool, m, -, rfl⟩ := h
  refine ⟨fun _ _ => rfl, nofun, nofun, nofun, nofun, ?_, nofun⟩
  intro w hw hexited
  have hpc : (if w < n then WorkerPc.top else WorkerPc.exited) = .exited :=
    hexited
  rw [if_pos hw] at hpc
  cases hpc

/-- Once a worker is gone it stays so. -/
theorem Run.stays_exited (h : Run n mem oracle cfg)
    (hstep : (program n).step t x cfg = some cfg')
    (hfreed : cfg.shared.freed = true → ∀ w < n,
      cfg.pc (.worker w) = WorkerPc.exited)
    (hfreed' : cfg'.shared.freed = true) (hw : w < n) :
    cfg'.pc (.worker w) = WorkerPc.exited := by
  obtain ⟨p, s, hrun, -, -, hother⟩ := Program.step_cases hstep
  have hexited : cfg.pc (.worker w) = WorkerPc.exited := by
    cases hf : cfg.shared.freed with
    | true => exact hfreed hf w hw
    | false => exact ((Run.freeing h hstep hf hfreed').2 w hw).2
  by_cases ht : Thread.worker w = t
  · subst ht
    have hr : WorkerRule n w cfg.shared (cfg.pc (.worker w)) p s :=
      workerStep_rule hrun
    rw [hexited] at hr
    cases hr
  · rw [hother _ ht, hexited]

/-- A worker's step leaves the cleanup where it is. -/
theorem Closing.worker (h : Closing n cfg) (hrun : Run n mem oracle cfg)
    (hstep : (program n).step (.worker w) x cfg = some cfg') :
    Closing n cfg' := by
  have hended := fun hfreed' w hw =>
    Run.stays_exited (w := w) hrun hstep h.ended hfreed' hw
  obtain ⟨p, s, hone, hs, hp, hother⟩ := Program.step_cases hstep
  have hr : WorkerRule n w cfg.shared (cfg.pc (.worker w)) p s :=
    workerStep_rule hone
  have hclient : ∀ c, cfg'.pc (.client c) = cfg.pc (.client c) :=
    fun c => hother _ nofun
  refine ⟨?_, ?_, ?_, ?_, ?_, ?_, hended⟩
  · intro hopen c
    rw [hs, hr.cleaned] at hopen
    rw [hclient]
    exact h.unopened hopen c
  · intro c d hc hd
    rw [hclient] at hc hd
    exact h.sole c d hc hd
  · intro hcleaned hfreed
    rw [hs, hr.cleaned] at hcleaned
    rw [hs, hr.freed] at hfreed
    obtain ⟨c, hc⟩ := h.underway hcleaned hfreed
    exact ⟨c, by rw [hclient]; exact hc⟩
  · intro c i hi v hv
    rw [hs, hr.destroyed] at hv
    rw [hclient] at hi
    exact h.behind c i hi v hv
  · intro c i hi
    rw [hclient] at hi
    exact h.within c i hi
  · intro u hu hexited
    rw [hs]
    by_cases hw : u = w
    · subst hw
      rw [hp] at hexited
      exact hr.left hexited
    · rw [hother _ fun heq => hw (Thread.worker.inj heq)] at hexited
      refine (EndRely.of_step hone (u := .client 0) nofun).exited u ?_
      exact h.left u hu hexited

/-- A client's step is none of the cleanup, or takes it on. -/
theorem Closing.client (h : Closing n cfg) (hrun : Run n mem oracle cfg)
    (hstep : (program n).step (.client c) x cfg = some cfg') :
    Closing n cfg' := by
  have hended := fun hfreed' w hw =>
    Run.stays_exited (w := w) hrun hstep h.ended hfreed' hw
  obtain ⟨p, s, hone, hs, hp, hother⟩ := Program.step_cases hstep
  have hr : ClientRule n c cfg.shared (cfg.pc (.client c)) p s :=
    clientStep_rule hone
  have hclean := hr.cleanStep
  have hnone : cfg.shared.book.cleaned = false →
      ∀ v, cfg.shared.destroyed v = false := fun hopen =>
    (Run.open hrun).destroyed ((Run.ending hrun).1.started hopen)
  -- the client that moved, or one that stayed where it was
  have hwho : ∀ d, d = c ∧ cfg'.pc (.client d) = p
      ∨ d ≠ c ∧ cfg'.pc (.client d) = cfg.pc (.client d) := by
    intro d
    by_cases hd : d = c
    · subst hd
      exact Or.inl ⟨rfl, hp⟩
    · exact Or.inr ⟨hd, hother _ fun heq => hd (Thread.client.inj heq)⟩
  have hbefore : ∀ d, ClientPc.cleaning (cfg'.pc (.client d)) = true →
      ClientPc.cleaning (cfg.pc (.client d)) = true
        ∨ d = c ∧ cfg.shared.book.cleaned = false ∧ s.book.cleaned = true := by
    intro d hd
    rcases hwho d with ⟨rfl, hpc⟩ | ⟨-, hpc⟩
    · rw [hpc] at hd
      rcases hclean.joins hd with hin | hcall
      · exact Or.inl hin
      · exact Or.inr ⟨rfl, hcall⟩
    · rw [hpc] at hd
      exact Or.inl hd
  have hcleaned : s.book.cleaned = false → cfg.shared.book.cleaned = false := by
    intro hopen
    cases hc : cfg.shared.book.cleaned with
    | false => rfl
    | true =>
        rw [(program_onward hone).cleaned hc] at hopen
        cases hopen
  refine ⟨?_, ?_, ?_, ?_, ?_, ?_, hended⟩
  · intro hopen d
    rw [hs] at hopen
    by_contra hd
    rw [Bool.not_eq_false] at hd
    rcases hbefore d hd with hin | ⟨-, -, hcalled⟩
    · rw [h.unopened (hcleaned hopen)] at hin
      cases hin
    · rw [hopen] at hcalled
      cases hcalled
  · intro d e hd he
    rcases hbefore d hd with hd | ⟨rfl, hopen, -⟩
    · rcases hbefore e he with he | ⟨rfl, hopen, -⟩
      · exact h.sole d e hd he
      · rw [h.unopened hopen] at hd
        cases hd
    · rcases hbefore e he with he | ⟨rfl, -⟩
      · rw [h.unopened hopen] at he
        cases he
      · rfl
  · intro hcalled hfreed
    rw [hs] at hcalled hfreed
    rcases hclean.called hcalled with hcalled | hin
    · have hfreed₀ : cfg.shared.freed = false := by
        rcases hr.freed with hsame | ⟨hend, -⟩
        · rw [← hsame]
          exact hfreed
        · rw [hend] at hr
          cases hr
          cases hfreed
      obtain ⟨d, hd⟩ := h.underway hcalled hfreed₀
      refine ⟨d, ?_⟩
      rcases hwho d with ⟨rfl, hpc⟩ | ⟨-, hpc⟩
      · rw [hpc]
        refine (hclean.leaves hd).resolve_right fun hf => ?_
        rw [hfreed] at hf
        cases hf
      · rw [hpc]
        exact hd
    · exact ⟨c, by rw [hp]; exact hin⟩
  · intro d i hi v hv
    rw [hs] at hv
    rcases hwho d with ⟨rfl, hpc⟩ | ⟨hd, hpc⟩
    · rw [hpc] at hi
      rcases hclean.reached i hi with ⟨hsame, hreached | hopen⟩ | ⟨j, hj, rfl, hupd⟩
      · rw [hsame] at hv
        exact h.behind d i hreached v hv
      · rw [hsame, hnone hopen] at hv
        cases hv
      · rw [hupd, Function.update_apply] at hv
        split at hv
        · next heq =>
            subst heq
            exact Nat.lt_succ_self _
        · exact Nat.lt_succ_of_lt (h.behind d j hj v hv)
    · rw [hpc] at hi
      rcases hclean.destroys with hsame | hin
      · rw [hsame] at hv
        exact h.behind d i hi v hv
      · exact absurd (h.sole d c (ClientPc.cleaning_of_reached hi) hin) hd
  · intro d i hi
    rcases hwho d with ⟨rfl, hpc⟩ | ⟨-, hpc⟩
    · rw [hpc] at hi
      rcases hclean.visits i hi with hold | hlt
      · exact h.within d i hold
      · exact hlt
    · rw [hpc] at hi
      exact h.within d i hi
  · intro u hu hexited
    rw [hs, hr.sameEnd.1]
    rw [hother (.worker u) nofun] at hexited
    exact h.left u hu hexited

theorem Run.closing (h : Run n mem oracle cfg) : Closing n cfg := by
  induction h with
  | start h => exact .start h
  | @step cfg cfg' t x h _ hstep ih =>
      cases t with
      | worker w => exact ih.worker h hstep
      | client c => exact ih.client h hstep

-- =================================================================== memory

/-- All that is allocated is the task pool's. -/
def Banked (s : Shared) : Prop :=
  s.machine.Tidy ∧ PoolOwns s.taskPool s.machine.held

/-- What the task pool does with what is allocated. -/
theorem Banked.turns {α : Type} {f : C α} {r : α} {m' : Machine}
    {p : α → CxPreallocPool} (h : Banked s)
    (hf : ∀ g, PoolOwns s.taskPool g →
      f.Turns True g fun a g => PoolOwns (p a) g)
    (hrun : f.run s.machine = .ok r m') (hgranted : m'.refused = false) :
    m'.Tidy ∧ PoolOwns (p r) m'.held := by
  obtain ⟨htidy, howns⟩ := h
  obtain ⟨htidy', g, hg, hheld⟩ := hf _ howns 0 _ r m' htidy
    (zero_add _).symm hrun fun _ => hgranted
  rw [zero_add] at hheld
  exact ⟨htidy', hheld ▸ hg⟩

theorem Banked.still {α : Type} {f : C α} {r : α} {m' : Machine}
    (h : Banked s) (hf : f.Still) (hrun : f.run s.machine = .ok r m')
    (hgranted : m'.refused = false) : m'.Tidy ∧ PoolOwns s.taskPool m'.held :=
  h.turns (p := fun _ => s.taskPool) (fun _ hg => hf.turns fun _ _ => hg) hrun
    hgranted

theorem taskCall_still (task : Nat) : (taskCall task).Still := by
  unfold taskCall
  refine .bind (.load64 _) fun _ _ => ?_
  refine .bind (.load64 _) fun _ _ => ?_
  exact .pure trivial

theorem taskInit_still (task function arg : Nat) :
    (taskInit task function arg).Still := by
  unfold taskInit
  refine .bind (.store64 _ _) fun _ _ => ?_
  refine .bind (.store64 _ _) fun _ _ => ?_
  exact .store64 _ _

theorem Banked.lock {m : MutexId} (h : Banked s) (hlock : s.lock m t = some s') :
    Banked s' := by
  obtain ⟨-, y, -, rfl⟩ := Shared.lock_cases hlock
  exact h

theorem WorkerRule.banked {p p' : WorkerPc} (hr : WorkerRule n w s p p' s')
    (h : Banked s) (hok : s'.Intact) : Banked s' := by
  cases hr with
  | findLock _ hlock => exact h.lock hlock
  | waitLock hlock => exact h.lock hlock
  | relock _ hlock => exact h.lock hlock
  | run hrun => exact h.still (taskCall_still _) hrun hok.1
  | freeLock hlock => exact h.lock hlock
  | recycle hrun =>
      have hdone := h.turns (p := id)
        (fun _ hg => cxPreallocPoolRecycle_turns hg _) hrun hok.1
      exact hdone
  | doneLock hlock => exact h.lock hlock
  | _ => exact h

theorem ClientRule.banked {p p' : ClientPc} (hr : ClientRule n c s p p' s')
    (h : Banked s) (hok : s'.Intact) : Banked s' := by
  cases hr with
  | newLock hlock => exact h.lock hlock
  | newGet hrun =>
      have hdone := h.turns (p := Prod.snd) (fun _ => cxPreallocPoolGet_turns)
        hrun hok.1
      exact hdone
  | newNone hrun =>
      have hdone := h.turns (p := Prod.snd) (fun _ => cxPreallocPoolGet_turns)
        hrun hok.1
      exact hdone
  | newInit hrun => exact h.still (taskInit_still _ _ _) hrun hok.1
  | queueLock hlock => exact h.lock hlock
  | link =>
      unfold Shared.appended
      split
      · exact h
      · exact ⟨⟨h.1.solid, h.1.numbered, h.1.nodup⟩, h.2⟩
  | waitLock hlock => exact h.lock hlock
  | relock _ hlock => exact h.lock hlock
  | cleanLock _ hlock => exact h.lock hlock
  | cleanFree => cases hok.2
  | _ => exact h

theorem Run.banked (h : Run n mem oracle cfg) (hok : cfg.shared.Intact) :
    Banked cfg.shared := by
  refine (h.rely Shared.Intact Banked (fun _ _ _ => True) (fun _ _ _ => True) ?_
    ?_ ?_ (fun _ _ _ _ _ => id) hok).1
  · intro t x p s p' s' hrun hok
    cases t with
    | worker w => exact (workerStep_rule hrun).intact hok
    | client c => exact (clientStep_rule hrun).intact hok
  · intro cfg hstart
    obtain ⟨taskPool, m, hinit, rfl⟩ := hstart
    refine ⟨?_, fun _ => trivial⟩
    have hturns : (cxPreallocPoolInit2 8 taskSize).Turns False 0 PoolOwns :=
      cxPreallocPoolInit2_turns (by decide)
    obtain ⟨htidy, g, hg, hheld⟩ := hturns 0 _ taskPool m
      (Machine.tidy_boot mem oracle) rfl hinit nofun
    rw [zero_add] at hheld
    exact ⟨htidy, hheld ▸ hg⟩
  · intro t x p s p' s' hrun hok _ h _
    refine ⟨?_, trivial, fun _ _ => trivial⟩
    cases t with
    | worker w => exact (workerStep_rule hrun).banked h hok
    | client c => exact (clientStep_rule hrun).banked h hok

-- ===================================================================== rest

/-- A worker the cleanup has not come to is about to lock the mutex of one
that is gone. -/
def LocksDestroyed (n : Nat) (cfg : Config Pc Shared) : Prop :=
  ∃ w < n, ∃ j < n, cfg.pc (.worker w) = WorkerPc.findLock j
    ∧ (j + w) % n < w ∧ cfg.shared.destroyed ((j + w) % n) = true

/-- The pool while it is shut down, and what is known of it. -/
structure Stopping (n : Nat) (mem : Mem) (oracle : Nat → Nat)
    (cfg : Config Pc Shared) : Prop where
  run : Run n mem oracle cfg
  intact : cfg.shared.Intact
  cleaned : cfg.shared.book.cleaned = true

/-- A worker the cleanup waits for is there to leave, unless a mutex it needs
is gone. -/
theorem Stopping.joined (h : Stopping n mem oracle cfg) (hn : 0 < n)
    (hstuck : Stuck n cfg) (hp : cfg.pc (.client c) = ClientPc.cleanJoin i)
    (hexited : cfg.shared.exited i = false) : LocksDestroyed n cfg := by
  have hclosing := h.run.closing
  have hi : i < n := hclosing.within c i (by rw [hp]; rfl)
  have hbehind := hclosing.behind c i (by rw [hp]; rfl)
  have hthere : cfg.pc (.worker i) ≠ WorkerPc.exited := by
    intro hgone
    rw [hclosing.left i hi hgone] at hexited
    cases hexited
  obtain ⟨hs, hknows⟩ := Run.awake h.run
  have hk : ClientKnows c (cfg.pc (.client c)) cfg.shared := hknows (.client c)
  rw [hp] at hk
  have hawake := (hs.stopped i (hk.joining i rfl)).2
  by_contra hfine
  refine hawake (h.run.worker_goes h.intact hstuck
    (fun _ => h.run.unlocked h.intact hn hstuck) ?_ ?_ hthere).2
  · intro m hm
    cases hgone : cfg.shared.gone m with
    | false => rfl
    | true =>
        refine absurd ?_ hfine
        cases hpc : (cfg.pc (.worker i) : WorkerPc) with
        | findLock j =>
            rw [hpc] at hm
            simp only [WorkerPc.wanted] at hm
            split at hm
            · next hj =>
                cases hm
                exact ⟨i, hi, j, hj, hpc, hbehind _ hgone, hgone⟩
            · cases hm
        | waitLock =>
            rw [hpc] at hm
            cases hm
            exact absurd (hbehind i hgone) (Nat.lt_irrefl i)
        | freeLock task =>
            rw [hpc] at hm
            cases hm
            cases hgone
        | doneLock done =>
            rw [hpc] at hm
            cases hm
            cases hgone
        | _ =>
            rw [hpc] at hm
            cases hm
  · cases hgone : cfg.shared.gone (.queue i) with
    | false => rfl
    | true => exact absurd (hbehind i hgone) (Nat.lt_irrefl i)

/-- The cleanup can always give the pool back. -/
theorem Banked.cleanup (h : Banked s) :
    ∃ m', (cxPreallocPoolCleanup s.taskPool).run s.machine = .ok () m'
      ∧ m'.arena.blocks = [] ∧ m'.arrays = [] := by
  obtain ⟨htidy, howns⟩ := h
  obtain ⟨u, m', hrun, hheld, -⟩ :=
    (cxPreallocPoolCleanup_frees howns).run htidy (zero_add _).symm
  exact ⟨m', hrun, Machine.held_eq_zero hheld⟩

theorem Stopping.rest (h : Stopping n mem oracle cfg) (hn : 0 < n)
    (hset : (program n).Settled (poolFuel n) cfg) : LocksDestroyed n cfg := by
  have hstuck := Stuck.of_settled hset
  have hunlocked := h.run.unlocked h.intact hn hstuck
  have hclosing := h.run.closing
  obtain ⟨c, hc⟩ := hclosing.underway h.cleaned h.intact.2
  by_contra hfine
  have hblocked := (h.run.client_goes (c := c) h.intact hn hstuck
    (fun _ => hunlocked) ?_ ?_ ?_).1
  · rw [hblocked] at hc
    cases hc
  · intro m hm
    cases hpc : (cfg.pc (.client c) : ClientPc) with
    | cleanLock i =>
        have hbehind := hclosing.behind c i (by rw [hpc]; rfl)
        rw [hpc] at hm
        simp only [ClientPc.wanted] at hm
        split at hm
        · cases hm
          cases hgone : cfg.shared.gone (.queue i) with
          | false => rfl
          | true => exact absurd (hbehind i hgone) (Nat.lt_irrefl i)
        · cases hm
    | newLock function arg =>
        rw [hpc] at hc
        cases hc
    | queueLock task v =>
        rw [hpc] at hc
        cases hc
    | waitLock =>
        rw [hpc] at hc
        cases hc
    | _ =>
        rw [hpc] at hm
        cases hm
  · cases hpc : (cfg.pc (.client c) : ClientPc) with
    | cleanJoin i =>
        cases hexited : cfg.shared.exited i with
        | true => exact hexited
        | false => exact absurd (h.joined hn hstuck hpc hexited) hfine
    | cleanDestroy i => exact hunlocked _
    | cleanFree =>
        obtain ⟨m', hrun, -⟩ := (h.run.banked h.intact).cleanup
        exact Shared.isSome_run m' hrun
    | _ => trivial
  · intro hidle
    rw [hidle] at hc
    cases hc

/-- Left to itself, the shutdown comes to its end. -/
theorem Stopping.completes (h : Stopping n mem oracle cfg) (hn : 0 < n) :
    ∃ rest cfg', (program n).follow rest cfg = some cfg'
      ∧ paid (poolFuel n) rest = 0
      ∧ (cfg'.shared.machine.refused = true ∨ cfg'.shared.freed = true
        ∨ LocksDestroyed n cfg') := by
  obtain ⟨start, hstart, T, hT⟩ := Interleaved.moved h.run
  have houtside : ∀ t ∉ workersOf n ∪ T, Outside t (cfg.pc t) := by
    intro t ht
    rw [hT t fun hin => ht (Finset.mem_union_right _ hin)]
    obtain ⟨taskPool, m, -, rfl⟩ := hstart
    cases t with
    | client c => rfl
    | worker w =>
        refine if_neg fun hw => ht (Finset.mem_union_left _ ?_)
        exact Finset.mem_image_of_mem _ (Finset.mem_range.mpr hw)
  obtain ⟨rest, cfg', hrest, ⟨hrun', hcleaned⟩, hpaid, hset⟩ :=
    (program n).settlesOn (poolFuel n) (poolWork n (workersOf n ∪ T))
      (fun c => Run n mem oracle c ∧ c.shared.book.cleaned = true)
      (fun c => c.shared.Intact) Outside (workersOf n ∪ T)
      (fun t x p s => outside_waits) (by
      intro c c' t x ht hx hc _ hstep
      obtain ⟨p', s', hone, hs', -⟩ := Program.step_cases hstep
      refine ⟨⟨hc.1.step trivial hstep, ?_⟩, fun hok' => ?_⟩
      · rw [hs']
        exact (program_onward hone).cleaned hc.2
      · have hwork := (poolWork_step ht hc.1 hstep hok').2
        rw [hx] at hwork
        exact hwork) houtside ⟨h.run, h.cleaned⟩
  refine ⟨rest, cfg', hrest, hpaid, ?_⟩
  cases hrefused : cfg'.shared.machine.refused with
  | true => exact Or.inl rfl
  | false =>
      cases hfreed : cfg'.shared.freed with
      | true => exact Or.inr (Or.inl rfl)
      | false =>
          have hok : cfg'.shared.Intact := ⟨hrefused, hfreed⟩
          have hstopping : Stopping n mem oracle cfg' := ⟨hrun', hok, hcleaned⟩
          exact Or.inr (Or.inr (hstopping.rest hn (hset hok)))

/-- With the pool all memory is given back. -/
theorem Run.frees (h : Run n mem oracle cfg) (hok : cfg.shared.Intact)
    (hstep : (program n).step t x cfg = some cfg')
    (hfreed : cfg'.shared.freed = true) :
    cfg'.shared.machine.arena.blocks = [] ∧ cfg'.shared.machine.arrays = [] := by
  obtain ⟨p, s, hone, hs, -⟩ := Program.step_cases hstep
  rw [hs] at hfreed ⊢
  cases t with
  | worker w =>
      rw [(workerStep_rule hone).freed, hok.2] at hfreed
      cases hfreed
  | client c =>
      have hr := clientStep_rule hone
      rcases hr.freed with hsame | ⟨hp, -⟩
      · rw [hsame, hok.2] at hfreed
        cases hfreed
      · rw [hp] at hr
        obtain ⟨m, hclean, hdone⟩ := (h.banked hok).cleanup
        cases hr with
        | cleanFree hrun =>
            rw [hclean] at hrun
            cases hrun
            exact hdone

-- ================================================================== the end

/-- What is promised of a pool that is shut down. -/
structure PoolShutdown (n : Nat) (cfg : Config Pc Shared) : Prop where
  /-- when nobody goes on, the pool is freed or a mutex was destroyed too
  early -/
  ends : (program n).Settled (poolFuel n) cfg →
    cfg.shared.freed = true ∨ LocksDestroyed n cfg
  /-- left to itself it gets there, unless memory runs out -/
  completes : ∃ rest cfg', (program n).follow rest cfg = some cfg'
    ∧ paid (poolFuel n) rest = 0
    ∧ (cfg'.shared.machine.refused = true ∨ cfg'.shared.freed = true
      ∨ LocksDestroyed n cfg')
  /-- one worker alone is always joined -/
  alone : n = 1 → ¬ LocksDestroyed n cfg
  /-- a pool that is freed has no workers left -/
  left : cfg.shared.freed = true →
    ∀ w < n, cfg.pc (.worker w) = WorkerPc.exited
  /-- and in the step that frees it, all memory is given back -/
  frees : ∀ t x cfg', (program n).step t x cfg = some cfg' →
    cfg.shared.freed = false → cfg'.shared.freed = true →
    cfg'.shared.machine.arena.blocks = [] ∧ cfg'.shared.machine.arrays = []

/-- Every shutdown ends, in one of these ways. -/
theorem cxThreadpoolCleanup_ends (hn : 0 < n) (h : Run n mem oracle cfg)
    (hcleaned : cfg.shared.book.cleaned = true)
    (hgranted : cfg.shared.machine.refused = false) : PoolShutdown n cfg := by
  have hstopping : cfg.shared.freed = false → Stopping n mem oracle cfg :=
    fun hfreed => ⟨h, ⟨hgranted, hfreed⟩, hcleaned⟩
  refine ⟨?_, ?_, ?_, h.closing.ended, ?_⟩
  · intro hset
    cases hfreed : cfg.shared.freed with
    | true => exact Or.inl rfl
    | false => exact Or.inr ((hstopping hfreed).rest hn hset)
  · cases hfreed : cfg.shared.freed with
    | true => exact ⟨[], cfg, rfl, rfl, Or.inr (Or.inl hfreed)⟩
    | false => exact (hstopping hfreed).completes hn
  · intro hone hlocks
    obtain ⟨w, hw, j, -, -, hlt, -⟩ := hlocks
    omega
  · intro t x cfg' hstep hfreed hfreed'
    exact h.frees ⟨hgranted, hfreed⟩ hstep hfreed'

/-- Worker 1 has looked into its own queue when the pool is shut down. Worker
0 leaves and is joined, and its mutex is the next one that worker 1 locks. -/
theorem cxThreadpoolCleanup_ends_early : ∃ cfg,
    PoolShutdown 2 cfg ∧ LocksDestroyed 2 cfg
      ∧ cfg.pc (.client 0) = ClientPc.cleanJoin 1 := by
  obtain ⟨cfg, hrun, htest, -⟩ := run_of_playFrom 2
    (turnsOf (.worker 1) (List.replicate 4 .go)
      ++ turnsOf (.client 0) (.cleanup :: List.replicate 4 .go)
      ++ turnsOf (.worker 0) [.go]
      ++ turnsOf (.client 0) (List.replicate 5 .go))
    (fun _ => 0) (fun t => 1024 * (t + 1))
    (fun cfg => decide (cfg.shared.book.cleaned = true
      ∧ cfg.shared.machine.refused = false
      ∧ (cfg.pc (.worker 1) : WorkerPc) = .findLock 1
      ∧ cfg.shared.destroyed 0 = true
      ∧ (cfg.pc (.client 0) : ClientPc) = .cleanJoin 1))
    (by decide +kernel)
  obtain ⟨hcleaned, hgranted, hworker, hdestroyed, hclient⟩ :=
    of_decide_eq_true htest
  refine ⟨cfg, cxThreadpoolCleanup_ends Nat.two_pos hrun hcleaned hgranted, ?_,
    hclient⟩
  exact ⟨1, Nat.one_lt_two, 1, Nat.one_lt_two, hworker, Nat.zero_lt_one,
    hdestroyed⟩

end Cextras.Concurrency
