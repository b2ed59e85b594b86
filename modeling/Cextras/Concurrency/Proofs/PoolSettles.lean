/-
A thread pool settles. Every schedule is as short as its calls and its
wake-ups for no reason allow, and while nobody shuts the pool down, it
comes to rest only when all that was linked into a queue is done: the
workers sleep, the queues are empty, and a call that has not returned is a
`cx_threadpool_wait` that sleeps although nothing is left to wait for. Of
these there are none as long as no two clients wait at once
(`cxThreadpool_settles`).
-/
import Cextras.Concurrency.Proofs.PoolWork
import Cextras.Concurrency.Proofs.TaskQueues
import Cextras.Concurrency.Proofs.WaitBarrier
import Cextras.Concurrency.Proofs.WaiterSleep
import Cextras.Concurrency.Proofs.Shutdown
import Cextras.Memory.Proofs.PoolServes

namespace Cextras.Concurrency

open Lib Memory

variable {n w c v : Nat} {s s' : Shared} {t u : Thread} {x : Choice}
  {cfg cfg' : Config Pc Shared} {mem : Mem} {oracle : Nat → Nat}

-- ============================================================ while it runs

/-- What holds while the pool runs. -/
structure Open (n : Nat) (cfg : Config Pc Shared) : Prop where
  destroyed : cfg.shared.running = true → ∀ v, cfg.shared.destroyed v = false
  staying : cfg.shared.running = true → ∀ w < n,
    cfg.pc (.worker w) ≠ WorkerPc.exited
  /-- only clients wait for the tasks -/
  clients : ∀ t ∈ cfg.shared.sync.asleep .wait, ∃ c, t = .client c

/-- A step leaves the pool open. -/
structure OpenStep (s s' : Shared) : Prop where
  running : s'.running = true → s.running = true
  destroyed : s'.running = true → s'.destroyed = s.destroyed
  clients : ∀ t ∈ s'.sync.asleep .wait,
    t ∈ s.sync.asleep .wait ∨ ∃ c, t = .client c

theorem OpenStep.of_eq (hrunning : s'.running = s.running)
    (hdestroyed : s'.destroyed = s.destroyed)
    (hasleep : s'.sync.asleep .wait = s.sync.asleep .wait) : OpenStep s s' := by
  refine ⟨fun h => hrunning ▸ h, fun _ => hdestroyed, ?_⟩
  intro t ht
  rw [hasleep] at ht
  exact Or.inl ht

theorem OpenStep.lock {m : MutexId} (h : s.lock m t = some s') :
    OpenStep s s' := by
  obtain ⟨-, y, hy, rfl⟩ := Shared.lock_cases h
  obtain ⟨-, rfl⟩ := Sync.lock_cases hy
  exact .of_eq rfl rfl rfl

theorem OpenStep.woken {y : Sync MutexId CondId Thread} {b : Book}
    (hsub : (y.asleep .wait).Sublist (s.sync.asleep .wait)) :
    OpenStep s { s with sync := y, book := b } :=
  ⟨id, fun _ => rfl, fun _ ht => Or.inl (hsub.subset ht)⟩

theorem WorkerRule.openStep {p p' : WorkerPc} (hr : WorkerRule n w s p p' s') :
    OpenStep s s' ∧ (s'.running = true → p ≠ .exited ∧ p' ≠ .exited) := by
  cases hr with
  | exit hstop =>
      refine ⟨.of_eq rfl rfl rfl, fun hon => ?_⟩
      have hon' : s.running = true := hon
      rw [hstop] at hon'
      cases hon'
  | findLock _ hlock => exact ⟨.lock hlock, fun _ => ⟨nofun, nofun⟩⟩
  | waitLock hlock => exact ⟨.lock hlock, fun _ => ⟨nofun, nofun⟩⟩
  | relock _ hlock => exact ⟨.lock hlock, fun _ => ⟨nofun, nofun⟩⟩
  | freeLock hlock => exact ⟨.lock hlock, fun _ => ⟨nofun, nofun⟩⟩
  | doneLock hlock => exact ⟨.lock hlock, fun _ => ⟨nofun, nofun⟩⟩
  | waitSleep =>
      have hother : (s.sync.sleep (.queue w) (.queue w) (.worker w)).asleep .wait
          = s.sync.asleep .wait :=
        Sync.sleep_of_ne (show CondId.wait ≠ .queue w from nofun) ..
      exact ⟨.of_eq rfl rfl hother, fun _ => ⟨nofun, nofun⟩⟩
  | spurious =>
      exact ⟨.woken (s.sync.wake_sublist _ _ _), fun _ => ⟨nofun, nofun⟩⟩
  | @doneSub done p' hp' =>
      refine ⟨.of_eq rfl rfl rfl, fun _ => ⟨nofun, ?_⟩⟩
      rw [hp']
      split <;> nofun
  | doneSignal hsignal =>
      exact ⟨.woken ((Sync.signal_frame hsignal).2 _), fun _ => ⟨nofun, nofun⟩⟩
  | _ => exact ⟨.of_eq rfl rfl rfl, fun _ => ⟨nofun, nofun⟩⟩

theorem ClientRule.openStep {p p' : ClientPc} (hr : ClientRule n c s p p' s')
    (hk : ClientKnows c p s) : OpenStep s s' := by
  cases hr with
  | newLock hlock => exact .lock hlock
  | queueLock hlock => exact .lock hlock
  | @link task v =>
      have hsync := s.appended_sync task v
      refine .of_eq ?_ ?_ (by rw [hsync])
      · unfold Shared.appended
        split <;> rfl
      · unfold Shared.appended
        split <;> rfl
  | signal hsignal => exact .woken ((Sync.signal_frame hsignal).2 _)
  | waitLock hlock => exact .lock hlock
  | waitSleep =>
      refine ⟨id, fun _ => rfl, fun t ht => ?_⟩
      have hself : (s.sleep .wait .wait (.client c)).sync.asleep .wait
          = .client c :: s.sync.asleep .wait := s.sync.sleep_self _ _ _
      rw [hself] at ht
      rcases List.mem_cons.mp ht with rfl | ht
      · exact Or.inr ⟨c, rfl⟩
      · exact Or.inl ht
  | spurious => exact .woken (s.sync.wake_sublist _ _ _)
  | relock _ hlock => exact .lock hlock
  | cleanStore => exact ⟨nofun, nofun, fun _ => Or.inl⟩
  | cleanLock _ hlock => exact .lock hlock
  | cleanSignal hsignal => exact .woken ((Sync.signal_frame hsignal).2 _)
  | cleanDestroy =>
      -- whoever destroys has stopped the pool
      refine ⟨id, fun hon => ?_, fun _ => Or.inl⟩
      have hon' : s.running = true := hon
      rw [hk.stopped rfl] at hon'
      cases hon'
  | _ => exact .of_eq rfl rfl rfl

theorem Run.open (h : Run n mem oracle cfg) : Open n cfg := by
  induction h with
  | start h =>
      obtain ⟨taskPool, m, -, rfl⟩ := h
      refine ⟨fun _ _ => rfl, fun _ w hw => ?_, nofun⟩
      show (if w < n then WorkerPc.top else WorkerPc.exited) ≠ _
      rw [if_pos hw]
      nofun
  | @step cfg cfg' t x h _ hrun ih =>
      have hk := (Run.awake h).2
      obtain ⟨p', s', hstep, rfl, hp', hother⟩ := Program.step_cases hrun
      have hopen : OpenStep cfg.shared cfg'.shared
          ∧ (cfg'.shared.running = true → ∀ w < n,
            cfg'.pc (.worker w) ≠ WorkerPc.exited) := by
        cases t with
        | worker w =>
            obtain ⟨hopen, hstay⟩ := (workerStep_rule hstep).openStep
            refine ⟨hopen, fun hon w' hw' => ?_⟩
            by_cases hw : w' = w
            · subst hw
              rw [hp']
              exact (hstay hon).2
            · rw [hother _ fun heq => hw (Thread.worker.inj heq)]
              exact ih.staying (hopen.running hon) w' hw'
        | client c =>
            have hopen := (clientStep_rule hstep).openStep (hk (.client c))
            refine ⟨hopen, fun hon w' hw' => ?_⟩
            rw [hother (.worker w') nofun]
            exact ih.staying (hopen.running hon) w' hw'
      refine ⟨?_, hopen.2, ?_⟩
      · intro hon v
        rw [hopen.1.destroyed hon]
        exact ih.destroyed (hopen.1.running hon) v
      · intro t ht
        rcases hopen.1.clients t ht with hold | hnew
        · exact ih.clients t hold
        · exact hnew

-- ============================================================== who goes on

/-- The mutex worker `w` takes next. -/
def WorkerPc.wanted (n w : Nat) : WorkerPc → Option MutexId
  | .findLock i => if i < n then some (.queue ((i + w) % n)) else none
  | .waitLock => some (.queue w)
  | .freeLock _ => some .taskPool
  | .doneLock _ => some .wait
  | _ => none

/-- The mutex a client takes next. -/
def ClientPc.wanted (n : Nat) : ClientPc → Option MutexId
  | .newLock _ _ => some .taskPool
  | .queueLock _ v => some (.queue v)
  | .waitLock => some .wait
  | .cleanLock i => if i < n then some (.queue i) else none
  | _ => none

/-- A worker goes on by itself, unless it has to wait for a mutex, sleeps or
has left. -/
theorem workerStep_goes {p : WorkerPc} (hp : p ≠ .exited)
    (hdefined : Defined n (.worker w) p s)
    (hlock : ∀ m, p.wanted n w = some m → ∃ s', s.lock m (.worker w) = some s')
    (hawake : p = .blocked → ∃ s',
      s.relock (.queue w) (.queue w) (.worker w) = some s')
    (hclients : ∀ t ∈ s.sync.asleep .wait, ∃ c, t = .client c) :
    ∃ x, poolFuel n x = 0 ∧ (workerStep n w x s p).isSome := by
  cases p with
  | exited => exact absurd rfl hp
  | top =>
      refine ⟨.go, rfl, ?_⟩
      simp only [workerStep]
      split <;> rfl
  | findLock i =>
      refine ⟨.go, rfl, ?_⟩
      by_cases hi : i < n
      · obtain ⟨s₁, hs₁⟩ := hlock (.queue ((i + w) % n)) (if_pos hi)
        simp only [workerStep, if_pos hi, hs₁]
        rfl
      · simp only [workerStep, if_neg hi]
        rfl
  | findGet i =>
      obtain ⟨r, hr⟩ := Option.isSome_iff_exists.mp hdefined
      exact ⟨.go, rfl, by simp [workerStep, hr]⟩
  | waitLock =>
      obtain ⟨s₁, hs₁⟩ := hlock (.queue w) rfl
      exact ⟨.go, rfl, by simp [workerStep, hs₁]⟩
  | waitGet =>
      obtain ⟨r, hr⟩ := Option.isSome_iff_exists.mp hdefined
      exact ⟨.go, rfl, by simp [workerStep, hr]⟩
  | blocked =>
      obtain ⟨s₁, hs₁⟩ := hawake rfl
      exact ⟨.go, rfl, by simp [workerStep, hs₁]⟩
  | run task =>
      obtain ⟨r, hr⟩ := Option.isSome_iff_exists.mp hdefined
      exact ⟨.go, rfl, by simp [workerStep, hr]⟩
  | freeLock task =>
      obtain ⟨s₁, hs₁⟩ := hlock .taskPool rfl
      exact ⟨.go, rfl, by simp [workerStep, hs₁]⟩
  | freeRecycle task =>
      obtain ⟨r, hr⟩ := Option.isSome_iff_exists.mp hdefined
      exact ⟨.go, rfl, by simp [workerStep, hr]⟩
  | doneLock done =>
      obtain ⟨s₁, hs₁⟩ := hlock .wait rfl
      exact ⟨.go, rfl, by simp [workerStep, hs₁]⟩
  | doneSignal =>
      -- somebody who waits is woken, if anybody does
      cases hasleep : s.sync.asleep .wait with
      | nil => exact ⟨.wake 0, rfl, by
          simp [workerStep, Shared.signal, Sync.signal, hasleep]⟩
      | cons t rest =>
          obtain ⟨c, rfl⟩ := hclients t (by rw [hasleep]; exact List.mem_cons_self)
          exact ⟨.wake c, rfl, by
            simp [workerStep, Shared.signal, Sync.signal, hasleep]⟩
  | _ => exact ⟨.go, rfl, rfl⟩

/-- Whom a signal is meant for can be woken. -/
theorem Shared.signal_worker (s : Shared) (v : Nat)
    (honly : ∀ t ∈ s.sync.asleep (.queue v), t = .worker v) :
    ∃ s', s.signal (.queue v) (.worker v) = some s' := by
  unfold Shared.signal Sync.signal
  cases hasleep : s.sync.asleep (.queue v) with
  | nil => exact ⟨_, rfl⟩
  | cons t rest =>
      obtain rfl : t = .worker v :=
        honly t (by rw [hasleep]; exact List.mem_cons_self)
      refine ⟨{ s with sync := s.sync.wake (.queue v) (.worker v) }, ?_⟩
      rw [if_neg (List.cons_ne_nil _ _), if_pos List.mem_cons_self]
      rfl

/-- What the cleanup waits for is there. -/
def ClientPc.CleansOn (s : Shared) : ClientPc → Prop
  | .cleanJoin i => s.exited i = true
  | .cleanDestroy i => s.sync.owner (.queue i) = none
  | .cleanFree => (s.run (cxPreallocPoolCleanup s.taskPool)).isSome
  | _ => True

/-- A client goes on by itself, unless it has to wait for a mutex or for a
worker's end, sleeps or is between calls. -/
theorem clientStep_goes {p : ClientPc} (hp : p ≠ .idle) (hn : 0 < n)
    (hfreed : s.freed = false)
    (hget : (s.run (cxPreallocPoolGet s.taskPool)).isSome)
    (hdefined : Defined n (.client c) p s)
    (hlock : ∀ m, p.wanted n = some m → ∃ s', s.lock m (.client c) = some s')
    (hawake : p = .blocked → ∃ s', s.relock .wait .wait (.client c) = some s')
    (hclean : p.CleansOn s)
    (honly : ∀ v, ∀ t ∈ s.sync.asleep (.queue v), t = .worker v)
    (hscan : Unscanned (.client c) p) :
    ∃ x, poolFuel n x = 0 ∧ (clientStep n c x s p).isSome := by
  cases p with
  | idle => exact absurd rfl hp
  | newLock function arg =>
      obtain ⟨s₁, hs₁⟩ := hlock .taskPool rfl
      exact ⟨.go, rfl, by simp [clientStep, hs₁]⟩
  | newGet function arg =>
      obtain ⟨r, hr⟩ := Option.isSome_iff_exists.mp hget
      exact ⟨.go, rfl, by simp [clientStep, hr]⟩
  | newInit function arg task =>
      obtain ⟨r, hr⟩ := Option.isSome_iff_exists.mp hdefined
      exact ⟨.go, rfl, by simp [clientStep, hr]⟩
  | scan task i worker len =>
      refine ⟨.go, rfl, ?_⟩
      simp only [clientStep, hfreed, Bool.false_eq_true, if_false]
      by_cases hi : i < n
      · rw [if_pos hi]
        split <;> rfl
      · rw [if_neg hi]
        cases worker with
        | some v => rfl
        | none =>
            -- the first worker looked at is chosen
            obtain ⟨rfl, -⟩ := hscan
            exact absurd hn hi
  | queueLock task v =>
      obtain ⟨s₁, hs₁⟩ := hlock (.queue v) rfl
      exact ⟨.go, rfl, by simp [clientStep, hs₁]⟩
  | link task v =>
      obtain ⟨r, hr⟩ := Option.isSome_iff_exists.mp hdefined
      exact ⟨.go, rfl, by simp [clientStep, hr]⟩
  | signal task v =>
      obtain ⟨s₁, hs₁⟩ := s.signal_worker v (honly v)
      exact ⟨.go, rfl, by simp [clientStep, hs₁]⟩
  | waitLock =>
      obtain ⟨s₁, hs₁⟩ := hlock .wait rfl
      exact ⟨.go, rfl, by simp [clientStep, hs₁]⟩
  | blocked =>
      obtain ⟨s₁, hs₁⟩ := hawake rfl
      exact ⟨.go, rfl, by simp [clientStep, hs₁]⟩
  | cleanLock i =>
      refine ⟨.go, rfl, ?_⟩
      by_cases hi : i < n
      · obtain ⟨s₁, hs₁⟩ := hlock (.queue i) (if_pos hi)
        simp only [clientStep, if_pos hi, hs₁]
        rfl
      · simp only [clientStep, if_neg hi]
        rfl
  | cleanSignal i =>
      obtain ⟨s₁, hs₁⟩ := s.signal_worker i (honly i)
      exact ⟨.go, rfl, by simp [clientStep, hs₁]⟩
  | cleanJoin i =>
      have hexited : s.exited i = true := hclean
      exact ⟨.go, rfl, by simp [clientStep, hexited]⟩
  | cleanDestroy i =>
      have howner : s.sync.owner (.queue i) = none := hclean
      exact ⟨.go, rfl, by simp [clientStep, howner]⟩
  | cleanFree =>
      obtain ⟨r, hr⟩ := Option.isSome_iff_exists.mp hclean
      exact ⟨.go, rfl, by simp [clientStep, hr]⟩
  | _ => exact ⟨.go, rfl, rfl⟩

/-- Whoever is about to take a mutex holds none. -/
theorem WorkerPc.held_of_wanted {p : WorkerPc} {m : MutexId}
    (h : p.wanted n w = some m) : p.held n w = none := by
  cases p with
  | findLock i => rfl
  | waitLock => rfl
  | freeLock task => rfl
  | doneLock done => rfl
  | _ => cases h

theorem ClientPc.held_of_wanted {p : ClientPc} {m : MutexId}
    (h : p.wanted n = some m) : p.held = none := by
  cases p with
  | newLock function arg => rfl
  | queueLock task v => rfl
  | waitLock => rfl
  | cleanLock i => rfl
  | _ => cases h

/-- Whoever holds a mutex is not at a point where the cleanup waits. -/
theorem ClientPc.cleansOn_of_held {p : ClientPc} (h : p.held ≠ none) :
    p.CleansOn s := by
  cases p with
  | cleanJoin i => exact absurd rfl h
  | cleanDestroy i => exact absurd rfl h
  | cleanFree => exact absurd rfl h
  | _ => trivial

/-- A client that has not stopped the pool waits for none of it. -/
theorem ClientPc.cleansOn_of_open {p : ClientPc} (h : p.stopped = false) :
    p.CleansOn s := by
  cases p with
  | cleanJoin i => cases h
  | cleanDestroy i => cases h
  | cleanFree => cases h
  | _ => trivial

-- ================================================================= at rest

/-- Where a pool of `n` workers comes to rest. -/
structure PoolRest (n : Nat) (cfg : Config Pc Shared) : Prop where
  workers : ∀ w < n, cfg.pc (.worker w) = WorkerPc.blocked
    ∧ .worker w ∈ cfg.shared.sync.asleep (.queue w)
  clients : ∀ c, cfg.pc (.client c) = ClientPc.idle
    ∨ cfg.pc (.client c) = ClientPc.blocked
      ∧ .client c ∈ cfg.shared.sync.asleep .wait
  queues : ∀ v < n, (cfg.shared.workers v).head = 0
  active : cfg.shared.activeTasks = 0
  /-- what was linked into a queue was run, once -/
  done : ∀ i < cfg.shared.book.count, (cfg.shared.book.record i).linked = true →
    (cfg.shared.book.record i).finished = true
      ∧ (cfg.shared.book.record i).starts
        = [((cfg.shared.book.record i).function,
          (cfg.shared.book.record i).arg)]

/-- Nobody goes on by itself. -/
structure Stuck (n : Nat) (cfg : Config Pc Shared) : Prop where
  worker : ∀ w, ¬ ∃ x, poolFuel n x = 0
    ∧ (workerStep n w x cfg.shared (cfg.pc (.worker w))).isSome
  client : ∀ c, ¬ ∃ x, poolFuel n x = 0
    ∧ (clientStep n c x cfg.shared (cfg.pc (.client c))).isSome

theorem Stuck.of_settled (hset : (program n).Settled (poolFuel n) cfg) :
    Stuck n cfg := by
  have hnone : ∀ t x, poolFuel n x = 0 →
      ¬ (program n t x (cfg.pc t) cfg.shared).isSome := by
    intro t x hx hsome
    obtain ⟨r, hr⟩ := Option.isSome_iff_exists.mp hsome
    have hstep : (program n).step t x cfg = some _ :=
      Option.map_eq_some_iff.mpr ⟨r, hr, rfl⟩
    rw [hset t x hx] at hstep
    cases hstep
  refine ⟨?_, ?_⟩
  · intro w hr
    obtain ⟨x, hx, hsome⟩ := hr
    exact hnone (.worker w) x hx hsome
  · intro c hr
    obtain ⟨x, hx, hsome⟩ := hr
    exact hnone (.client c) x hx hsome

theorem Sound.get_some (hs : Sound n s) (hgranted : s.machine.refused = false) :
    (s.run (cxPreallocPoolGet s.taskPool)).isSome := by
  obtain ⟨q, hq⟩ := hs.stored
  rcases hq.get_defined with hrefused | hsome
  · obtain ⟨chunks, free, live, hpool, -⟩ := hq.pool
    obtain ⟨p', m', hrun, -⟩ := cxPreallocPoolGet_refused hpool hgranted hrefused
    exact Shared.isSome_run m' hrun
  · exact hsome

theorem Shared.lock_free {m : MutexId} (hgone : s.gone m = false)
    (hfree : s.sync.owner m = none) (t : Thread) :
    ∃ s', s.lock m t = some s' := by
  unfold Shared.lock Sync.lock
  rw [hgone, hfree]
  exact ⟨_, rfl⟩

theorem Shared.relock_free {k : CondId} {m : MutexId} (hgone : s.gone m = false)
    (hfree : s.sync.owner m = none) (hawake : t ∉ s.sync.asleep k) :
    ∃ s', s.relock k m t = some s' := by
  unfold Shared.relock Sync.relock Sync.lock
  rw [hgone, if_neg hawake, hfree]
  exact ⟨_, rfl⟩

/-- The pool while it runs, and what is known of it. -/
structure Running (n : Nat) (mem : Mem) (oracle : Nat → Nat)
    (cfg : Config Pc Shared) : Prop where
  run : Run n mem oracle cfg
  intact : cfg.shared.Intact
  uncleaned : cfg.shared.book.cleaned = false

theorem Running.running (h : Running n mem oracle cfg) :
    cfg.shared.running = true :=
  (Run.ending h.run).1.started h.uncleaned

theorem Running.gone (h : Running n mem oracle cfg) (m : MutexId) :
    cfg.shared.gone m = false := by
  cases m with
  | queue w => exact (Run.open h.run).destroyed h.running w
  | _ => rfl

theorem Running.closed (h : Running n mem oracle cfg) (c : Nat) :
    ClientPc.stopped (cfg.pc (.client c)) = false := by
  have hk : ClientKnows c (cfg.pc (.client c)) cfg.shared :=
    (Run.awake h.run).2 (.client c)
  by_contra hstopped
  have hoff := hk.stopped (Bool.not_eq_false _ ▸ hstopped)
  rw [h.running] at hoff
  cases hoff

/-- What a worker that does not go on by itself is waiting for. -/
theorem Run.worker_goes (h : Run n mem oracle cfg) (hok : cfg.shared.Intact)
    (hstuck : Stuck n cfg)
    (hfree : WorkerPc.held n w (cfg.pc (.worker w)) = none →
      ∀ m, cfg.shared.sync.owner m = none)
    (hthere : ∀ m, WorkerPc.wanted n w (cfg.pc (.worker w)) = some m →
      cfg.shared.gone m = false)
    (hself : cfg.shared.gone (.queue w) = false)
    (hp : cfg.pc (.worker w) ≠ WorkerPc.exited) :
    cfg.pc (.worker w) = WorkerPc.blocked
      ∧ .worker w ∈ cfg.shared.sync.asleep (.queue w) := by
  obtain ⟨hs, hk⟩ := h.sound hok
  by_contra hsleep
  refine hstuck.worker w (workerStep_goes hp (hs.defined (hk (.worker w))) ?_ ?_
    (Run.open h).clients)
  · intro m hm
    exact Shared.lock_free (hthere m hm)
      (hfree (WorkerPc.held_of_wanted hm) m) _
  · intro hblocked
    refine Shared.relock_free hself (hfree (by rw [hblocked]; rfl) _) ?_
    exact fun ha => hsleep ⟨hblocked, ha⟩

theorem Run.client_goes (h : Run n mem oracle cfg) (hok : cfg.shared.Intact)
    (hn : 0 < n) (hstuck : Stuck n cfg)
    (hfree : ClientPc.held (cfg.pc (.client c)) = none →
      ∀ m, cfg.shared.sync.owner m = none)
    (hthere : ∀ m, ClientPc.wanted n (cfg.pc (.client c)) = some m →
      cfg.shared.gone m = false)
    (hclean : ClientPc.CleansOn cfg.shared (cfg.pc (.client c)))
    (hp : cfg.pc (.client c) ≠ ClientPc.idle) :
    cfg.pc (.client c) = ClientPc.blocked
      ∧ .client c ∈ cfg.shared.sync.asleep .wait := by
  obtain ⟨hs, hk⟩ := h.sound hok
  obtain ⟨l, hlog⟩ := Run.logged h
  by_contra hsleep
  refine hstuck.client c (clientStep_goes hp hn hok.2 (hs.get_some hok.1)
    (hs.defined (hk (.client c))) ?_ ?_ hclean (Run.awake h).1.only
    ((LoggedRun.inOrder hlog hok).2 (.client c)).unscanned)
  · intro m hm
    exact Shared.lock_free (hthere m hm)
      (hfree (ClientPc.held_of_wanted hm) m) _
  · intro hblocked
    refine Shared.relock_free rfl (hfree (by rw [hblocked]; rfl) _) ?_
    exact fun ha => hsleep ⟨hblocked, ha⟩

/-- When nobody goes on, no mutex is held: whoever holds one goes on. -/
theorem Run.unlocked (h : Run n mem oracle cfg) (hok : cfg.shared.Intact)
    (hn : 0 < n) (hstuck : Stuck n cfg) (m : MutexId) :
    cfg.shared.sync.owner m = none := by
  have hknows := (Run.awake h).2
  cases howner : cfg.shared.sync.owner m with
  | none => rfl
  | some u =>
      cases u with
      | worker w =>
          have hk : WorkerKnows n w (cfg.pc (.worker w)) cfg.shared :=
            hknows (.worker w)
          have hheld := (hk.holds m).mp howner
          refine absurd (hstuck.worker w) (not_not.mpr ?_)
          obtain ⟨hs, hhas⟩ := h.sound hok
          refine workerStep_goes ?_ (hs.defined (hhas (.worker w))) ?_ ?_
            (Run.open h).clients
          · intro hexited
            rw [hexited] at hheld
            cases hheld
          · intro m' hm'
            rw [WorkerPc.held_of_wanted hm'] at hheld
            cases hheld
          · intro hblocked
            rw [hblocked] at hheld
            cases hheld
      | client c =>
          have hk : ClientKnows c (cfg.pc (.client c)) cfg.shared :=
            hknows (.client c)
          have hheld := (hk.holds m).mp howner
          have hblocked := (h.client_goes hok hn hstuck
            (fun hnone => by rw [hnone] at hheld; cases hheld)
            (fun m' hm' => by
              rw [ClientPc.held_of_wanted hm'] at hheld
              cases hheld)
            (ClientPc.cleansOn_of_held (by rw [hheld]; nofun))
            (fun hidle => by rw [hidle] at hheld; cases hheld)).1
          rw [hblocked] at hheld
          cases hheld

theorem Running.unlocked (h : Running n mem oracle cfg) (hn : 0 < n)
    (hstuck : Stuck n cfg) (m : MutexId) : cfg.shared.sync.owner m = none :=
  h.run.unlocked h.intact hn hstuck m

theorem Running.rest (h : Running n mem oracle cfg) (hn : 0 < n)
    (hset : (program n).Settled (poolFuel n) cfg) : PoolRest n cfg := by
  have hstuck := Stuck.of_settled hset
  have hunlocked := h.unlocked hn hstuck
  obtain ⟨hs, hk⟩ := h.run.sound h.intact
  have hworkers : ∀ w < n, cfg.pc (.worker w) = WorkerPc.blocked
      ∧ .worker w ∈ cfg.shared.sync.asleep (.queue w) := fun w hw =>
    h.run.worker_goes h.intact hstuck (fun _ => hunlocked) (fun m _ => h.gone m)
      (h.gone _) ((Run.open h.run).staying h.running w hw)
  have hclients : ∀ c, cfg.pc (.client c) = ClientPc.idle
      ∨ cfg.pc (.client c) = ClientPc.blocked
        ∧ .client c ∈ cfg.shared.sync.asleep .wait := fun c =>
    Classical.or_iff_not_imp_left.mpr
      (h.run.client_goes h.intact hn hstuck (fun _ => hunlocked)
        (fun m _ => h.gone m) (ClientPc.cleansOn_of_open (h.closed c)))
  have hqueues : ∀ v < n, (cfg.shared.workers v).head = 0 := by
    intro v hv
    rcases (Run.awake h.run).1.empty v (hworkers v hv).2 with hhead | ⟨c, hc⟩
    · exact hhead
    · rw [hunlocked] at hc
      cases hc
  refine ⟨hworkers, hclients, hqueues, ?_, ?_⟩
  · have hnone : ∀ c, ClientPc.scheduling (cfg.pc (.client c)) = none := by
      intro c
      rcases hclients c with hidle | ⟨hblocked, -⟩
      · rw [hidle]
        rfl
      · rw [hblocked]
        rfl
    have hbusy : (Finset.range n).filter (fun w =>
        WorkerPc.busy (cfg.pc (.worker w)) = true) = ∅ := by
      refine Finset.filter_eq_empty_iff.mpr fun w hw => ?_
      rw [(hworkers w (Finset.mem_range.mp hw)).1]
      nofun
    have hcount := (cxThreadpoolWait_barrier h.run h.intact.1 h.intact.2).count
      hnone (fun _ => []) fun v hv => by
        rw [hqueues v hv]
        exact .nil
    rw [hcount, hbusy]
    simp
  · intro i hi hlinked
    obtain ⟨q, hq⟩ := hs.stored
    have hfinished : (cfg.shared.book.record i).finished = true := by
      obtain ⟨place, hat⟩ := hs.whereabouts hq hk hi hlinked
      cases place with
      | queue v =>
          obtain ⟨hv, hin, -⟩ := hat
          have hchain := hq.chain v
          rw [hqueues v hv] at hchain
          rw [hchain.eq_nil] at hin
          cases hin
      | worker w =>
          obtain ⟨hw, hhold, -⟩ := hat
          rw [(hworkers w hw).1] at hhold
          cases hhold
      | finished => exact hat
    exact ⟨hfinished, ((hs.booked.ordered i hi).finished hfinished).2⟩

/-- If no two clients ever waited at once, all calls have returned. -/
theorem Running.returned (h : Running n mem oracle cfg) (hn : 0 < n)
    (hset : (program n).Settled (poolFuel n) cfg)
    (hone : Interleaved (program n) OneSleeper (Started n mem oracle) cfg)
    (c : Nat) : cfg.pc (.client c) = ClientPc.idle := by
  have hrest := h.rest hn hset
  refine (hrest.clients c).resolve_right ?_
  intro hx
  obtain ⟨-, hin⟩ := hx
  obtain ⟨w, hw⟩ := (Run.remembered hone).1.owner hrest.active
    (List.ne_nil_of_mem hin)
  rw [h.unlocked hn (Stuck.of_settled hset)] at hw
  cases hw

-- ==================================================================== calls

theorem Book.cleaned_modifyAt (b : Book) (a : Nat)
    (f : TaskRecord → TaskRecord) : (b.modifyAt a f).cleaned = b.cleaned := by
  unfold Book.modifyAt
  split
  · rfl
  · rfl

theorem WorkerRule.cleaned {p p' : WorkerPc} (hr : WorkerRule n w s p p' s') :
    s'.book.cleaned = s.book.cleaned := by
  cases hr with
  | findLock _ hlock => rw [(Shared.lock_same hlock).2]
  | findGet => exact Book.cleaned_modifyAt ..
  | waitLock hlock => rw [(Shared.lock_same hlock).2]
  | waitGet => exact Book.cleaned_modifyAt ..
  | relock _ hlock => rw [(Shared.lock_same hlock).2]
  | run => exact Book.cleaned_modifyAt ..
  | finish => exact Book.cleaned_modifyAt ..
  | freeLock hlock => rw [(Shared.lock_same hlock).2]
  | doneLock hlock => rw [(Shared.lock_same hlock).2]
  | @doneSub done =>
      cases done with
      | none => rfl
      | some i => rfl
  | _ => rfl

/-- Only the call of `cx_threadpool_cleanup` says that the pool is to be shut
down. -/
theorem ClientRule.cleaned {p p' : ClientPc} (hr : ClientRule n c s p p' s') :
    s'.book.cleaned = s.book.cleaned ∨ p = .idle ∧ p' = .cleanStore := by
  cases hr with
  | cleanup => exact Or.inr ⟨rfl, rfl⟩
  | newLock hlock => exact Or.inl (by rw [(Shared.lock_same hlock).2])
  | queueLock hlock => exact Or.inl (by rw [(Shared.lock_same hlock).2])
  | @link task v =>
      left
      rw [s.appended_book]
      exact Book.cleaned_modifyAt ..
  | addActive => exact Or.inl (Book.cleaned_modifyAt ..)
  | queueUnlock => exact Or.inl (Book.cleaned_modifyAt ..)
  | waitLock hlock => exact Or.inl (by rw [(Shared.lock_same hlock).2])
  | relock _ hlock => exact Or.inl (by rw [(Shared.lock_same hlock).2])
  | cleanLock _ hlock => exact Or.inl (by rw [(Shared.lock_same hlock).2])
  | _ => exact Or.inl rfl

/-- Between calls a client does nothing that is not paid for. -/
theorem clientStep_idle {p : ClientPc} (hp : p = .idle) (hx : poolFuel n x = 0) :
    clientStep n c x s p = none := by
  subst hp
  cases x with
  | schedule function arg => cases hx
  | wait => cases hx
  | cleanup => cases hx
  | _ => rfl

/-- The pool runs on, if all goes well. -/
theorem Running.step (h : Running n mem oracle cfg) (hx : poolFuel n x = 0)
    (hrun : (program n).step t x cfg = some cfg') :
    cfg'.shared.book.cleaned = false ∧ cfg'.shared.freed = false := by
  obtain ⟨p', s', hstep, rfl, -⟩ := Program.step_cases hrun
  cases t with
  | worker w =>
      have hr : WorkerRule n w cfg.shared (cfg.pc (.worker w)) p' cfg'.shared :=
        workerStep_rule hstep
      rw [hr.cleaned, hr.freed]
      exact ⟨h.uncleaned, h.intact.2⟩
  | client c =>
      have hstep' : clientStep n c x cfg.shared (cfg.pc (.client c))
          = some (p', cfg'.shared) := hstep
      have hr := clientStep_rule hstep'
      refine ⟨?_, ?_⟩
      · rcases hr.cleaned with hsame | ⟨hidle, -⟩
        · rw [hsame]
          exact h.uncleaned
        · rw [clientStep_idle hidle hx] at hstep'
          cases hstep'
      · rcases hr.freed with hsame | ⟨hp, -⟩
        · rw [hsame]
          exact h.intact.2
        · have hclosed := h.closed c
          rw [hp] at hclosed
          cases hclosed

-- ==================================================================== runs

/-- What is promised of a schedule and of where it ends. -/
structure PoolSettles (n : Nat) (mem : Mem) (oracle : Nat → Nat)
    (turns : List (Thread × Choice)) (cfg : Config Pc Shared) : Prop where
  /-- each worker goes round once for nothing, and a call pays for its steps
  and the round of its task -/
  bounded : turns.length ≤ n * (3 * n + 7) + paid (poolFuel n) turns
  ends : cfg.shared.book.cleaned = false →
    (program n).Settled (poolFuel n) cfg → PoolRest n cfg
  /-- if no two clients waited at once -/
  returns : cfg.shared.book.cleaned = false →
    (program n).Settled (poolFuel n) cfg →
    Interleaved (program n) OneSleeper (Started n mem oracle) cfg →
    ∀ c, cfg.pc (.client c) = ClientPc.idle
  /-- left to itself the pool gets there, unless memory runs out -/
  completes : cfg.shared.book.cleaned = false →
    ∃ rest cfg', (program n).follow rest cfg = some cfg'
      ∧ paid (poolFuel n) rest = 0
      ∧ (cfg'.shared.machine.refused = true ∨ PoolRest n cfg')

/-- The workers of the pool. -/
def workersOf (n : Nat) : Finset Thread := (Finset.range n).image Thread.worker

theorem started_work {start : Config Pc Shared} (T : Finset Thread)
    (h : Started n mem oracle start) :
    poolWork n T start ≤ n * (3 * n + 7) := by
  obtain ⟨taskPool, m, -, rfl⟩ := h
  have hpending : (initShared taskPool m).book.pending = 0 := rfl
  unfold poolWork total
  rw [hpending, Nat.mul_zero, Nat.add_zero]
  have hworkers : ∑ t ∈ T, poolRank n t (initPc n t) (initShared taskPool m)
      ≤ ∑ t ∈ workersOf n, poolRank n t (initPc n t) (initShared taskPool m) := by
    refine Finset.sum_le_sum_of_ne_zero fun t _ hne => ?_
    cases t with
    | worker w =>
        refine Finset.mem_image_of_mem _ (Finset.mem_range.mpr ?_)
        by_contra hw
        refine hne ?_
        show workerRank n w (if w < n then .top else .exited) _ = 0
        rw [if_neg hw]
        rfl
    | client c => exact absurd rfl hne
  have hone : ∀ t ∈ workersOf n,
      poolRank n t (initPc n t) (initShared taskPool m) ≤ 3 * n + 7 := by
    intro t ht
    obtain ⟨w, hw, rfl⟩ := Finset.mem_image.mp ht
    show workerRank n w (if w < n then .top else .exited) _ ≤ _
    rw [if_pos (Finset.mem_range.mp hw)]
    exact Nat.le_refl _
  have hcard : (workersOf n).card ≤ n := by
    have hle := Finset.card_image_le (s := Finset.range n) (f := Thread.worker)
    rwa [Finset.card_range] at hle
  have hsum := Finset.sum_le_sum hone
  rw [Finset.sum_const_nat fun _ _ => rfl] at hsum
  exact Nat.le_trans hworkers
    (Nat.le_trans hsum (Nat.mul_le_mul_right _ hcard))

/-- Where a thread is that takes no part. -/
def Outside : (t : Thread) → Pc t → Prop
  | .worker _, p => p = WorkerPc.exited
  | .client _, p => p = ClientPc.idle

theorem outside_waits {p : Pc t} (h : Outside t p) (hx : poolFuel n x = 0) :
    program n t x p s = none := by
  cases t with
  | worker w =>
      have hp : p = WorkerPc.exited := h
      subst hp
      rfl
  | client c => exact clientStep_idle h hx

/-- Left to itself the pool comes to rest, unless memory runs out. -/
theorem Running.completes (h : Running n mem oracle cfg) (hn : 0 < n)
    (T : Finset Thread)
    (houtside : ∀ t ∉ T, cfg.pc t = initPc n t) :
    ∃ rest cfg', (program n).follow rest cfg = some cfg'
      ∧ paid (poolFuel n) rest = 0
      ∧ (cfg'.shared.machine.refused = true ∨ PoolRest n cfg') := by
  obtain ⟨rest, cfg', hrest, ⟨hrun', huncleaned, hfreed⟩, hpaid, hset⟩ :=
    (program n).settlesOn (poolFuel n) (poolWork n (workersOf n ∪ T))
      (fun c => Run n mem oracle c ∧ c.shared.book.cleaned = false
        ∧ c.shared.freed = false)
      (fun c => c.shared.machine.refused = false)
      Outside (workersOf n ∪ T) (fun t x p s => outside_waits) (by
      intro c c' t x ht hx hr hok hstep
      obtain ⟨hc, huncleaned, hfreed⟩ := hr
      have hnext := Running.step ⟨hc, ⟨hok, hfreed⟩, huncleaned⟩ hx hstep
      refine ⟨⟨hc.step trivial hstep, hnext⟩, fun hok' => ?_⟩
      have hwork := (poolWork_step ht hc hstep ⟨hok', hnext.2⟩).2
      rw [hx] at hwork
      exact hwork) (by
      intro t ht
      have hpc : cfg.pc t = initPc n t :=
        houtside t fun hT => ht (Finset.mem_union_right _ hT)
      cases t with
      | worker w =>
          show cfg.pc (.worker w) = WorkerPc.exited
          rw [hpc]
          refine if_neg fun hw => ht (Finset.mem_union_left _ ?_)
          exact Finset.mem_image_of_mem _ (Finset.mem_range.mpr hw)
      | client c => exact hpc)
      ⟨h.run, h.uncleaned, h.intact.2⟩
  refine ⟨rest, cfg', hrest, hpaid, ?_⟩
  cases hrefused : cfg'.shared.machine.refused with
  | true => exact Or.inl rfl
  | false =>
      have hrunning : Running n mem oracle cfg' :=
        ⟨hrun', ⟨hrefused, hfreed⟩, huncleaned⟩
      exact Or.inr (hrunning.rest hn (hset hrefused))

/-- Every schedule of a pool settles. -/
theorem cxThreadpool_settles {start : Config Pc Shared}
    (turns : List (Thread × Choice)) (hn : 0 < n)
    (hstart : Started n mem oracle start)
    (hrun : (program n).follow turns start = some cfg)
    (hgranted : cfg.shared.machine.refused = false)
    (hfreed : cfg.shared.freed = false) :
    PoolSettles n mem oracle turns cfg := by
  have hreach : Run n mem oracle cfg :=
    Interleaved.follow (.start hstart) (fun _ _ _ _ => trivial) hrun
  have hrunning : cfg.shared.book.cleaned = false → Running n mem oracle cfg :=
    fun huncleaned => ⟨hreach, ⟨hgranted, hfreed⟩, huncleaned⟩
  refine ⟨?_, fun hopen => (hrunning hopen).rest hn,
    fun hopen => (hrunning hopen).returned hn, ?_⟩
  · have hwork := Program.follow_workOn (poolFuel n)
      (poolWork n (threadsOf turns)) (Run n mem oracle) (fun c => c.shared.Intact)
      (fun _ _ _ _ ht hc hstep =>
        ⟨hc.step trivial hstep, poolWork_step ht hc hstep⟩)
      mem_threadsOf (.start hstart) hrun ⟨hgranted, hfreed⟩
    have hfirst := started_work (threadsOf turns) hstart
    omega
  · intro hopen
    refine (hrunning hopen).completes hn (threadsOf turns) fun t ht => ?_
    obtain ⟨taskPool, m, -, rfl⟩ := hstart
    exact Program.follow_outside hrun mem_threadsOf ht

/-- A worker runs a task that client 1 waits for, and a second one is in its
queue. -/
theorem cxThreadpool_settles_waiting : ∃ turns cfg,
    PoolSettles 1 (fun _ => 0) (fun t => 1024 * (t + 1)) turns cfg
      ∧ cfg.shared.book.cleaned = false
      ∧ cfg.pc (.worker 0) = WorkerPc.running (cfg.shared.book.record 0).cell
      ∧ (cfg.shared.workers 0).head ≠ 0
      ∧ .client 1 ∈ cfg.shared.sync.asleep .wait := by
  have h : (playFrom 1
      (turnsOf (.client 0) (.schedule 1 2 :: List.replicate 12 .go)
        ++ turnsOf (.client 1) (.wait :: List.replicate 3 .go)
        ++ turnsOf (.worker 0) (List.replicate 6 .go)
        ++ turnsOf (.client 0) (.schedule 3 4 :: List.replicate 12 .go))
      (Machine.boot (fun _ => 0) fun t => 1024 * (t + 1))).any
      (fun cfg => decide (cfg.shared.machine.refused = false
        ∧ cfg.shared.freed = false ∧ cfg.shared.book.cleaned = false
        ∧ (cfg.pc (.worker 0) : WorkerPc)
          = .running (cfg.shared.book.record 0).cell
        ∧ (cfg.shared.workers 0).head ≠ 0
        ∧ .client 1 ∈ cfg.shared.sync.asleep .wait)) = true := by decide +kernel
  obtain ⟨cfg, hplay, htest⟩ := (Option.any_eq_true _ _).mp h
  obtain ⟨hgranted, hfreed, hopen, hworker, hhead, hclient⟩ :=
    of_decide_eq_true htest
  unfold playFrom at hplay
  split at hplay
  · next taskPool m hinit =>
      exact ⟨_, cfg, cxThreadpool_settles _ Nat.zero_lt_one
        ⟨taskPool, m, hinit, rfl⟩ hplay hgranted hfreed, hopen, hworker, hhead,
        hclient⟩
  · cases hplay

end Cextras.Concurrency
