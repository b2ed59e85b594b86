/-
The steps of the thread pool as rules, one for each way a step can go,
with the state it leads to written out. `workerStep_rule` and
`clientStep_rule` say that there are no others; every later argument
about a step goes by cases on its rule.
-/
import Cextras.Concurrency.Threadpool
import Cextras.Lib.Triple

namespace Cextras.Concurrency

open Lib Memory

variable {n w c : Nat} {s s' : Shared} {t : Thread} {m : MutexId} {k : CondId}
  {x : Choice}

-- =================================================== operations on shared

theorem Shared.run_cases {α : Type} {x : C α} {a : α}
    (h : s.run x = some (a, s')) :
    ∃ m', x.run s.machine = .ok a m' ∧ s' = { s with machine := m' } := by
  unfold Shared.run at h
  split at h
  · next a' m' hrun =>
      cases h
      exact ⟨m', hrun, rfl⟩
  · cases h

theorem Shared.lock_cases (h : s.lock m t = some s') :
    s.gone m = false
      ∧ ∃ y, s.sync.lock m t = some y ∧ s' = { s with sync := y } := by
  unfold Shared.lock at h
  split at h
  · cases h
  · next hgone =>
      obtain ⟨y, hy, rfl⟩ := Option.map_eq_some_iff.mp h
      exact ⟨Bool.not_eq_true _ ▸ hgone, y, hy, rfl⟩

theorem Shared.relock_cases (h : s.relock k m t = some s') :
    t ∉ s.sync.asleep k ∧ s.lock m t = some s' := by
  unfold Shared.relock at h
  split at h
  · cases h
  · next hgone =>
      obtain ⟨y, hy, rfl⟩ := Option.map_eq_some_iff.mp h
      obtain ⟨hawake, hlock⟩ := Sync.relock_cases hy
      refine ⟨hawake, ?_⟩
      unfold Shared.lock
      rw [if_neg hgone, hlock]
      rfl

theorem Shared.signal_cases (h : s.signal k t = some s') :
    ∃ y, s.sync.signal k t = some y ∧ s' = { s with sync := y } := by
  obtain ⟨y, hy, rfl⟩ := Option.map_eq_some_iff.mp h
  exact ⟨y, hy, rfl⟩

/-- The task after the first one of a queue. -/
def Shared.second (s : Shared) (v : Nat) : Nat :=
  s.machine.mem.load64 ((s.workers v).head + nextOffset)

/-- The first task of `v` was taken off by `w`. -/
def Shared.popped (s : Shared) (v w : Nat) : Shared :=
  { s with
    workers := Function.update s.workers v
      ⟨s.second v, if s.second v = 0 then 0 else (s.workers v).tail,
        (s.workers v).queueLength⟩
    book := s.book.take (s.workers v).head w }

theorem workerGetTask_cases {worker worker' : CxWorker} {task : Nat}
    {m m' : Machine} (h : (workerGetTask worker).run m = .ok (task, worker') m') :
    m' = m ∧ (worker.head = 0 ∧ task = 0 ∧ worker' = worker
      ∨ worker.head ≠ 0 ∧ task = worker.head
        ∧ worker' = ⟨m.mem.load64 (worker.head + nextOffset),
          if m.mem.load64 (worker.head + nextOffset) = 0 then 0 else worker.tail,
          worker.queueLength⟩) := by
  unfold workerGetTask at h
  by_cases hhead : worker.head = 0
  · rw [if_neg (not_not.mpr hhead), C.run_pure] at h
    cases h
    exact ⟨rfl, Or.inl ⟨hhead, hhead, rfl⟩⟩
  · rw [if_pos hhead] at h
    obtain ⟨next, m₁, hload, hrest⟩ := bind_cases h
    obtain ⟨hnext, hm⟩ := load64_cases hload
    dsimp only at hrest
    rw [← hnext, ← hm]
    split at hrest
    · next hlast =>
        cases hrest
        refine ⟨rfl, Or.inr ⟨hhead, rfl, ?_⟩⟩
        rw [if_pos hlast]
    · next hlast =>
        cases hrest
        refine ⟨rfl, Or.inr ⟨hhead, rfl, ?_⟩⟩
        rw [if_neg hlast]

theorem Shared.getTask_cases {v task : Nat}
    (h : s.getTask v w = some (task, s')) :
    (s.workers v).head = 0 ∧ task = 0 ∧ s' = s
      ∨ (s.workers v).head ≠ 0 ∧ task = (s.workers v).head
        ∧ s' = s.popped v w := by
  obtain ⟨⟨⟨task', worker⟩, s₁⟩, hrun, hs⟩ := Option.bind_eq_some_iff.mp h
  obtain ⟨m', hm, rfl⟩ := Shared.run_cases hrun
  obtain ⟨rfl, hcase⟩ := workerGetTask_cases hm
  obtain ⟨rfl, rfl⟩ := Prod.mk.inj (Option.some.inj hs)
  rcases hcase with ⟨hhead, htask, hworker⟩ | ⟨hhead, htask, hworker⟩
  · left
    refine ⟨hhead, htask, ?_⟩
    rw [if_pos htask, hworker, Function.update_eq_self]
  · right
    refine ⟨hhead, htask, ?_⟩
    rw [if_neg (htask ▸ hhead), hworker, htask]
    rfl

-- ================================================================ workers

/-- The ways a step of worker `w` can go. -/
inductive WorkerRule (n w : Nat) (s : Shared) :
    WorkerPc → WorkerPc → Shared → Prop where
  | begin : s.running = true → WorkerRule n w s .top (.findLock 0) s
  | exit : s.running = false → WorkerRule n w s .top .exited
      { s with exited := Function.update s.exited w true }
  | findLock {i : Nat} {s' : Shared} : i < n →
      s.lock (.queue ((i + w) % n)) (.worker w) = some s' →
      WorkerRule n w s (.findLock i) (.findGet i) s'
  | findNone {i : Nat} : ¬ i < n → WorkerRule n w s (.findLock i) .waitLock s
  | findGet {i : Nat} : (s.workers ((i + w) % n)).head ≠ 0 →
      WorkerRule n w s (.findGet i)
        (.findSub i (s.workers ((i + w) % n)).head) (s.popped ((i + w) % n) w)
  | findEmpty {i : Nat} : (s.workers ((i + w) % n)).head = 0 →
      WorkerRule n w s (.findGet i) (.findUnlock i 0) s
  | findSub {i task : Nat} : WorkerRule n w s (.findSub i task)
      (.findUnlock i task) (s.setLength ((i + w) % n)
        (fetchSub (s.workers ((i + w) % n)).queueLength))
  | findNext {i : Nat} : WorkerRule n w s (.findUnlock i 0) (.findLock (i + 1))
      (s.unlock (.queue ((i + w) % n)))
  | findFound {i task : Nat} : task ≠ 0 → WorkerRule n w s (.findUnlock i task)
      (.run task) (s.unlock (.queue ((i + w) % n)))
  | waitLock {s' : Shared} : s.lock (.queue w) (.worker w) = some s' →
      WorkerRule n w s .waitLock .waitGet s'
  | waitGet : (s.workers w).head ≠ 0 → WorkerRule n w s .waitGet
      (.waitSub (s.workers w).head) (s.popped w w)
  | waitEmpty : (s.workers w).head = 0 → WorkerRule n w s .waitGet .waitTest s
  | waitSub {task : Nat} : WorkerRule n w s (.waitSub task) (.waitUnlock task)
      (s.setLength w (fetchSub (s.workers w).queueLength))
  | waitOn : s.running = true → WorkerRule n w s .waitTest .waitSleep s
  | waitStop : s.running = false → WorkerRule n w s .waitTest (.waitUnlock 0) s
  | waitSleep : WorkerRule n w s .waitSleep .blocked
      (s.sleep (.queue w) (.queue w) (.worker w))
  | spurious : WorkerRule n w s .blocked .blocked (s.wake (.queue w) (.worker w))
  | relock {s' : Shared} : .worker w ∉ s.sync.asleep (.queue w) →
      s.lock (.queue w) (.worker w) = some s' →
      WorkerRule n w s .blocked .waitGet s'
  | waitNone : WorkerRule n w s (.waitUnlock 0) .top (s.unlock (.queue w))
  | waitFound {task : Nat} : task ≠ 0 → WorkerRule n w s (.waitUnlock task)
      (.run task) (s.unlock (.queue w))
  | run {task : Nat} {call : Nat × Nat} {m' : Machine} :
      (taskCall task).run s.machine = .ok call m' →
      WorkerRule n w s (.run task) (.running task)
        { s with machine := m', book := s.book.start task call }
  | finish {task : Nat} : WorkerRule n w s (.running task) (.freeLock task)
      { s with book := s.book.finish task }
  | freeLock {task : Nat} {s' : Shared} : s.lock .taskPool (.worker w) = some s' →
      WorkerRule n w s (.freeLock task) (.freeRecycle task) s'
  | recycle {task : Nat} {taskPool : CxPreallocPool} {m' : Machine} :
      (cxPreallocPoolRecycle s.taskPool task).run s.machine = .ok taskPool m' →
      WorkerRule n w s (.freeRecycle task) (.freeUnlock (s.book.occupant task))
        { s with
          machine := m', taskPool := taskPool, book := s.book.move task .free }
  | freeUnlock {done : Option Nat} : WorkerRule n w s (.freeUnlock done)
      (.doneLock done) (s.unlock .taskPool)
  | doneLock {done : Option Nat} {s' : Shared} :
      s.lock .wait (.worker w) = some s' →
      WorkerRule n w s (.doneLock done) (.doneSub done) s'
  | doneSub {done : Option Nat} {p' : WorkerPc} :
      p' = (if s.activeTasks = 1 then .doneSignal else .doneUnlock) →
      WorkerRule n w s (.doneSub done) p' { s with
        activeTasks := fetchSub s.activeTasks
        book := (done.map s.book.countOut).getD s.book }
  | doneSignal {c : Nat} {y : Sync MutexId CondId Thread} :
      s.sync.signal .wait (.client c) = some y →
      WorkerRule n w s .doneSignal .doneUnlock { s with sync := y }
  | doneUnlock : WorkerRule n w s .doneUnlock .top (s.unlock .wait)

theorem workerStep_rule {p p' : WorkerPc}
    (h : workerStep n w x s p = some (p', s')) : WorkerRule n w s p p' s' := by
  cases p with
  | top =>
      simp only [workerStep] at h
      split at h
      · next hrunning =>
          cases h
          exact .begin hrunning
      · next hrunning =>
          cases h
          exact .exit (Bool.not_eq_true _ ▸ hrunning)
  | findLock i =>
      simp only [workerStep, Option.bind_eq_bind] at h
      split at h
      · next hi =>
          obtain ⟨s₁, hlock, hs⟩ := Option.bind_eq_some_iff.mp h
          cases hs
          exact .findLock hi hlock
      · next hi =>
          cases h
          exact .findNone hi
  | findGet i =>
      obtain ⟨⟨task, s₁⟩, hget, hs⟩ := Option.bind_eq_some_iff.mp h
      rcases Shared.getTask_cases hget with ⟨hhead, rfl, rfl⟩ | ⟨hhead, rfl, rfl⟩
      · cases hs
        exact .findEmpty hhead
      · simp only [if_neg hhead] at hs
        cases hs
        exact .findGet hhead
  | findSub i task =>
      cases h
      exact .findSub
  | findUnlock i task =>
      simp only [workerStep] at h
      by_cases htask : task = 0
      · subst htask
        cases h
        exact .findNext
      · rw [if_neg htask] at h
        cases h
        exact .findFound htask
  | waitLock =>
      obtain ⟨s₁, hlock, hs⟩ := Option.bind_eq_some_iff.mp h
      cases hs
      exact .waitLock hlock
  | waitGet =>
      obtain ⟨⟨task, s₁⟩, hget, hs⟩ := Option.bind_eq_some_iff.mp h
      rcases Shared.getTask_cases hget with ⟨hhead, rfl, rfl⟩ | ⟨hhead, rfl, rfl⟩
      · cases hs
        exact .waitEmpty hhead
      · simp only [if_neg hhead] at hs
        cases hs
        exact .waitGet hhead
  | waitSub task =>
      cases h
      exact .waitSub
  | waitTest =>
      simp only [workerStep] at h
      by_cases hrunning : s.running = true
      · rw [if_pos hrunning] at h
        cases h
        exact .waitOn hrunning
      · rw [if_neg hrunning] at h
        cases h
        exact .waitStop (Bool.not_eq_true _ ▸ hrunning)
  | waitSleep =>
      cases h
      exact .waitSleep
  | blocked =>
      simp only [workerStep, Option.bind_eq_bind] at h
      split at h
      · cases h
        exact .spurious
      · obtain ⟨s₁, hrelock, hs⟩ := Option.bind_eq_some_iff.mp h
        cases hs
        obtain ⟨hawake, hlock⟩ := Shared.relock_cases hrelock
        exact .relock hawake hlock
  | waitUnlock task =>
      simp only [workerStep] at h
      by_cases htask : task = 0
      · subst htask
        cases h
        exact .waitNone
      · rw [if_neg htask] at h
        cases h
        exact .waitFound htask
  | run task =>
      obtain ⟨⟨call, s₁⟩, hcall, hs⟩ := Option.bind_eq_some_iff.mp h
      obtain ⟨m', hm, rfl⟩ := Shared.run_cases hcall
      cases hs
      exact .run hm
  | running task =>
      cases h
      exact .finish
  | freeLock task =>
      obtain ⟨s₁, hlock, hs⟩ := Option.bind_eq_some_iff.mp h
      cases hs
      exact .freeLock hlock
  | freeRecycle task =>
      obtain ⟨⟨taskPool, s₁⟩, hrec, hs⟩ := Option.bind_eq_some_iff.mp h
      obtain ⟨m', hm, rfl⟩ := Shared.run_cases hrec
      cases hs
      exact .recycle hm
  | freeUnlock done =>
      cases h
      exact .freeUnlock
  | doneLock done =>
      obtain ⟨s₁, hlock, hs⟩ := Option.bind_eq_some_iff.mp h
      cases hs
      exact .doneLock hlock
  | doneSub done =>
      cases h
      exact .doneSub rfl
  | doneSignal =>
      simp only [workerStep, Option.bind_eq_bind] at h
      split at h
      · obtain ⟨s₁, hsignal, hs⟩ := Option.bind_eq_some_iff.mp h
        obtain ⟨y, hy, rfl⟩ := Shared.signal_cases hsignal
        cases hs
        exact .doneSignal hy
      · cases h
  | doneUnlock =>
      cases h
      exact .doneUnlock
  | exited => cases h

-- ================================================================ clients

/-- `new_task` was linked behind the last task of `v`. -/
def Shared.appended (s : Shared) (task v : Nat) : Shared :=
  if (s.workers v).tail = 0 then
    { s with
      workers := Function.update s.workers v
        ⟨task, task, (s.workers v).queueLength⟩
      book := s.book.link task v }
  else
    { s with
      machine.mem := s.machine.mem.store64 ((s.workers v).tail + nextOffset) task
      workers := Function.update s.workers v
        ⟨(s.workers v).head, task, (s.workers v).queueLength⟩
      book := s.book.link task v }

theorem Shared.append_cases {task v : Nat} {worker : CxWorker}
    (h : s.run (appendTask (s.workers v) task) = some (worker, s')) :
    { s' with
      workers := Function.update s'.workers v worker
      book := s'.book.link task v } = s.appended task v := by
  obtain ⟨m', hm, rfl⟩ := Shared.run_cases h
  unfold appendTask at hm
  unfold Shared.appended
  by_cases htail : (s.workers v).tail = 0
  · rw [if_neg (not_not.mpr htail), C.run_pure] at hm
    cases hm
    rw [if_pos htail]
  · rw [if_pos htail] at hm
    obtain ⟨_, m₁, hstore, hrest⟩ := bind_cases hm
    rw [store64_cases hstore] at hrest
    cases hrest
    rw [if_neg htail]

/-- The ways a step of client `c` can go. -/
inductive ClientRule (n c : Nat) (s : Shared) :
    ClientPc → ClientPc → Shared → Prop where
  | schedule {function arg : Nat} : function < 2 ^ 64 → arg < 2 ^ 64 →
      ClientRule n c s .idle (.newLock function arg) s
  | wait : ClientRule n c s .idle .waitLock { s with book := s.book.beginWait c }
  | cleanup : s.book.cleaned = false → ClientRule n c s .idle .cleanStore
      { s with book.cleaned := true }
  | newLock {function arg : Nat} {s' : Shared} :
      s.lock .taskPool (.client c) = some s' →
      ClientRule n c s (.newLock function arg) (.newGet function arg) s'
  | newGet {function arg task : Nat} {taskPool : CxPreallocPool} {m' : Machine} :
      (cxPreallocPoolGet s.taskPool).run s.machine = .ok (task, taskPool) m' →
      task ≠ 0 →
      ClientRule n c s (.newGet function arg) (.newUnlock function arg task)
        { s with
          machine := m', taskPool := taskPool
          book := s.book.create task function arg c }
  | newNone {function arg : Nat} {taskPool : CxPreallocPool} {m' : Machine} :
      (cxPreallocPoolGet s.taskPool).run s.machine = .ok (0, taskPool) m' →
      ClientRule n c s (.newGet function arg) (.newUnlock function arg 0)
        { s with machine := m', taskPool := taskPool }
  | newFail {function arg : Nat} : ClientRule n c s (.newUnlock function arg 0)
      .idle (s.unlock .taskPool)
  | newUnlock {function arg task : Nat} : task ≠ 0 →
      ClientRule n c s (.newUnlock function arg task)
        (.newInit function arg task) (s.unlock .taskPool)
  | newInit {function arg task : Nat} {m' : Machine} :
      (taskInit task function arg).run s.machine = .ok () m' →
      ClientRule n c s (.newInit function arg task)
        (.scan task 0 none (2 ^ 64 - 1)) { s with machine := m' }
  | scan {task i i' : Nat} {worker worker' : Option Nat} {len len' : Nat} :
      s.freed = false → i < n → worker' = some i ∨ worker' = worker →
      ClientRule n c s (.scan task i worker len) (.scan task i' worker' len') s
  | scanned {task i v len : Nat} : s.freed = false →
      ClientRule n c s (.scan task i (some v) len) (.queueLock task v) s
  | queueLock {task v : Nat} {s' : Shared} :
      s.lock (.queue v) (.client c) = some s' →
      ClientRule n c s (.queueLock task v) (.link task v) s'
  | link {task v : Nat} : ClientRule n c s (.link task v) (.addActive task v)
      (s.appended task v)
  | addActive {task v : Nat} : ClientRule n c s (.addActive task v)
      (.addLength task v) { s with
        activeTasks := s.activeTasks + 1
        book := s.book.countIn task }
  | addLength {task v : Nat} : ClientRule n c s (.addLength task v)
      (.signal task v) (s.setLength v ((s.workers v).queueLength + 1))
  | signal {task v : Nat} {y : Sync MutexId CondId Thread} :
      s.sync.signal (.queue v) (.worker v) = some y →
      ClientRule n c s (.signal task v) (.queueUnlock task v)
        { s with sync := y }
  | queueUnlock {task v : Nat} : ClientRule n c s (.queueUnlock task v) .idle
      { s with
        sync := s.sync.unlock (.queue v)
        book := s.book.accept task }
  | waitLock {s' : Shared} : s.lock .wait (.client c) = some s' →
      ClientRule n c s .waitLock .waitTest s'
  | waitOn : 0 < s.activeTasks → ClientRule n c s .waitTest .waitSleep s
  | waitStop : s.activeTasks = 0 → ClientRule n c s .waitTest .waitUnlock s
  | waitSleep : ClientRule n c s .waitSleep .blocked
      (s.sleep .wait .wait (.client c))
  | spurious : ClientRule n c s .blocked .blocked (s.wake .wait (.client c))
  | relock {s' : Shared} : .client c ∉ s.sync.asleep .wait →
      s.lock .wait (.client c) = some s' →
      ClientRule n c s .blocked .waitTest s'
  | waitUnlock : ClientRule n c s .waitUnlock .idle (s.unlock .wait)
  | cleanStore : ClientRule n c s .cleanStore (.cleanLock 0)
      { s with running := false }
  | cleanLock {i : Nat} {s' : Shared} : i < n →
      s.lock (.queue i) (.client c) = some s' →
      ClientRule n c s (.cleanLock i) (.cleanSignal i) s'
  | cleanEnd {i : Nat} : ¬ i < n → ClientRule n c s (.cleanLock i) .cleanFree s
  | cleanSignal {i : Nat} {y : Sync MutexId CondId Thread} :
      s.sync.signal (.queue i) (.worker i) = some y →
      ClientRule n c s (.cleanSignal i) (.cleanUnlock i)
        { s with sync := y, book := s.book.signal i }
  | cleanUnlock {i : Nat} : ClientRule n c s (.cleanUnlock i) (.cleanJoin i)
      (s.unlock (.queue i))
  | cleanJoin {i : Nat} : s.exited i = true →
      ClientRule n c s (.cleanJoin i) (.cleanDestroy i) s
  | cleanDestroy {i : Nat} : s.sync.owner (.queue i) = none →
      ClientRule n c s (.cleanDestroy i) (.cleanLock (i + 1))
        { s with destroyed := Function.update s.destroyed i true }
  | cleanFree {m' : Machine} :
      (cxPreallocPoolCleanup s.taskPool).run s.machine = .ok () m' →
      ClientRule n c s .cleanFree .idle { s with machine := m', freed := true }

theorem clientStep_rule {p p' : ClientPc}
    (h : clientStep n c x s p = some (p', s')) : ClientRule n c s p p' s' := by
  cases p with
  | idle =>
      simp only [clientStep] at h
      split at h
      · split at h
        · next hwords =>
            cases h
            exact .schedule hwords.1 hwords.2
        · cases h
      · cases h
        exact .wait
      · split at h
        · cases h
        · next hcleaned =>
            cases h
            exact .cleanup (Bool.not_eq_true _ ▸ hcleaned)
      · cases h
  | newLock function arg =>
      obtain ⟨s₁, hlock, hs⟩ := Option.bind_eq_some_iff.mp h
      cases hs
      exact .newLock hlock
  | newGet function arg =>
      obtain ⟨⟨⟨task, taskPool⟩, s₁⟩, hget, hs⟩ := Option.bind_eq_some_iff.mp h
      obtain ⟨m', hm, rfl⟩ := Shared.run_cases hget
      by_cases htask : task = 0
      · subst htask
        cases hs
        exact .newNone hm
      · simp only [if_neg htask] at hs
        cases hs
        exact .newGet hm htask
  | newUnlock function arg task =>
      simp only [clientStep] at h
      by_cases htask : task = 0
      · subst htask
        cases h
        exact .newFail
      · rw [if_neg htask] at h
        cases h
        exact .newUnlock htask
  | newInit function arg task =>
      obtain ⟨⟨_, s₁⟩, hinit, hs⟩ := Option.bind_eq_some_iff.mp h
      obtain ⟨m', hm, rfl⟩ := Shared.run_cases hinit
      cases hs
      exact .newInit hm
  | scan task i worker len =>
      simp only [clientStep] at h
      split at h
      · cases h
      · next hfreed =>
          have hfreed' : s.freed = false := Bool.not_eq_true _ ▸ hfreed
          split at h
          · next hi =>
              split at h
              · cases h
                exact .scan hfreed' hi (Or.inl rfl)
              · cases h
                exact .scan hfreed' hi (Or.inr rfl)
          · split at h
            · cases h
            · cases h
              exact .scanned hfreed'
  | queueLock task v =>
      obtain ⟨s₁, hlock, hs⟩ := Option.bind_eq_some_iff.mp h
      cases hs
      exact .queueLock hlock
  | link task v =>
      obtain ⟨⟨worker, s₁⟩, happend, hs⟩ := Option.bind_eq_some_iff.mp h
      have hs' := Shared.append_cases happend
      cases hs
      rw [hs']
      exact .link
  | addActive task v =>
      cases h
      exact .addActive
  | addLength task v =>
      cases h
      exact .addLength
  | signal task v =>
      obtain ⟨s₁, hsignal, hs⟩ := Option.bind_eq_some_iff.mp h
      obtain ⟨y, hy, rfl⟩ := Shared.signal_cases hsignal
      cases hs
      exact .signal hy
  | queueUnlock task v =>
      cases h
      exact .queueUnlock
  | waitLock =>
      obtain ⟨s₁, hlock, hs⟩ := Option.bind_eq_some_iff.mp h
      cases hs
      exact .waitLock hlock
  | waitTest =>
      simp only [clientStep] at h
      by_cases hactive : s.activeTasks > 0
      · rw [if_pos hactive] at h
        cases h
        exact .waitOn hactive
      · rw [if_neg hactive] at h
        cases h
        exact .waitStop (Nat.eq_zero_of_not_pos hactive)
  | waitSleep =>
      cases h
      exact .waitSleep
  | blocked =>
      simp only [clientStep, Option.bind_eq_bind] at h
      split at h
      · cases h
        exact .spurious
      · obtain ⟨s₁, hrelock, hs⟩ := Option.bind_eq_some_iff.mp h
        cases hs
        obtain ⟨hawake, hlock⟩ := Shared.relock_cases hrelock
        exact .relock hawake hlock
  | waitUnlock =>
      cases h
      exact .waitUnlock
  | cleanStore =>
      cases h
      exact .cleanStore
  | cleanLock i =>
      simp only [clientStep, Option.bind_eq_bind] at h
      split at h
      · next hi =>
          obtain ⟨s₁, hlock, hs⟩ := Option.bind_eq_some_iff.mp h
          cases hs
          exact .cleanLock hi hlock
      · next hi =>
          cases h
          exact .cleanEnd hi
  | cleanSignal i =>
      obtain ⟨s₁, hsignal, hs⟩ := Option.bind_eq_some_iff.mp h
      obtain ⟨y, hy, rfl⟩ := Shared.signal_cases hsignal
      cases hs
      exact .cleanSignal hy
  | cleanUnlock i =>
      cases h
      exact .cleanUnlock
  | cleanJoin i =>
      simp only [clientStep] at h
      split at h
      · next hexited =>
          cases h
          exact .cleanJoin hexited
      · cases h
  | cleanDestroy i =>
      simp only [clientStep] at h
      split at h
      · next hfree =>
          cases h
          exact .cleanDestroy hfree
      · cases h
  | cleanFree =>
      obtain ⟨⟨_, s₁⟩, hclean, hs⟩ := Option.bind_eq_some_iff.mp h
      obtain ⟨m', hm, rfl⟩ := Shared.run_cases hclean
      cases hs
      exact .cleanFree hm

-- ============================================================== schedules

/-- Start a pool of `n` workers and let its threads take turns. -/
def playFrom (n : Nat) (turns : List (Thread × Choice)) (m : Machine) :
    Option (Config Pc Shared) :=
  match (cxPreallocPoolInit taskSize).run m with
  | .ok taskPool m =>
      (program n).follow turns ⟨initPc n, initShared taskPool m⟩
  | .fault _ _ => none

/-- A test the played interleaving passes is passed in one of the runs, where
threads that had no turn are where they started. -/
theorem run_of_playFrom (n : Nat) (turns : List (Thread × Choice)) (mem : Mem)
    (oracle : Nat → Nat) (test : Config Pc Shared → Bool)
    (h : (playFrom n turns (Machine.boot mem oracle)).any test = true) :
    ∃ cfg, Run n mem oracle cfg ∧ test cfg = true
      ∧ ∀ u, (∀ turn ∈ turns, turn.1 ≠ u) → cfg.pc u = initPc n u := by
  obtain ⟨cfg, hplay, htest⟩ := (Option.any_eq_true _ _).mp h
  unfold playFrom at hplay
  split at hplay
  · next taskPool m hinit =>
      have hstart : Run n mem oracle ⟨initPc n, initShared taskPool m⟩ :=
        .start ⟨taskPool, m, hinit, rfl⟩
      exact ⟨cfg, hstart.follow (fun _ _ _ _ => trivial) hplay, htest,
        fun _ => Program.follow_pc hplay⟩
  · cases hplay

/-- Start a pool and let its threads take turns that are allowed. -/
def playAllowed (allowed : (t : Thread) → Pc t → Shared → Prop)
    [∀ t p s, Decidable (allowed t p s)] (n : Nat)
    (turns : List (Thread × Choice)) (m : Machine) : Option (Config Pc Shared) :=
  match (cxPreallocPoolInit taskSize).run m with
  | .ok taskPool m =>
      (program n).play allowed turns ⟨initPc n, initShared taskPool m⟩
  | .fault _ _ => none

theorem interleaved_of_playAllowed
    (allowed : (t : Thread) → Pc t → Shared → Prop)
    [∀ t p s, Decidable (allowed t p s)] (n : Nat)
    (turns : List (Thread × Choice)) (mem : Mem) (oracle : Nat → Nat)
    (test : Config Pc Shared → Bool)
    (h : (playAllowed allowed n turns (Machine.boot mem oracle)).any test = true) :
    ∃ cfg, Interleaved (program n) allowed (Started n mem oracle) cfg
      ∧ test cfg = true := by
  obtain ⟨cfg, hplay, htest⟩ := (Option.any_eq_true _ _).mp h
  unfold playAllowed at hplay
  split at hplay
  · next taskPool m hinit =>
      exact ⟨cfg, Interleaved.play (.start ⟨taskPool, m, hinit, rfl⟩) hplay, htest⟩
  · cases hplay

/-- Turns of one thread. -/
def turnsOf (t : Thread) (choices : List Choice) : List (Thread × Choice) :=
  choices.map fun x => (t, x)

end Cextras.Concurrency
