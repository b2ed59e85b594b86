/-
Workers that sleep. A worker goes to sleep holding its queue's mutex,
with the queue empty and the pool running as far as it knew; whoever
links a task or stops the pool signals it while holding that mutex. So
whenever it is asleep and nobody is about to wake it, its queue is empty
(`Awake.empty`), and it never sleeps through the end (`Awake.stopped`).
-/
import Cextras.Concurrency.Proofs.PoolLocks

namespace Cextras.Concurrency

open Lib Memory

variable {n w c v : Nat} {s s' : Shared} {t u : Thread} {m : MutexId}

-- ============================================================= invariants

/-- What holds of the sleeping workers. -/
structure Awake (s : Shared) : Prop where
  only : ∀ v t, t ∈ s.sync.asleep (.queue v) → t = .worker v
  nodup : ∀ v, (s.sync.asleep (.queue v)).Nodup
  empty : ∀ v, .worker v ∈ s.sync.asleep (.queue v) → (s.workers v).head = 0
    ∨ ∃ c, s.sync.owner (.queue v) = some (.client c)
  stopped : ∀ v, s.book.signalled v = true →
    s.running = false ∧ .worker v ∉ s.sync.asleep (.queue v)

/-- The worker found its queue empty and has not let go of it. -/
def WorkerPc.foundEmpty : WorkerPc → Bool
  | .waitTest => true
  | .waitSleep => true
  | _ => false

/-- What worker `w` knows. -/
structure WorkerKnows (n w : Nat) (p : WorkerPc) (s : Shared) : Prop where
  holds : s.sync.Holds (.worker w) (p.held n w)
  asleep : .worker w ∈ s.sync.asleep (.queue w) → p = .blocked
  empty : p.foundEmpty = true → (s.workers w).head = 0
  unsignalled : p = .waitSleep → s.book.signalled w = false

/-- The client has stopped the pool. -/
def ClientPc.stopped : ClientPc → Bool
  | .cleanLock _ => true
  | .cleanSignal _ => true
  | .cleanUnlock _ => true
  | .cleanJoin _ => true
  | .cleanDestroy _ => true
  | .cleanFree => true
  | _ => false

/-- The worker whose queue the client has just signalled. -/
def ClientPc.woken : ClientPc → Option Nat
  | .queueUnlock _ v => some v
  | .cleanUnlock i => some i
  | _ => none

/-- The worker whose end the client has signalled and waits for. -/
def ClientPc.joining : ClientPc → Option Nat
  | .cleanUnlock i => some i
  | .cleanJoin i => some i
  | _ => none

/-- What client `c` knows. -/
structure ClientKnows (c : Nat) (p : ClientPc) (s : Shared) : Prop where
  holds : s.sync.Holds (.client c) p.held
  stopped : p.stopped = true → s.running = false
  joining : ∀ i, p.joining = some i → s.book.signalled i = true
  woken : ∀ v, p.woken = some v → .worker v ∉ s.sync.asleep (.queue v)
  empty : ∀ i, p = .cleanSignal i →
    .worker i ∈ s.sync.asleep (.queue i) → (s.workers i).head = 0

def Knows (n : Nat) : (t : Thread) → Pc t → Shared → Prop
  | .worker w, p, s => WorkerKnows n w p s
  | .client c, p, s => ClientKnows c p s

/-- What a thread relies on when others move. -/
structure SleepRely (u : Thread) (s s' : Shared) : Prop where
  same : Sync.SameFor u s.sync s'.sync
  asleep : ∀ v, u = .worker v →
    u ∈ s'.sync.asleep (.queue v) → u ∈ s.sync.asleep (.queue v)
  queue : ∀ v, s.sync.owner (.queue v) = some u →
    (s'.workers v).head = (s.workers v).head
      ∧ (∀ t, t ∈ s'.sync.asleep (.queue v) → t ∈ s.sync.asleep (.queue v))
      ∧ s'.book.signalled v = s.book.signalled v
  running : s.running = false → s'.running = false
  signalled : ∀ v, s.book.signalled v = true → s'.book.signalled v = true

theorem WorkerKnows.stable {p : WorkerPc} (h : WorkerKnows n w p s)
    (hr : SleepRely (.worker w) s s') : WorkerKnows n w p s' := by
  refine ⟨h.holds.congr hr.same, fun ha => h.asleep (hr.asleep w rfl ha), ?_, ?_⟩
  · intro hp
    have howner : s.sync.owner (.queue w) = some (.worker w) := by
      rw [h.holds]
      cases p with
      | waitTest => rfl
      | waitSleep => rfl
      | _ => cases hp
    rw [(hr.queue w howner).1]
    exact h.empty hp
  · intro hp
    subst hp
    rw [(hr.queue w h.holds.owner).2.2]
    exact h.unsignalled rfl

theorem ClientKnows.stable {p : ClientPc} (h : ClientKnows c p s)
    (hr : SleepRely (.client c) s s') : ClientKnows c p s' := by
  refine ⟨h.holds.congr hr.same, fun hp => hr.running (h.stopped hp),
    fun i hi => hr.signalled i (h.joining i hi), ?_, ?_⟩
  · intro v hv ha
    have howner : s.sync.owner (.queue v) = some (.client c) := by
      rw [h.holds]
      cases p with
      | queueUnlock task v' =>
          cases hv
          rfl
      | cleanUnlock i =>
          cases hv
          rfl
      | _ => cases hv
    exact h.woken v hv ((hr.queue v howner).2.1 _ ha)
  · intro i hp ha
    subst hp
    obtain ⟨hhead, hasleep, -⟩ := hr.queue i h.holds.owner
    rw [hhead]
    exact h.empty i rfl (hasleep _ ha)

theorem Knows.stable {p : Pc t} (hr : SleepRely t s s') (h : Knows n t p s) :
    Knows n t p s' := by
  cases t with
  | worker w => exact WorkerKnows.stable h hr
  | client c => exact ClientKnows.stable h hr

-- ========================================================== kinds of steps

/-- What every step of `t` gives the others. -/
structure SleepStep (t : Thread) (s s' : Shared) : Prop where
  awake : Awake s'
  rely : ∀ u, u ≠ t → SleepRely u s s'

/-- A step that puts nobody to sleep and signals no end. -/
theorem Awake.step (h : Awake s)
    (hsame : ∀ u, u ≠ t → Sync.SameFor u s.sync s'.sync)
    (hsub : ∀ v, (s'.sync.asleep (.queue v)).Sublist (s.sync.asleep (.queue v)))
    (hempty : ∀ v, .worker v ∈ s.sync.asleep (.queue v) →
      (s'.workers v).head = 0 ∨ ∃ c, s'.sync.owner (.queue v) = some (.client c))
    (hhead : ∀ v, s.sync.owner (.queue v) ≠ some t →
      (s'.workers v).head = (s.workers v).head)
    (hsignalled : s'.book.signalled = s.book.signalled)
    (hrunning : s.running = false → s'.running = false) : SleepStep t s s' := by
  refine ⟨⟨?_, ?_, ?_, ?_⟩, ?_⟩
  · exact fun v t ht => h.only v t ((hsub v).subset ht)
  · exact fun v => (h.nodup v).sublist (hsub v)
  · exact fun v hv => hempty v ((hsub v).subset hv)
  · intro v hv
    rw [hsignalled] at hv
    obtain ⟨hstop, hawake⟩ := h.stopped v hv
    exact ⟨hrunning hstop, fun ha => hawake ((hsub v).subset ha)⟩
  · intro u hu
    refine ⟨hsame u hu, fun v _ ha => (hsub v).subset ha, ?_, hrunning, ?_⟩
    · intro v howner
      refine ⟨hhead v ?_, fun t ht => (hsub v).subset ht, by rw [hsignalled]⟩
      rw [howner]
      exact fun heq => hu (Option.some.inj heq)
    · intro v hv
      rw [hsignalled]
      exact hv

/-- A step that changes nothing of this. -/
theorem Awake.quiet (h : Awake s)
    (howner : s'.sync.owner = s.sync.owner)
    (hasleep : ∀ v, s'.sync.asleep (.queue v) = s.sync.asleep (.queue v))
    (hhead : ∀ v, (s'.workers v).head = (s.workers v).head)
    (hsignalled : s'.book.signalled = s.book.signalled)
    (hrunning : s.running = false → s'.running = false) : SleepStep t s s' := by
  apply h.step
  · exact fun u _ => .of_owner howner u
  · intro v
    rw [hasleep]
  · intro v hv
    rw [hhead, howner]
    exact h.empty v hv
  · exact fun v _ => hhead v
  · exact hsignalled
  · exact hrunning

/-- Only somebody else's wake-up is new. -/
theorem Awake.woken (h : Awake s) {y : Sync MutexId CondId Thread}
    (howner : y.owner = s.sync.owner)
    (hsub : ∀ k, (y.asleep k).Sublist (s.sync.asleep k)) :
    SleepStep t s { s with sync := y } := by
  apply h.step
  · exact fun u _ => .of_owner howner u
  · exact fun v => hsub _
  · intro v hv
    rw [howner]
    exact h.empty v hv
  · exact fun v _ => rfl
  · rfl
  · exact id

theorem Awake.lock (h : Awake s) (hlock : s.lock m t = some s') :
    SleepStep t s s' := by
  obtain ⟨-, y, hy, rfl⟩ := Shared.lock_cases hlock
  have hsame : ∀ u, u ≠ t → Sync.SameFor u s.sync y := fun _ hu => .lock hy hu
  obtain ⟨hfree, rfl⟩ := Sync.lock_cases hy
  apply h.step hsame
  · exact fun v => List.Sublist.refl _
  · intro v hv
    show _ ∨ ∃ c, Function.update s.sync.owner m (some t) (.queue v) = _
    rcases h.empty v hv with hhead | ⟨c, howner⟩
    · exact Or.inl hhead
    · right
      refine ⟨c, ?_⟩
      by_cases hm : MutexId.queue v = m
      · rw [← hm, howner] at hfree
        cases hfree
      · rw [Function.update_of_ne hm, howner]
  · exact fun v _ => rfl
  · rfl
  · exact id

/-- Giving up a mutex. -/
theorem Awake.unlock (h : Awake s) (howner : s.sync.owner m = some t)
    (hempty : ∀ v, m = .queue v → .worker v ∈ s.sync.asleep (.queue v) →
      (s.workers v).head = 0)
    (hsync : s'.sync = s.sync.unlock m) (hworkers : s'.workers = s.workers)
    (hsignalled : s'.book.signalled = s.book.signalled)
    (hrunning : s'.running = s.running) : SleepStep t s s' := by
  have howner' : s'.sync.owner = Function.update s.sync.owner m none := by
    rw [hsync]
    rfl
  apply h.step (fun _ hu => .release howner hu howner')
  · intro v
    rw [hsync]
    exact List.Sublist.refl _
  · intro v hv
    rw [hworkers, howner']
    by_cases hm : m = .queue v
    · exact Or.inl (hempty v hm hv)
    · rw [Function.update_of_ne (Ne.symm hm)]
      exact h.empty v hv
  · exact fun v _ => by rw [hworkers]
  · exact hsignalled
  · exact fun hstop => hrunning.trans hstop

/-- A worker's mutex is not what wakes the worker of a queue. -/
theorem Awake.empty_of_worker (h : Awake s)
    (howner : s.sync.owner m = some (.worker w)) :
    ∀ v, m = .queue v → .worker v ∈ s.sync.asleep (.queue v) →
      (s.workers v).head = 0 := by
  intro v hm hv
  rcases h.empty v hv with hhead | ⟨c, hc⟩
  · exact hhead
  · rw [hm, hc] at howner
    cases howner

theorem Awake.popped (h : Awake s)
    (howner : s.sync.owner (.queue v) = some (.worker w))
    (hhead : (s.workers v).head ≠ 0) :
    SleepStep (.worker w) s (s.popped v w) := by
  have hother : ∀ v', v' ≠ v →
      ((s.popped v w).workers v').head = (s.workers v').head := by
    intro v' hv'
    show (Function.update s.workers v _ v').head = _
    rw [Function.update_of_ne hv']
  have hsignalled : (s.popped v w).book.signalled = s.book.signalled := by
    show (Book.modifyAt _ _ _).signalled = _
    unfold Book.modifyAt
    split
    · rfl
    · rfl
  have hsame : ∀ u, u ≠ Thread.worker w →
      Sync.SameFor u s.sync (s.popped v w).sync := fun u _ => .of_owner rfl u
  apply h.step hsame
  · exact fun v => List.Sublist.refl _
  · intro v' hv'
    by_cases heq : v' = v
    · subst heq
      exact absurd (h.empty_of_worker howner v' rfl hv') hhead
    · rw [hother v' heq]
      exact h.empty v' hv'
  · intro v' hv'
    apply hother
    intro heq
    exact hv' (heq ▸ howner)
  · exact hsignalled
  · exact id

theorem Shared.setLength_head (s : Shared) (v length v' : Nat) :
    ((s.setLength v length).workers v').head = (s.workers v').head := by
  show (Function.update s.workers v _ v').head = _
  by_cases hv : v' = v
  · rw [hv, Function.update_self]
  · rw [Function.update_of_ne hv]

theorem Awake.setLength (h : Awake s) (v length : Nat) :
    SleepStep t s (s.setLength v length) :=
  h.quiet rfl (fun _ => rfl) (s.setLength_head v length) rfl id

theorem Book.signalled_modifyAt (b : Book) (a : Nat)
    (f : TaskRecord → TaskRecord) :
    (b.modifyAt a f).signalled = b.signalled := by
  unfold Book.modifyAt
  split
  · rfl
  · rfl

/-- Going to sleep on an empty queue. -/
theorem Awake.sleep (h : Awake s)
    (howner : s.sync.owner (.queue w) = some (.worker w))
    (hhead : (s.workers w).head = 0) (hsignalled : s.book.signalled w = false)
    (hawake : .worker w ∉ s.sync.asleep (.queue w)) :
    SleepStep (.worker w) s (s.sleep (.queue w) (.queue w) (.worker w)) := by
  have hother : ∀ v, v ≠ w →
      (s.sleep (.queue w) (.queue w) (.worker w)).sync.asleep (.queue v)
        = s.sync.asleep (.queue v) := by
    intro v hv
    refine Function.update_of_ne ?_ ..
    exact fun heq => hv (CondId.queue.inj heq)
  have hself : (s.sleep (.queue w) (.queue w) (.worker w)).sync.asleep (.queue w)
      = .worker w :: s.sync.asleep (.queue w) := Function.update_self ..
  refine ⟨⟨?_, ?_, ?_, ?_⟩, ?_⟩
  · intro v t ht
    by_cases hv : v = w
    · subst hv
      rw [hself] at ht
      rcases List.mem_cons.mp ht with ht | ht
      · exact ht
      · exact h.only v t ht
    · rw [hother v hv] at ht
      exact h.only v t ht
  · intro v
    by_cases hv : v = w
    · subst hv
      rw [hself]
      exact List.nodup_cons.mpr ⟨hawake, h.nodup v⟩
    · rw [hother v hv]
      exact h.nodup v
  · intro v hv
    by_cases hvw : v = w
    · subst hvw
      exact Or.inl hhead
    · rw [hother v hvw] at hv
      rcases h.empty v hv with hempty | ⟨c, hc⟩
      · exact Or.inl hempty
      · refine Or.inr ⟨c, ?_⟩
        show Function.update s.sync.owner _ none _ = _
        rw [Function.update_of_ne fun heq => hvw (MutexId.queue.inj heq), hc]
  · intro v hv
    have hvw : v ≠ w := by
      intro heq
      subst heq
      have hv' : s.book.signalled v = true := hv
      rw [hsignalled] at hv'
      cases hv'
    rw [hother v hvw]
    exact h.stopped v hv
  · intro u hu
    refine ⟨.release howner hu rfl, ?_, ?_, id, fun _ => id⟩
    · intro v hv ha
      by_cases hvw : v = w
      · exact absurd (hvw ▸ hv) hu
      · rw [hother v hvw] at ha
        exact ha
    · intro v hv
      have hvw : v ≠ w := by
        intro heq
        rw [heq, howner] at hv
        exact hu (Option.some.inj hv).symm
      refine ⟨rfl, ?_, rfl⟩
      intro t ht
      rw [hother v hvw] at ht
      exact ht

-- ================================================================= workers

/-- Nothing to know but the mutex. -/
theorem WorkerKnows.plain {p : WorkerPc}
    (hholds : s.sync.Holds (.worker w) (p.held n w))
    (hasleep : .worker w ∈ s.sync.asleep (.queue w) → p = .blocked)
    (hp : p.foundEmpty = false) : WorkerKnows n w p s := by
  refine ⟨hholds, hasleep, ?_, ?_⟩
  · intro htrue
    rw [hp] at htrue
    cases htrue
  · intro heq
    rw [heq] at hp
    cases hp

theorem WorkerKnows.awake {p : WorkerPc} (h : WorkerKnows n w p s)
    (hp : p ≠ .blocked) : .worker w ∉ s.sync.asleep (.queue w) :=
  fun ha => hp (h.asleep ha)

theorem Shared.lock_frame (h : s.lock m t = some s') :
    s'.sync.asleep = s.sync.asleep ∧ s'.workers = s.workers
      ∧ s'.running = s.running := by
  obtain ⟨-, y, hy, rfl⟩ := Shared.lock_cases h
  obtain ⟨-, rfl⟩ := Sync.lock_cases hy
  exact ⟨rfl, rfl, rfl⟩

theorem WorkerKnows.lock {p : WorkerPc} (hlock : s.lock m t = some s')
    (hholds : s'.sync.Holds (.worker w) (p.held n w))
    (hawake : .worker w ∉ s.sync.asleep (.queue w)) (hp : p.foundEmpty = false) :
    WorkerKnows n w p s' := by
  refine .plain hholds (fun ha => absurd ?_ hawake) hp
  rwa [(Shared.lock_frame hlock).1] at ha

theorem WorkerRule.sleepStep {p p' : WorkerPc} (hr : WorkerRule n w s p p' s')
    (hs : Awake s) (h : WorkerKnows n w p s) : SleepStep (.worker w) s s' := by
  cases hr with
  | begin => exact hs.quiet rfl (fun _ => rfl) (fun _ => rfl) rfl id
  | exit => exact hs.quiet rfl (fun _ => rfl) (fun _ => rfl) rfl id
  | findLock _ hlock => exact hs.lock hlock
  | findNone => exact hs.quiet rfl (fun _ => rfl) (fun _ => rfl) rfl id
  | findGet hhead => exact hs.popped h.holds.owner hhead
  | findEmpty => exact hs.quiet rfl (fun _ => rfl) (fun _ => rfl) rfl id
  | findSub => exact hs.setLength _ _
  | findNext =>
      exact hs.unlock h.holds.owner (hs.empty_of_worker h.holds.owner) rfl rfl
        rfl rfl
  | findFound =>
      exact hs.unlock h.holds.owner (hs.empty_of_worker h.holds.owner) rfl rfl
        rfl rfl
  | waitLock hlock => exact hs.lock hlock
  | waitGet hhead => exact hs.popped h.holds.owner hhead
  | waitEmpty => exact hs.quiet rfl (fun _ => rfl) (fun _ => rfl) rfl id
  | waitSub => exact hs.setLength _ _
  | waitOn => exact hs.quiet rfl (fun _ => rfl) (fun _ => rfl) rfl id
  | waitStop => exact hs.quiet rfl (fun _ => rfl) (fun _ => rfl) rfl id
  | waitSleep =>
      exact hs.sleep h.holds.owner (h.empty rfl) (h.unsignalled rfl)
        (h.awake nofun)
  | spurious => exact hs.woken rfl (s.sync.wake_sublist _ _)
  | relock _ hlock => exact hs.lock hlock
  | waitNone =>
      exact hs.unlock h.holds.owner (hs.empty_of_worker h.holds.owner) rfl rfl
        rfl rfl
  | waitFound =>
      exact hs.unlock h.holds.owner (hs.empty_of_worker h.holds.owner) rfl rfl
        rfl rfl
  | run =>
      exact hs.quiet rfl (fun _ => rfl) (fun _ => rfl)
        (Book.signalled_modifyAt ..) id
  | finish =>
      exact hs.quiet rfl (fun _ => rfl) (fun _ => rfl)
        (Book.signalled_modifyAt ..) id
  | freeLock hlock => exact hs.lock hlock
  | recycle => exact hs.quiet rfl (fun _ => rfl) (fun _ => rfl) rfl id
  | freeUnlock =>
      exact hs.unlock h.holds.owner (hs.empty_of_worker h.holds.owner) rfl rfl
        rfl rfl
  | doneLock hlock => exact hs.lock hlock
  | @doneSub done =>
      have hsignalled : ((done.map s.book.countOut).getD s.book).signalled
          = s.book.signalled := by
        cases done with
        | none => rfl
        | some t => rfl
      exact hs.quiet rfl (fun _ => rfl) (fun _ => rfl) hsignalled id
  | doneSignal hsignal =>
      exact hs.woken (Sync.signal_frame hsignal).1 (Sync.signal_frame hsignal).2
  | doneUnlock =>
      exact hs.unlock h.holds.owner (hs.empty_of_worker h.holds.owner) rfl rfl
        rfl rfl

theorem WorkerRule.knows {p p' : WorkerPc} (hr : WorkerRule n w s p p' s')
    (hs : Awake s) (h : WorkerKnows n w p s) : WorkerKnows n w p' s' := by
  have hholds := (hr.lockStep h.holds).holds
  cases hr with
  | begin => exact .plain hholds (fun ha => absurd ha (h.awake nofun)) rfl
  | exit => exact .plain hholds (fun ha => absurd ha (h.awake nofun)) rfl
  | findLock _ hlock => exact .lock hlock hholds (h.awake nofun) rfl
  | findNone => exact .plain hholds (fun ha => absurd ha (h.awake nofun)) rfl
  | findGet => exact .plain hholds (fun ha => absurd ha (h.awake nofun)) rfl
  | findEmpty => exact .plain hholds (fun ha => absurd ha (h.awake nofun)) rfl
  | findSub => exact .plain hholds (fun ha => absurd ha (h.awake nofun)) rfl
  | findNext => exact .plain hholds (fun ha => absurd ha (h.awake nofun)) rfl
  | findFound => exact .plain hholds (fun ha => absurd ha (h.awake nofun)) rfl
  | waitLock hlock => exact .lock hlock hholds (h.awake nofun) rfl
  | waitGet => exact .plain hholds (fun ha => absurd ha (h.awake nofun)) rfl
  | waitEmpty hhead =>
      exact ⟨hholds, fun ha => absurd ha (h.awake nofun), fun _ => hhead, nofun⟩
  | waitSub => exact .plain hholds (fun ha => absurd ha (h.awake nofun)) rfl
  | waitOn hrunning =>
      refine ⟨hholds, fun ha => absurd ha (h.awake nofun), fun _ => h.empty rfl, ?_⟩
      -- the pool runs, so nobody signalled its end
      intro _
      cases hsignalled : s.book.signalled w with
      | false => rfl
      | true =>
          rw [(hs.stopped w hsignalled).1] at hrunning
          cases hrunning
  | waitStop => exact .plain hholds (fun ha => absurd ha (h.awake nofun)) rfl
  | waitSleep => exact .plain hholds (fun _ => rfl) rfl
  | spurious => exact .plain hholds (fun _ => rfl) rfl
  | relock hawake hlock => exact .lock hlock hholds hawake rfl
  | waitNone => exact .plain hholds (fun ha => absurd ha (h.awake nofun)) rfl
  | waitFound => exact .plain hholds (fun ha => absurd ha (h.awake nofun)) rfl
  | run => exact .plain hholds (fun ha => absurd ha (h.awake nofun)) rfl
  | finish => exact .plain hholds (fun ha => absurd ha (h.awake nofun)) rfl
  | freeLock hlock => exact .lock hlock hholds (h.awake nofun) rfl
  | recycle => exact .plain hholds (fun ha => absurd ha (h.awake nofun)) rfl
  | freeUnlock => exact .plain hholds (fun ha => absurd ha (h.awake nofun)) rfl
  | doneLock hlock => exact .lock hlock hholds (h.awake nofun) rfl
  | doneSub hp =>
      refine .plain hholds (fun ha => absurd ha (h.awake nofun)) ?_
      rw [hp]
      split
      · rfl
      · rfl
  | doneSignal hsignal =>
      refine .plain hholds (fun ha => absurd ?_ (h.awake nofun)) rfl
      exact ((Sync.signal_frame hsignal).2 _).subset ha
  | doneUnlock => exact .plain hholds (fun ha => absurd ha (h.awake nofun)) rfl

-- ================================================================= clients

/-- A scheduler or the cleanup has signalled the worker it leaves alone. -/
theorem Sync.not_asleep_of_signal (hs : Awake s)
    {y : Sync MutexId CondId Thread}
    (hsignal : s.sync.signal (.queue v) (.worker v) = some y) :
    .worker v ∉ y.asleep (.queue v) := by
  rcases Sync.signal_cases hsignal with ⟨hnone, rfl⟩ | ⟨-, rfl⟩
  · rw [hnone]
    exact List.not_mem_nil
  · show _ ∉ Function.update s.sync.asleep _ _ _
    rw [Function.update_self]
    exact (hs.nodup v).not_mem_erase

theorem ClientKnows.plain {p : ClientPc} (hholds : s.sync.Holds (.client c) p.held)
    (hstopped : p.stopped = true → s.running = false)
    (hjoining : ∀ i, p.joining = some i → s.book.signalled i = true)
    (hwoken : p.woken = none)
    (hempty : ∀ i, p = .cleanSignal i →
      .worker i ∈ s.sync.asleep (.queue i) → (s.workers i).head = 0) :
    ClientKnows c p s := by
  refine ⟨hholds, hstopped, hjoining, ?_, hempty⟩
  intro v hv
  rw [hwoken] at hv
  cases hv

theorem Shared.appended_frame (s : Shared) (task v : Nat) :
    (s.appended task v).sync = s.sync ∧ (s.appended task v).running = s.running
      ∧ (s.appended task v).book.signalled = s.book.signalled
      ∧ ∀ v', v' ≠ v → (s.appended task v).workers v' = s.workers v' := by
  unfold Shared.appended
  split
  · exact ⟨rfl, rfl, Book.signalled_modifyAt ..,
      fun v' hv' => Function.update_of_ne hv' ..⟩
  · exact ⟨rfl, rfl, Book.signalled_modifyAt ..,
      fun v' hv' => Function.update_of_ne hv' ..⟩

/-- Linking holds the queue's mutex. -/
theorem Awake.appended (h : Awake s) (task : Nat)
    (howner : s.sync.owner (.queue v) = some (.client c)) :
    SleepStep (.client c) s (s.appended task v) := by
  obtain ⟨hsync, hrunning, hsignalled, hother⟩ := s.appended_frame task v
  have hsame : ∀ u, u ≠ Thread.client c →
      Sync.SameFor u s.sync (s.appended task v).sync := by
    intro u _
    exact .of_owner (congrArg Sync.owner hsync) u
  apply h.step hsame
  · intro v'
    rw [hsync]
  · intro v' hv'
    rw [hsync]
    by_cases heq : v' = v
    · exact Or.inr ⟨c, heq ▸ howner⟩
    · rw [hother v' heq]
      exact h.empty v' hv'
  · intro v' hv'
    rw [hother v' fun heq => hv' (heq ▸ howner)]
  · exact hsignalled
  · exact fun hstop => hrunning.trans hstop

/-- The end is signalled once the pool is stopped. -/
theorem Awake.signal (h : Awake s) {i : Nat} {y : Sync MutexId CondId Thread}
    (hsignal : s.sync.signal (.queue i) (.worker i) = some y)
    (howner : s.sync.owner (.queue i) = some t) (hstop : s.running = false) :
    SleepStep t s { s with sync := y, book := s.book.signal i } := by
  obtain ⟨howner', hsub⟩ := Sync.signal_frame hsignal
  have hawake := Sync.not_asleep_of_signal h hsignal
  refine ⟨⟨?_, ?_, ?_, ?_⟩, ?_⟩
  · exact fun v t ht => h.only v t ((hsub _).subset ht)
  · exact fun v => (h.nodup v).sublist (hsub _)
  · intro v hv
    show _ ∨ ∃ c, y.owner _ = _
    rw [howner']
    exact h.empty v ((hsub _).subset hv)
  · intro v hv
    refine ⟨hstop, ?_⟩
    by_cases hvi : v = i
    · rw [hvi]
      exact hawake
    · have hv' : s.book.signalled v = true := by
        rw [← hv]
        exact (Function.update_of_ne hvi ..).symm
      exact fun ha => (h.stopped v hv').2 ((hsub _).subset ha)
  · intro u hu
    refine ⟨.of_owner howner' u, fun v _ ha => (hsub _).subset ha, ?_, id, ?_⟩
    · intro v hv
      have hvi : v ≠ i := by
        intro heq
        rw [heq, howner] at hv
        exact hu (Option.some.inj hv).symm
      exact ⟨rfl, fun t ht => (hsub _).subset ht, Function.update_of_ne hvi ..⟩
    · intro v hv
      show Function.update s.book.signalled i true v = true
      rw [Function.update_apply, hv, ite_self]

/-- A client goes to sleep, not on a queue. -/
theorem Awake.release (h : Awake s)
    (howner : s.sync.owner .wait = some (.client c)) :
    SleepStep (.client c) s (s.sleep .wait .wait (.client c)) := by
  have hasleep : ∀ v,
      (s.sleep .wait .wait (.client c)).sync.asleep (.queue v)
        = s.sync.asleep (.queue v) := by
    intro v
    have hne : CondId.queue v ≠ .wait := nofun
    exact Sync.sleep_of_ne hne ..
  have howner' : (s.sleep .wait .wait (.client c)).sync.owner
      = Function.update s.sync.owner .wait none := rfl
  have hsame : ∀ u, u ≠ Thread.client c →
      Sync.SameFor u s.sync (s.sleep .wait .wait (.client c)).sync :=
    fun u hu => .release howner hu rfl
  apply h.step hsame
  · intro v
    rw [hasleep]
  · intro v hv
    rcases h.empty v hv with hhead | ⟨c', hc'⟩
    · exact Or.inl hhead
    · refine Or.inr ⟨c', ?_⟩
      have hne : MutexId.queue v ≠ .wait := nofun
      rw [howner', Function.update_of_ne hne, hc']
  · exact fun v _ => rfl
  · rfl
  · exact id

theorem ClientRule.sleepStep {p p' : ClientPc} (hr : ClientRule n c s p p' s')
    (hs : Awake s) (h : ClientKnows c p s) : SleepStep (.client c) s s' := by
  cases hr with
  | schedule => exact hs.quiet rfl (fun _ => rfl) (fun _ => rfl) rfl id
  | wait => exact hs.quiet rfl (fun _ => rfl) (fun _ => rfl) rfl id
  | cleanup => exact hs.quiet rfl (fun _ => rfl) (fun _ => rfl) rfl id
  | newLock hlock => exact hs.lock hlock
  | newGet => exact hs.quiet rfl (fun _ => rfl) (fun _ => rfl) rfl id
  | newNone => exact hs.quiet rfl (fun _ => rfl) (fun _ => rfl) rfl id
  | newFail => exact hs.unlock h.holds.owner nofun rfl rfl rfl rfl
  | newUnlock => exact hs.unlock h.holds.owner nofun rfl rfl rfl rfl
  | newInit => exact hs.quiet rfl (fun _ => rfl) (fun _ => rfl) rfl id
  | scan => exact hs.quiet rfl (fun _ => rfl) (fun _ => rfl) rfl id
  | scanned => exact hs.quiet rfl (fun _ => rfl) (fun _ => rfl) rfl id
  | queueLock hlock => exact hs.lock hlock
  | link => exact hs.appended _ h.holds.owner
  | addActive =>
      exact hs.quiet rfl (fun _ => rfl) (fun _ => rfl)
        (Book.signalled_modifyAt ..) id
  | addLength => exact hs.setLength _ _
  | signal hsignal =>
      exact hs.woken (Sync.signal_frame hsignal).1 (Sync.signal_frame hsignal).2
  | @queueUnlock task v =>
      refine hs.unlock h.holds.owner ?_ rfl rfl (Book.signalled_modifyAt ..) rfl
      intro v' hv' ha
      cases hv'
      exact absurd ha (h.woken v rfl)
  | waitLock hlock => exact hs.lock hlock
  | waitOn => exact hs.quiet rfl (fun _ => rfl) (fun _ => rfl) rfl id
  | waitStop => exact hs.quiet rfl (fun _ => rfl) (fun _ => rfl) rfl id
  | waitSleep => exact hs.release h.holds.owner
  | spurious => exact hs.woken rfl (s.sync.wake_sublist _ _)
  | relock _ hlock => exact hs.lock hlock
  | waitUnlock => exact hs.unlock h.holds.owner nofun rfl rfl rfl rfl
  | cleanStore => exact hs.quiet rfl (fun _ => rfl) (fun _ => rfl) rfl fun _ => rfl
  | cleanLock _ hlock => exact hs.lock hlock
  | cleanEnd => exact hs.quiet rfl (fun _ => rfl) (fun _ => rfl) rfl id
  | cleanSignal hsignal => exact hs.signal hsignal h.holds.owner (h.stopped rfl)
  | @cleanUnlock i =>
      refine hs.unlock h.holds.owner ?_ rfl rfl rfl rfl
      intro v hv ha
      cases hv
      exact absurd ha (h.woken i rfl)
  | cleanJoin => exact hs.quiet rfl (fun _ => rfl) (fun _ => rfl) rfl id
  | cleanDestroy => exact hs.quiet rfl (fun _ => rfl) (fun _ => rfl) rfl id
  | cleanFree => exact hs.quiet rfl (fun _ => rfl) (fun _ => rfl) rfl id

/-- Taking a mutex tells nothing new. -/
theorem ClientKnows.lock {p : ClientPc} (hlock : s.lock m t = some s')
    (hholds : s'.sync.Holds (.client c) p.held)
    (hstopped : p.stopped = true → s.running = false) (hjoining : p.joining = none)
    (hwoken : p.woken = none)
    (hempty : ∀ i, p = .cleanSignal i →
      .worker i ∈ s.sync.asleep (.queue i) → (s.workers i).head = 0) :
    ClientKnows c p s' := by
  obtain ⟨hasleep, hworkers, hrunning⟩ := Shared.lock_frame hlock
  refine .plain hholds ?_ (by simp [hjoining]) hwoken ?_
  · rwa [hrunning]
  · rwa [hasleep, hworkers]

theorem ClientRule.knows {p p' : ClientPc} (hr : ClientRule n c s p p' s')
    (hs : Awake s) (h : ClientKnows c p s) : ClientKnows c p' s' := by
  have hholds := (hr.lockStep h.holds).holds
  cases hr with
  | schedule => exact .plain hholds nofun nofun rfl nofun
  | wait => exact .plain hholds nofun nofun rfl nofun
  | cleanup => exact .plain hholds nofun nofun rfl nofun
  | newLock hlock => exact .lock hlock hholds nofun rfl rfl nofun
  | newGet => exact .plain hholds nofun nofun rfl nofun
  | newNone => exact .plain hholds nofun nofun rfl nofun
  | newFail => exact .plain hholds nofun nofun rfl nofun
  | newUnlock => exact .plain hholds nofun nofun rfl nofun
  | newInit => exact .plain hholds nofun nofun rfl nofun
  | scan => exact .plain hholds nofun nofun rfl nofun
  | scanned => exact .plain hholds nofun nofun rfl nofun
  | queueLock hlock => exact .lock hlock hholds nofun rfl rfl nofun
  | link => exact .plain hholds nofun nofun rfl nofun
  | addActive => exact .plain hholds nofun nofun rfl nofun
  | addLength => exact .plain hholds nofun nofun rfl nofun
  | signal hsignal =>
      refine ⟨hholds, nofun, nofun, ?_, nofun⟩
      intro v hv
      cases hv
      exact Sync.not_asleep_of_signal hs hsignal
  | queueUnlock => exact .plain hholds nofun nofun rfl nofun
  | waitLock hlock => exact .lock hlock hholds nofun rfl rfl nofun
  | waitOn => exact .plain hholds nofun nofun rfl nofun
  | waitStop => exact .plain hholds nofun nofun rfl nofun
  | waitSleep => exact .plain hholds nofun nofun rfl nofun
  | spurious => exact .plain hholds nofun nofun rfl nofun
  | relock _ hlock => exact .lock hlock hholds nofun rfl rfl nofun
  | waitUnlock => exact .plain hholds nofun nofun rfl nofun
  | cleanStore => exact .plain hholds (fun _ => rfl) nofun rfl nofun
  | @cleanLock i _ _ hlock =>
      refine .lock hlock hholds (fun _ => h.stopped rfl) rfl rfl ?_
      intro i' hi' ha
      cases hi'
      -- the mutex was free, so no scheduler is about to wake the worker
      rcases hs.empty i ha with hhead | ⟨c', hc'⟩
      · exact hhead
      · obtain ⟨-, y, hy, -⟩ := Shared.lock_cases hlock
        rw [(Sync.lock_cases hy).1] at hc'
        cases hc'
  | cleanEnd => exact .plain hholds (fun _ => h.stopped rfl) nofun rfl nofun
  | cleanSignal hsignal =>
      refine ⟨hholds, fun _ => h.stopped rfl, ?_, ?_, nofun⟩
      · intro v hv
        cases hv
        exact Function.update_self ..
      · intro v hv
        cases hv
        exact Sync.not_asleep_of_signal hs hsignal
  | cleanUnlock =>
      refine .plain hholds (fun _ => h.stopped rfl) ?_ rfl nofun
      intro v hv
      cases hv
      exact h.joining _ rfl
  | cleanJoin => exact .plain hholds (fun _ => h.stopped rfl) nofun rfl nofun
  | cleanDestroy => exact .plain hholds (fun _ => h.stopped rfl) nofun rfl nofun
  | cleanFree => exact .plain hholds nofun nofun rfl nofun

-- ==================================================================== runs

variable {mem : Mem} {oracle : Nat → Nat} {cfg : Config Pc Shared}

theorem holds_init (t : Thread) :
    (Sync.init : Sync MutexId CondId Thread).Holds t none :=
  fun _ => iff_of_false nofun nofun

theorem started_knows (h : Started n mem oracle cfg) :
    Awake cfg.shared ∧ ∀ t, Knows n t (cfg.pc t) cfg.shared := by
  obtain ⟨taskPool, m, -, rfl⟩ := h
  refine ⟨⟨nofun, fun _ => List.nodup_nil, nofun, nofun⟩, ?_⟩
  intro t
  cases t with
  | worker w =>
      show WorkerKnows n w (if w < n then .top else .exited) _
      split
      · exact .plain (holds_init _) nofun rfl
      · exact .plain (holds_init _) nofun rfl
  | client c => exact .plain (holds_init _) nofun nofun rfl nofun

theorem Run.awake {allowed : (t : Thread) → Pc t → Shared → Prop}
    (h : Interleaved (program n) allowed (Started n mem oracle) cfg) :
    Awake cfg.shared ∧ ∀ t, Knows n t (cfg.pc t) cfg.shared := by
  refine h.rely (fun _ => True) Awake (Knows n) SleepRely (fun _ _ _ _ _ _ _ _ =>
    trivial) (fun _ => started_knows) ?_ (fun _ _ _ _ hr hk => hk.stable hr) trivial
  intro t x p s p' s' hrun _ _ hs hk
  cases t with
  | worker w =>
      have hr := workerStep_rule hrun
      have hstep := hr.sleepStep hs hk
      exact ⟨hstep.awake, hr.knows hs hk, hstep.rely⟩
  | client c =>
      have hr := clientStep_rule hrun
      have hstep := hr.sleepStep hs hk
      exact ⟨hstep.awake, hr.knows hs hk, hstep.rely⟩

/-- The queue a scheduler has locked. -/
def ClientPc.scheduling : ClientPc → Option Nat
  | .link _ v => some v
  | .addActive _ v => some v
  | .addLength _ v => some v
  | .signal _ v => some v
  | .queueUnlock _ v => some v
  | _ => none

/-- No worker sleeps on what it was to be woken for. -/
structure NoLostWakeup (cfg : Config Pc Shared) : Prop where
  /-- the queue of a worker that sleeps is empty, unless a scheduler is at
  it -/
  queue : ∀ w, .worker w ∈ cfg.shared.sync.asleep (.queue w) →
    (∀ c, ClientPc.scheduling (cfg.pc (.client c)) ≠ some w) →
    (cfg.shared.workers w).head = 0
  /-- a worker whose end was signalled does not sleep -/
  stopped : ∀ w, cfg.shared.book.signalled w = true →
    .worker w ∉ cfg.shared.sync.asleep (.queue w)
  /-- nor does one that is joined -/
  joined : ∀ c w, cfg.pc (.client c) = ClientPc.cleanJoin w →
    .worker w ∉ cfg.shared.sync.asleep (.queue w)

/-- No wake-up of a worker is lost, in any interleaving. -/
theorem cxThreadpool_noLostWakeup (h : Run n mem oracle cfg) :
    NoLostWakeup cfg := by
  obtain ⟨hawake, hknows⟩ := Run.awake h
  refine ⟨?_, fun w hw => (hawake.stopped w hw).2, ?_⟩
  · intro w hw hnone
    rcases hawake.empty w hw with hhead | ⟨c, howner⟩
    · exact hhead
    · -- whoever holds the mutex is at the end of its work or the cleanup
      have hc : ClientKnows c (cfg.pc (.client c)) cfg.shared := hknows (.client c)
      have hpc := hnone c
      have hheld := (hc.holds _).mp howner
      generalize (cfg.pc (.client c) : ClientPc) = p at hc hpc hheld
      cases p with
      | cleanSignal i =>
          cases hheld
          exact hc.empty w rfl hw
      | cleanUnlock i =>
          cases hheld
          exact absurd hw (hc.woken w rfl)
      | link task v => exact absurd (by cases hheld; rfl) hpc
      | addActive task v => exact absurd (by cases hheld; rfl) hpc
      | addLength task v => exact absurd (by cases hheld; rfl) hpc
      | signal task v => exact absurd (by cases hheld; rfl) hpc
      | queueUnlock task v => exact absurd (by cases hheld; rfl) hpc
      | _ => cases hheld
  · intro c w hpc
    have hc : ClientKnows c (cfg.pc (.client c)) cfg.shared := hknows (.client c)
    rw [hpc] at hc
    exact (hawake.stopped w (hc.joining w rfl)).2

/-- A worker sleeps while a task is linked into its queue. -/
theorem cxThreadpool_noLostWakeup_linked :
    ∃ cfg, NoLostWakeup cfg ∧ .worker 0 ∈ cfg.shared.sync.asleep (.queue 0)
      ∧ (cfg.shared.workers 0).head ≠ 0 := by
  obtain ⟨cfg, hrun, htest, -⟩ := run_of_playFrom 1
    (turnsOf (.worker 0) (List.replicate 9 .go)
      ++ turnsOf (.client 0) (.schedule 1 2 :: List.replicate 8 .go))
    (fun _ => 0) (fun t => 1024 * (t + 1))
    (fun cfg => decide (.worker 0 ∈ cfg.shared.sync.asleep (.queue 0)
      ∧ (cfg.shared.workers 0).head ≠ 0)) (by decide +kernel)
  exact ⟨cfg, cxThreadpool_noLostWakeup hrun, of_decide_eq_true htest⟩

end Cextras.Concurrency
