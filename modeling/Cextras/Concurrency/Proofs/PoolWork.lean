/-
What a thread pool still has to do. A worker that looks for a task passes
all queues and then sleeps; one that has a task runs it, counts it out and
looks again. So each task that is linked and not taken stands for one more
round of a worker (`perTask`), a schedule pays for it, and apart from that
each step of each thread leaves it less to do (`poolWork_step`), also
while the pool is shut down.
-/
import Cextras.Concurrency.Proofs.TaskRuns
import Cextras.Lib.Settle

namespace Cextras.Concurrency

open Lib Memory

variable {n w c a v j : Nat} {s s' : Shared} {t u : Thread} {b b' : Book}
  {cfg cfg' : Config Pc Shared} {mem : Mem} {oracle : Nat → Nat} {x : Choice}

-- ========================================================= tasks to be taken

/-- The task is in a queue. -/
def TaskRecord.pending (r : TaskRecord) : Bool := r.linked && r.taker.isNone

/-- The number of tasks in queues. -/
def Book.pending (b : Book) : Nat :=
  ((Finset.range b.count).filter fun i => (b.record i).pending = true).card

theorem Book.pending_congr (hcount : b'.count = b.count)
    (hrecord : ∀ i, (b'.record i).pending = (b.record i).pending) :
    b'.pending = b.pending := by
  unfold Book.pending
  rw [hcount]
  congr 1
  exact Finset.filter_congr fun i _ => by rw [hrecord i]

theorem Book.pending_modify (b : Book) (i : Nat) {f : TaskRecord → TaskRecord}
    (hf : ∀ r, (f r).pending = r.pending) :
    (b.modify i f).pending = b.pending := by
  refine Book.pending_congr rfl fun k => ?_
  show (Function.update b.record i (f (b.record i)) k).pending = _
  by_cases hk : k = i
  · rw [hk, Function.update_self, hf]
  · rw [Function.update_of_ne hk]

theorem Book.pending_modifyAt (b : Book) (cell : Nat)
    {f : TaskRecord → TaskRecord} (hf : ∀ r, (f r).pending = r.pending) :
    (b.modifyAt cell f).pending = b.pending := by
  unfold Book.modifyAt
  split
  · exact b.pending_modify _ hf
  · rfl

theorem Book.pending_create (b : Book) (cell function arg c : Nat) :
    (b.create cell function arg c).pending = b.pending := by
  unfold Book.pending
  have hcount : (b.create cell function arg c).count = b.count + 1 := rfl
  have hnew : ((b.create cell function arg c).record b.count).pending
      = false := by
    show TaskRecord.pending (Function.update b.record b.count _ b.count) = false
    rw [Function.update_self]
    rfl
  rw [hcount, Finset.range_add_one, Finset.filter_insert, hnew]
  congr 1
  refine Finset.filter_congr fun i hi => ?_
  have hne : i ≠ b.count := Nat.ne_of_lt (Finset.mem_range.mp hi)
  show TaskRecord.pending (Function.update b.record b.count _ i) = true ↔ _
  rw [Function.update_of_ne hne]

/-- A task is linked. -/
theorem Advance.pending_in {p : Place} {r : TaskRecord}
    (hadv : Advance b b' a j p r) (hj : j < b.count)
    (hold : (b.record j).pending = false) (hr : r.pending = true) :
    b'.pending = b.pending + 1 := by
  unfold Book.pending
  have hinsert : ((Finset.range b'.count).filter fun i =>
      (b'.record i).pending = true)
      = insert j ((Finset.range b.count).filter fun i =>
        (b.record i).pending = true) := by
    ext i
    rw [hadv.count]
    simp only [Finset.mem_filter, Finset.mem_range, Finset.mem_insert]
    by_cases hij : i = j
    · rw [hij, hadv.record_self, hr]
      simp [hj]
    · rw [hadv.record_of_ne hij]
      simp [hij]
  rw [hinsert, Finset.card_insert_of_notMem]
  simp [hold]

/-- A task is taken. -/
theorem Advance.pending_out {p : Place} {r : TaskRecord}
    (hadv : Advance b b' a j p r) (hj : j < b.count)
    (hold : (b.record j).pending = true) (hr : r.pending = false) :
    b'.pending + 1 = b.pending := by
  unfold Book.pending
  have herase : ((Finset.range b'.count).filter fun i =>
      (b'.record i).pending = true)
      = ((Finset.range b.count).filter fun i =>
        (b.record i).pending = true).erase j := by
    ext i
    rw [hadv.count]
    simp only [Finset.mem_filter, Finset.mem_range, Finset.mem_erase]
    by_cases hij : i = j
    · rw [hij, hadv.record_self, hr]
      simp
    · rw [hadv.record_of_ne hij]
      simp [hij]
  rw [herase]
  apply Finset.card_erase_add_one
  simp [hj, hold]

theorem Sound.pending_pop (hs : Sound n s)
    (howner : s.sync.owner (.queue v) = some (.worker w))
    (hhead : (s.workers v).head ≠ 0) :
    (s.popped v w).book.pending + 1 = s.book.pending := by
  obtain ⟨i, hi, -, hunfinished, hm⟩ := hs.take howner hhead
  obtain ⟨q, hq⟩ := hs.stored
  have hsuits := hs.booked.suits _ i hi
  rw [hq.head_place hhead] at hsuits
  obtain ⟨hlinked, htaker⟩ := hsuits
  refine hm.advance.pending_out hm.task ?_ ?_
  · unfold TaskRecord.pending
    rw [hlinked, htaker]
    rfl
  · unfold TaskRecord.pending
    exact Bool.and_false _

theorem ClientHas.pending_link (h : ClientHas n c (.link a v) s)
    (hs : Sound n s) :
    (s.appended a v).book.pending = s.book.pending + 1 := by
  obtain ⟨i, hi, huncounted, hm⟩ := h.link hs (h.target v rfl)
  have hsuits := hs.booked.suits a i hi
  rw [(h.cell a).mpr rfl] at hsuits
  have hunlinked : (s.book.record i).linked = false := hsuits
  have htaker : (s.book.record i).taker = none := by
    by_contra htaker
    rw [(hs.booked.ordered i hm.task).taken htaker] at huncounted
    cases huncounted
  refine hm.advance.pending_in hm.task ?_ ?_
  · unfold TaskRecord.pending
    rw [hunlinked]
    rfl
  · unfold TaskRecord.pending
    rw [htaker]
    rfl

-- ================================================================ the ranks

/-- The steps a worker is from its sleep, or from its end, when it starts to
look for a task. -/
def again (n : Nat) (s : Shared) : Nat := if s.running then 3 * n + 7 else 1

/-- The steps worker `w` is from its sleep or its end, with one for whom it
has to wake. -/
def workerRank (n w : Nat) (p : WorkerPc) (s : Shared) : Nat :=
  match p with
  | .top => again n s
  | .findLock i => 3 * (n - i) + 6
  | .findGet i => 3 * (n - (i + 1)) + 8
  | .findSub i task =>
      (if task = 0 then 3 * (n - (i + 1)) + 7 else again n s + 13) + 1
  | .findUnlock i task =>
      if task = 0 then 3 * (n - (i + 1)) + 7 else again n s + 13
  | .waitLock => 5
  | .waitGet => 4
  | .waitSub task => (if task = 0 then again n s + 1 else again n s + 13) + 1
  | .waitTest => 3
  | .waitSleep => 1
  | .blocked => if .worker w ∈ s.sync.asleep (.queue w) then 0 else 5
  | .waitUnlock task => if task = 0 then again n s + 1 else again n s + 13
  | .run _ => again n s + 12
  | .running _ => again n s + 11
  | .freeLock _ => again n s + 10
  | .freeRecycle _ => again n s + 9
  | .freeUnlock _ => again n s + 8
  | .doneLock _ => again n s + 7
  | .doneSub _ => again n s + 6
  | .doneSignal => again n s + 5
  | .doneUnlock => again n s + 1
  | .exited => 0

/-- The round a task sends its worker on. -/
def perTask (n : Nat) : Nat := 3 * n + 18

/-- The steps client `c` is from the end of its call, or from its sleep. One
that schedules has the round of its task to pay for as well, one that cleans
up has the workers to wake. -/
def clientRank (n c : Nat) (p : ClientPc) (s : Shared) : Nat :=
  match p with
  | .idle => 0
  | .newLock _ _ => n + perTask n + 16
  | .newGet _ _ => n + perTask n + 15
  | .newUnlock _ _ task => if task = 0 then 1 else n + perTask n + 14
  | .newInit _ _ _ => n + perTask n + 13
  | .scan _ i _ _ => (n - i) + perTask n + 12
  | .queueLock _ _ => perTask n + 11
  | .link _ _ => perTask n + 10
  | .addActive _ _ => 9
  | .addLength _ _ => 8
  | .signal _ _ => 7
  | .queueUnlock _ _ => 1
  | .waitLock => 3
  | .waitTest => 2
  | .waitSleep => 1
  | .blocked => if .client c ∈ s.sync.asleep .wait then 0 else 3
  | .waitUnlock => 1
  | .cleanStore => 10 * n + 3
  | .cleanLock i => 10 * (n - i) + 2
  | .cleanSignal i => 10 * (n - (i + 1)) + 11
  | .cleanUnlock i => 10 * (n - (i + 1)) + 5
  | .cleanJoin i => 10 * (n - (i + 1)) + 4
  | .cleanDestroy i => 10 * (n - (i + 1)) + 3
  | .cleanFree => 1

def poolRank (n : Nat) : (t : Thread) → Pc t → Shared → Nat
  | .worker w, p, s => workerRank n w p s
  | .client c, p, s => clientRank n c p s

/-- What a call brings in, and a wake-up for no reason. -/
def poolFuel (n : Nat) : Choice → Nat
  | .go => 0
  | .wake _ => 0
  | .spurious => 6
  | .schedule _ _ => n + perTask n + 17
  | .wait => 4
  | .cleanup => 10 * n + 4

/-- The work of the threads of `T`, and of the queues. -/
def poolWork (n : Nat) (T : Finset Thread) (cfg : Config Pc Shared) : Nat :=
  total (poolRank n) T cfg.pc cfg.shared
    + perTask n * cfg.shared.book.pending

-- ============================================================ other threads

/-- What a step of one thread leaves of the ranks of the others. -/
structure Calm (u : Thread) (s s' : Shared) : Prop where
  running : s'.running = true → s.running = true
  asleep : ∀ k, u ∈ s.sync.asleep k → u ∈ s'.sync.asleep k

theorem again_le (h : s'.running = true → s.running = true) :
    again n s' ≤ again n s := by
  unfold again
  split
  · next hrunning =>
      rw [if_pos (h hrunning)]
  · split <;> omega

theorem poolRank_le {q : Pc u} (h : Calm u s s') :
    poolRank n u q s' ≤ poolRank n u q s := by
  have hagain : again n s' ≤ again n s := again_le h.running
  cases u with
  | worker w =>
      have hq : ∀ q' : WorkerPc, q = q' →
          workerRank n w q' s' ≤ workerRank n w q' s := by
        intro q' _
        cases q' with
        | blocked =>
            simp only [workerRank]
            split
            · exact Nat.zero_le _
            · next hawake => rw [if_neg fun ha => hawake (h.asleep _ ha)]
        | _ =>
            simp only [workerRank]
            first | omega | split <;> omega
      exact hq q rfl
  | client c =>
      have hq : ∀ q' : ClientPc, q = q' →
          clientRank n c q' s' ≤ clientRank n c q' s := by
        intro q' _
        cases q' with
        | blocked =>
            simp only [clientRank]
            split
            · exact Nat.zero_le _
            · next hawake => rw [if_neg fun ha => hawake (h.asleep _ ha)]
        | _ => exact Nat.le_refl _
      exact hq q rfl

/-- A worker that is woken. -/
theorem workerRank_woken (w : Nat) (q : WorkerPc)
    (h : s'.running = true → s.running = true) :
    workerRank n w q s' ≤ workerRank n w q s + 5 := by
  have hagain : again n s' ≤ again n s := again_le h
  cases q with
  | _ =>
      simp only [workerRank]
      first | omega | split <;> omega

/-- A client that is woken. -/
theorem clientRank_woken (c : Nat) (q : ClientPc) (s s' : Shared) :
    clientRank n c q s' ≤ clientRank n c q s + 3 := by
  cases q with
  | blocked =>
      simp only [clientRank]
      split <;> split <;> omega
  | _ => exact Nat.le_add_right _ _

theorem Calm.of_eq (hrunning : s'.running = s.running)
    (hasleep : s'.sync.asleep = s.sync.asleep) : Calm u s s' := by
  refine ⟨fun h => hrunning ▸ h, ?_⟩
  intro k ha
  rw [hasleep]
  exact ha

theorem Calm.lock {m : MutexId} (h : s.lock m t = some s') : Calm u s s' := by
  obtain ⟨-, y, hy, rfl⟩ := Shared.lock_cases h
  obtain ⟨-, rfl⟩ := Sync.lock_cases hy
  exact ⟨id, fun _ => id⟩

theorem Calm.sleep (hu : u ≠ t) (k : CondId) (m : MutexId) :
    Calm u s (s.sleep k m t) :=
  ⟨id, fun k' => (Sync.mem_sleep_of_ne hu m k').mpr⟩

theorem Calm.wake (hu : u ≠ t) (k : CondId) : Calm u s (s.wake k t) :=
  ⟨id, fun k' => (Sync.mem_wake_of_ne hu k').mpr⟩

/-- Whoever was not signalled goes on sleeping. -/
theorem Calm.signal {k : CondId} {y : Sync MutexId CondId Thread}
    (h : s.sync.signal k t = some y) (hu : u ≠ t) {b : Book} :
    Calm u s { s with sync := y, book := b } := by
  rcases Sync.signal_cases h with ⟨-, rfl⟩ | ⟨-, rfl⟩
  · exact ⟨id, fun _ => id⟩
  · exact ⟨id, fun k' => (Sync.mem_wake_of_ne hu k').mpr⟩

-- ================================================================== workers

/-- Only one that counts the last task out wakes another thread. -/
theorem WorkerRule.calm {p p' : WorkerPc} (hr : WorkerRule n w s p p' s')
    (hp : p ≠ .doneSignal) (hu : u ≠ .worker w) : Calm u s s' := by
  cases hr with
  | findLock _ hlock => exact .lock hlock
  | waitLock hlock => exact .lock hlock
  | relock _ hlock => exact .lock hlock
  | freeLock hlock => exact .lock hlock
  | doneLock hlock => exact .lock hlock
  | waitSleep => exact .sleep hu _ _
  | spurious => exact .wake hu _
  | doneSignal => exact absurd rfl hp
  | _ => exact .of_eq rfl rfl

theorem Shared.lock_same {m : MutexId} (h : s.lock m t = some s') :
    s'.running = s.running ∧ s'.book = s.book := by
  obtain ⟨-, y, -, rfl⟩ := Shared.lock_cases h
  exact ⟨rfl, rfl⟩

theorem again_congr (h : s'.running = s.running) : again n s' = again n s := by
  unfold again
  rw [h]

theorem again_bounds (n : Nat) (s : Shared) :
    1 ≤ again n s ∧ again n s ≤ 3 * n + 7 := by
  unfold again
  split <;> omega

/-- What a worker's step costs. One that signals has a client to wake; one
that is woken for no reason has not paid. -/
def WorkerPays (n w : Nat) (s : Shared) (p p' : WorkerPc) (s' : Shared) : Prop :=
  workerRank n w p' s' + perTask n * s'.book.pending
      + (if p = .doneSignal then 3 else 0) + 1
    ≤ workerRank n w p s + perTask n * s.book.pending
  ∨ p = .blocked ∧ p' = .blocked ∧ s'.book = s.book

theorem WorkerPays.of_lt {p p' : WorkerPc} (hp : p ≠ .doneSignal)
    (hpending : s'.book.pending = s.book.pending)
    (hlt : workerRank n w p' s' < workerRank n w p s) :
    WorkerPays n w s p p' s' := by
  left
  rw [if_neg hp, hpending]
  omega

theorem WorkerPays.lock {p p' : WorkerPc} {m : MutexId}
    (hlock : s.lock m t = some s') (hp : p ≠ .doneSignal)
    (hlt : workerRank n w p' s' < workerRank n w p s) :
    WorkerPays n w s p p' s' :=
  .of_lt hp (by rw [(Shared.lock_same hlock).2]) hlt

/-- A worker that takes a task is sent on one more round. -/
theorem WorkerPays.pop {p p' : WorkerPc} (hs : Sound n s)
    (howner : s.sync.owner (.queue v) = some (.worker w))
    (hhead : (s.workers v).head ≠ 0) (hp : p ≠ .doneSignal)
    (hlt : workerRank n w p' (s.popped v w) < workerRank n w p s + perTask n) :
    WorkerPays n w s p p' (s.popped v w) := by
  left
  have hpop := hs.pending_pop howner hhead
  rw [if_neg hp, ← hpop, Nat.mul_succ]
  omega

/-- A worker's step leaves it less to do, unless it was woken for no
reason. -/
theorem WorkerRule.work {p p' : WorkerPc} (hr : WorkerRule n w s p p' s')
    (hs : Sound n s) (hk : WorkerHas n w p s) : WorkerPays n w s p p' s' := by
  have hbounds := again_bounds n s
  have hper : perTask n = 3 * n + 18 := rfl
  cases hr with
  | spurious => exact Or.inr ⟨rfl, rfl, rfl⟩
  | begin hrunning =>
      refine .of_lt nofun rfl ?_
      simp only [workerRank, again, hrunning, if_true]
      omega
  | exit => exact .of_lt nofun rfl hbounds.1
  | @findLock i _ hi hlock =>
      refine .lock hlock nofun ?_
      simp only [workerRank]
      omega
  | findNone =>
      refine .of_lt nofun rfl ?_
      simp only [workerRank]
      omega
  | @findGet i hhead =>
      refine .pop hs hk.holds.owner hhead nofun ?_
      simp only [workerRank, if_neg hhead]
      show again n s + 13 + 1 < _
      omega
  | findEmpty =>
      refine .of_lt nofun rfl ?_
      simp only [workerRank, if_true]
      omega
  | findSub => exact .of_lt nofun rfl (Nat.lt_succ_self _)
  | findNext =>
      refine .of_lt nofun rfl ?_
      simp only [workerRank, if_true]
      omega
  | findFound htask =>
      refine .of_lt nofun rfl ?_
      simp only [workerRank, if_neg htask]
      exact Nat.lt_succ_self _
  | waitLock hlock => exact .lock hlock nofun (Nat.lt_succ_self 4)
  | waitGet hhead =>
      refine .pop hs hk.holds.owner hhead nofun ?_
      simp only [workerRank, if_neg hhead]
      show again n s + 13 + 1 < _
      omega
  | waitEmpty => exact .of_lt nofun rfl (Nat.lt_succ_self 3)
  | waitSub => exact .of_lt nofun rfl (Nat.lt_succ_self _)
  | waitOn =>
      refine .of_lt nofun rfl ?_
      show 1 < 3
      omega
  | waitStop hrunning =>
      refine .of_lt nofun rfl ?_
      simp only [workerRank, again, hrunning, if_true, Bool.false_eq_true, if_false]
      omega
  | waitSleep =>
      have hin : Thread.worker w ∈ (s.sleep (.queue w) (.queue w)
          (.worker w)).sync.asleep (.queue w) := by
        show _ ∈ (s.sync.sleep (.queue w) (.queue w) (.worker w)).asleep _
        rw [Sync.sleep_self]
        exact List.mem_cons_self
      refine .of_lt nofun rfl ?_
      simp only [workerRank, if_pos hin]
      exact Nat.zero_lt_one
  | relock hawake hlock =>
      refine .lock hlock nofun ?_
      simp only [workerRank, if_neg hawake]
      omega
  | waitNone =>
      refine .of_lt nofun rfl ?_
      simp only [workerRank, if_true]
      exact Nat.lt_succ_self _
  | waitFound htask =>
      refine .of_lt nofun rfl ?_
      simp only [workerRank, if_neg htask]
      exact Nat.lt_succ_self _
  | @run task call m' _ =>
      exact .of_lt nofun (s.book.pending_modifyAt task fun _ => rfl)
        (Nat.lt_succ_self _)
  | @finish task =>
      exact .of_lt nofun (s.book.pending_modifyAt task fun _ => rfl)
        (Nat.lt_succ_self _)
  | freeLock hlock =>
      refine .lock hlock nofun ?_
      simp only [workerRank, again_congr (Shared.lock_same hlock).1]
      omega
  | recycle => exact .of_lt nofun rfl (Nat.lt_succ_self _)
  | freeUnlock => exact .of_lt nofun rfl (Nat.lt_succ_self _)
  | doneLock hlock =>
      refine .lock hlock nofun ?_
      simp only [workerRank, again_congr (Shared.lock_same hlock).1]
      omega
  | @doneSub done p' hp' =>
      have hpending : ((done.map s.book.countOut).getD s.book).pending
          = s.book.pending := by
        cases done with
        | none => rfl
        | some i =>
            show (s.book.countOut i).pending = _
            exact s.book.pending_modify i fun _ => rfl
      refine .of_lt nofun hpending ?_
      rw [hp']
      split
      · exact Nat.lt_succ_self _
      · show again n s + 1 < again n s + 6
        omega
  | doneSignal =>
      left
      rw [if_pos rfl]
      show again n s + 1 + perTask n * s.book.pending + 3 + 1 ≤ again n s + 5 + _
      omega
  | doneUnlock => exact .of_lt nofun rfl (Nat.lt_succ_self _)

-- ================================================================== clients

/-- The worker a client is about to signal. -/
def ClientPc.signalling : ClientPc → Option Nat
  | .signal _ v => some v
  | .cleanSignal i => some i
  | _ => none

/-- Only that worker is woken. -/
theorem ClientRule.calm {p p' : ClientPc} (hr : ClientRule n c s p p' s')
    (hu : u ≠ .client c) (hv : ∀ v, p.signalling = some v → u ≠ .worker v) :
    Calm u s s' := by
  cases hr with
  | newLock hlock => exact .lock hlock
  | queueLock hlock => exact .lock hlock
  | @link task v =>
      refine .of_eq ?_ (congrArg Sync.asleep (s.appended_sync task v))
      unfold Shared.appended
      split <;> rfl
  | signal hsignal => exact .signal hsignal (hv _ rfl)
  | waitLock hlock => exact .lock hlock
  | waitSleep => exact .sleep hu _ _
  | spurious => exact .wake hu _
  | relock _ hlock => exact .lock hlock
  | cleanStore => exact ⟨nofun, fun _ => id⟩
  | cleanLock _ hlock => exact .lock hlock
  | cleanSignal hsignal => exact .signal hsignal (hv _ rfl)
  | _ => exact .of_eq rfl rfl

/-- What a client's step costs. -/
def ClientPays (n c : Nat) (x : Choice) (s : Shared) (p p' : ClientPc)
    (s' : Shared) : Prop :=
  clientRank n c p' s' + perTask n * s'.book.pending
      + (if p.signalling.isSome then 5 else 0) + 1
    ≤ clientRank n c p s + perTask n * s.book.pending + poolFuel n x

theorem ClientPays.of_lt {p p' : ClientPc} (hp : p.signalling = none)
    (hpending : s'.book.pending = s.book.pending)
    (hlt : clientRank n c p' s' < clientRank n c p s + poolFuel n x) :
    ClientPays n c x s p p' s' := by
  unfold ClientPays
  rw [hp, hpending]
  simp only [Option.isSome_none, Bool.false_eq_true, if_false]
  omega

theorem ClientPays.lock {p p' : ClientPc} {m : MutexId}
    (hlock : s.lock m t = some s') (hp : p.signalling = none)
    (hlt : clientRank n c p' s' < clientRank n c p s) :
    ClientPays n c x s p p' s' :=
  .of_lt hp (by rw [(Shared.lock_same hlock).2])
    (Nat.lt_of_lt_of_le hlt (Nat.le_add_right _ _))

/-- A step that pays for itself. -/
theorem ClientPays.own {p p' : ClientPc} (hp : p.signalling = none)
    (hpending : s'.book.pending = s.book.pending)
    (hlt : clientRank n c p' s' < clientRank n c p s) :
    ClientPays n c x s p p' s' :=
  .of_lt hp hpending (Nat.lt_of_lt_of_le hlt (Nat.le_add_right _ _))

/-- A client's step leaves it less to do than it had, with what comes in. -/
theorem clientStep_work {p p' : ClientPc}
    (hrun : clientStep n c x s p = some (p', s')) (hs : Sound n s)
    (hk : ClientHas n c p s) : ClientPays n c x s p p' s' := by
  have hr := clientStep_rule hrun
  cases hr with
  | schedule =>
      cases x with
      | schedule function arg => exact .of_lt rfl rfl (Nat.lt_of_lt_of_le
          (Nat.lt_succ_self _) (Nat.le_add_left _ _))
      | wait => cases hrun
      | _ => simp [clientStep] at hrun
  | wait =>
      cases x with
      | wait => exact .of_lt rfl rfl (Nat.lt_succ_self 3)
      | _ => simp [clientStep] at hrun
  | cleanup =>
      cases x with
      | cleanup => exact .of_lt rfl rfl (Nat.lt_of_lt_of_le
          (Nat.lt_succ_self _) (Nat.le_add_left _ _))
      | _ => simp [clientStep] at hrun
  | newLock hlock => exact .lock hlock rfl (Nat.lt_succ_self _)
  | @newGet function arg task taskPool m' _ htask =>
      refine .own rfl (s.book.pending_create task function arg c) ?_
      simp only [clientRank, if_neg htask]
      exact Nat.lt_succ_self _
  | newNone =>
      refine .own rfl rfl ?_
      simp only [clientRank, if_true]
      omega
  | newFail => exact .own rfl rfl Nat.zero_lt_one
  | newUnlock htask =>
      refine .own rfl rfl ?_
      simp only [clientRank, if_neg htask]
      exact Nat.lt_succ_self _
  | newInit =>
      refine .own rfl rfl ?_
      simp only [clientRank, Nat.sub_zero]
      exact Nat.lt_succ_self _
  | @scan task i i' worker worker' len len' hfreed hi _ =>
      have hnext : i' = i + 1 := by
        simp only [clientStep, hfreed, Bool.false_eq_true, if_false, if_pos hi]
          at hrun
        split at hrun
        · cases hrun
          rfl
        · cases hrun
          rfl
      refine .own rfl rfl ?_
      simp only [clientRank, hnext]
      omega
  | scanned =>
      refine .own rfl rfl ?_
      simp only [clientRank]
      omega
  | queueLock hlock => exact .lock hlock rfl (Nat.lt_succ_self _)
  | @link task v =>
      unfold ClientPays
      rw [hk.pending_link hs, Nat.mul_succ]
      show 9 + _ + 0 + 1 ≤ perTask n + 10 + _ + _
      omega
  | @addActive task v =>
      exact .own rfl (s.book.pending_modifyAt task fun _ => rfl)
        (Nat.lt_succ_self 8)
  | addLength => exact .own rfl rfl (Nat.lt_succ_self 7)
  | signal =>
      show 1 + perTask n * s.book.pending + 5 + 1 ≤ 7 + _ + _
      omega
  | @queueUnlock task v =>
      exact .own rfl (s.book.pending_modifyAt task fun _ => rfl) Nat.zero_lt_one
  | waitLock hlock => exact .lock hlock rfl (Nat.lt_succ_self 2)
  | waitOn => exact .own rfl rfl (Nat.lt_succ_self 1)
  | waitStop => exact .own rfl rfl (Nat.lt_succ_self 1)
  | waitSleep =>
      have hin : Thread.client c
          ∈ (s.sleep .wait .wait (.client c)).sync.asleep .wait := by
        show _ ∈ (s.sync.sleep .wait .wait (.client c)).asleep _
        rw [Sync.sleep_self]
        exact List.mem_cons_self
      refine .own rfl rfl ?_
      simp only [clientRank, if_pos hin]
      exact Nat.zero_lt_one
  | spurious =>
      have hx : x = .spurious := by
        cases x with
        | spurious => rfl
        | _ =>
            obtain ⟨s₁, -, heq⟩ := Option.bind_eq_some_iff.mp hrun
            cases heq
      subst hx
      refine .of_lt rfl rfl ?_
      have hle : clientRank n c .blocked (s.wake .wait (.client c)) ≤ 3 := by
        simp only [clientRank]
        split <;> omega
      show _ < _ + 6
      omega
  | relock hawake hlock =>
      refine .lock hlock rfl ?_
      simp only [clientRank, if_neg hawake]
      exact Nat.lt_succ_self 2
  | waitUnlock => exact .own rfl rfl Nat.zero_lt_one
  | cleanStore => exact .own rfl rfl (Nat.lt_succ_self _)
  | @cleanLock i _ hi hlock =>
      refine .lock hlock rfl ?_
      simp only [clientRank]
      omega
  | cleanEnd =>
      refine .own rfl rfl ?_
      simp only [clientRank]
      omega
  | @cleanSignal i =>
      show 10 * (n - (i + 1)) + 5 + perTask n * s.book.pending + 5 + 1
        ≤ 10 * (n - (i + 1)) + 11 + _ + _
      omega
  | cleanUnlock => exact .own rfl rfl (Nat.lt_succ_self _)
  | cleanJoin => exact .own rfl rfl (Nat.lt_succ_self _)
  | cleanDestroy => exact .own rfl rfl (Nat.lt_succ_self _)
  | cleanFree => exact .own rfl rfl Nat.zero_lt_one

-- ================================================================== a step

/-- A worker that wakes up and stays where it is was woken for no reason. -/
theorem workerStep_spurious
    (h : workerStep n w x s .blocked = some (.blocked, s')) :
    x = .spurious := by
  cases x with
  | spurious => rfl
  | _ =>
      obtain ⟨s₁, -, heq⟩ := Option.bind_eq_some_iff.mp h
      cases heq

/-- The work after a step of which the threads that may be woken, all but
`t`, have at most `extra` more to do. -/
theorem poolWork_of_pays {T : Finset Thread} {p' : Pc t} (extra : Nat)
    (hsum : total (poolRank n) T cfg'.pc s' + poolRank n t (cfg.pc t) cfg.shared
      ≤ total (poolRank n) T cfg.pc cfg.shared + poolRank n t p' s' + extra)
    (hs' : cfg'.shared = s')
    (hpays : poolRank n t p' s' + perTask n * s'.book.pending + extra + 1
      ≤ poolRank n t (cfg.pc t) cfg.shared
        + perTask n * cfg.shared.book.pending + poolFuel n x) :
    poolWork n T cfg' + 1 ≤ poolWork n T cfg + poolFuel n x := by
  unfold poolWork
  rw [hs']
  omega

theorem poolWork_worker {T : Finset Thread} (ht : Thread.worker w ∈ T)
    (hs : Sound n cfg.shared)
    (hk : WorkerHas n w (cfg.pc (.worker w)) cfg.shared)
    (hrun : (program n).step (.worker w) x cfg = some cfg') :
    poolWork n T cfg' + 1 ≤ poolWork n T cfg + poolFuel n x := by
  obtain ⟨p', s', hstep, hs', hp', hother⟩ := Program.step_cases hrun
  have hr : WorkerRule n w cfg.shared (cfg.pc (.worker w)) p' s' :=
    workerStep_rule hstep
  rcases hr.work hs hk with hpays | ⟨hp, hp'', hbook⟩
  · by_cases hsignal : cfg.pc (.worker w) = WorkerPc.doneSignal
    · rw [if_pos hsignal] at hpays
      have hwoken : ∃ c, (∀ u, u ≠ .worker w → u ≠ .client c →
          Calm u cfg.shared s') := by
        rw [hsignal] at hr
        generalize hq : p' = q at hr
        cases hr with
        | @doneSignal c y hy => exact ⟨c, fun u _ hu => .signal hy hu⟩
      obtain ⟨c, hcalm⟩ := hwoken
      have hsum := total_wake (poolRank n) cfg.shared s' 3 ht (.client c) hother
        (fun u hu hc => poolRank_le (hcalm u hu hc))
        fun _ => clientRank_woken c _ _ _
      rw [hp'] at hsum
      exact poolWork_of_pays 3 hsum hs'
        (Nat.le_trans hpays (Nat.le_add_right _ _))
    · rw [if_neg hsignal] at hpays
      have hsum := total_quiet (poolRank n) cfg.shared s' ht hother
        fun u hu => poolRank_le (hr.calm hsignal hu)
      rw [hp'] at hsum
      exact poolWork_of_pays 0 hsum hs'
        (Nat.le_trans hpays (Nat.le_add_right _ _))
  · have hx : x = .spurious := by
      have hstep' : workerStep n w x cfg.shared (cfg.pc (.worker w))
          = some (p', s') := hstep
      rw [hp, hp''] at hstep'
      exact workerStep_spurious hstep'
    have hsum := total_quiet (poolRank n) cfg.shared s' ht hother
      fun u hu => poolRank_le (hr.calm (by rw [hp]; nofun) hu)
    rw [hp'] at hsum
    refine poolWork_of_pays 0 hsum hs' ?_
    have hle : poolRank n (.worker w) p' s' ≤ 5 := by
      rw [hp'']
      show workerRank n w .blocked s' ≤ 5
      simp only [workerRank]
      split <;> omega
    rw [hbook, hx]
    show _ ≤ _ + _ + 6
    omega

theorem poolWork_client {T : Finset Thread} (ht : Thread.client c ∈ T)
    (hs : Sound n cfg.shared)
    (hk : ClientHas n c (cfg.pc (.client c)) cfg.shared)
    (hrun : (program n).step (.client c) x cfg = some cfg') :
    poolWork n T cfg' + 1 ≤ poolWork n T cfg + poolFuel n x := by
  obtain ⟨p', s', hstep, hs', hp', hother⟩ := Program.step_cases hrun
  have hr : ClientRule n c cfg.shared (cfg.pc (.client c)) p' s' :=
    clientStep_rule hstep
  have hpays := clientStep_work hstep hs hk
  unfold ClientPays at hpays
  cases hv : ClientPc.signalling (cfg.pc (.client c)) with
  | none =>
      have hsum := total_quiet (poolRank n) cfg.shared s' ht hother
        fun u hu => poolRank_le (hr.calm hu (by rw [hv]; nofun))
      rw [hp'] at hsum
      rw [hv] at hpays
      exact poolWork_of_pays 0 hsum hs' hpays
  | some v =>
      have hcalm : ∀ u, u ≠ .client c → u ≠ .worker v → Calm u cfg.shared s' := by
        intro u hu huv
        refine hr.calm hu fun v' hv' => ?_
        rw [hv] at hv'
        cases hv'
        exact huv
      have hrunning : s'.running = true → cfg.shared.running = true :=
        (hcalm (.client (c + 1)) (by simp) nofun).running
      have hsum := total_wake (poolRank n) cfg.shared s' 5 ht (.worker v) hother
        (fun u hu huv => poolRank_le (hcalm u hu huv))
        fun _ => workerRank_woken v _ hrunning
      rw [hp'] at hsum
      rw [hv] at hpays
      exact poolWork_of_pays 5 hsum hs' hpays

/-- Every step of a pool is paid for, while all goes well. -/
theorem poolWork_step {T : Finset Thread} (ht : t ∈ T)
    (h : Run n mem oracle cfg)
    (hrun : (program n).step t x cfg = some cfg') (hok : cfg'.shared.Intact) :
    cfg.shared.Intact
      ∧ poolWork n T cfg' + 1 ≤ poolWork n T cfg + poolFuel n x := by
  obtain ⟨p', s', hstep, hs', -, -⟩ := Program.step_cases hrun
  rw [hs'] at hok
  cases t with
  | worker w =>
      have hok₀ := (workerStep_rule hstep).intact hok
      obtain ⟨hs, hk⟩ := h.sound hok₀
      exact ⟨hok₀, poolWork_worker ht hs (hk (.worker w)) hrun⟩
  | client c =>
      have hok₀ := (clientStep_rule hstep).intact hok
      obtain ⟨hs, hk⟩ := h.sound hok₀
      exact ⟨hok₀, poolWork_client ht hs (hk (.client c)) hrun⟩

end Cextras.Concurrency
