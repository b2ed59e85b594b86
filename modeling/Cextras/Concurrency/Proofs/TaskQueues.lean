/-
Each queue is first in, first out, and `queue_length` is the number of
tasks in it. The links and the length are two accesses, so while a thread
has the mutex of a queue the two may differ; by how much is read off its
program counter (`drift`), and a thread that gives the mutex back has
evened them out. What was linked into a queue and what was taken off it is
a history of the interleaving (`QueueLog`).
-/
import Cextras.Concurrency.Proofs.TaskRuns

namespace Cextras.Concurrency

open Lib Memory

-- ================================================================= history

/-- The cells linked into each queue and those taken off it, in order. -/
structure QueueLog where
  linked : Nat → List Nat
  popped : Nat → List Nat

namespace QueueLog

def empty : QueueLog := ⟨fun _ => [], fun _ => []⟩

def link (l : QueueLog) (v task : Nat) : QueueLog :=
  { l with linked := Function.update l.linked v (l.linked v ++ [task]) }

def pop (l : QueueLog) (v task : Nat) : QueueLog :=
  { l with popped := Function.update l.popped v (l.popped v ++ [task]) }

/-- What a step that led to this program counter did to a queue: a worker
took `task` off it, or a client linked `task` into it. -/
def note (n : Nat) : (t : Thread) → Pc t → QueueLog → QueueLog
  | .worker w, .findSub i task, l => l.pop ((i + w) % n) task
  | .worker w, .waitSub task, l => l.pop w task
  | .client _, .addActive task v, l => l.link v task
  | _, _, l => l

end QueueLog

variable {n w c a v : Nat} {s s' : Shared} {t u : Thread} {m : MutexId}
  {l l' : QueueLog} {y y' : Shared × QueueLog} {d d' : Int}

/-- The interleavings of a pool of `n` workers, with what happened to its
queues. -/
abbrev LoggedRun (n : Nat) (mem : Mem) (oracle : Nat → Nat) :
    Config Pc (Shared × QueueLog) → Prop :=
  Recorded (program n) (fun _ _ _ => True) (Started n mem oracle)
    (QueueLog.note n) .empty

/-- Every interleaving has such a log. -/
theorem Run.logged {mem : Mem} {oracle : Nat → Nat} {cfg : Config Pc Shared}
    (h : Run n mem oracle cfg) :
    ∃ l, LoggedRun n mem oracle ⟨cfg.pc, cfg.shared, l⟩ :=
  h.recorded (QueueLog.note n) .empty

-- ================================================================== queues

/-- What is in the queues is what was linked and not taken off, in order. -/
def Queues (s : Shared) (l : QueueLog) : Prop :=
  ∃ q, Stored s q ∧ ∀ v, l.linked v = l.popped v ++ q v

theorem Queues.congr (h : Queues s l) (hmachine : s'.machine = s.machine)
    (hpool : s'.taskPool = s.taskPool) (hworkers : s'.workers = s.workers)
    (hplace : s'.book.place = s.book.place) : Queues s' l := by
  obtain ⟨q, hq, hlog⟩ := h
  refine ⟨q, hq.congr hmachine hpool ?_ ?_ hplace, hlog⟩
  · rw [hworkers]
    exact fun _ => rfl
  · rw [hworkers]
    exact fun _ => rfl

theorem Queues.setLength (h : Queues s l) (v k : Nat) :
    Queues (s.setLength v k) l := by
  obtain ⟨q, hq, hlog⟩ := h
  have hsame := SameTasks.setLength s v k
  exact ⟨q, hq.congr rfl rfl hsame.head hsame.tail rfl, hlog⟩

theorem Queues.pop (h : Queues s l) (hhead : (s.workers v).head ≠ 0) (w : Nat) :
    Queues (s.popped v w) (l.pop v (s.workers v).head) := by
  obtain ⟨q, hq, hlog⟩ := h
  obtain ⟨rest, hrest⟩ := hq.head hhead
  refine ⟨_, hq.pop hhead w, ?_⟩
  intro u
  show l.linked u = Function.update l.popped v _ u ++ _
  by_cases hu : u = v
  · rw [hu, Function.update_self, Function.update_self, hlog, hrest,
      List.append_assoc]
    rfl
  · rw [Function.update_of_ne hu, Function.update_of_ne hu]
    exact hlog u

theorem Queues.link (h : Queues s l)
    (hplace : s.book.place a = .thread (.client c))
    (hend : s.machine.mem.load64 (a + nextOffset) = 0) (v : Nat) :
    Queues (s.appended a v) (l.link v a) := by
  obtain ⟨q, hq, hlog⟩ := h
  refine ⟨_, hq.link hplace hend, ?_⟩
  intro u
  show Function.update l.linked v _ u = l.popped u ++ _
  by_cases hu : u = v
  · rw [hu, Function.update_self, Function.update_self, hlog,
      List.append_assoc]
  · rw [Function.update_of_ne hu, Function.update_of_ne hu]
    exact hlog u

theorem Queues.popped_le (h : Queues s l) (v : Nat) :
    (l.popped v).length ≤ (l.linked v).length := by
  obtain ⟨q, -, hlog⟩ := h
  rw [hlog, List.length_append]
  exact Nat.le_add_right ..

-- ================================================================= lengths

/-- By how much `queue_length` of the queue whose mutex the worker has is
ahead of the links: the task it took is not counted out yet. -/
def WorkerPc.drift : WorkerPc → Int
  | .findSub _ _ => 1
  | .waitSub _ => 1
  | _ => 0

/-- The task the client linked is not counted in yet. -/
def ClientPc.drift : ClientPc → Int
  | .addActive _ _ => -1
  | .addLength _ _ => -1
  | _ => 0

def drift : (t : Thread) → Pc t → Int
  | .worker _, p => WorkerPc.drift p
  | .client _, p => ClientPc.drift p

/-- `queue_length` is `d` ahead of the links. -/
def Counts (y : Shared × QueueLog) (v : Nat) (d : Int) : Prop :=
  ((y.1.workers v).queueLength : Int) + (y.2.popped v).length
    = (y.2.linked v).length + d

theorem Counts.eq (h : Counts (s, l) v d) :
    ((s.workers v).queueLength : Int) + (l.popped v).length
      = (l.linked v).length + d := h

/-- Nothing happened to the queue's length and to its history. -/
structure SameQueue (v : Nat) (y y' : Shared × QueueLog) : Prop where
  length : (y'.1.workers v).queueLength = (y.1.workers v).queueLength
  linked : y'.2.linked v = y.2.linked v
  popped : y'.2.popped v = y.2.popped v

theorem SameQueue.counts (h : SameQueue v y y') (hc : Counts y v d) :
    Counts y' v d := by
  unfold Counts at hc ⊢
  rw [h.length, h.linked, h.popped]
  exact hc

/-- What a step does to the queues: it changes the length only of one whose
mutex the thread has, and takes or gives back a mutex only without drift. -/
structure QueueStep (t : Thread) (d d' : Int) (y y' : Shared × QueueLog) :
    Prop where
  queues : Queues y'.1 y'.2
  sync : ∀ u, u ≠ t → Sync.SameFor u y.1.sync y'.1.sync
  others : ∀ v, y.1.sync.owner (.queue v) ≠ some t → SameQueue v y y'
  mine : ∀ v, y.1.sync.owner (.queue v) = some t → Counts y v d → Counts y' v d'
  settled : y'.1.sync.owner = y.1.sync.owner ∨ d = 0 ∧ d' = 0

/-- A step that leaves lengths and histories alone. -/
theorem QueueStep.idle {held : Option MutexId} (hlock : LockStep t held s s')
    (hq : Queues s' l) (hworkers : s'.workers = s.workers) :
    QueueStep t 0 0 (s, l) (s', l) := by
  have hsame : ∀ v, SameQueue v (s, l) (s', l) :=
    fun v => ⟨congrArg (fun x => (x v).queueLength) hworkers, rfl, rfl⟩
  exact ⟨hq, hlock.others, fun v _ => hsame v, fun v _ => (hsame v).counts,
    Or.inr ⟨rfl, rfl⟩⟩

/-- A step of the thread that has the mutex of queue `v`. -/
theorem QueueStep.inside (hholds : s.sync.Holds t (some (.queue v)))
    (howner : s'.sync.owner = s.sync.owner) (hq : Queues s' l')
    (hothers : ∀ u, u ≠ v → SameQueue u (s, l) (s', l'))
    (hcounts : Counts (s, l) v d → Counts (s', l') v d') :
    QueueStep t d d' (s, l) (s', l') := by
  refine ⟨hq, fun u _ => .of_owner howner u, ?_, ?_, Or.inl howner⟩
  · intro u hu
    apply hothers
    intro heq
    subst heq
    exact hu hholds.owner
  · intro u hu
    cases (hholds _).mp hu
    exact hcounts

-- =================================================================== steps

theorem sameQueue_setLength (s : Shared) (l : QueueLog) (k : Nat)
    (hu : a ≠ v) : SameQueue a (s, l) (s.setLength v k, l) := by
  refine ⟨?_, rfl, rfl⟩
  show (Function.update s.workers v _ a).queueLength = _
  rw [Function.update_of_ne hu]

theorem Shared.setLength_self (s : Shared) (v k : Nat) :
    ((s.setLength v k).workers v).queueLength = k := by
  show (Function.update s.workers v _ v).queueLength = k
  rw [Function.update_self]

theorem Shared.popped_length (s : Shared) (v w : Nat) :
    ((s.popped v w).workers v).queueLength = (s.workers v).queueLength := by
  show (Function.update s.workers v _ v).queueLength = _
  rw [Function.update_self]

theorem Shared.appended_length (s : Shared) (a v : Nat) :
    ((s.appended a v).workers v).queueLength = (s.workers v).queueLength := by
  unfold Shared.appended
  split
  · dsimp only
    rw [Function.update_self]
  · dsimp only
    rw [Function.update_self]

/-- A worker takes the first task of a queue. -/
theorem QueueStep.pop (hholds : s.sync.Holds t (some (.queue v)))
    (hq : Queues s l) (hhead : (s.workers v).head ≠ 0) (w : Nat) :
    QueueStep t 0 1 (s, l) (s.popped v w, l.pop v (s.workers v).head) := by
  refine .inside hholds rfl (hq.pop hhead w) ?_ ?_
  · intro u hu
    refine ⟨?_, rfl, Function.update_of_ne hu ..⟩
    show (Function.update s.workers v _ u).queueLength = _
    rw [Function.update_of_ne hu]
  · intro hcounts
    have hcounts' := hcounts.eq
    show (((s.popped v w).workers v).queueLength : Int)
      + (Function.update l.popped v _ v).length = (l.linked v).length + 1
    rw [s.popped_length, Function.update_self, List.length_append,
      List.length_singleton]
    omega

/-- The task is counted out, and the length does not wrap. -/
theorem QueueStep.countOut (hholds : s.sync.Holds t (some (.queue v)))
    (hq : Queues s l) : QueueStep t 1 0 (s, l)
      (s.setLength v (fetchSub (s.workers v).queueLength), l) := by
  refine .inside hholds rfl (hq.setLength ..) ?_ ?_
  · intro u hu
    exact sameQueue_setLength s l _ hu
  · intro hcounts
    have hcounts' := hcounts.eq
    have hle := hq.popped_le v
    show (((s.setLength v _).workers v).queueLength : Int) + (l.popped v).length
      = (l.linked v).length + 0
    rw [s.setLength_self]
    unfold fetchSub
    rw [if_neg (by omega)]
    omega

/-- A client links its cell. -/
theorem QueueStep.link (hholds : s.sync.Holds t (some (.queue v)))
    (hq : Queues s l) (hplace : s.book.place a = .thread (.client c))
    (hend : s.machine.mem.load64 (a + nextOffset) = 0) :
    QueueStep t 0 (-1) (s, l) (s.appended a v, l.link v a) := by
  refine .inside hholds (congrArg Sync.owner (s.appended_sync a v))
    (hq.link hplace hend v) ?_ ?_
  · intro u hu
    refine ⟨?_, Function.update_of_ne hu .., rfl⟩
    exact congrArg CxWorker.queueLength (s.appended_workers a v hu)
  · intro hcounts
    have hcounts' := hcounts.eq
    show (((s.appended a v).workers v).queueLength : Int) + (l.popped v).length
      = (Function.update l.linked v _ v).length + -1
    rw [s.appended_length, Function.update_self, List.length_append,
      List.length_singleton]
    omega

/-- The task is counted in. -/
theorem QueueStep.countIn (hholds : s.sync.Holds t (some (.queue v)))
    (hq : Queues s l) : QueueStep t (-1) 0 (s, l)
      (s.setLength v ((s.workers v).queueLength + 1), l) := by
  refine .inside hholds rfl (hq.setLength ..) ?_ ?_
  · intro u hu
    exact sameQueue_setLength s l _ hu
  · intro hcounts
    have hcounts' := hcounts.eq
    show (((s.setLength v _).workers v).queueLength : Int) + (l.popped v).length
      = (l.linked v).length + 0
    rw [s.setLength_self]
    omega

theorem Book.modifyAt_place (b : Book) (a : Nat) (f : TaskRecord → TaskRecord) :
    (b.modifyAt a f).place = b.place := by
  unfold Book.modifyAt
  split
  · rfl
  · rfl

theorem WorkerRule.queueStep {p p' : WorkerPc}
    (hr : WorkerRule n w s p p' s') (h : WorkerHas n w p s) (hq : Queues s l) :
    QueueStep (.worker w) p.drift p'.drift (s, l)
      (s', l.note n (.worker w) p') := by
  have hlock := hr.lockStep h.holds
  have hlocked : ∀ {m}, s.lock m (.worker w) = some s' →
      QueueStep (.worker w) 0 0 (s, l) (s', l) := by
    intro m hrun
    obtain ⟨-, y, -, rfl⟩ := Shared.lock_cases hrun
    exact .idle hlock (hq.congr rfl rfl rfl rfl) rfl
  cases hr with
  | begin => exact .idle hlock hq rfl
  | exit => exact .idle hlock (hq.congr rfl rfl rfl rfl) rfl
  | findLock _ hrun => exact hlocked hrun
  | findNone => exact .idle hlock hq rfl
  | findGet hhead => exact .pop h.holds hq hhead w
  | findEmpty => exact .idle hlock hq rfl
  | findSub => exact .countOut h.holds hq
  | findNext => exact .idle hlock (hq.congr rfl rfl rfl rfl) rfl
  | findFound => exact .idle hlock (hq.congr rfl rfl rfl rfl) rfl
  | waitLock hrun => exact hlocked hrun
  | waitGet hhead => exact .pop h.holds hq hhead w
  | waitEmpty => exact .idle hlock hq rfl
  | waitSub => exact .countOut h.holds hq
  | waitOn => exact .idle hlock hq rfl
  | waitStop => exact .idle hlock hq rfl
  | waitSleep => exact .idle hlock (hq.congr rfl rfl rfl rfl) rfl
  | spurious => exact .idle hlock (hq.congr rfl rfl rfl rfl) rfl
  | relock _ hrun => exact hlocked hrun
  | waitNone => exact .idle hlock (hq.congr rfl rfl rfl rfl) rfl
  | waitFound => exact .idle hlock (hq.congr rfl rfl rfl rfl) rfl
  | run hrun =>
      obtain ⟨hm, -⟩ := taskCall_cases hrun
      refine .idle hlock (hq.congr hm rfl rfl ?_) rfl
      exact Book.modifyAt_place ..
  | finish =>
      refine .idle hlock (hq.congr rfl rfl rfl ?_) rfl
      exact Book.modifyAt_place ..
  | freeLock hrun => exact hlocked hrun
  | @recycle task taskPool m' hrun =>
      obtain ⟨q, hstored, hlog⟩ := hq
      have hplace := (h.cell task).mpr rfl
      exact .idle hlock ⟨q, (hstored.recycle hplace hrun).1, hlog⟩ rfl
  | freeUnlock => exact .idle hlock (hq.congr rfl rfl rfl rfl) rfl
  | doneLock hrun => exact hlocked hrun
  | @doneSub done p' hp' =>
      have hplace : ((done.map s.book.countOut).getD s.book).place
          = s.book.place := by
        cases done with
        | none => rfl
        | some i => rfl
      have hstep := QueueStep.idle hlock (hq.congr rfl rfl rfl hplace) rfl
      rw [hp']
      split
      · exact hstep
      · exact hstep
  | doneSignal => exact .idle hlock (hq.congr rfl rfl rfl rfl) rfl
  | doneUnlock => exact .idle hlock (hq.congr rfl rfl rfl rfl) rfl

theorem ClientRule.queueStep {p p' : ClientPc}
    (hr : ClientRule n c s p p' s') (h : ClientHas n c p s) (hok : s'.Intact)
    (hq : Queues s l) :
    QueueStep (.client c) p.drift p'.drift (s, l)
      (s', l.note n (.client c) p') := by
  have hlock := hr.lockStep h.holds
  have hlocked : ∀ {m}, s.lock m (.client c) = some s' →
      QueueStep (.client c) 0 0 (s, l) (s', l) := by
    intro m hrun
    obtain ⟨-, y, -, rfl⟩ := Shared.lock_cases hrun
    exact .idle hlock (hq.congr rfl rfl rfl rfl) rfl
  cases hr with
  | schedule => exact .idle hlock hq rfl
  | wait => exact .idle hlock (hq.congr rfl rfl rfl rfl) rfl
  | cleanup => exact .idle hlock (hq.congr rfl rfl rfl rfl) rfl
  | newLock hrun => exact hlocked hrun
  | newGet hrun =>
      obtain ⟨q, hstored, hlog⟩ := hq
      obtain ⟨-, -, hstored', -⟩ := hstored.get hrun hok.1 _ _ c
      exact .idle hlock ⟨q, hstored', hlog⟩ rfl
  | newNone hrun =>
      obtain ⟨q, hstored, -⟩ := hq
      exact absurd rfl (hstored.get hrun hok.1 0 0 c).1
  | newFail => exact .idle hlock (hq.congr rfl rfl rfl rfl) rfl
  | newUnlock => exact .idle hlock (hq.congr rfl rfl rfl rfl) rfl
  | @newInit function arg task m' hrun =>
      obtain ⟨q, hstored, hlog⟩ := hq
      obtain ⟨hfunction, harg⟩ := h.words function arg rfl
      have hwritten := taskInit_written hfunction harg hrun
      have hplace := (h.cell task).mpr rfl
      exact .idle hlock ⟨q, hstored.write hplace hwritten, hlog⟩ rfl
  | scan => exact .idle hlock hq rfl
  | scanned => exact .idle hlock hq rfl
  | queueLock hrun => exact hlocked hrun
  | @link task v =>
      exact .link h.holds hq ((h.cell task).mpr rfl) (h.written rfl task rfl).1
  | @addActive task v =>
      have hplace : (s.book.countIn task).place = s.book.place :=
        Book.modifyAt_place ..
      exact .inside h.holds rfl (hq.congr rfl rfl rfl hplace)
        (fun u _ => ⟨rfl, rfl, rfl⟩) id
  | addLength => exact .countIn h.holds hq
  | signal => exact .idle hlock (hq.congr rfl rfl rfl rfl) rfl
  | queueUnlock =>
      refine .idle hlock (hq.congr rfl rfl rfl ?_) rfl
      exact Book.modifyAt_place ..
  | waitLock hrun => exact hlocked hrun
  | waitOn => exact .idle hlock hq rfl
  | waitStop => exact .idle hlock hq rfl
  | waitSleep => exact .idle hlock (hq.congr rfl rfl rfl rfl) rfl
  | spurious => exact .idle hlock (hq.congr rfl rfl rfl rfl) rfl
  | relock _ hrun => exact hlocked hrun
  | waitUnlock => exact .idle hlock (hq.congr rfl rfl rfl rfl) rfl
  | cleanStore => exact .idle hlock (hq.congr rfl rfl rfl rfl) rfl
  | cleanLock _ hrun => exact hlocked hrun
  | cleanEnd => exact .idle hlock hq rfl
  | cleanSignal => exact .idle hlock (hq.congr rfl rfl rfl rfl) rfl
  | cleanUnlock => exact .idle hlock (hq.congr rfl rfl rfl rfl) rfl
  | cleanJoin => exact .idle hlock hq rfl
  | cleanDestroy => exact .idle hlock (hq.congr rfl rfl rfl rfl) rfl
  | cleanFree => cases hok.2

-- =========================================================== the least loaded

/-- The cells of a queue lie apart in memory, so there are not many. -/
theorem Stored.length_le {q : Nat → List Nat} (h : Stored s q) (v : Nat) :
    (q v).length ≤ 2 ^ 64 / taskSize + 1 := by
  have hnodup : ((q v).map (· / taskSize)).Nodup := by
    rw [List.nodup_map_iff_inj_on (h.nodup v)]
    intro a ha b hb heq
    by_contra hne
    have hsep := h.separated (h.in_place ha) (h.in_place hb) hne
    unfold taskSize at hsep heq
    omega
  have hsubset : (q v).map (· / taskSize) ⊆ List.range (2 ^ 64 / taskSize + 1) := by
    intro k hk
    obtain ⟨a, ha, rfl⟩ := List.mem_map.mp hk
    have hlt := h.lt_word (h.in_place ha)
    rw [List.mem_range]
    exact Nat.lt_succ_of_le (Nat.div_le_div_right (Nat.le_of_lt hlt))
  have hle := (hnodup.subperm hsubset).length_le
  rwa [List.length_map, List.length_range] at hle

/-- What holds of the queues between any two steps. -/
structure InOrder (y : Shared × QueueLog) : Prop where
  queues : Queues y.1 y.2
  even : ∀ v, y.1.sync.owner (.queue v) = none → Counts y v 0
  bound : ∀ v, (y.1.workers v).queueLength + (y.2.popped v).length
    ≤ (y.2.linked v).length + 1

theorem InOrder.length_lt (h : InOrder y) (v : Nat) :
    (y.1.workers v).queueLength < 2 ^ 64 - 1 := by
  obtain ⟨q, hq, hlog⟩ := h.queues
  have hbound := h.bound v
  rw [hlog, List.length_append] at hbound
  have hle := hq.length_le v
  have hroom : 2 ^ 64 / taskSize + 1 + 1 < 2 ^ 64 - 1 := by decide
  omega

/-- A scheduler that has chosen no worker has looked at none. -/
def Unscanned : (t : Thread) → Pc t → Prop
  | .client _, .scan _ i none minQueueLength =>
      i = 0 ∧ minQueueLength = 2 ^ 64 - 1
  | _, _ => True

/-- The first worker looked at is chosen: its length is less than `SIZE_MAX`. -/
theorem clientStep_unscanned {p p' : ClientPc} {x : Choice}
    (hlength : ∀ v, (s.workers v).queueLength < 2 ^ 64 - 1)
    (h : clientStep n c x s p = some (p', s'))
    (hp : Unscanned (.client c) p) : Unscanned (.client c) p' := by
  have hr := clientStep_rule h
  cases hr with
  | newInit => exact ⟨rfl, rfl⟩
  | @scan task i i' worker worker' len len' hfreed hi hworker =>
      cases worker' with
      | some v => trivial
      | none =>
          rcases hworker with hsome | hnone
          · cases hsome
          · subst hnone
            obtain ⟨rfl, rfl⟩ := hp
            simp only [clientStep, hfreed, Bool.false_eq_true, if_false,
              if_pos hi, if_pos (hlength 0)] at h
            cases h
  | _ => trivial

-- ==================================================================== runs

/-- What a thread knows of the queues. -/
structure KnowsQueue (t : Thread) (p : Pc t) (y : Shared × QueueLog) : Prop where
  counts : ∀ v, y.1.sync.owner (.queue v) = some t → Counts y v (drift t p)
  unscanned : Unscanned t p

structure QueueRely (u : Thread) (y y' : Shared × QueueLog) : Prop where
  sync : Sync.SameFor u y.1.sync y'.1.sync
  queue : ∀ v, y.1.sync.owner (.queue v) = some u → SameQueue v y y'

theorem KnowsQueue.stable {p : Pc t} (hr : QueueRely t y y')
    (h : KnowsQueue t p y) : KnowsQueue t p y' := by
  refine ⟨?_, h.unscanned⟩
  intro v hv
  have hown := (hr.sync _).mp hv
  exact (hr.queue v hown).counts (h.counts v hown)

/-- A mutex that is taken after a step of `t`, and not by it, was so before. -/
theorem QueueStep.owned (h : QueueStep t d d' y y') (hu : u ≠ t)
    (howner : y.1.sync.owner m = some u) : y'.1.sync.owner m = some u :=
  (h.sync u hu m).mpr howner

/-- Who had the mutex of a queue that `t` has or that is free now. -/
theorem QueueStep.owner_before (h : QueueStep t d d' y y')
    (hv : y'.1.sync.owner (.queue v) = none
      ∨ y'.1.sync.owner (.queue v) = some t) :
    y.1.sync.owner (.queue v) = none ∨ y.1.sync.owner (.queue v) = some t := by
  cases howner : y.1.sync.owner (.queue v) with
  | none => exact Or.inl rfl
  | some u =>
      by_cases hu : u = t
      · rw [hu]
        exact Or.inr rfl
      · have howner' := h.owned hu howner
        rcases hv with hv | hv
        · rw [hv] at howner'
          cases howner'
        · rw [hv] at howner'
          exact absurd (Option.some.inj howner').symm hu

theorem QueueStep.even {p : Pc t} (h : QueueStep t (drift t p) d' y y')
    (hy : InOrder y) (hk : KnowsQueue t p y)
    (hfree : y'.1.sync.owner (.queue v) = none) : Counts y' v 0 := by
  rcases h.owner_before (Or.inl hfree) with hnone | hown
  · refine (h.others v ?_).counts (hy.even v hnone)
    rw [hnone]
    nofun
  · have hcounts := h.mine v hown (hk.counts v hown)
    rcases h.settled with hsame | ⟨-, hzero⟩
    · rw [hsame, hown] at hfree
      cases hfree
    · rw [hzero] at hcounts
      exact hcounts

theorem QueueStep.counts {p : Pc t} (h : QueueStep t (drift t p) d' y y')
    (hy : InOrder y) (hk : KnowsQueue t p y)
    (hown' : y'.1.sync.owner (.queue v) = some t) : Counts y' v d' := by
  rcases h.owner_before (Or.inr hown') with hnone | hown
  · have hcounts : Counts y' v 0 := by
      refine (h.others v ?_).counts (hy.even v hnone)
      rw [hnone]
      nofun
    rcases h.settled with hsame | ⟨-, hzero⟩
    · rw [hsame, hnone] at hown'
      cases hown'
    · rw [hzero]
      exact hcounts
  · exact h.mine v hown (hk.counts v hown)

theorem QueueStep.bound {p : Pc t} (h : QueueStep t (drift t p) d' y y')
    (hy : InOrder y) (hk : KnowsQueue t p y) (hd' : d' ≤ 1) (v : Nat) :
    (y'.1.workers v).queueLength + (y'.2.popped v).length
      ≤ (y'.2.linked v).length + 1 := by
  by_cases hown : y.1.sync.owner (.queue v) = some t
  · have hcounts := h.mine v hown (hk.counts v hown)
    unfold Counts at hcounts
    omega
  · have hsame := h.others v hown
    rw [hsame.length, hsame.linked, hsame.popped]
    exact hy.bound v

theorem drift_le (t : Thread) (p : Pc t) : drift t p ≤ 1 := by
  cases t with
  | worker w =>
      show WorkerPc.drift p ≤ 1
      unfold WorkerPc.drift
      split <;> decide
  | client c =>
      show ClientPc.drift p ≤ 1
      unfold ClientPc.drift
      split <;> decide

/-- What holds after a step that keeps to the rules. -/
theorem QueueStep.keeps {p p' : Pc t}
    (h : QueueStep t (drift t p) (drift t p') y y') (hy : InOrder y)
    (hk : KnowsQueue t p y) (hp' : Unscanned t p') :
    InOrder y' ∧ KnowsQueue t p' y' ∧ ∀ u, u ≠ t → QueueRely u y y' := by
  refine ⟨⟨h.queues, ?_, ?_⟩, ⟨?_, hp'⟩, ?_⟩
  · intro v hfree
    exact h.even hy hk hfree
  · exact h.bound hy hk (drift_le t p')
  · intro v hown
    exact h.counts hy hk hown
  · intro u hu
    refine ⟨h.sync u hu, ?_⟩
    intro v hv
    apply h.others v
    rw [hv]
    intro heq
    exact hu (Option.some.inj heq)

theorem LoggedRun.inOrder {mem : Mem} {oracle : Nat → Nat}
    {cfg : Config Pc (Shared × QueueLog)} (h : LoggedRun n mem oracle cfg)
    (hok : cfg.shared.1.Intact) :
    InOrder cfg.shared ∧ ∀ t, KnowsQueue t (cfg.pc t) cfg.shared := by
  refine Interleaved.relyOn h (fun y => y.1.Intact) InOrder KnowsQueue QueueRely
    ?_ ?_ ?_ (fun _ _ _ _ hr hk => hk.stable hr) hok
  · intro t x p y p' y' hrun hok
    have hrun' := (Program.recorded_cases hrun).1
    cases t with
    | worker w => exact (workerStep_rule hrun').intact hok
    | client c => exact (clientStep_rule hrun').intact hok
  · rintro ⟨pc, s, l⟩ ⟨hstart, hlog⟩
    obtain ⟨hs, -⟩ := started_sound hstart
    obtain ⟨taskPool, m, -, hcfg⟩ := hstart
    cases hcfg
    cases hlog
    obtain ⟨q, hq⟩ := hs.stored
    refine ⟨⟨⟨q, hq, ?_⟩, fun _ _ => rfl, fun _ => Nat.zero_le _⟩, ?_⟩
    · intro v
      have hchain := hq.chain v
      exact hchain.eq_nil.symm
    · intro t
      refine ⟨nofun, ?_⟩
      cases t with
      | worker w => trivial
      | client c => trivial
  · intro cfg₀ h₀ t x p' y' hrun hok' _ hy hk
    obtain ⟨hrun', hlog⟩ := Program.recorded_cases hrun
    obtain ⟨s', l'⟩ := y'
    cases hlog
    cases t with
    | worker w =>
        have hr := workerStep_rule hrun'
        have hok := hr.intact hok'
        obtain ⟨-, hhas⟩ := Run.sound (Interleaved.erase h₀) hok
        exact (hr.queueStep (hhas (.worker w)) hy.queues).keeps hy hk trivial
    | client c =>
        have hr := clientStep_rule hrun'
        have hok := hr.intact hok'
        obtain ⟨-, hhas⟩ := Run.sound (Interleaved.erase h₀) hok
        exact (hr.queueStep (hhas (.client c)) hok' hy.queues).keeps hy hk
          (clientStep_unscanned hy.length_lt hrun' hk.unscanned)

-- ================================================================ the claim

/-- The queue of worker `v` has the tasks `pending`: those linked into it and
not taken off, in the order they were linked. -/
structure FifoQueue (s : Shared) (l : QueueLog) (v : Nat) (pending : List Nat) :
    Prop where
  log : l.linked v = l.popped v ++ pending
  /-- following `next` from `head` -/
  chain : Linked s.machine.mem nextOffset (s.workers v).head pending
  tail : (s.workers v).tail = pending.getLast?.getD 0
  last : (s.workers v).tail ≠ 0 →
    s.machine.mem.load64 ((s.workers v).tail + nextOffset) = 0
  empty : (s.workers v).head = 0 ↔ (s.workers v).tail = 0
  length : (s.workers v).queueLength = pending.length

structure QueuesExact (n : Nat) (cfg : Config Pc (Shared × QueueLog)) :
    Prop where
  fifo : ∀ v, cfg.shared.1.sync.owner (.queue v) = none →
    ∃ pending, FifoQueue cfg.shared.1 cfg.shared.2 v pending
  /-- `queue_length` is counted down from more than 0 -/
  find : ∀ w i task, cfg.pc (.worker w) = .findSub i task →
    0 < (cfg.shared.1.workers ((i + w) % n)).queueLength
  wait : ∀ w task, cfg.pc (.worker w) = .waitSub task →
    0 < (cfg.shared.1.workers w).queueLength
  /-- a scheduler that has looked at every worker has chosen one -/
  chosen : 0 < n → ∀ c task i worker minQueueLength,
    cfg.pc (.client c) = .scan task i worker minQueueLength → n ≤ i →
    worker ≠ none

theorem Stored.fifo {q : Nat → List Nat} (hq : Stored s q)
    (hlog : l.linked v = l.popped v ++ q v) (hcounts : Counts (s, l) v 0) :
    FifoQueue s l v (q v) := by
  have hchain := hq.chain v
  refine ⟨hlog, hchain, hq.tail v, ?_, ?_, ?_⟩
  · intro htail
    rcases hq.last (v := v) with ⟨hzero, -⟩ | ⟨hlast, -⟩
    · exact absurd hzero htail
    · exact hchain.last hlast
  · rcases hq.last (v := v) with ⟨hzero, hnil⟩ | ⟨-, hmem⟩
    · rw [hnil] at hchain
      exact iff_of_true hchain.head_nil hzero
    · refine iff_of_false ?_ (hq.ne_zero (hq.in_place hmem))
      intro hhead
      rw [hhead] at hchain
      rw [hchain.eq_nil] at hmem
      cases hmem
  · have hcounts' := hcounts.eq
    rw [hlog, List.length_append] at hcounts'
    omega

/-- A queue whose task is off the links and still counted is not empty by its
length. -/
theorem InOrder.positive (h : InOrder y) (hcounts : Counts y v 1) :
    0 < (y.1.workers v).queueLength := by
  have hle := h.queues.popped_le v
  unfold Counts at hcounts
  omega

/-- While no request for memory is refused, every queue that no thread is at
work on is first in, first out, and its length is exact. -/
theorem cxThreadpool_queuesExact {mem : Mem} {oracle : Nat → Nat}
    {cfg : Config Pc (Shared × QueueLog)} (h : LoggedRun n mem oracle cfg)
    (hgranted : cfg.shared.1.machine.refused = false)
    (hfreed : cfg.shared.1.freed = false) : QueuesExact n cfg := by
  obtain ⟨hy, hk⟩ := h.inOrder ⟨hgranted, hfreed⟩
  obtain ⟨-, hhas⟩ := Run.sound (Interleaved.erase h) ⟨hgranted, hfreed⟩
  -- a worker that has taken a task has the mutex of the queue
  have hpositive : ∀ (w v : Nat) (p : WorkerPc), cfg.pc (.worker w) = p →
      p.held n w = some (.queue v) → p.drift = 1 →
      0 < (cfg.shared.1.workers v).queueLength := by
    intro w v p hp hheld hdrift
    have hw : WorkerHas n w (cfg.pc (.worker w)) cfg.shared.1 := hhas (.worker w)
    have hholds := hw.holds
    rw [hp, hheld] at hholds
    have hcounts := (hk (.worker w)).counts v hholds.owner
    rw [hp] at hcounts
    have hcounts' : Counts cfg.shared v p.drift := hcounts
    rw [hdrift] at hcounts'
    exact hy.positive hcounts'
  refine ⟨?_, ?_, ?_, ?_⟩
  · intro v hfree
    obtain ⟨q, hq, hlog⟩ := hy.queues
    exact ⟨q v, hq.fifo (hlog v) (hy.even v hfree)⟩
  · intro w i task hp
    exact hpositive w _ _ hp rfl rfl
  · intro w task hp
    exact hpositive w _ _ hp rfl rfl
  · intro hn c task i worker minQueueLength hp hi hnone
    have hunscanned := (hk (.client c)).unscanned
    rw [hp, hnone] at hunscanned
    have hzero : i = 0 := hunscanned.1
    omega

/-- Start a pool of `n` workers, let its threads take turns, and log what
happens to the queues. -/
def playLogged (n : Nat) (turns : List (Thread × Choice)) (m : Machine) :
    Option (Config Pc (Shared × QueueLog)) :=
  match (cxPreallocPoolInit taskSize).run m with
  | .ok taskPool m =>
      ((program n).recorded (QueueLog.note n)).follow turns
        ⟨initPc n, initShared taskPool m, .empty⟩
  | .fault _ _ => none

theorem logged_of_playLogged (n : Nat) (turns : List (Thread × Choice))
    (mem : Mem) (oracle : Nat → Nat)
    (test : Config Pc (Shared × QueueLog) → Bool)
    (h : (playLogged n turns (Machine.boot mem oracle)).any test = true) :
    ∃ cfg, LoggedRun n mem oracle cfg ∧ test cfg = true := by
  obtain ⟨cfg, hplay, htest⟩ := (Option.any_eq_true _ _).mp h
  unfold playLogged at hplay
  split at hplay
  · next taskPool m hinit =>
      refine ⟨cfg, ?_, htest⟩
      refine Interleaved.follow ?_ (fun _ _ _ _ => trivial) hplay
      exact .start ⟨⟨taskPool, m, hinit, rfl⟩, rfl⟩
  · cases hplay

/-- Two tasks linked into one queue, and the first one taken off it. -/
theorem cxThreadpool_queuesExact_one : ∃ cfg, QueuesExact 1 cfg
    ∧ (cfg.shared.2.linked 0).length = 2 ∧ (cfg.shared.2.popped 0).length = 1
    ∧ cfg.shared.1.sync.owner (.queue 0) = none := by
  obtain ⟨cfg, hrun, htest⟩ := logged_of_playLogged 1
    (turnsOf (.client 0) (.schedule 1 2 :: List.replicate 12 .go)
      ++ turnsOf (.client 1) (.schedule 3 4 :: List.replicate 12 .go)
      ++ turnsOf (.worker 0) (List.replicate 5 .go))
    (fun _ => 0) (fun t => 1024 * (t + 1))
    (fun cfg => decide (cfg.shared.1.machine.refused = false
      ∧ cfg.shared.1.freed = false ∧ (cfg.shared.2.linked 0).length = 2
      ∧ (cfg.shared.2.popped 0).length = 1
      ∧ cfg.shared.1.sync.owner (.queue 0) = none))
    (by decide +kernel)
  obtain ⟨hgranted, hfreed, hrest⟩ := of_decide_eq_true htest
  exact ⟨cfg, cxThreadpool_queuesExact hrun hgranted hfreed, hrest⟩

/-- Sixteen tasks fill the first chunk of cells and the next chunk is refused
to client 16. Sixteen tasks later get addresses past the first chunk, and
then a chunk is granted that lies there: client 32 gets the cell client 16
has. Both link it. -/
def overlapTurns : List (Thread × Choice) :=
  (List.range 17).flatMap (fun c =>
      turnsOf (.client c) (.schedule 1 2 :: List.replicate 3 .go))
    ++ (List.range 17).flatMap (fun c =>
      turnsOf (.client (c + 16)) (.schedule 1 2 :: List.replicate 3 .go))
    ++ turnsOf (.client 32) (List.replicate 9 .go)
    ++ turnsOf (.client 16) (List.replicate 9 .go)

/-- The queue is a loop: its only cell was linked behind itself. -/
theorem cxThreadpool_queueLoops : ∃ cfg,
    LoggedRun 1 (fun _ => 0)
      (fun t => if t = 3 then 0 else if t = 5 then 1408 else 1024) cfg
      ∧ cfg.shared.1.freed = false ∧ ¬ QueuesExact 1 cfg := by
  obtain ⟨cfg, hrun, htest⟩ := logged_of_playLogged 1 overlapTurns (fun _ => 0)
    (fun t => if t = 3 then 0 else if t = 5 then 1408 else 1024)
    (fun cfg => decide (cfg.shared.1.freed = false
      ∧ cfg.shared.1.sync.owner (.queue 0) = none
      ∧ (cfg.shared.1.workers 0).head ≠ 0
      ∧ cfg.shared.1.machine.mem.load64
        ((cfg.shared.1.workers 0).head + nextOffset)
          = (cfg.shared.1.workers 0).head))
    (by decide +kernel)
  obtain ⟨hfreed, howner, hhead, hself⟩ := of_decide_eq_true htest
  refine ⟨cfg, hrun, hfreed, ?_⟩
  intro hexact
  obtain ⟨pending, hqueue⟩ := hexact.fifo 0 howner
  exact hqueue.chain.not_self hhead hself

end Cextras.Concurrency
