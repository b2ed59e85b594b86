/-
`cx_threadpool_wait` is a barrier. While no scheduler has the mutex of a
queue, `active_tasks` is the number of tasks in the queues plus that of
tasks that workers have taken and not counted out; so it is zero only when
all that was accepted is finished, and counting out never wraps.
-/
import Cextras.Concurrency.Proofs.TaskRuns
import Mathlib.Algebra.BigOperators.Group.Finset.Basic

namespace Cextras.Concurrency

open Lib Memory

variable {n w c a v : Nat} {s s' : Shared} {t u : Thread} {m : MutexId}
  {cfg : Config Pc Shared} {mem : Mem} {oracle : Nat → Nat}
  {q : Nat → List Nat}

/-- The worker has a task it took and did not count out. -/
def WorkerPc.busy (p : WorkerPc) : Bool := p.cell.isSome || p.done.isSome

/-- What `cx_threadpool_wait` promises, and what it rests on. -/
structure WaitBarrier (n : Nat) (cfg : Config Pc Shared) : Prop where
  /-- a client about to return from `cx_threadpool_wait` -/
  barrier : ∀ c, cfg.pc (.client c) = ClientPc.waitUnlock → ∀ t,
    cfg.shared.book.before c t = true →
    (cfg.shared.book.record t).finished = true
  count : (∀ c, ClientPc.scheduling (cfg.pc (.client c)) = none) →
    ∀ q : Nat → List Nat, (∀ v < n, Linked cfg.shared.machine.mem nextOffset
      (cfg.shared.workers v).head (q v)) →
    cfg.shared.activeTasks = ∑ v ∈ Finset.range n, (q v).length
      + ((Finset.range n).filter fun w =>
          WorkerPc.busy (cfg.pc (.worker w)) = true).card
  unwrapped : ∀ w d, cfg.pc (.worker w) = WorkerPc.doneSub d →
    0 < cfg.shared.activeTasks

-- ================================================================ counting

/-- The tasks that are counted and that no worker has taken. -/
def Book.waiting (b : Book) : Finset Nat :=
  (Finset.range b.count).filter fun t =>
    (b.record t).active = true ∧ (b.record t).taker = none

/-- The tasks that are counted and that a worker has taken. -/
def Book.taken (b : Book) : Finset Nat :=
  (Finset.range b.count).filter fun t =>
    (b.record t).active = true ∧ ¬ (b.record t).taker = none

theorem Book.active_split (b : Book) :
    b.active = b.waiting.card + b.taken.card := by
  unfold Book.active Book.waiting Book.taken
  rw [← Finset.filter_filter, ← Finset.filter_filter,
    Finset.card_filter_add_card_filter_not]

theorem Book.mem_waiting {b : Book} {j : Nat} :
    j ∈ b.waiting ↔ j < b.count ∧ (b.record j).counted = true
      ∧ (b.record j).uncounted = false ∧ (b.record j).taker = none := by
  unfold Book.waiting TaskRecord.active
  simp [and_assoc]

theorem Book.mem_taken {b : Book} {j : Nat} :
    j ∈ b.taken ↔ j < b.count ∧ (b.record j).counted = true
      ∧ (b.record j).uncounted = false ∧ (b.record j).taker ≠ none := by
  unfold Book.taken TaskRecord.active
  simp [and_assoc]

/-- A task that is counted and was not taken is in a queue. -/
theorem Sound.waiting_queue (hs : Sound n s) {j : Nat}
    (hj : j ∈ s.book.waiting) :
    s.book.occupant (s.book.record j).cell = some j
      ∧ ∃ v < n, s.book.place (s.book.record j).cell = .queue v := by
  obtain ⟨hlt, hcounted, -, htaker⟩ := Book.mem_waiting.mp hj
  have hord := hs.booked.ordered j hlt
  obtain ⟨hocc, hne⟩ := hs.booked.current j hlt (hord.unfinished htaker)
  refine ⟨hocc, ?_⟩
  have hsuits := hs.booked.suits _ j hocc
  cases hplace : s.book.place (s.book.record j).cell with
  | free => exact absurd hplace hne
  | queue v => exact ⟨v, hs.range _ v hplace, rfl⟩
  | thread u =>
      rw [hplace] at hsuits
      cases u with
      | worker w =>
          have htaker' : (s.book.record j).taker = some w := hsuits.1
          rw [htaker] at htaker'
          cases htaker'
      | client c =>
          have hunlinked : (s.book.record j).linked = false := hsuits
          rw [hord.linked hcounted] at hunlinked
          cases hunlinked

/-- The tasks of one queue, if all are counted. -/
theorem Sound.queue_card (hs : Sound n s) (hq : Stored s q)
    (hall : s.AllCounted v) :
    ((s.book.waiting).filter fun j =>
      s.book.place (s.book.record j).cell = .queue v).card = (q v).length := by
  rw [← List.toFinset_card_of_nodup (hq.nodup v)]
  apply Finset.card_bij fun j _ => (s.book.record j).cell
  · intro j hj
    rw [List.mem_toFinset, hq.queued]
    exact (Finset.mem_filter.mp hj).2
  · intro j hj k hk hcell
    have hj' := (hs.waiting_queue (Finset.mem_filter.mp hj).1).1
    have hk' := (hs.waiting_queue (Finset.mem_filter.mp hk).1).1
    rw [hcell, hk'] at hj'
    exact (Option.some.inj hj').symm
  · intro b hb
    have hin : b ∈ q v := List.mem_toFinset.mp hb
    have hplace := (hq.queued v b).mp hin
    obtain ⟨j, hj, hlt, hcell, hsuits⟩ := hs.occupant (hq.in_place hin)
    rw [hplace] at hsuits
    have hord := hs.booked.ordered j hlt
    refine ⟨j, Finset.mem_filter.mpr ⟨Book.mem_waiting.mpr ?_, ?_⟩, hcell⟩
    · refine ⟨hlt, hall b j hplace hj, ?_, hsuits.2⟩
      by_contra hun
      have hfin := hord.uncounted (Bool.not_eq_false _ ▸ hun)
      rw [hord.unfinished hsuits.2] at hfin
      cases hfin
    · rw [hcell]
      exact hplace

theorem Sound.waiting_card (hs : Sound n s) (hq : Stored s q)
    (hall : ∀ v < n, s.AllCounted v) :
    (s.book.waiting).card = ∑ v ∈ Finset.range n, (q v).length := by
  have hfiber : ∀ v ∈ Finset.range n, (q v).length
      = ((s.book.waiting).filter fun j =>
        s.book.place (s.book.record j).cell = .queue v).card :=
    fun v hv => (hs.queue_card hq (hall v (Finset.mem_range.mp hv))).symm
  rw [Finset.sum_congr rfl hfiber, ← Finset.card_biUnion]
  · congr 1
    ext j
    simp only [Finset.mem_biUnion, Finset.mem_filter, Finset.mem_range]
    constructor
    · intro hj
      obtain ⟨-, v, hv, hplace⟩ := hs.waiting_queue hj
      exact ⟨v, hv, hj, hplace⟩
    · rintro ⟨v, -, hj, -⟩
      exact hj
  · intro v _ v' _ hne
    rw [Function.onFun, Finset.disjoint_left]
    intro j hj hj'
    have hplace := (Finset.mem_filter.mp hj).2
    rw [(Finset.mem_filter.mp hj').2] at hplace
    exact hne (Place.queue.inj hplace).symm

/-- A worker that is counting out holds no cell. -/
theorem WorkerPc.done_cell {p : WorkerPc} {d : Option Nat}
    (h : p.done = some d) : p.cell = none := by
  cases p with
  | freeUnlock => rfl
  | doneLock => rfl
  | doneSub => rfl
  | _ => cases h

/-- A worker has one task at a time. -/
theorem WorkerHas.unique {p : WorkerPc} (h : WorkerHas n w p s) {j k : Nat}
    (hj : j < s.book.count) (hk : k < s.book.count)
    (htj : (s.book.record j).taker = some w)
    (htk : (s.book.record k).taker = some w)
    (huj : (s.book.record j).uncounted = false)
    (huk : (s.book.record k).uncounted = false) : j = k := by
  rcases h.tasks j hj htj huj with hdj | ⟨hcj, hoj⟩
  · rcases h.tasks k hk htk huk with hdk | ⟨hck, -⟩
    · rw [hdj] at hdk
      cases hdk
      rfl
    · rw [WorkerPc.done_cell hdj] at hck
      cases hck
  · rcases h.tasks k hk htk huk with hdk | ⟨hck, hok⟩
    · rw [WorkerPc.done_cell hdk] at hcj
      cases hcj
    · rw [hcj] at hck
      rw [Option.some.inj hck, hok] at hoj
      exact (Option.some.inj hoj).symm

/-- A worker that has a task is busy, and only such a one. -/
theorem Sound.taken_card (hs : Sound n cfg.shared)
    (hk : ∀ t, Has n t (cfg.pc t) cfg.shared) :
    cfg.shared.book.taken.card = ((Finset.range n).filter fun w =>
      WorkerPc.busy (cfg.pc (.worker w)) = true).card := by
  have hw : ∀ w, WorkerHas n w (cfg.pc (.worker w)) cfg.shared :=
    fun w => hk (.worker w)
  have htask : ∀ j ∈ cfg.shared.book.taken, ∃ w,
      (cfg.shared.book.record j).taker = some w := by
    intro j hj
    exact Option.ne_none_iff_exists'.mp (Book.mem_taken.mp hj).2.2.2
  apply Finset.card_bij fun j _ => ((cfg.shared.book.record j).taker).getD 0
  · intro j hj
    obtain ⟨hlt, -, hun, -⟩ := Book.mem_taken.mp hj
    obtain ⟨w, htaker⟩ := htask j hj
    rw [htaker, Option.getD_some, Finset.mem_filter, Finset.mem_range]
    have hbusy : WorkerPc.busy (cfg.pc (.worker w)) = true := by
      unfold WorkerPc.busy
      rcases (hw w).tasks j hlt htaker hun with hd | ⟨hc, -⟩
      · rw [hd]
        exact Bool.or_true _
      · rw [hc]
        rfl
    refine ⟨?_, hbusy⟩
    by_contra hle
    rw [(hw w).absent (Nat.not_lt.mp hle)] at hbusy
    cases hbusy
  · intro j hj k hk' heq
    obtain ⟨hltj, -, hunj, -⟩ := Book.mem_taken.mp hj
    obtain ⟨hltk, -, hunk, -⟩ := Book.mem_taken.mp hk'
    obtain ⟨w, htj⟩ := htask j hj
    obtain ⟨w', htk⟩ := htask k hk'
    rw [htj, htk] at heq
    have hww : w = w' := heq
    subst hww
    exact (hw w).unique hltj hltk htj htk hunj hunk
  · intro w hbusy
    obtain ⟨-, hbusy⟩ := Finset.mem_filter.mp hbusy
    unfold WorkerPc.busy at hbusy
    rw [Bool.or_eq_true] at hbusy
    have hcounted : ∀ j, j < cfg.shared.book.count →
        (cfg.shared.book.record j).taker = some w →
        (cfg.shared.book.record j).counted = true := by
      intro j hlt htaker
      apply (hs.booked.ordered j hlt).taken
      rw [htaker]
      nofun
    rcases hbusy with hc | hd
    · obtain ⟨b, hb⟩ := Option.isSome_iff_exists.mp hc
      obtain ⟨-, j, -, hlt, -, htaker, hun⟩ := (hw w).task hs hb
      refine ⟨j, Book.mem_taken.mpr ⟨hlt, hcounted j hlt htaker, hun, ?_⟩, ?_⟩
      · rw [htaker]
        nofun
      · rw [htaker]
        rfl
    · obtain ⟨d, hd⟩ := Option.isSome_iff_exists.mp hd
      obtain ⟨j, -, hlt, htaker, -, hun⟩ := (hw w).done d hd
      refine ⟨j, Book.mem_taken.mpr ⟨hlt, hcounted j hlt htaker, hun, ?_⟩, ?_⟩
      · rw [htaker]
        nofun
      · rw [htaker]
        rfl

/-- Without a scheduler at a queue, all that is queued is counted. -/
theorem Sound.unscheduled (hs : Sound n cfg.shared)
    (hk : ∀ t, Has n t (cfg.pc t) cfg.shared)
    (hnone : ∀ c, ClientPc.scheduling (cfg.pc (.client c)) = none) (v : Nat) :
    cfg.shared.AllCounted v := by
  rcases hs.counted v with hall | ⟨c, howner⟩
  · exact hall
  · have hc : ClientHas n c (cfg.pc (.client c)) cfg.shared := hk (.client c)
    have hheld := (hc.holds _).mp howner
    apply hc.allCounted hheld
    have hpc := hnone c
    generalize (cfg.pc (.client c) : ClientPc) = p at hpc
    cases p with
    | addActive task v => cases hpc
    | _ => rfl

-- ================================================================ the barrier

/-- `cx_threadpool_wait` is a barrier, in any interleaving. -/
theorem cxThreadpoolWait_barrier (h : Run n mem oracle cfg)
    (hgranted : cfg.shared.machine.refused = false)
    (hfreed : cfg.shared.freed = false) : WaitBarrier n cfg := by
  obtain ⟨hs, hk⟩ := h.sound ⟨hgranted, hfreed⟩
  refine ⟨?_, ?_, ?_⟩
  · intro c hpc
    have hc : ClientHas n c (cfg.pc (.client c)) cfg.shared := hk (.client c)
    exact hc.barrier hpc
  · intro hnone q' hq'
    obtain ⟨q, hq⟩ := hs.stored
    have hsame : ∀ v ∈ Finset.range n, (q' v).length = (q v).length := by
      intro v hv
      rw [(hq' v (Finset.mem_range.mp hv)).unique (hq.chain v)]
    rw [Finset.sum_congr rfl hsame, hs.active, Book.active_split,
      hs.waiting_card hq fun v _ => hs.unscheduled hk hnone v, hs.taken_card hk]
  · intro w d hpc
    have hw : WorkerHas n w (cfg.pc (.worker w)) cfg.shared := hk (.worker w)
    rw [hpc] at hw
    obtain ⟨j, rfl, -⟩ := hw.done d rfl
    exact (hw.countOut hs rfl rfl).1

/-- A client about to return, with a task done that it waited for and a
later one in the queue. -/
theorem cxThreadpoolWait_barrier_returning :
    ∃ cfg, WaitBarrier 1 cfg
      ∧ cfg.pc (.client 1) = ClientPc.waitUnlock
      ∧ cfg.shared.book.before 1 0 = true ∧ cfg.shared.activeTasks = 1 := by
  obtain ⟨cfg, hrun, htest, -⟩ := run_of_playFrom 1
    (turnsOf (.client 0) (.schedule 1 2 :: List.replicate 12 .go)
      ++ turnsOf (.client 1) [.wait]
      ++ turnsOf (.worker 0) (List.replicate 12 .go ++ [.wake 1, .go])
      ++ turnsOf (.client 1) [.go, .go]
      ++ turnsOf (.client 0) (.schedule 3 4 :: List.replicate 12 .go))
    (fun _ => 0) (fun t => 1024 * (t + 1))
    (fun cfg => decide (cfg.shared.machine.refused = false
      ∧ cfg.shared.freed = false
      ∧ (cfg.pc (.client 1) : ClientPc) = .waitUnlock
      ∧ cfg.shared.book.before 1 0 = true ∧ cfg.shared.activeTasks = 1))
    (by decide +kernel)
  obtain ⟨hgranted, hfreed, hpc, hbefore, hactive⟩ := of_decide_eq_true htest
  exact ⟨cfg, cxThreadpoolWait_barrier hrun hgranted hfreed, hpc, hbefore,
    hactive⟩

end Cextras.Concurrency
