/-
What a worker does with tasks. Its program counter says which cell it
holds, whether it has called the function, and which task it still has to
count out (`WorkerHas`).
-/
import Cextras.Concurrency.Proofs.TaskMoves

namespace Cextras.Concurrency

open Lib Memory

variable {n w a j v : Nat} {s s' : Shared} {t u : Thread} {p p' : WorkerPc}
  {m : MutexId}

-- ============================================================== knowledge

/-- The cell the worker holds. -/
def WorkerPc.cell : WorkerPc → Option Nat
  | .findSub _ task => some task
  | .findUnlock _ task => if task = 0 then none else some task
  | .waitSub task => some task
  | .waitUnlock task => if task = 0 then none else some task
  | .run task => some task
  | .running task => some task
  | .freeLock task => some task
  | .freeRecycle task => some task
  | _ => none

/-- It has called the function. -/
def WorkerPc.called : WorkerPc → Bool
  | .running _ => true
  | .freeLock _ => true
  | .freeRecycle _ => true
  | _ => false

/-- The function returned. -/
def WorkerPc.returned : WorkerPc → Bool
  | .freeLock _ => true
  | .freeRecycle _ => true
  | _ => false

/-- The task whose cell is given back and that is to be counted out. -/
def WorkerPc.done : WorkerPc → Option (Option Nat)
  | .freeUnlock done => some done
  | .doneLock done => some done
  | .doneSub done => some done
  | _ => none

structure WorkerHas (n w : Nat) (p : WorkerPc) (s : Shared) : Prop where
  holds : s.sync.Holds (.worker w) (p.held n w)
  cell : ∀ b, s.book.place b = .thread (.worker w) ↔ p.cell = some b
  called : ∀ b i, p.cell = some b → s.book.occupant b = some i →
    ((s.book.record i).starts = [] ↔ p.called = false)
      ∧ (s.book.record i).finished = p.returned
  done : ∀ d, p.done = some d → ∃ i, d = some i ∧ i < s.book.count
    ∧ (s.book.record i).taker = some w
    ∧ (s.book.record i).finished = true ∧ (s.book.record i).uncounted = false
  tasks : ∀ i < s.book.count, (s.book.record i).taker = some w →
    (s.book.record i).uncounted = false → p.done = some (some i)
      ∨ p.cell = some (s.book.record i).cell
        ∧ s.book.occupant (s.book.record i).cell = some i
  absent : n ≤ w → p = .exited

theorem WorkerHas.stable (h : WorkerHas n w p s)
    (hr : TaskRely (.worker w) s s') : WorkerHas n w p s' := by
  -- what it has is its own
  have hmine : ∀ b, p.cell = some b →
      s.Controls (.worker w) (s.book.place b) := by
    intro b hb
    rw [(h.cell b).mpr hb]
    rfl
  refine ⟨h.holds.congr hr.same, ?_, ?_, ?_, ?_, h.absent⟩
  · intro b
    rw [← h.cell b]
    constructor
    · intro hb
      rw [← hr.place b (Or.inr (by rw [hb]; rfl)), hb]
    · intro hb
      rw [hr.place b (Or.inl (by rw [hb]; rfl)), hb]
  · intro b i hb hocc
    obtain ⟨hocc', hrec, -⟩ := hr.cell b (hmine b hb)
    rw [hocc'] at hocc
    rw [hrec i hocc]
    exact h.called b i hb hocc
  · intro d hd
    obtain ⟨i, hi, hlt, htaker, hfin, hun⟩ := h.done d hd
    refine ⟨i, hi, Nat.lt_of_lt_of_le hlt hr.count, ?_⟩
    rw [hr.taken w i rfl hlt htaker]
    exact ⟨htaker, hfin, hun⟩
  · intro i hi htaker hun
    obtain ⟨hlt, htaker'⟩ := hr.untaken w i rfl hi htaker
    rw [hr.taken w i rfl hlt htaker'] at hun ⊢
    rcases h.tasks i hlt htaker' hun with hdone | ⟨hcell, hocc⟩
    · exact Or.inl hdone
    · right
      refine ⟨hcell, ?_⟩
      rw [(hr.cell _ (hmine _ hcell)).1]
      exact hocc

/-- The worker keeps what it has. -/
structure WorkerPc.Carries (p p' : WorkerPc) : Prop where
  cell : p'.cell = p.cell
  called : p'.called = p.called ∨ p.cell = none
  returned : p'.returned = p.returned ∨ p.cell = none
  done : p'.done = p.done

theorem WorkerHas.carry (h : WorkerHas n w p s) (hc : p.Carries p')
    (hsame : SameTasks s s') (hholds : s'.sync.Holds (.worker w) (p'.held n w))
    (hp : p ≠ .exited) : WorkerHas n w p' s' := by
  refine ⟨hholds, ?_, ?_, ?_, ?_, fun hle => absurd (h.absent hle) hp⟩
  · rw [hsame.place, hc.cell]
    exact h.cell
  · intro b i hb hocc
    rw [hsame.occupant] at hocc
    rw [hsame.record]
    rw [hc.cell] at hb
    obtain ⟨hcalled, hfin⟩ := h.called b i hb hocc
    refine ⟨?_, ?_⟩
    · rcases hc.called with hcall | hnone
      · rw [hcall]
        exact hcalled
      · rw [hnone] at hb
        cases hb
    · rcases hc.returned with hret | hnone
      · rw [hret]
        exact hfin
      · rw [hnone] at hb
        cases hb
  · rw [hc.done, hsame.record, hsame.count]
    exact h.done
  · rw [hc.done, hc.cell, hsame.record, hsame.count, hsame.occupant]
    exact h.tasks

-- ================================================================= moves

/-- The task of a cell that has a place. -/
theorem Sound.occupant (h : Sound n s) (ha : s.book.place a ≠ .free) :
    ∃ i, s.book.occupant a = some i ∧ i < s.book.count
      ∧ (s.book.record i).cell = a
      ∧ (s.book.place a).Suits (s.book.record i) := by
  obtain ⟨i, hi⟩ := h.booked.occupied a ha
  obtain ⟨hlt, hcell⟩ := h.booked.cell a i hi
  exact ⟨i, hi, hlt, hcell, h.booked.suits a i hi⟩

/-- What is known of the task in the cell a worker holds. -/
theorem WorkerHas.task (h : WorkerHas n w p s) (hs : Sound n s)
    (hcell : p.cell = some a) :
    s.book.place a = .thread (.worker w) ∧ ∃ i, s.book.occupant a = some i
      ∧ i < s.book.count ∧ (s.book.record i).cell = a
      ∧ (s.book.record i).taker = some w
      ∧ (s.book.record i).uncounted = false := by
  have hplace := (h.cell a).mpr hcell
  obtain ⟨i, hi, hlt, hcell', hsuits⟩ := hs.occupant (a := a) (by
    rw [hplace]
    nofun)
  rw [hplace] at hsuits
  exact ⟨hplace, i, hi, hlt, hcell', hsuits.1, hsuits.2⟩

/-- A worker that has the mutex of a queue takes its first task. -/
theorem Sound.take (h : Sound n s)
    (howner : s.sync.owner (.queue v) = some (.worker w))
    (hhead : (s.workers v).head ≠ 0) : ∃ i,
    s.book.occupant (s.workers v).head = some i
      ∧ (s.book.record i).starts = [] ∧ (s.book.record i).finished = false
      ∧ TaskMove n (.worker w) s (s.popped v w) (s.workers v).head i
        (.thread (.worker w)) { s.book.record i with taker := some w } := by
  obtain ⟨q, hq⟩ := h.stored
  have hplace := hq.head_place hhead
  have hne : s.book.place (s.workers v).head ≠ .free := by
    rw [hplace]
    nofun
  obtain ⟨i, hi, hlt, hcell, hsuits⟩ := h.occupant hne
  rw [hplace] at hsuits
  obtain ⟨hlinked, htaker⟩ := hsuits
  have hord := h.booked.ordered i hlt
  have hstarts : (s.book.record i).starts = [] := by
    rcases hord.called with hnil | ⟨hsome, -⟩
    · exact hnil
    · exact absurd htaker hsome
  have hunfinished : (s.book.record i).finished = false := by
    by_contra hfin
    exact (hord.finished (Bool.not_eq_false _ ▸ hfin)).1 htaker
  have huncounted : (s.book.record i).uncounted = false := by
    by_contra hun
    rw [hord.uncounted (Bool.not_eq_false _ ▸ hun)] at hunfinished
    cases hunfinished
  have hcounted : (s.book.record i).counted = true := by
    rcases h.counted v with hall | ⟨c, hc⟩
    · exact hall _ i hplace hi
    · rw [howner] at hc
      cases hc
  have hadv : Advance s.book (s.popped v w).book (s.workers v).head i
      (.thread (.worker w)) { s.book.record i with taker := some w } :=
    .moveModify hi _ _
  refine ⟨i, hi, hstarts, hunfinished, ?_⟩
  exact {
    advance := hadv
    task := hlt
    cell := hcell
    cell' := hcell
    ordered := by
      refine ⟨hord.linked, hord.counted, fun _ => hcounted, Or.inl hstarts, ?_,
        hord.uncounted⟩
      intro hfin
      exact absurd (hfin.symm.trans hunfinished) nofun
    later := ⟨id, id, id⟩
    owner := Or.inl ⟨by rw [hplace]; exact howner, hi, Or.inr rfl⟩
    freed := nofun
    suits := fun _ => ⟨rfl, huncounted⟩
    taker := by
      intro w' hw'
      rw [htaker]
      refine ⟨nofun, ?_⟩
      intro heq
      exact hw' (congrArg Thread.worker (Option.some.inj heq).symm)
    stored := ⟨_, hq.pop hhead w⟩
    active := h.active.trans (hadv.active rfl).symm
    others := fun _ _ _ _ _ _ => rfl
    kept := fun _ _ _ _ _ _ => rfl
    filled := fun _ _ hl =>
      (h.filled _ i hne hi hl).congr (fun _ _ _ => rfl) rfl rfl
    sync := fun u _ => .of_owner rfl u
    counted := fun v c hc => Or.inr ⟨c, hc⟩
    range := nofun }

/-- A worker changes the record of the task it holds. -/
theorem WorkerHas.touch (h : WorkerHas n w p s) (hs : Sound n s)
    (hcell : p.cell = some a) {i : Nat} (hi : s.book.occupant a = some i)
    {r : TaskRecord} (hcell' : r.cell = a)
    (htaker : r.taker = (s.book.record i).taker)
    (hactive : r.active = (s.book.record i).active)
    (huncounted : r.uncounted = (s.book.record i).uncounted)
    (hwords : r.function = (s.book.record i).function
      ∧ r.arg = (s.book.record i).arg)
    (hlinked : r.linked = (s.book.record i).linked)
    (hlater : (s.book.record i).Later r) (hordered : r.Ordered)
    {book : Book} (hadv : Advance s.book book a i (s.book.place a) r) :
    TaskMove n (.worker w) s { s with book := book } a i (s.book.place a) r := by
  obtain ⟨hplace, i', hi', hlt, hcelli, htakeri, huni⟩ := h.task hs hcell
  rw [hi] at hi'
  cases hi'
  have hne : s.book.place a ≠ .free := by
    rw [hplace]
    nofun
  have hown : s.Controls (.worker w) (s.book.place a) := by
    rw [hplace]
    rfl
  obtain ⟨q, hq⟩ := hs.stored
  exact {
    advance := hadv
    task := hlt
    cell := hcelli
    cell' := hcell'
    ordered := hordered
    later := hlater
    owner := Or.inl ⟨hown, hi, Or.inr hown⟩
    freed := fun hfree => absurd hfree hne
    suits := by
      intro _
      rw [hplace]
      exact ⟨htaker.trans htakeri, huncounted.trans huni⟩
    taker := by
      intro w' hw'
      rw [htaker, htakeri]
      have hne' : some w ≠ some w' := by
        intro heq
        exact hw' (congrArg Thread.worker (Option.some.inj heq).symm)
      exact ⟨hne', hne'⟩
    stored := by
      refine ⟨q, hq.congr rfl rfl (fun _ => rfl) (fun _ => rfl) ?_⟩
      rw [hadv.place, Function.update_eq_self]
    active := hs.active.trans (hadv.active hactive).symm
    others := fun _ _ _ _ _ _ => rfl
    kept := fun _ _ _ _ _ _ => rfl
    filled := by
      intro _ _ hl
      refine (hs.filled a i hne hi ?_).congr (fun _ _ _ => rfl) hwords.1 hwords.2
      rw [← hlinked]
      exact hl
    sync := fun u _ => .of_owner rfl u
    counted := fun v c hc => Or.inr ⟨c, hc⟩
    range := fun v hv => Or.inl hv }

/-- A worker gives back the cell of a task that is done. -/
theorem WorkerHas.recycle (h : WorkerHas n w p s) (hs : Sound n s)
    (hcell : p.cell = some a) {i : Nat} (hi : s.book.occupant a = some i)
    (hfin : (s.book.record i).finished = true) {taskPool : CxPreallocPool}
    {m' : Machine} (hrun : (cxPreallocPoolRecycle s.taskPool a).run s.machine
      = .ok taskPool m') :
    TaskMove n (.worker w) s { s with
      machine := m', taskPool := taskPool, book := s.book.move a .free } a i
      .free (s.book.record i) := by
  obtain ⟨hplace, i', hi', hlt, hcelli, htakeri, huni⟩ := h.task hs hcell
  rw [hi] at hi'
  cases hi'
  obtain ⟨q, hq⟩ := hs.stored
  obtain ⟨hstored, -, hmem⟩ := hq.recycle hplace hrun
  have hadv := Advance.move s.book a i .free
  have hown : s.Controls (.worker w) (s.book.place a) := by
    rw [hplace]
    rfl
  have hne : s.book.place a ≠ .free := hown.ne_free
  have hagree : ∀ b, s.book.place b ≠ .free → b ≠ a →
      s.machine.mem.Agree m'.mem b taskSize := by
    intro b hb hba x hlo hhi
    apply hmem
    have hsep := hq.separated hb hne hba
    omega
  exact {
    advance := hadv
    task := hlt
    cell := hcelli
    cell' := hcelli
    ordered := hs.booked.ordered i hlt
    later := .refl _
    owner := Or.inl ⟨hown, hi, Or.inl rfl⟩
    freed := fun _ => Or.inl hfin
    suits := fun _ => trivial
    taker := by
      intro w' hw'
      rw [htakeri]
      have hne' : some w ≠ some w' := by
        intro heq
        exact hw' (congrArg Thread.worker (Option.some.inj heq).symm)
      exact ⟨hne', hne'⟩
    stored := ⟨q, hstored⟩
    active := hs.active.trans (hadv.active rfl).symm
    others := by
      intro b hb hnot
      apply hagree b hb
      intro hba
      subst hba
      exact hnot hown
    kept := by
      intro b hb hocc x hlo hhi
      refine hagree b hb ?_ x hlo ?_
      · intro hba
        subst hba
        exact hocc hi
      · unfold taskSize
        omega
    filled := fun hfree => absurd rfl hfree
    sync := fun u _ => .of_owner rfl u
    counted := fun v c hc => Or.inr ⟨c, hc⟩
    range := nofun }

/-- A worker counts out a task whose cell it has given back. -/
theorem WorkerHas.countOut (h : WorkerHas n w p s) (hs : Sound n s) {i : Nat}
    (hdone : p.done = some (some i)) (hcell : p.cell = none) :
    0 < s.activeTasks ∧ TaskMove n (.worker w) s { s with
      activeTasks := fetchSub s.activeTasks, book := s.book.countOut i }
      (s.book.record i).cell i (s.book.place (s.book.record i).cell)
      { s.book.record i with uncounted := true } := by
  obtain ⟨d, hd, hlt, htaker, hfin, hun⟩ := h.done _ hdone
  cases hd
  have hord := hs.booked.ordered i hlt
  have hcounted : (s.book.record i).counted = true := by
    apply hord.taken
    rw [htaker]
    nofun
  have hadv : Advance s.book (s.book.countOut i) (s.book.record i).cell i
      (s.book.place (s.book.record i).cell)
      { s.book.record i with uncounted := true } := .modify ..
  have hactive : (s.book.countOut i).active + 1 = s.book.active := by
    apply hadv.active_out hlt
    · unfold TaskRecord.active
      rw [hcounted, hun]
      rfl
    · unfold TaskRecord.active
      rw [hcounted]
      rfl
  have hpos : 0 < s.activeTasks := by
    rw [hs.active]
    omega
  -- the cell is free, or another task's by now
  have hfree : s.book.occupant (s.book.record i).cell = some i →
      s.book.place (s.book.record i).cell = .free := by
    intro hocc
    have hsuits := hs.booked.suits _ _ hocc
    cases hplace : s.book.place (s.book.record i).cell with
    | free => rfl
    | thread u =>
        rw [hplace] at hsuits
        cases u with
        | worker w' =>
            have htaker' : (s.book.record i).taker = some w' := hsuits.1
            rw [htaker] at htaker'
            cases htaker'
            rw [h.cell, hcell] at hplace
            cases hplace
        | client c =>
            have hunlinked : (s.book.record i).linked = false := hsuits
            rw [hord.linked hcounted] at hunlinked
            cases hunlinked
    | queue v =>
        rw [hplace] at hsuits
        have huntaken : (s.book.record i).taker = none := hsuits.2
        rw [htaker] at huntaken
        cases huntaken
  obtain ⟨q, hq⟩ := hs.stored
  refine ⟨hpos, ?_⟩
  exact {
    advance := hadv
    task := hlt
    cell := rfl
    cell' := rfl
    ordered := ⟨hord.linked, hord.counted, hord.taken, hord.called,
      hord.finished, fun _ => hfin⟩
    later := ⟨id, id, id⟩
    owner := Or.inr ⟨rfl, hfree⟩
    freed := Or.inr
    suits := by
      intro hocc
      rw [hfree hocc]
      trivial
    taker := by
      intro w' hw'
      rw [htaker]
      have hne' : some w ≠ some w' := by
        intro heq
        exact hw' (congrArg Thread.worker (Option.some.inj heq).symm)
      exact ⟨hne', hne'⟩
    stored := ⟨q, hq.congr rfl rfl (fun _ => rfl) (fun _ => rfl) rfl⟩
    active := by
      show fetchSub s.activeTasks = (s.book.countOut i).active
      unfold fetchSub
      rw [if_neg (Nat.ne_of_gt hpos), hs.active]
      omega
    others := fun _ _ _ _ _ _ => rfl
    kept := fun _ _ _ _ _ _ => rfl
    filled := fun hne hocc => absurd (hfree hocc) hne
    sync := fun u _ => .of_owner rfl u
    counted := fun v c hc => Or.inr ⟨c, hc⟩
    range := fun v hv => Or.inl hv }

-- ================================================================= records

theorem TaskRecord.Ordered.start {r : TaskRecord} (h : r.Ordered)
    (hstarts : r.starts = []) (htaker : r.taker ≠ none) {call : Nat × Nat}
    (hcall : call = (r.function, r.arg)) :
    TaskRecord.Ordered { r with starts := r.starts ++ [call] } := by
  have hnew : r.starts ++ [call] = [(r.function, r.arg)] := by
    rw [hstarts, hcall]
    rfl
  exact ⟨h.linked, h.counted, h.taken, Or.inr ⟨htaker, hnew⟩,
    fun _ => ⟨htaker, hnew⟩, h.uncounted⟩

theorem TaskRecord.Ordered.finish {r : TaskRecord} (h : r.Ordered)
    (hstarts : r.starts ≠ []) :
    TaskRecord.Ordered { r with finished := true } := by
  refine ⟨h.linked, h.counted, h.taken, h.called, fun _ => ?_, fun _ => rfl⟩
  exact h.called.resolve_left hstarts

/-- The task a worker is to run, and its record afterwards. -/
theorem WorkerHas.start (h : WorkerHas n w (.run a) s) (hs : Sound n s)
    {call : Nat × Nat} {m' : Machine}
    (hrun : (taskCall a).run s.machine = .ok call m') :
    m' = s.machine ∧ ∃ i, s.book.occupant a = some i
      ∧ (s.book.record i).finished = false
      ∧ TaskMove n (.worker w) s { s with book := s.book.start a call } a i
        (s.book.place a)
        { s.book.record i with starts := (s.book.record i).starts ++ [call] } := by
  obtain ⟨hplace, i, hi, hlt, hcelli, htaker, -⟩ := h.task hs (a := a) rfl
  obtain ⟨hcalled, hfin⟩ := h.called a i rfl hi
  obtain ⟨rfl, hcall⟩ := taskCall_cases hrun
  have hord := hs.booked.ordered i hlt
  have htaker' : (s.book.record i).taker ≠ none := by
    rw [htaker]
    nofun
  have hne : s.book.place a ≠ .free := by
    rw [hplace]
    nofun
  have hfilled := hs.filled a i hne hi (hord.linked (hord.taken htaker'))
  rw [hfilled.function, hfilled.arg] at hcall
  exact ⟨rfl, i, hi, hfin, h.touch hs (a := a) rfl hi
    (r := { s.book.record i with starts := (s.book.record i).starts ++ [call] })
    hcelli rfl rfl rfl ⟨rfl, rfl⟩ rfl ⟨id, id, id⟩
    (hord.start (hcalled.mpr rfl) htaker' hcall) (.modifyAt hi _)⟩

theorem WorkerHas.finish (h : WorkerHas n w (.running a) s) (hs : Sound n s) :
    ∃ i, s.book.occupant a = some i
      ∧ TaskMove n (.worker w) s { s with book := s.book.finish a } a i
        (s.book.place a) { s.book.record i with finished := true } := by
  obtain ⟨hplace, i, hi, hlt, hcelli, htaker, -⟩ := h.task hs (a := a) rfl
  have hord := hs.booked.ordered i hlt
  have hstarts : (s.book.record i).starts ≠ [] := by
    intro hnil
    exact absurd ((h.called a i rfl hi).1.mp hnil) nofun
  exact ⟨i, hi, h.touch hs (a := a) rfl hi
    (r := { s.book.record i with finished := true }) hcelli rfl rfl rfl
    ⟨rfl, rfl⟩ rfl ⟨id, id, fun _ => rfl⟩ (hord.finish hstarts)
    (.modifyAt hi _)⟩

-- =================================================================== steps

theorem WorkerRule.taskStep (hr : WorkerRule n w s p p' s') (hs : Sound n s)
    (h : WorkerHas n w p s) : TaskStep n (.worker w) s s' := by
  cases hr with
  | begin => exact hs.still (.refl s) rfl rfl
  | exit =>
      exact hs.still ⟨rfl, rfl, fun _ => rfl, fun _ => rfl, rfl, rfl, rfl, rfl,
        rfl⟩ rfl rfl
  | findLock _ hlock => exact hs.lock hlock
  | findNone => exact hs.still (.refl s) rfl rfl
  | findGet hhead =>
      obtain ⟨i, -, -, -, hm⟩ := hs.take h.holds.owner hhead
      exact hm.step hs
  | findEmpty => exact hs.still (.refl s) rfl rfl
  | findSub => exact hs.still (.setLength ..) rfl rfl
  | findNext => exact hs.release h.holds.owner (.sync ..) rfl rfl nofun
  | findFound => exact hs.release h.holds.owner (.sync ..) rfl rfl nofun
  | waitLock hlock => exact hs.lock hlock
  | waitGet hhead =>
      obtain ⟨i, -, -, -, hm⟩ := hs.take h.holds.owner hhead
      exact hm.step hs
  | waitEmpty => exact hs.still (.refl s) rfl rfl
  | waitSub => exact hs.still (.setLength ..) rfl rfl
  | waitOn => exact hs.still (.refl s) rfl rfl
  | waitStop => exact hs.still (.refl s) rfl rfl
  | waitSleep => exact hs.release h.holds.owner (.sync ..) rfl rfl nofun
  | spurious => exact hs.still (.sync ..) rfl rfl
  | relock _ hlock => exact hs.lock hlock
  | waitNone => exact hs.release h.holds.owner (.sync ..) rfl rfl nofun
  | waitFound => exact hs.release h.holds.owner (.sync ..) rfl rfl nofun
  | run hrun =>
      obtain ⟨rfl, i, -, -, hm⟩ := h.start hs hrun
      exact hm.step hs
  | finish =>
      obtain ⟨i, -, hm⟩ := h.finish hs
      exact hm.step hs
  | freeLock hlock => exact hs.lock hlock
  | @recycle task taskPool m' hrun =>
      obtain ⟨-, i, hi, -⟩ := h.task hs (a := task) rfl
      have hm := h.recycle hs (a := task) rfl hi (h.called task i rfl hi).2 hrun
      exact hm.step hs
  | freeUnlock => exact hs.release h.holds.owner (.sync ..) rfl rfl nofun
  | doneLock hlock => exact hs.lock hlock
  | doneSub =>
      obtain ⟨i, rfl, -⟩ := h.done _ rfl
      exact (h.countOut hs rfl rfl).2.step hs
  | doneSignal hsignal =>
      exact hs.still (.sync ..) (Sync.signal_frame hsignal).1 rfl
  | doneUnlock => exact hs.release h.holds.owner (.sync ..) rfl rfl nofun

/-- What a worker has after a move of its own. -/
theorem WorkerHas.move (h : WorkerHas n w p s) {q : Place} {r : TaskRecord}
    (hm : TaskMove n (.worker w) s s' a j q r)
    (hholds : s'.sync.Holds (.worker w) (p'.held n w))
    (hcell : ∀ b, p.cell = some b → b = a ∧ s.book.occupant a = some j)
    (hdone : ∀ i, p.done = some (some i) → i = j)
    (hcell' : p'.cell = none ∧ q ≠ .thread (.worker w)
      ∨ p'.cell = some a ∧ q = .thread (.worker w))
    (hcalled : p'.cell = some a → s.book.occupant a = some j
      ∧ (r.starts = [] ↔ p'.called = false) ∧ r.finished = p'.returned)
    (hdone' : ∀ d, p'.done = some d → d = some j ∧ r.finished = true)
    (htaker : r.taker = some w)
    (hopen : r.uncounted = true ∧ p'.cell = none ∧ p'.done = none
      ∨ r.uncounted = false ∧ (p'.done = some (some j) ∨ p'.cell = some a))
    (hp : p ≠ .exited) : WorkerHas n w p' s' := by
  have hadv := hm.advance
  refine ⟨hholds, ?_, ?_, ?_, ?_, fun hle => absurd (h.absent hle) hp⟩
  · intro b
    by_cases hba : b = a
    · subst hba
      rw [hadv.place_self]
      rcases hcell' with ⟨hnone, hq⟩ | ⟨hsome, hq⟩
      · rw [hnone]
        exact iff_of_false hq nofun
      · exact iff_of_true hq hsome
    · rw [hadv.place_of_ne hba, h.cell]
      refine iff_of_false (fun hb => hba (hcell b hb).1) ?_
      rcases hcell' with ⟨hnone, -⟩ | ⟨hsome, -⟩
      · rw [hnone]
        nofun
      · rw [hsome]
        intro heq
        exact hba (Option.some.inj heq).symm
  · intro b i hb hocc
    rw [hadv.occupant] at hocc
    rcases hcell' with ⟨hnone, -⟩ | ⟨hsome, -⟩
    · rw [hnone] at hb
      cases hb
    · rw [hsome] at hb
      cases hb
      obtain ⟨hocc', hstarts, hfin⟩ := hcalled hsome
      rw [hocc'] at hocc
      cases hocc
      rw [hadv.record_self]
      exact ⟨hstarts, hfin⟩
  · intro d hd
    obtain ⟨rfl, hfin⟩ := hdone' d hd
    refine ⟨j, rfl, ?_, ?_⟩
    · rw [hadv.count]
      exact hm.task
    · rw [hadv.record_self]
      rcases hopen with ⟨-, -, hnone⟩ | ⟨hun, -⟩
      · rw [hnone] at hd
        cases hd
      · exact ⟨htaker, hfin, hun⟩
  · intro i hi htaker' hun
    rw [hadv.count] at hi
    rw [hadv.occupant]
    by_cases hij : i = j
    · subst hij
      rw [hadv.record_self] at hun ⊢
      rcases hopen with ⟨hun', -⟩ | ⟨-, hd | hc⟩
      · rw [hun] at hun'
        cases hun'
      · exact Or.inl hd
      · right
        rw [hm.cell']
        exact ⟨hc, (hcalled hc).1⟩
    · rw [hadv.record_of_ne hij] at htaker' hun
      rcases h.tasks i hi htaker' hun with hd | ⟨hc, hocc⟩
      · exact absurd (hdone i hd) hij
      · obtain ⟨hca, hocc'⟩ := hcell _ hc
        rw [hca, hocc'] at hocc
        exact absurd (Option.some.inj hocc).symm hij

/-- A worker that has just taken a task. -/
theorem WorkerHas.took (h : WorkerHas n w p s) {i : Nat}
    (hm : TaskMove n (.worker w) s s' a i (.thread (.worker w))
      { s.book.record i with taker := some w })
    (hholds : s'.sync.Holds (.worker w) (p'.held n w))
    (hi : s.book.occupant a = some i) (hstarts : (s.book.record i).starts = [])
    (hfin : (s.book.record i).finished = false)
    (hcell : p.cell = none) (hdone : p.done = none) (hcell' : p'.cell = some a)
    (hcalled : p'.called = false) (hreturned : p'.returned = false)
    (hdone' : p'.done = none) (hp : p ≠ .exited) : WorkerHas n w p' s' := by
  apply h.move hm hholds ?_ ?_ (Or.inr ⟨hcell', rfl⟩) ?_ ?_ rfl ?_ hp
  · intro b hb
    rw [hcell] at hb
    cases hb
  · intro i hd
    rw [hdone] at hd
    cases hd
  · intro _
    exact ⟨hi, iff_of_true hstarts hcalled, hfin.trans hreturned.symm⟩
  · intro d hd
    rw [hdone'] at hd
    cases hd
  · exact Or.inr ⟨(hm.suits hi).2, Or.inr hcell'⟩

/-- A cell a worker holds is not null. -/
theorem WorkerHas.cell_ne_zero (h : WorkerHas n w p s) (hs : Sound n s)
    (hcell : p.cell = some a) : a ≠ 0 := by
  obtain ⟨q, hq⟩ := hs.stored
  apply hq.ne_zero (a := a)
  rw [(h.cell a).mpr hcell]
  nofun

theorem WorkerRule.has (hr : WorkerRule n w s p p' s') (hs : Sound n s)
    (h : WorkerHas n w p s) : WorkerHas n w p' s' := by
  have hholds := (hr.lockStep h.holds).holds
  have hkeep : p'.cell = p.cell → p'.called = p.called →
      p'.returned = p.returned → p'.done = p.done → SameTasks s s' →
      p ≠ .exited → WorkerHas n w p' s' := by
    intro hcell hcalled hreturned hdone hsame
    exact h.carry ⟨hcell, Or.inl hcalled, Or.inl hreturned, hdone⟩ hsame hholds
  have hlocked : ∀ {m}, s.lock m (.worker w) = some s' → SameTasks s s' := by
    intro m hlock
    obtain ⟨-, y, -, rfl⟩ := Shared.lock_cases hlock
    exact .sync s y
  cases hr with
  | begin => exact hkeep rfl rfl rfl rfl (.refl s) nofun
  | exit =>
      exact hkeep rfl rfl rfl rfl ⟨rfl, rfl, fun _ => rfl, fun _ => rfl, rfl, rfl,
        rfl, rfl, rfl⟩ nofun
  | findLock _ hlock => exact hkeep rfl rfl rfl rfl (hlocked hlock) nofun
  | findNone => exact hkeep rfl rfl rfl rfl (.refl s) nofun
  | findGet hhead =>
      obtain ⟨i, hi, hstarts, hfin, hm⟩ := hs.take h.holds.owner hhead
      exact h.took hm hholds hi hstarts hfin rfl rfl rfl rfl rfl rfl nofun
  | findEmpty => exact hkeep rfl rfl rfl rfl (.refl s) nofun
  | findSub =>
      refine hkeep ?_ rfl rfl rfl (.setLength ..) nofun
      exact if_neg (h.cell_ne_zero hs rfl)
  | findNext => exact hkeep rfl rfl rfl rfl (.sync ..) nofun
  | findFound htask =>
      refine hkeep ?_ rfl rfl rfl (.sync ..) nofun
      exact (if_neg htask).symm
  | waitLock hlock => exact hkeep rfl rfl rfl rfl (hlocked hlock) nofun
  | waitGet hhead =>
      obtain ⟨i, hi, hstarts, hfin, hm⟩ := hs.take h.holds.owner hhead
      exact h.took hm hholds hi hstarts hfin rfl rfl rfl rfl rfl rfl nofun
  | waitEmpty => exact hkeep rfl rfl rfl rfl (.refl s) nofun
  | waitSub =>
      refine hkeep ?_ rfl rfl rfl (.setLength ..) nofun
      exact if_neg (h.cell_ne_zero hs rfl)
  | waitOn => exact hkeep rfl rfl rfl rfl (.refl s) nofun
  | waitStop => exact hkeep rfl rfl rfl rfl (.refl s) nofun
  | waitSleep => exact hkeep rfl rfl rfl rfl (.sync ..) nofun
  | spurious => exact hkeep rfl rfl rfl rfl (.sync ..) nofun
  | relock _ hlock => exact hkeep rfl rfl rfl rfl (hlocked hlock) nofun
  | waitNone => exact hkeep rfl rfl rfl rfl (.sync ..) nofun
  | waitFound htask =>
      refine hkeep ?_ rfl rfl rfl (.sync ..) nofun
      exact (if_neg htask).symm
  | @run task call m' hrun =>
      obtain ⟨rfl, i, hi, hfin, hm⟩ := h.start hs hrun
      obtain ⟨hplace, i', hi', -, -, htaker, hun⟩ := h.task hs (a := task) rfl
      rw [hi] at hi'
      cases hi'
      refine h.move hm hholds ?_ nofun (Or.inr ⟨rfl, hplace⟩) ?_ nofun htaker
        (Or.inr ⟨hun, Or.inr rfl⟩) nofun
      · intro b hb
        cases hb
        exact ⟨rfl, hi⟩
      · intro _
        refine ⟨hi, iff_of_false ?_ nofun, hfin⟩
        exact List.append_ne_nil_of_right_ne_nil _ (List.cons_ne_nil _ _)
  | @finish task =>
      obtain ⟨i, hi, hm⟩ := h.finish hs
      obtain ⟨hplace, i', hi', -, -, htaker, hun⟩ := h.task hs (a := task) rfl
      rw [hi] at hi'
      cases hi'
      refine h.move hm hholds ?_ nofun (Or.inr ⟨rfl, hplace⟩) ?_ nofun htaker
        (Or.inr ⟨hun, Or.inr rfl⟩) nofun
      · intro b hb
        cases hb
        exact ⟨rfl, hi⟩
      · intro _
        exact ⟨hi, (h.called task i rfl hi).1, rfl⟩
  | freeLock hlock => exact hkeep rfl rfl rfl rfl (hlocked hlock) nofun
  | @recycle task taskPool m' hrun =>
      obtain ⟨-, i, hi, -, -, htaker, hun⟩ := h.task hs (a := task) rfl
      have hfin := (h.called task i rfl hi).2
      have hm := h.recycle hs (a := task) rfl hi hfin hrun
      refine h.move hm hholds ?_ nofun (Or.inl ⟨rfl, nofun⟩) nofun ?_ htaker
        (Or.inr ⟨hun, Or.inl (congrArg some hi)⟩) nofun
      · intro b hb
        cases hb
        exact ⟨rfl, hi⟩
      · intro d hd
        cases hd
        exact ⟨hi, hfin⟩
  | freeUnlock => exact hkeep rfl rfl rfl rfl (.sync ..) nofun
  | doneLock hlock => exact hkeep rfl rfl rfl rfl (hlocked hlock) nofun
  | doneSub hp' =>
      obtain ⟨i, rfl, -, htaker, hfin, -⟩ := h.done _ rfl
      have hm := (h.countOut hs rfl rfl).2
      have hcell' : p'.cell = none ∧ p'.done = none := by
        rw [hp']
        split
        · exact ⟨rfl, rfl⟩
        · exact ⟨rfl, rfl⟩
      refine h.move hm hholds nofun ?_ (Or.inl ⟨hcell'.1, ?_⟩) ?_ ?_ htaker
        (Or.inl ⟨rfl, hcell'⟩) nofun
      · intro i' hi'
        cases hi'
        rfl
      · intro hplace
        rw [h.cell] at hplace
        cases hplace
      · rw [hcell'.1]
        nofun
      · rw [hcell'.2]
        nofun
  | doneSignal => exact hkeep rfl rfl rfl rfl (.sync ..) nofun
  | doneUnlock => exact hkeep rfl rfl rfl rfl (.sync ..) nofun

end Cextras.Concurrency
