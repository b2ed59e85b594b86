/-
What a client does with tasks. Its program counter says which cell it
holds, what is written there, whether it has counted the task it linked
into a queue, and, in `cx_threadpool_wait`, what has to be finished
(`ClientHas`).
-/
import Cextras.Concurrency.Proofs.TaskMoves

namespace Cextras.Concurrency

open Lib Memory

variable {n c a i v : Nat} {s s' : Shared} {t u : Thread} {p p' : ClientPc}
  {m : MutexId}

-- ============================================================== knowledge

/-- The cell the client holds. -/
def ClientPc.cell : ClientPc → Option Nat
  | .newUnlock _ _ task => if task = 0 then none else some task
  | .newInit _ _ task => some task
  | .scan task _ _ _ => some task
  | .queueLock task _ => some task
  | .link task _ => some task
  | _ => none

/-- What the new task is to call on what, until it is written. -/
def ClientPc.call : ClientPc → Option (Nat × Nat)
  | .newLock function arg => some (function, arg)
  | .newGet function arg => some (function, arg)
  | .newUnlock function arg _ => some (function, arg)
  | .newInit function arg _ => some (function, arg)
  | _ => none

/-- The cell is written. -/
def ClientPc.written : ClientPc → Bool
  | .scan _ _ _ _ => true
  | .queueLock _ _ => true
  | .link _ _ => true
  | _ => false

/-- The worker whose queue the task goes to. -/
def ClientPc.target : ClientPc → Option Nat
  | .scan _ _ worker _ => worker
  | .queueLock _ v => some v
  | .link _ v => some v
  | _ => none

/-- The cell that was linked, and the queue. -/
def ClientPc.linked : ClientPc → Option (Nat × Nat)
  | .addActive task v => some (task, v)
  | .addLength task v => some (task, v)
  | .signal task v => some (task, v)
  | .queueUnlock task v => some (task, v)
  | _ => none

/-- The cell that is linked and not counted. -/
def ClientPc.uncounted : ClientPc → Option Nat
  | .addActive task _ => some task
  | _ => none

/-- It is in `cx_threadpool_wait`. -/
def ClientPc.waiting : ClientPc → Bool
  | .waitLock => true
  | .waitTest => true
  | .waitSleep => true
  | .blocked => true
  | .waitUnlock => true
  | _ => false

structure ClientHas (n c : Nat) (p : ClientPc) (s : Shared) : Prop where
  holds : s.sync.Holds (.client c) p.held
  cell : ∀ b, s.book.place b = .thread (.client c) ↔ p.cell = some b
  words : ∀ function arg, p.call = some (function, arg) →
    function < 2 ^ 64 ∧ arg < 2 ^ 64
  named : ∀ function arg b j, p.call = some (function, arg) →
    p.cell = some b → s.book.occupant b = some j →
    (s.book.record j).function = function ∧ (s.book.record j).arg = arg
  written : p.written = true → ∀ b, p.cell = some b →
    s.machine.mem.load64 (b + nextOffset) = 0
      ∧ ∀ j, s.book.occupant b = some j →
        Filled s.machine.mem b (s.book.record j)
  target : ∀ v, p.target = some v → v < n
  linked : ∀ b v, p.linked = some (b, v) → s.book.place b = .queue v
  counted : ∀ v b j, p.held = some (.queue v) → s.book.place b = .queue v →
    s.book.occupant b = some j →
    (s.book.record j).counted = true ∨ p.uncounted = some b
  uncounted : ∀ b j, p.uncounted = some b → s.book.occupant b = some j →
    (s.book.record j).counted = false
  before : p.waiting = true → ∀ j, s.book.before c j = true →
    j < s.book.count ∧ (s.book.record j).accepted = true
  barrier : p = .waitUnlock → ∀ j, s.book.before c j = true →
    (s.book.record j).finished = true

theorem ClientPc.linked_held {b v : Nat} (h : p.linked = some (b, v)) :
    p.held = some (.queue v) := by
  cases p with
  | addActive task v' =>
      cases h
      rfl
  | addLength task v' =>
      cases h
      rfl
  | signal task v' =>
      cases h
      rfl
  | queueUnlock task v' =>
      cases h
      rfl
  | _ => cases h

theorem ClientPc.uncounted_linked {b : Nat} (h : p.uncounted = some b) :
    ∃ v, p.linked = some (b, v) := by
  cases p with
  | addActive task v =>
      cases h
      exact ⟨v, rfl⟩
  | _ => cases h

theorem ClientHas.stable (h : ClientHas n c p s)
    (hr : TaskRely (.client c) s s') : ClientHas n c p s' := by
  -- what it has is its own
  have hmine : ∀ b, p.cell = some b →
      s.Controls (.client c) (s.book.place b) := by
    intro b hb
    rw [(h.cell b).mpr hb]
    rfl
  have hlinked : ∀ b v, p.linked = some (b, v) →
      s.Controls (.client c) (s.book.place b) := by
    intro b v hb
    rw [h.linked b v hb]
    exact (h.holds _).mpr (ClientPc.linked_held hb)
  refine ⟨h.holds.congr hr.same, ?_, h.words, ?_, ?_, h.target, ?_, ?_, ?_, ?_,
    ?_⟩
  · intro b
    rw [← h.cell b]
    constructor
    · intro hb
      rw [← hr.place b (Or.inr (by rw [hb]; rfl)), hb]
    · intro hb
      rw [hr.place b (Or.inl (by rw [hb]; rfl)), hb]
  · intro function arg b j hcall hb hj
    obtain ⟨hocc, hrec, -⟩ := hr.cell b (hmine b hb)
    rw [hocc] at hj
    rw [hrec j hj]
    exact h.named function arg b j hcall hb hj
  · intro hp b hb
    obtain ⟨hocc, hrec, hmem⟩ := hr.cell b (hmine b hb)
    obtain ⟨hnext, hfilled⟩ := h.written hp b hb
    refine ⟨?_, ?_⟩
    · rw [← hnext]
      apply load64_congr
      intro x hlo hhi
      apply hmem x
      · omega
      · unfold nextOffset at hhi
        unfold taskSize
        omega
    · intro j hj
      rw [hocc] at hj
      rw [hrec j hj]
      refine (hfilled j hj).congr ?_ rfl rfl
      intro x hlo hhi
      apply hmem x hlo
      unfold taskSize
      omega
  · intro b v hb
    rw [hr.place b (Or.inl (hlinked b v hb))]
    exact h.linked b v hb
  · intro v b j hheld hb hj
    have hown : s.Controls (.client c) (.queue v) := (h.holds _).mpr hheld
    have hplace := hr.place b (Or.inr (by rw [hb]; exact hown))
    rw [hplace] at hb
    obtain ⟨hocc, hrec, -⟩ := hr.cell b (by rw [hb]; exact hown)
    rw [hocc] at hj
    rw [hrec j hj]
    exact h.counted v b j hheld hb hj
  · intro b j hb hj
    obtain ⟨v, hv⟩ := ClientPc.uncounted_linked hb
    obtain ⟨hocc, hrec, -⟩ := hr.cell b (hlinked b v hv)
    rw [hocc] at hj
    rw [hrec j hj]
    exact h.uncounted b j hb hj
  · intro hp j hj
    rw [hr.before c rfl] at hj
    obtain ⟨hlt, hacc⟩ := h.before hp j hj
    exact ⟨Nat.lt_of_lt_of_le hlt hr.count, (hr.later j hlt).accepted hacc⟩
  · intro hp j hj
    rw [hr.before c rfl] at hj
    have hwaiting : p.waiting = true := by
      rw [hp]
      rfl
    obtain ⟨hlt, -⟩ := h.before hwaiting j hj
    exact (hr.later j hlt).finished (h.barrier hp j hj)

/-- The client keeps what it has. -/
structure ClientPc.Carries (p p' : ClientPc) : Prop where
  cell : p'.cell = p.cell
  call : p'.call = p.call ∨ p'.cell = none ∨ p'.call = none
  written : p'.written = true → p.written = true
  linked : p'.linked = none ∨ p'.linked = p.linked
  uncounted : p'.uncounted = none

theorem ClientHas.carry (h : ClientHas n c p s) (hc : p.Carries p')
    (hsame : SameTasks s s') (hholds : s'.sync.Holds (.client c) p'.held)
    (hwords : ∀ function arg, p'.call = some (function, arg) →
      function < 2 ^ 64 ∧ arg < 2 ^ 64)
    (htarget : ∀ v, p'.target = some v → v < n)
    (hheld : ∀ v, p'.held = some (.queue v) → s.AllCounted v)
    (hbefore : p'.waiting = true → ∀ j, s'.book.before c j = true →
      j < s.book.count ∧ (s.book.record j).accepted = true)
    (hbarrier : p' = .waitUnlock → ∀ j, s'.book.before c j = true →
      (s.book.record j).finished = true) : ClientHas n c p' s' := by
  refine ⟨hholds, ?_, hwords, ?_, ?_, htarget, ?_, ?_, ?_, ?_, ?_⟩
  · rw [hsame.place, hc.cell]
    exact h.cell
  · intro function arg b j hcall hb hj
    rw [hsame.occupant] at hj
    rw [hsame.record]
    rcases hc.call with hsamecall | hnone | hnone
    · rw [hsamecall] at hcall
      rw [hc.cell] at hb
      exact h.named function arg b j hcall hb hj
    · rw [hnone] at hb
      cases hb
    · rw [hnone] at hcall
      cases hcall
  · rw [hc.cell, hsame.machine, hsame.occupant, hsame.record]
    exact fun hp => h.written (hc.written hp)
  · intro b v hb
    rw [hsame.place]
    rcases hc.linked with hnone | hlinked
    · rw [hnone] at hb
      cases hb
    · rw [hlinked] at hb
      exact h.linked b v hb
  · intro v b j hv hb hj
    rw [hsame.place] at hb
    rw [hsame.occupant] at hj
    rw [hsame.record]
    exact Or.inl (hheld v hv b j hb hj)
  · intro b j hb
    rw [hc.uncounted] at hb
    cases hb
  · rw [hsame.count, hsame.record]
    exact hbefore
  · rw [hsame.record]
    exact hbarrier

-- ================================================================= moves

/-- A client links the cell it has written into a queue. -/
theorem ClientHas.link (h : ClientHas n c (.link a v) s) (hs : Sound n s)
    (hv : v < n) : ∃ i, s.book.occupant a = some i
      ∧ (s.book.record i).counted = false
      ∧ TaskMove n (.client c) s (s.appended a v) a i (.queue v)
        { s.book.record i with linked := true } := by
  have hplace := (h.cell a).mpr rfl
  have hne : s.book.place a ≠ .free := by
    rw [hplace]
    nofun
  obtain ⟨i, hi⟩ := hs.booked.occupied a hne
  obtain ⟨hlt, hcell⟩ := hs.booked.cell a i hi
  have hunlinked : (s.book.record i).linked = false := by
    have hsuits := hs.booked.suits a i hi
    rw [hplace] at hsuits
    exact hsuits
  have hord := hs.booked.ordered i hlt
  have huncounted : (s.book.record i).counted = false := by
    by_contra hcounted
    rw [hord.linked (Bool.not_eq_false _ ▸ hcounted)] at hunlinked
    cases hunlinked
  have htaker : (s.book.record i).taker = none := by
    by_contra htaker
    rw [hord.taken htaker] at huncounted
    cases huncounted
  obtain ⟨hnext, hfilled⟩ := h.written rfl a rfl
  obtain ⟨q, hq⟩ := hs.stored
  have howner : s.sync.owner (.queue v) = some (.client c) := h.holds.owner
  have hadv : Advance s.book (s.appended a v).book a i (.queue v)
      { s.book.record i with linked := true } := by
    rw [s.appended_book]
    exact .moveModify hi _ _
  have hsync := s.appended_sync a v
  have hlow : ∀ b, s.book.place b ≠ .free →
      s.machine.mem.Agree (s.appended a v).machine.mem b 16 :=
    fun b hb => hq.appended_agree hb (i := 0) (by decide) (Or.inl (by decide))
  refine ⟨i, hi, huncounted, ?_⟩
  exact {
    advance := hadv
    task := hlt
    cell := hcell
    cell' := hcell
    ordered := ⟨fun _ => rfl, hord.counted, hord.taken, hord.called,
      hord.finished, hord.uncounted⟩
    later := ⟨id, id, id⟩
    owner := Or.inl ⟨by rw [hplace]; rfl, hi, Or.inr howner⟩
    freed := nofun
    suits := fun _ => ⟨rfl, htaker⟩
    taker := by
      intro w _
      rw [htaker]
      exact ⟨nofun, nofun⟩
    stored := ⟨_, hq.link hplace hnext⟩
    active := by
      rw [hadv.active rfl, ← hs.active]
      unfold Shared.appended
      split
      · rfl
      · rfl
    others := by
      intro b hb hnot
      refine hq.appended_agree hb (i := 0) (by decide) (Or.inr ?_)
      intro x hx hxb
      subst hxb
      rw [(hq.queued v x).mp (List.mem_of_getLast? hx)] at hnot
      exact hnot howner
    kept := fun b hb _ => hlow b hb
    filled := fun _ _ _ => (hfilled i hi).congr (hlow a hne) rfl rfl
    sync := by
      intro u _
      rw [hsync]
      exact .of_owner rfl u
    counted := by
      intro v' c' hc'
      rw [hsync]
      exact Or.inr ⟨c', hc'⟩
    range := by
      intro v' hv'
      cases hv'
      rw [hsync]
      exact Or.inr ⟨hv, c, howner⟩ }

/-- A client changes the record of a task in the queue whose mutex it has. -/
theorem Sound.touchQueued (hs : Sound n s) (s' : Shared)
    (hplace : s.book.place a = .queue v)
    (howner : s.sync.owner (.queue v) = some (.client c))
    (hi : s.book.occupant a = some i) {r : TaskRecord}
    (hadv : Advance s.book s'.book a i (s.book.place a) r)
    (hcell' : r.cell = a) (htaker : r.taker = none) (hlinked : r.linked = true)
    (hwords : r.function = (s.book.record i).function
      ∧ r.arg = (s.book.record i).arg)
    (hordered : r.Ordered) (hlater : (s.book.record i).Later r)
    (hmachine : s'.machine = s.machine) (hpool : s'.taskPool = s.taskPool)
    (hworkers : s'.workers = s.workers)
    (hactive : s'.activeTasks = s'.book.active)
    (hsync : ∀ u, u ≠ .client c → Sync.SameFor u s.sync s'.sync)
    (hcounted : ∀ v c, s.sync.owner (.queue v) = some (.client c) →
      s'.AllCounted v ∨ ∃ c, s'.sync.owner (.queue v) = some (.client c)) :
    TaskMove n (.client c) s s' a i (s.book.place a) r := by
  have hne : s.book.place a ≠ .free := by
    rw [hplace]
    nofun
  obtain ⟨hlt, hcell⟩ := hs.booked.cell a i hi
  have hsuits := hs.booked.suits a i hi
  have hown : s.Controls (.client c) (s.book.place a) := by
    rw [hplace]
    exact howner
  rw [hplace] at hsuits
  obtain ⟨q, hq⟩ := hs.stored
  exact {
    advance := hadv
    task := hlt
    cell := hcell
    cell' := hcell'
    ordered := hordered
    later := hlater
    owner := Or.inl ⟨hown, hi, Or.inr hown⟩
    freed := fun hfree => absurd hfree hne
    suits := by
      intro _
      rw [hplace]
      exact ⟨hlinked, htaker⟩
    taker := by
      intro w _
      rw [hsuits.2, htaker]
      exact ⟨nofun, nofun⟩
    stored := by
      refine ⟨q, hq.congr hmachine hpool ?_ ?_ ?_⟩
      · rw [hworkers]
        exact fun _ => rfl
      · rw [hworkers]
        exact fun _ => rfl
      · rw [hadv.place, Function.update_eq_self]
    active := hactive
    others := by
      intro _ _ _
      rw [hmachine]
      exact fun _ _ _ => rfl
    kept := by
      intro _ _ _
      rw [hmachine]
      exact fun _ _ _ => rfl
    filled := by
      intro _ _ _
      rw [hmachine]
      exact (hs.filled a i hne hi hsuits.1).congr (fun _ _ _ => rfl) hwords.1
        hwords.2
    sync := hsync
    counted := hcounted
    range := fun v hv => Or.inl hv }

/-- A client counts the task it has linked. -/
theorem ClientHas.countIn (h : ClientHas n c (.addActive a v) s)
    (hs : Sound n s) : ∃ i, s.book.occupant a = some i
      ∧ TaskMove n (.client c) s { s with
        activeTasks := s.activeTasks + 1, book := s.book.countIn a } a i
        (s.book.place a) { s.book.record i with counted := true } := by
  have hplace := h.linked a v rfl
  have hne : s.book.place a ≠ .free := by
    rw [hplace]
    nofun
  obtain ⟨i, hi⟩ := hs.booked.occupied a hne
  obtain ⟨hlt, hcell⟩ := hs.booked.cell a i hi
  have hsuits := hs.booked.suits a i hi
  rw [hplace] at hsuits
  have huncounted := h.uncounted a i rfl hi
  have hord := hs.booked.ordered i hlt
  have hactive : (s.book.record i).active = false := by
    unfold TaskRecord.active
    rw [huncounted]
    rfl
  have hopen : (s.book.record i).uncounted = false := by
    by_contra hun
    have hfin := hord.uncounted (Bool.not_eq_false _ ▸ hun)
    exact (hord.finished hfin).1 hsuits.2
  have hadv : Advance s.book (s.book.countIn a) a i (s.book.place a)
      { s.book.record i with counted := true } := .modifyAt hi _
  refine ⟨i, hi, hs.touchQueued { s with
      activeTasks := s.activeTasks + 1, book := s.book.countIn a } hplace
    h.holds.owner hi hadv hcell hsuits.2
    hsuits.1 ⟨rfl, rfl⟩ ?_ ⟨fun _ => rfl, id, id⟩ rfl rfl rfl ?_
    (fun u _ => .of_owner rfl u) fun v c hc => Or.inr ⟨c, hc⟩⟩
  · exact ⟨fun _ => hsuits.1, fun _ => rfl, fun _ => rfl, hord.called,
      hord.finished, hord.uncounted⟩
  · have hcount : (s.book.countIn a).active = s.book.active + 1 := by
      apply hadv.active_in hlt hactive
      unfold TaskRecord.active
      rw [hopen]
      rfl
    show s.activeTasks + 1 = (s.book.countIn a).active
    rw [hcount, hs.active]

/-- A client releases the queue it has linked and counted a task in. -/
theorem ClientHas.accept (h : ClientHas n c (.queueUnlock a v) s)
    (hs : Sound n s) : ∃ i, s.book.occupant a = some i
      ∧ TaskMove n (.client c) s { s with
        sync := s.sync.unlock (.queue v), book := s.book.accept a } a i
        (s.book.place a) { s.book.record i with accepted := true } := by
  have hplace := h.linked a v rfl
  have hne : s.book.place a ≠ .free := by
    rw [hplace]
    nofun
  obtain ⟨i, hi⟩ := hs.booked.occupied a hne
  obtain ⟨hlt, hcell⟩ := hs.booked.cell a i hi
  have hsuits := hs.booked.suits a i hi
  rw [hplace] at hsuits
  have hall : s.AllCounted v := by
    intro b j hb hj
    rcases h.counted v b j rfl hb hj with hcounted | hnone
    · exact hcounted
    · cases hnone
  have hcounted := hall a i hplace hi
  have hord := hs.booked.ordered i hlt
  have hadv : Advance s.book (s.book.accept a) a i (s.book.place a)
      { s.book.record i with accepted := true } := .modifyAt hi _
  have howner : s.sync.owner (.queue v) = some (.client c) := h.holds.owner
  refine ⟨i, hi, hs.touchQueued { s with
      sync := s.sync.unlock (.queue v), book := s.book.accept a } hplace howner
    hi hadv hcell hsuits.2 hsuits.1 ⟨rfl, rfl⟩ ?_ ⟨id, fun _ => rfl, id⟩ rfl rfl
    rfl (hs.active.trans (hadv.active rfl).symm)
    (fun u hu => .release howner hu rfl) ?_⟩
  · exact ⟨hord.linked, fun _ => hcounted, hord.taken, hord.called,
      hord.finished, hord.uncounted⟩
  · intro v' c' hc'
    by_cases hv' : v' = v
    · left
      subst hv'
      intro b j hb hj
      have hplace' : (s.book.accept a).place = s.book.place := by
        rw [hadv.place, Function.update_eq_self]
      have hb' : s.book.place b = .queue v' := by
        rw [← hplace']
        exact hb
      have hj' : s.book.occupant b = some j := by
        rw [← hadv.occupant]
        exact hj
      have hold := hall b j hb' hj'
      show ((s.book.accept a).record j).counted = true
      by_cases hji : j = i
      · subst hji
        rw [hadv.record_self]
        exact hold
      · rw [hadv.record_of_ne hji]
        exact hold
    · right
      refine ⟨c', ?_⟩
      show Function.update s.sync.owner (.queue v) none (.queue v') = _
      rw [Function.update_of_ne, hc']
      intro heq
      exact hv' (MutexId.queue.inj heq)

-- =================================================================== steps

/-- No request for memory was refused, and the pool is not freed. -/
def Shared.Intact (s : Shared) : Prop :=
  s.machine.refused = false ∧ s.freed = false

theorem ClientHas.allCounted (h : ClientHas n c p s)
    (hheld : p.held = some (.queue v)) (hp : p.uncounted = none) :
    s.AllCounted v := by
  intro b j hb hj
  rcases h.counted v b j hheld hb hj with hcounted | hsome
  · exact hcounted
  · rw [hp] at hsome
    cases hsome

theorem ClientRule.taskStep (hr : ClientRule n c s p p' s') (hs : Sound n s)
    (h : ClientHas n c p s) (hok : s'.Intact) : TaskStep n (.client c) s s' := by
  cases hr with
  | schedule => exact hs.still (.refl s) rfl rfl
  | wait =>
      refine hs.quiet ⟨rfl, rfl, fun _ => rfl, fun _ => rfl, rfl, rfl, rfl, rfl,
        rfl⟩ ?_ (fun u _ => .of_owner rfl u) hs.counted
      intro c' hc'
      have hne : c' ≠ c := fun heq => hc' (congrArg Thread.client heq.symm)
      show Function.update s.book.before c _ c' = _
      rw [Function.update_of_ne hne]
  | cleanup =>
      exact hs.still ⟨rfl, rfl, fun _ => rfl, fun _ => rfl, rfl, rfl, rfl, rfl,
        rfl⟩ rfl rfl
  | newLock hlock => exact hs.lock hlock
  | newGet hrun => exact hs.create hrun hok.1
  | newNone hrun =>
      obtain ⟨q, hq⟩ := hs.stored
      exact absurd rfl (hq.get hrun hok.1 0 0 c).1
  | newFail => exact hs.release h.holds.owner (.sync ..) rfl rfl nofun
  | newUnlock => exact hs.release h.holds.owner (.sync ..) rfl rfl nofun
  | @newInit function arg task m' hrun =>
      obtain ⟨hfunction, harg⟩ := h.words function arg rfl
      exact hs.write ((h.cell task).mpr rfl)
        (taskInit_written hfunction harg hrun)
  | scan => exact hs.still (.refl s) rfl rfl
  | scanned => exact hs.still (.refl s) rfl rfl
  | queueLock hlock => exact hs.lock hlock
  | link =>
      obtain ⟨i, -, -, hm⟩ := h.link hs (h.target _ rfl)
      exact hm.step hs
  | addActive =>
      obtain ⟨i, -, hm⟩ := h.countIn hs
      exact hm.step hs
  | addLength => exact hs.still (.setLength ..) rfl rfl
  | signal hsignal => exact hs.still (.sync ..) (Sync.signal_frame hsignal).1 rfl
  | queueUnlock =>
      obtain ⟨i, -, hm⟩ := h.accept hs
      exact hm.step hs
  | waitLock hlock => exact hs.lock hlock
  | waitOn => exact hs.still (.refl s) rfl rfl
  | waitStop => exact hs.still (.refl s) rfl rfl
  | waitSleep => exact hs.release h.holds.owner (.sync ..) rfl rfl nofun
  | spurious => exact hs.still (.sync ..) rfl rfl
  | relock _ hlock => exact hs.lock hlock
  | waitUnlock => exact hs.release h.holds.owner (.sync ..) rfl rfl nofun
  | cleanStore =>
      exact hs.still ⟨rfl, rfl, fun _ => rfl, fun _ => rfl, rfl, rfl, rfl, rfl,
        rfl⟩ rfl rfl
  | cleanLock _ hlock => exact hs.lock hlock
  | cleanEnd => exact hs.still (.refl s) rfl rfl
  | cleanSignal hsignal =>
      exact hs.still ⟨rfl, rfl, fun _ => rfl, fun _ => rfl, rfl, rfl, rfl, rfl,
        rfl⟩ (Sync.signal_frame hsignal).1 rfl
  | cleanUnlock =>
      refine hs.release h.holds.owner (.sync ..) rfl rfl ?_
      intro v c' hv _
      cases hv
      exact h.allCounted rfl rfl
  | cleanJoin => exact hs.still (.refl s) rfl rfl
  | cleanDestroy =>
      exact hs.still ⟨rfl, rfl, fun _ => rfl, fun _ => rfl, rfl, rfl, rfl, rfl,
        rfl⟩ rfl rfl
  | cleanFree => cases hok.2

/-- When no task is counted, those that were accepted are finished. -/
theorem Sound.finished (hs : Sound n s) (hzero : s.activeTasks = 0) {j : Nat}
    (hj : j < s.book.count) (hacc : (s.book.record j).accepted = true) :
    (s.book.record j).finished = true := by
  have hord := hs.booked.ordered j hj
  have hempty := hs.active.symm.trans hzero
  unfold Book.active at hempty
  rw [Finset.card_eq_zero, Finset.filter_eq_empty_iff] at hempty
  have hinactive := hempty (Finset.mem_range.mpr hj)
  unfold TaskRecord.active at hinactive
  rw [hord.counted hacc] at hinactive
  apply hord.uncounted
  cases hun : (s.book.record j).uncounted with
  | true => rfl
  | false =>
      rw [hun] at hinactive
      exact absurd rfl hinactive

-- ============================================== knowledge after a step

/-- Between calls, in `cx_threadpool_wait` and `cx_threadpool_cleanup` a
client has no task of its own. -/
def ClientPc.plain : ClientPc → Bool
  | .idle => true
  | .waitLock => true
  | .waitTest => true
  | .waitSleep => true
  | .blocked => true
  | .waitUnlock => true
  | .cleanStore => true
  | .cleanLock _ => true
  | .cleanSignal _ => true
  | .cleanUnlock _ => true
  | .cleanJoin _ => true
  | .cleanDestroy _ => true
  | .cleanFree => true
  | _ => false

theorem ClientPc.plain_cases (h : p.plain = true) :
    p.cell = none ∧ p.call = none ∧ p.written = false ∧ p.target = none
      ∧ p.linked = none ∧ p.uncounted = none := by
  cases p with
  | newLock => cases h
  | newGet => cases h
  | newUnlock => cases h
  | newInit => cases h
  | scan => cases h
  | queueLock => cases h
  | link => cases h
  | addActive => cases h
  | addLength => cases h
  | signal => cases h
  | queueUnlock => cases h
  | _ => exact ⟨rfl, rfl, rfl, rfl, rfl, rfl⟩

theorem ClientHas.plain (h : ClientHas n c p s) (hcell : p.cell = none)
    (hp' : p'.plain = true) (hsame : SameTasks s s')
    (hholds : s'.sync.Holds (.client c) p'.held)
    (hheld : ∀ v, p'.held = some (.queue v) → s.AllCounted v)
    (hbefore : p'.waiting = true → ∀ j, s'.book.before c j = true →
      j < s.book.count ∧ (s.book.record j).accepted = true)
    (hbarrier : p' = .waitUnlock → ∀ j, s'.book.before c j = true →
      (s.book.record j).finished = true) : ClientHas n c p' s' := by
  obtain ⟨hcell', hcall', hwritten', htarget', hlinked', huncounted'⟩ :=
    ClientPc.plain_cases hp'
  refine h.carry ⟨hcell'.trans hcell.symm, Or.inr (Or.inl hcell'), ?_,
    Or.inl hlinked', huncounted'⟩ hsame hholds ?_ ?_ hheld hbefore hbarrier
  · rw [hwritten']
    nofun
  · rw [hcall']
    nofun
  · rw [htarget']
    nofun

/-- A scheduler goes on with what it has. -/
theorem ClientHas.onward (h : ClientHas n c p s) (hc : p.Carries p')
    (hsame : SameTasks s s') (hholds : s'.sync.Holds (.client c) p'.held)
    (hcall : p'.call = p.call ∨ p'.call = none)
    (htarget : ∀ v, p'.target = some v → v < n)
    (hheld : ∀ v, p'.held = some (.queue v) → s.AllCounted v)
    (hwaiting : p'.waiting = false) : ClientHas n c p' s' := by
  refine h.carry hc hsame hholds ?_ htarget hheld ?_ ?_
  · rcases hcall with hcall | hcall
    · rw [hcall]
      exact h.words
    · rw [hcall]
      nofun
  · rw [hwaiting]
    nofun
  · intro hp'
    rw [hp'] at hwaiting
    cases hwaiting

/-- A client that holds the cell of a new task. -/
theorem ClientHas.got (h : ClientHas n c p s) {function arg : Nat}
    (hcall : p.call = some (function, arg)) (hcell : p.cell = none)
    {m' : Machine} {taskPool : CxPreallocPool} (ha : a ≠ 0)
    (hholds : s.sync.Holds (.client c) (some .taskPool)) :
    ClientHas n c (.newUnlock function arg a) { s with
      machine := m', taskPool := taskPool
      book := s.book.create a function arg c } := by
  have hcell' : (ClientPc.newUnlock function arg a).cell = some a := if_neg ha
  have hocc : (s.book.create a function arg c).occupant a
      = some s.book.count := Function.update_self ..
  have hnew : (s.book.create a function arg c).record s.book.count
      = ⟨function, arg, a, false, false, false, none, [], false, false⟩ :=
    Function.update_self ..
  refine ⟨hholds, ?_, ?_, ?_, nofun, nofun, nofun, nofun, nofun, nofun, nofun⟩
  · intro b
    rw [hcell']
    show Function.update s.book.place a _ b = _ ↔ _
    by_cases hb : b = a
    · rw [hb, Function.update_self]
      exact iff_of_true rfl rfl
    · rw [Function.update_of_ne hb, h.cell, hcell]
      refine iff_of_false nofun ?_
      intro heq
      exact hb (Option.some.inj heq).symm
  · intro function' arg' heq
    cases heq
    exact h.words function arg hcall
  · intro function' arg' b j heq hb hj
    cases heq
    rw [hcell'] at hb
    cases hb
    have hj' : (s.book.create a function arg c).occupant a = some j := hj
    rw [hocc] at hj'
    cases hj'
    show ((s.book.create a function arg c).record s.book.count).function = _ ∧ _
    rw [hnew]
    exact ⟨rfl, rfl⟩

/-- A client that has written its cell. -/
theorem ClientHas.wrote {function arg : Nat}
    (h : ClientHas n c (.newInit function arg a) s) {m' : Machine} {len : Nat}
    (hw : Written s.machine m' a function arg)
    (hholds : s.sync.Holds (.client c) none) :
    ClientHas n c (.scan a 0 none len) { s with machine := m' } := by
  refine ⟨hholds, h.cell, nofun, nofun, ?_, nofun, nofun, nofun, nofun, nofun,
    nofun⟩
  intro _ b hb
  cases hb
  refine ⟨hw.next, ?_⟩
  intro j hj
  obtain ⟨hfunction, harg⟩ := h.named function arg a j rfl rfl hj
  exact ⟨hw.function.trans hfunction.symm, hw.arg.trans harg.symm⟩

/-- A client that has linked its cell. -/
theorem ClientHas.put (h : ClientHas n c (.link a v) s)
    (hi : s.book.occupant a = some i)
    (huncounted : (s.book.record i).counted = false)
    (hm : TaskMove n (.client c) s s' a i (.queue v)
      { s.book.record i with linked := true })
    (hholds : s'.sync.Holds (.client c) (some (.queue v))) :
    ClientHas n c (.addActive a v) s' := by
  have hadv := hm.advance
  refine ⟨hholds, ?_, nofun, nofun, nofun, nofun, ?_, ?_, ?_, nofun, nofun⟩
  · intro b
    by_cases hb : b = a
    · rw [hb, hadv.place_self]
      exact iff_of_false nofun nofun
    · rw [hadv.place_of_ne hb, h.cell]
      refine iff_of_false ?_ nofun
      intro heq
      exact hb (Option.some.inj heq).symm
  · intro b v' heq
    cases heq
    exact hadv.place_self
  · intro v' b j hv' hb hj
    cases hv'
    rw [hadv.occupant] at hj
    by_cases hba : b = a
    · exact Or.inr (congrArg some hba.symm)
    · left
      rw [hadv.place_of_ne hba] at hb
      have hold := h.allCounted rfl rfl b j hb hj
      by_cases hji : j = i
      · rw [hji, huncounted] at hold
        cases hold
      · rw [hadv.record_of_ne hji]
        exact hold
  · intro b j hb hj
    cases hb
    rw [hadv.occupant, hi] at hj
    cases hj
    rw [hadv.record_self]
    exact huncounted

/-- A client that has counted its task. -/
theorem ClientHas.counted_in (h : ClientHas n c (.addActive a v) s)
    (hi : s.book.occupant a = some i)
    (hm : TaskMove n (.client c) s s' a i (s.book.place a)
      { s.book.record i with counted := true })
    (hholds : s'.sync.Holds (.client c) (some (.queue v))) :
    ClientHas n c (.addLength a v) s' := by
  have hadv := hm.advance
  have hplace : s'.book.place = s.book.place := by
    rw [hadv.place, Function.update_eq_self]
  refine ⟨hholds, ?_, nofun, nofun, nofun, nofun, ?_, ?_, nofun, nofun, nofun⟩
  · rw [hplace]
    exact h.cell
  · rw [hplace]
    exact h.linked
  · intro v' b j hv' hb hj
    left
    rw [hplace] at hb
    rw [hadv.occupant] at hj
    by_cases hji : j = i
    · rw [hji, hadv.record_self]
    · rw [hadv.record_of_ne hji]
      rcases h.counted v' b j hv' hb hj with hcounted | hsome
      · exact hcounted
      · cases hsome
        rw [hi] at hj
        exact absurd (Option.some.inj hj).symm hji

/-- A client that returns from `cx_threadpool_schedule`. -/
theorem ClientHas.returned (h : ClientHas n c (.queueUnlock a v) s)
    (hm : TaskMove n (.client c) s s' a i (s.book.place a)
      { s.book.record i with accepted := true })
    (hholds : s'.sync.Holds (.client c) none) : ClientHas n c .idle s' := by
  refine ⟨hholds, ?_, nofun, nofun, nofun, nofun, nofun, nofun, nofun, nofun,
    nofun⟩
  rw [hm.advance.place, Function.update_eq_self]
  exact h.cell

/-- A queue whose mutex is free has only counted tasks. -/
theorem Sound.allCounted_of_lock (hs : Sound n s)
    (hlock : s.lock (.queue v) t = some s') : s.AllCounted v := by
  obtain ⟨-, y, hy, -⟩ := Shared.lock_cases hlock
  obtain ⟨hfree, -⟩ := Sync.lock_cases hy
  rcases hs.counted v with hall | ⟨c, hc⟩
  · exact hall
  · rw [hfree] at hc
    cases hc

theorem ClientRule.has (hr : ClientRule n c s p p' s') (hs : Sound n s)
    (h : ClientHas n c p s) (hok : s'.Intact) : ClientHas n c p' s' := by
  have hholds := (hr.lockStep h.holds).holds
  have hlocked : ∀ {m}, s.lock m (.client c) = some s' → SameTasks s s'
      ∧ s'.book.before = s.book.before := by
    intro m hlock
    obtain ⟨-, y, -, rfl⟩ := Shared.lock_cases hlock
    exact ⟨.sync s y, rfl⟩
  cases hr with
  | schedule hfunction harg =>
      refine h.carry ⟨rfl, Or.inr (Or.inl rfl), nofun, Or.inl rfl, rfl⟩ (.refl s)
        hholds ?_ nofun nofun nofun nofun
      intro function arg heq
      cases heq
      exact ⟨hfunction, harg⟩
  | wait =>
      have hsame : SameTasks s { s with book := s.book.beginWait c } :=
        ⟨rfl, rfl, fun _ => rfl, fun _ => rfl, rfl, rfl, rfl, rfl, rfl⟩
      refine h.plain rfl rfl hsame hholds nofun ?_ nofun
      intro _ j hj
      have hj' : (Function.update s.book.before c (fun t =>
          decide (t < s.book.count) && (s.book.record t).accepted)) c j
          = true := hj
      rw [Function.update_self, Bool.and_eq_true, decide_eq_true_iff] at hj'
      exact hj'
  | cleanup =>
      exact h.plain rfl rfl ⟨rfl, rfl, fun _ => rfl, fun _ => rfl, rfl, rfl, rfl,
        rfl, rfl⟩ hholds nofun nofun nofun
  | newLock hlock =>
      exact h.onward ⟨rfl, Or.inl rfl, nofun, Or.inl rfl, rfl⟩
        (hlocked hlock).1 hholds (Or.inl rfl) nofun nofun rfl
  | newGet hrun htask => exact h.got rfl rfl htask h.holds
  | newNone hrun =>
      obtain ⟨q, hq⟩ := hs.stored
      exact absurd rfl (hq.get hrun hok.1 0 0 c).1
  | newFail => exact h.plain rfl rfl (.sync ..) hholds nofun nofun nofun
  | newUnlock htask =>
      refine h.onward ⟨?_, Or.inl rfl, nofun, Or.inl rfl, rfl⟩ (.sync ..) hholds
        (Or.inl rfl) nofun nofun rfl
      exact (if_neg htask).symm
  | @newInit function arg task m' hrun =>
      obtain ⟨hfunction, harg⟩ := h.words function arg rfl
      exact h.wrote (taskInit_written hfunction harg hrun) hholds
  | @scan task i i' worker worker' len len' _ hi hworker =>
      refine h.onward ⟨rfl, Or.inl rfl, id, Or.inl rfl, rfl⟩ (.refl s) hholds
        (Or.inl rfl) ?_ nofun rfl
      intro v hv
      have hv' : worker' = some v := hv
      rcases hworker with hw | hw
      · rw [hw] at hv'
        cases hv'
        exact hi
      · rw [hw] at hv'
        exact h.target v hv'
  | @scanned task i v len =>
      refine h.onward ⟨rfl, Or.inl rfl, id, Or.inl rfl, rfl⟩ (.refl s) hholds
        (Or.inl rfl) ?_ nofun rfl
      exact h.target
  | queueLock hlock =>
      refine h.onward ⟨rfl, Or.inl rfl, id, Or.inl rfl, rfl⟩ (hlocked hlock).1
        hholds (Or.inl rfl) h.target ?_ rfl
      intro v' hv'
      cases hv'
      exact hs.allCounted_of_lock hlock
  | link =>
      obtain ⟨i, hi, huncounted, hm⟩ := h.link hs (h.target _ rfl)
      exact h.put hi huncounted hm hholds
  | addActive =>
      obtain ⟨i, hi, hm⟩ := h.countIn hs
      exact h.counted_in hi hm hholds
  | addLength =>
      refine h.onward ⟨rfl, Or.inl rfl, nofun, Or.inr rfl, rfl⟩ (.setLength ..)
        hholds (Or.inl rfl) nofun ?_ rfl
      intro v' hv'
      exact h.allCounted hv' rfl
  | signal hsignal =>
      refine h.onward ⟨rfl, Or.inl rfl, nofun, Or.inr rfl, rfl⟩ (.sync ..)
        hholds (Or.inl rfl) nofun ?_ rfl
      intro v' hv'
      exact h.allCounted hv' rfl
  | queueUnlock =>
      obtain ⟨i, -, hm⟩ := h.accept hs
      exact h.returned hm hholds
  | waitLock hlock =>
      obtain ⟨hsame, hbefore⟩ := hlocked hlock
      refine h.plain rfl rfl hsame hholds nofun ?_ nofun
      rw [hbefore]
      exact fun _ => h.before rfl
  | waitOn =>
      exact h.plain rfl rfl (.refl s) hholds nofun (fun _ => h.before rfl) nofun
  | waitStop hzero =>
      refine h.plain rfl rfl (.refl s) hholds nofun (fun _ => h.before rfl) ?_
      intro _ j hj
      obtain ⟨hlt, hacc⟩ := h.before rfl j hj
      exact hs.finished hzero hlt hacc
  | waitSleep =>
      exact h.plain rfl rfl (.sync ..) hholds nofun (fun _ => h.before rfl) nofun
  | spurious =>
      exact h.plain rfl rfl (.sync ..) hholds nofun (fun _ => h.before rfl) nofun
  | relock _ hlock =>
      obtain ⟨hsame, hbefore⟩ := hlocked hlock
      refine h.plain rfl rfl hsame hholds nofun ?_ nofun
      rw [hbefore]
      exact fun _ => h.before rfl
  | waitUnlock => exact h.plain rfl rfl (.sync ..) hholds nofun nofun nofun
  | cleanStore =>
      exact h.plain rfl rfl ⟨rfl, rfl, fun _ => rfl, fun _ => rfl, rfl, rfl, rfl,
        rfl, rfl⟩ hholds nofun nofun nofun
  | cleanLock _ hlock =>
      refine h.plain rfl rfl (hlocked hlock).1 hholds ?_ nofun nofun
      intro v hv
      cases hv
      exact hs.allCounted_of_lock hlock
  | cleanEnd => exact h.plain rfl rfl (.refl s) hholds nofun nofun nofun
  | cleanSignal =>
      refine h.plain rfl rfl ⟨rfl, rfl, fun _ => rfl, fun _ => rfl, rfl, rfl, rfl,
        rfl, rfl⟩ hholds ?_ nofun nofun
      intro v hv
      exact h.allCounted hv rfl
  | cleanUnlock => exact h.plain rfl rfl (.sync ..) hholds nofun nofun nofun
  | cleanJoin => exact h.plain rfl rfl (.refl s) hholds nofun nofun nofun
  | cleanDestroy =>
      exact h.plain rfl rfl ⟨rfl, rfl, fun _ => rfl, fun _ => rfl, rfl, rfl, rfl,
        rfl, rfl⟩ hholds nofun nofun nofun
  | cleanFree => cases hok.2

end Cextras.Concurrency
