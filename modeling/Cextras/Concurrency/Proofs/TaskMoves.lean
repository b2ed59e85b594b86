/-
What holds of the tasks between any two steps (`Sound`), what a thread may
rely on while others move (`TaskRely`), and the moves that keep both: one
that leaves the tasks alone, one that changes the place or the record of
one task (`TaskMove`), and the hand-out and the writing of a new cell.
A thread has to itself the cells it holds and those in a queue whose mutex
it has (`Controls`).
-/
import Cextras.Concurrency.Proofs.PoolLocks
import Cextras.Concurrency.Proofs.TaskBook
import Cextras.Concurrency.Proofs.TaskCells

namespace Cextras.Concurrency

open Lib Memory

variable {n a j v : Nat} {s s' : Shared} {t u : Thread} {p : Place}
  {r : TaskRecord} {m : MutexId}

-- ============================================================= invariants

/-- The thread has the cells in this place to itself. -/
def Shared.Controls (s : Shared) (u : Thread) : Place → Prop
  | .free => False
  | .thread t => t = u
  | .queue v => s.sync.owner (.queue v) = some u

theorem Shared.Controls.unique (h : s.Controls t p) (h' : s.Controls u p) :
    t = u := by
  cases p with
  | free => exact h.elim
  | thread x => exact Eq.trans (Eq.symm h) h'
  | queue v => exact Option.some.inj (Eq.trans (Eq.symm h) h')

theorem Shared.Controls.ne_free (h : s.Controls t p) : p ≠ .free := by
  intro hp
  subst hp
  exact h

/-- All tasks in a queue are counted. -/
def Shared.AllCounted (s : Shared) (v : Nat) : Prop :=
  ∀ b i, s.book.place b = .queue v → s.book.occupant b = some i →
    (s.book.record i).counted = true

structure Sound (n : Nat) (s : Shared) : Prop where
  stored : ∃ q, Stored s q
  booked : Booked s.book
  filled : ∀ b i, s.book.place b ≠ .free → s.book.occupant b = some i →
    (s.book.record i).linked = true →
    Filled s.machine.mem b (s.book.record i)
  /-- only a scheduler that has the mutex has tasks to count -/
  counted : ∀ v, s.AllCounted v
    ∨ ∃ c, s.sync.owner (.queue v) = some (.client c)
  range : ∀ b v, s.book.place b = .queue v → v < n
  active : s.activeTasks = s.book.active

structure TaskRely (u : Thread) (s s' : Shared) : Prop where
  same : Sync.SameFor u s.sync s'.sync
  place : ∀ b, s.Controls u (s.book.place b) ∨ s.Controls u (s'.book.place b) →
    s'.book.place b = s.book.place b
  cell : ∀ b, s.Controls u (s.book.place b) →
    s'.book.occupant b = s.book.occupant b
      ∧ (∀ i, s.book.occupant b = some i →
        s'.book.record i = s.book.record i)
      ∧ s.machine.mem.Agree s'.machine.mem b taskSize
  taken : ∀ w i, u = .worker w → i < s.book.count →
    (s.book.record i).taker = some w → s'.book.record i = s.book.record i
  untaken : ∀ w i, u = .worker w → i < s'.book.count →
    (s'.book.record i).taker = some w →
    i < s.book.count ∧ (s.book.record i).taker = some w
  later : ∀ i < s.book.count, (s.book.record i).Later (s'.book.record i)
  count : s.book.count ≤ s'.book.count
  before : ∀ c, u = .client c → s'.book.before c = s.book.before c

structure TaskStep (n : Nat) (t : Thread) (s s' : Shared) : Prop where
  sound : Sound n s'
  rely : ∀ u, u ≠ t → TaskRely u s s'

-- ============================================================ quiet moves

/-- The tasks are as they were. -/
structure SameTasks (s s' : Shared) : Prop where
  machine : s'.machine = s.machine
  taskPool : s'.taskPool = s.taskPool
  head : ∀ v, (s'.workers v).head = (s.workers v).head
  tail : ∀ v, (s'.workers v).tail = (s.workers v).tail
  active : s'.activeTasks = s.activeTasks
  count : s'.book.count = s.book.count
  record : s'.book.record = s.book.record
  occupant : s'.book.occupant = s.book.occupant
  place : s'.book.place = s.book.place

theorem SameTasks.refl (s : Shared) : SameTasks s s :=
  ⟨rfl, rfl, fun _ => rfl, fun _ => rfl, rfl, rfl, rfl, rfl, rfl⟩

theorem SameTasks.sync (s : Shared) (y : Sync MutexId CondId Thread) :
    SameTasks s { s with sync := y } :=
  ⟨rfl, rfl, fun _ => rfl, fun _ => rfl, rfl, rfl, rfl, rfl, rfl⟩

theorem SameTasks.setLength (s : Shared) (v k : Nat) :
    SameTasks s (s.setLength v k) := by
  refine ⟨rfl, rfl, ?_, ?_, rfl, rfl, rfl, rfl, rfl⟩
  · intro u
    show (Function.update s.workers v _ u).head = _
    by_cases hu : u = v
    · rw [hu, Function.update_self]
    · rw [Function.update_of_ne hu]
  · intro u
    show (Function.update s.workers v _ u).tail = _
    by_cases hu : u = v
    · rw [hu, Function.update_self]
    · rw [Function.update_of_ne hu]

theorem SameTasks.allCounted (h : SameTasks s s') :
    s'.AllCounted v ↔ s.AllCounted v := by
  unfold Shared.AllCounted
  rw [h.place, h.occupant, h.record]

theorem Sound.quiet (h : Sound n s) (hsame : SameTasks s s')
    (hbefore : ∀ c, t ≠ .client c → s'.book.before c = s.book.before c)
    (hsync : ∀ u, u ≠ t → Sync.SameFor u s.sync s'.sync)
    (hcounted : ∀ v, s.AllCounted v
      ∨ ∃ c, s'.sync.owner (.queue v) = some (.client c)) :
    TaskStep n t s s' := by
  refine ⟨⟨?_, ?_, ?_, ?_, ?_, ?_⟩, ?_⟩
  · obtain ⟨q, hq⟩ := h.stored
    exact ⟨q, hq.congr hsame.machine hsame.taskPool hsame.head hsame.tail
      hsame.place⟩
  · have hb := h.booked
    refine ⟨?_, ?_, ?_, ?_, ?_, ?_⟩
    · rw [hsame.count, hsame.record]
      exact hb.ordered
    · rw [hsame.place, hsame.occupant]
      exact hb.occupied
    · rw [hsame.count, hsame.record, hsame.occupant]
      exact hb.cell
    · rw [hsame.count, hsame.record, hsame.occupant]
      exact hb.latest
    · rw [hsame.count, hsame.record, hsame.occupant, hsame.place]
      exact hb.current
    · rw [hsame.record, hsame.occupant, hsame.place]
      exact hb.suits
  · rw [hsame.place, hsame.occupant, hsame.record, hsame.machine]
    exact h.filled
  · intro v
    rw [hsame.allCounted]
    exact hcounted v
  · rw [hsame.place]
    exact h.range
  · rw [hsame.active, h.active]
    unfold Book.active
    rw [hsame.count, hsame.record]
  · intro u hu
    refine ⟨hsync u hu, ?_, ?_, ?_, ?_, ?_, ?_, ?_⟩
    · intro b _
      rw [hsame.place]
    · intro b _
      rw [hsame.occupant, hsame.record, hsame.machine]
      exact ⟨rfl, fun _ _ => rfl, fun _ _ _ => rfl⟩
    · intro w i _ _ _
      rw [hsame.record]
    · intro w i _ hi htaker
      rw [hsame.count] at hi
      rw [hsame.record] at htaker
      exact ⟨hi, htaker⟩
    · intro i _
      rw [hsame.record]
      exact .refl _
    · rw [hsame.count]
    · intro c hc
      apply hbefore
      intro ht
      exact hu (hc.trans ht.symm)

theorem Sound.still (h : Sound n s) (hsame : SameTasks s s')
    (howner : s'.sync.owner = s.sync.owner)
    (hbefore : s'.book.before = s.book.before) : TaskStep n t s s' := by
  refine h.quiet hsame (fun c _ => ?_) (fun u _ => .of_owner howner u) ?_
  · rw [hbefore]
  · rw [howner]
    exact h.counted

theorem Sound.lock (h : Sound n s) (hrun : s.lock m t = some s') :
    TaskStep n t s s' := by
  obtain ⟨-, y, hy, rfl⟩ := Shared.lock_cases hrun
  refine h.quiet (.sync s y) (fun _ _ => rfl) (fun u hu => .lock hy hu) ?_
  intro v
  obtain ⟨hfree, rfl⟩ := Sync.lock_cases hy
  rcases h.counted v with hall | ⟨c, hc⟩
  · exact Or.inl hall
  · right
    refine ⟨c, ?_⟩
    show Function.update s.sync.owner m (some t) (.queue v) = _
    rw [Function.update_of_ne, hc]
    intro heq
    rw [heq, hfree] at hc
    cases hc

theorem Sound.release (h : Sound n s) (howner : s.sync.owner m = some t)
    (hsame : SameTasks s s') (hbefore : s'.book.before = s.book.before)
    (howner' : s'.sync.owner = Function.update s.sync.owner m none)
    (hcounted : ∀ v c, m = .queue v → t = .client c → s.AllCounted v) :
    TaskStep n t s s' := by
  refine h.quiet hsame (fun c _ => by rw [hbefore])
    (fun u hu => .release howner hu howner') ?_
  intro v
  rcases h.counted v with hall | ⟨c, hc⟩
  · exact Or.inl hall
  · by_cases hm : MutexId.queue v = m
    · left
      refine hcounted v c hm.symm ?_
      rw [← hm, hc] at howner
      exact (Option.some.inj howner).symm
    · right
      rw [howner', Function.update_of_ne hm]
      exact ⟨c, hc⟩

-- ======================================================== moving one task

/-- A step that changes the record `r` of task `j`, or the place `p` of its
cell `a`. -/
structure TaskMove (n : Nat) (t : Thread) (s s' : Shared) (a j : Nat)
    (p : Place) (r : TaskRecord) : Prop where
  advance : Advance s.book s'.book a j p r
  task : j < s.book.count
  cell : (s.book.record j).cell = a
  cell' : r.cell = a
  ordered : r.Ordered
  later : (s.book.record j).Later r
  /-- the cell is the thread's, or nobody's -/
  owner : s.Controls t (s.book.place a) ∧ s.book.occupant a = some j
      ∧ (p = .free ∨ s.Controls t p)
    ∨ p = s.book.place a
      ∧ (s.book.occupant a = some j → s.book.place a = .free)
  freed : p = .free → r.finished = true ∨ s.book.place a = .free
  suits : s.book.occupant a = some j → p.Suits r
  taker : ∀ w, .worker w ≠ t →
    (s.book.record j).taker ≠ some w ∧ r.taker ≠ some w
  stored : ∃ q, Stored s' q
  active : s'.activeTasks = s'.book.active
  others : ∀ b, s.book.place b ≠ .free → ¬ s.Controls t (s.book.place b) →
    s.machine.mem.Agree s'.machine.mem b taskSize
  kept : ∀ b, s.book.place b ≠ .free → s.book.occupant b ≠ some j →
    s.machine.mem.Agree s'.machine.mem b 16
  filled : p ≠ .free → s.book.occupant a = some j → r.linked = true →
    Filled s'.machine.mem a r
  sync : ∀ u, u ≠ t → Sync.SameFor u s.sync s'.sync
  counted : ∀ v c, s.sync.owner (.queue v) = some (.client c) →
    s'.AllCounted v ∨ ∃ c, s'.sync.owner (.queue v) = some (.client c)
  range : ∀ v, p = .queue v → s.book.place a = .queue v
    ∨ v < n ∧ ∃ c, s'.sync.owner (.queue v) = some (.client c)

theorem TaskMove.sound (h : Sound n s) (hm : TaskMove n t s s' a j p r) :
    Sound n s' := by
  have hadv := hm.advance
  have hother : ∀ b i, s.book.occupant b = some i → b ≠ a → i ≠ j := by
    intro b i hocc hb hij
    subst hij
    exact hb ((h.booked.cell b _ hocc).2.symm.trans hm.cell)
  refine ⟨hm.stored, ?_, ?_, ?_, ?_, hm.active⟩
  · apply h.booked.advance hadv hm.cell hm.cell' ?_ hm.ordered hm.later.finished
      hm.freed hm.suits
    rcases hm.owner with ⟨-, hocc, -⟩ | ⟨hp, -⟩
    · exact Or.inl hocc
    · exact Or.inr hp
  · intro b i hb hocc hlinked
    rw [hadv.occupant] at hocc
    by_cases hij : i = j
    · subst hij
      have hba : b = a := (h.booked.cell b _ hocc).2.symm.trans hm.cell
      subst hba
      rw [hadv.place_self] at hb
      rw [hadv.record_self] at hlinked ⊢
      exact hm.filled hb hocc hlinked
    · rw [hadv.record_of_ne hij] at hlinked ⊢
      have hb' : s.book.place b ≠ .free := by
        by_cases hba : b = a
        · subst hba
          rw [hadv.place_self] at hb
          rcases hm.owner with ⟨-, hocc', -⟩ | ⟨hp, -⟩
          · rw [hocc] at hocc'
            exact absurd (Option.some.inj hocc') hij
          · rwa [← hp]
        · rwa [hadv.place_of_ne hba] at hb
      refine (h.filled b i hb' hocc hlinked).congr (hm.kept b hb' ?_) rfl rfl
      rw [hocc]
      intro heq
      exact hij (Option.some.inj heq)
  · intro v
    by_cases hv : p = .queue v ∧ s.book.place a ≠ .queue v
    · rcases hm.range v hv.1 with hplace | ⟨-, howner⟩
      · exact absurd hplace hv.2
      · exact Or.inr howner
    · rcases h.counted v with hall | ⟨c, hc⟩
      · left
        intro b i hb hocc
        rw [hadv.occupant] at hocc
        have hb' : s.book.place b = .queue v := by
          by_cases hba : b = a
          · subst hba
            rw [hadv.place_self] at hb
            by_contra hne
            exact hv ⟨hb, hne⟩
          · rwa [hadv.place_of_ne hba] at hb
        have hold := hall b i hb' hocc
        by_cases hij : i = j
        · rw [hij] at hold ⊢
          rw [hadv.record_self]
          exact hm.later.counted hold
        · rw [hadv.record_of_ne hij]
          exact hold
      · exact hm.counted v c hc
  · intro b v hb
    by_cases hba : b = a
    · subst hba
      rw [hadv.place_self] at hb
      rcases hm.range v hb with hplace | ⟨hlt, -⟩
      · exact h.range b v hplace
      · exact hlt
    · rw [hadv.place_of_ne hba] at hb
      exact h.range b v hb

theorem TaskMove.rely (h : Sound n s) (hm : TaskMove n t s s' a j p r)
    (hu : u ≠ t) : TaskRely u s s' := by
  have hadv := hm.advance
  have hne : ∀ w, u = .worker w → Thread.worker w ≠ t :=
    fun w hw heq => hu (hw.trans heq)
  -- a cell another thread has to itself is not the one of this task
  have hcell : ∀ b, s.Controls u (s.book.place b) →
      s.book.occupant b ≠ some j := by
    intro b hb hocc
    have hba : b = a := (h.booked.cell b _ hocc).2.symm.trans hm.cell
    subst hba
    rcases hm.owner with ⟨hown, -, -⟩ | ⟨-, hfree⟩
    · exact hu (hb.unique hown)
    · exact hb.ne_free (hfree hocc)
  refine ⟨hm.sync u hu, ?_, ?_, ?_, ?_, ?_, ?_, ?_⟩
  · intro b hb
    by_cases hba : b = a
    · subst hba
      rw [hadv.place_self] at hb ⊢
      rcases hm.owner with ⟨hown, -, hp⟩ | ⟨hp, -⟩
      · rcases hb with hb | hb
        · exact absurd (hb.unique hown) hu
        · rcases hp with hp | hp
          · exact absurd hp hb.ne_free
          · exact absurd (hb.unique hp) hu
      · exact hp
    · exact hadv.place_of_ne hba
  · intro b hb
    refine ⟨by rw [hadv.occupant], ?_, ?_⟩
    · intro i hi
      apply hadv.record_of_ne
      intro hij
      exact hcell b hb (hij ▸ hi)
    · apply hm.others b hb.ne_free
      intro hb'
      exact hu (hb.unique hb')
  · intro w i hw _ htaker
    apply hadv.record_of_ne
    intro hij
    subst hij
    exact (hm.taker w (hne w hw)).1 htaker
  · intro w i hw hi htaker
    rw [hadv.count] at hi
    by_cases hij : i = j
    · rw [hij, hadv.record_self] at htaker
      exact absurd htaker (hm.taker w (hne w hw)).2
    · rw [hadv.record_of_ne hij] at htaker
      exact ⟨hi, htaker⟩
  · intro i _
    by_cases hij : i = j
    · rw [hij, hadv.record_self]
      exact hm.later
    · rw [hadv.record_of_ne hij]
      exact .refl _
  · rw [hadv.count]
  · intro c _
    rw [hadv.before]

theorem TaskMove.step (h : Sound n s) (hm : TaskMove n t s s' a j p r) :
    TaskStep n t s s' :=
  ⟨hm.sound h, fun _ hu => hm.rely h hu⟩

-- ================================================================ new cells

/-- A client gets a cell. -/
theorem Sound.create (h : Sound n s) {c : Nat} {m' : Machine}
    {taskPool : CxPreallocPool} {function arg : Nat}
    (hrun : (cxPreallocPoolGet s.taskPool).run s.machine = .ok (a, taskPool) m')
    (hgranted : m'.refused = false) :
    TaskStep n (.client c) s { s with
      machine := m', taskPool := taskPool
      book := s.book.create a function arg c } := by
  obtain ⟨q, hq⟩ := h.stored
  obtain ⟨-, hfree, hstored, hmem⟩ := hq.get hrun hgranted function arg c
  have hold : ∀ i, i ≠ s.book.count →
      (s.book.create a function arg c).record i = s.book.record i :=
    fun i hi => Function.update_of_ne hi ..
  have hnew : (s.book.create a function arg c).record s.book.count
      = ⟨function, arg, a, false, false, false, none, [], false, false⟩ :=
    Function.update_self ..
  have hocc : ∀ b, b ≠ a →
      (s.book.create a function arg c).occupant b = s.book.occupant b :=
    fun b hb => Function.update_of_ne hb ..
  have hplace : ∀ b, b ≠ a →
      (s.book.create a function arg c).place b = s.book.place b :=
    fun b hb => Function.update_of_ne hb ..
  have hplacea : (s.book.create a function arg c).place a
      = .thread (.client c) := Function.update_self ..
  have hqueue : ∀ b v, (s.book.create a function arg c).place b = .queue v →
      b ≠ a ∧ s.book.place b = .queue v := by
    intro b v hb
    by_cases hba : b = a
    · rw [hba, hplacea] at hb
      cases hb
    · rw [hplace b hba] at hb
      exact ⟨hba, hb⟩
  refine ⟨⟨⟨q, hstored⟩, h.booked.create hfree function arg c, ?_, ?_, ?_, ?_⟩, ?_⟩
  · intro b i hb hi hlinked
    by_cases hba : b = a
    · subst hba
      have hi' : (s.book.create b function arg c).occupant b
          = some s.book.count := Function.update_self ..
      rw [hi'] at hi
      cases hi
      rw [hnew] at hlinked
      cases hlinked
    · rw [hplace b hba] at hb
      rw [hocc b hba] at hi
      rw [hold i (h.booked.unoccupied i hi)] at hlinked ⊢
      refine (h.filled b i hb hi hlinked).congr ?_ rfl rfl
      intro x hlo hhi
      refine hmem b hb x hlo ?_
      unfold taskSize
      omega
  · intro v
    rcases h.counted v with hall | howner
    · left
      intro b i hb hi
      obtain ⟨hba, hb'⟩ := hqueue b v hb
      rw [hocc b hba] at hi
      rw [hold i (h.booked.unoccupied i hi)]
      exact hall b i hb' hi
    · exact Or.inr howner
  · intro b v hb
    exact h.range b v (hqueue b v hb).2
  · rw [Book.create_active]
    exact h.active
  · intro u hu
    refine ⟨.of_owner rfl u, ?_, ?_, ?_, ?_, ?_, Nat.le_succ _, fun _ _ => rfl⟩
    · intro b hb
      by_cases hba : b = a
      · subst hba
        rcases hb with hb | hb
        · exact absurd hfree hb.ne_free
        · rw [hplacea] at hb
          exact absurd hb.symm hu
      · exact hplace b hba
    · intro b hb
      have hba : b ≠ a := by
        intro hba
        subst hba
        exact hb.ne_free hfree
      refine ⟨hocc b hba, ?_, hmem b hb.ne_free⟩
      intro i hi
      exact hold i (h.booked.unoccupied i hi)
    · intro w i _ hi _
      exact hold i (Nat.ne_of_lt hi)
    · intro w i _ hi htaker
      by_cases hin : i = s.book.count
      · subst hin
        rw [hnew] at htaker
        cases htaker
      · rw [hold i hin] at htaker
        have hi' : i < s.book.count + 1 := hi
        exact ⟨by omega, htaker⟩
    · intro i hi
      rw [hold i (Nat.ne_of_lt hi)]
      exact .refl _

/-- A client writes its cell. -/
theorem Sound.write (h : Sound n s) {c : Nat} {m' : Machine}
    {function arg : Nat} (hplace : s.book.place a = .thread (.client c))
    (hw : Written s.machine m' a function arg) :
    TaskStep n (.client c) s { s with machine := m' } := by
  have hne : s.book.place a ≠ .free := by
    rw [hplace]
    nofun
  obtain ⟨q, hq⟩ := h.stored
  have hmem : ∀ b, s.book.place b ≠ .free → b ≠ a →
      s.machine.mem.Agree m'.mem b taskSize := by
    intro b hb hba x hlo hhi
    apply hw.outside
    have hsep := hq.separated hb hne hba
    omega
  refine ⟨⟨⟨q, hq.write hplace hw⟩, h.booked, ?_, h.counted, h.range, h.active⟩, ?_⟩
  · intro b i hb hi hlinked
    refine (h.filled b i hb hi hlinked).congr ?_ rfl rfl
    intro x hlo hhi
    refine hmem b hb ?_ x hlo ?_
    · intro hba
      subst hba
      have hsuits := h.booked.suits b i hi
      rw [hplace] at hsuits
      have hunlinked : (s.book.record i).linked = false := hsuits
      have hlinked' : (s.book.record i).linked = true := hlinked
      rw [hunlinked] at hlinked'
      cases hlinked'
    · unfold taskSize
      omega
  · intro u hu
    refine ⟨.of_owner rfl u, fun _ _ => rfl, ?_, fun _ _ _ _ _ => rfl,
      fun _ _ _ hi htaker => ⟨hi, htaker⟩, fun _ _ => .refl _, Nat.le_refl _,
      fun _ _ => rfl⟩
    intro b hb
    refine ⟨rfl, fun _ _ => rfl, hmem b hb.ne_free ?_⟩
    intro hba
    subst hba
    rw [hplace] at hb
    exact hu (Eq.symm hb)

end Cextras.Concurrency
