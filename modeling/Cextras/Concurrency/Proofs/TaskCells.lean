/-
The cells of tasks in memory: those the task pool has handed out are the
ones that have a place, and the queues are lists threaded through theirs
(`Stored`). Each lemma below is one of the machine operations the pool
makes on them.
-/
import Cextras.Concurrency.Proofs.PoolSteps
import Cextras.Lib.Linked
import Cextras.Memory.Proofs.PoolOps
import Mathlib.Data.List.Nodup

namespace Cextras.Concurrency

open Lib Memory

variable {n w c a v : Nat} {s s' : Shared} {q : Nat → List Nat}

/-- The queues `q` are in memory. -/
structure Stored (s : Shared) (q : Nat → List Nat) : Prop where
  pool : ∃ chunks free live,
    PoolInv s.machine s.taskPool chunks free live
      ∧ ∀ a, a ∈ live ↔ s.book.place a ≠ .free
  size : s.taskPool.elementSize = taskSize
  chain : ∀ v, Linked s.machine.mem nextOffset (s.workers v).head (q v)
  tail : ∀ v, (s.workers v).tail = (q v).getLast?.getD 0
  nodup : ∀ v, (q v).Nodup
  queued : ∀ v a, a ∈ q v ↔ s.book.place a = .queue v

/-- The function and the argument are in the cell. -/
structure Filled (mem : Mem) (a : Nat) (r : TaskRecord) : Prop where
  function : mem.load64 a = r.function
  arg : mem.load64 (a + argOffset) = r.arg

theorem Filled.congr {mem mem' : Mem} {r r' : TaskRecord} (h : Filled mem a r)
    (hmem : mem.Agree mem' a 16) (hfunction : r'.function = r.function)
    (harg : r'.arg = r.arg) : Filled mem' a r' := by
  refine ⟨?_, ?_⟩
  · rw [hfunction, ← h.function]
    exact load64_congr fun x hlo hhi => hmem x hlo (by omega)
  · rw [harg, ← h.arg]
    refine load64_congr fun x hlo hhi => hmem x ?_ ?_
    · unfold argOffset at hlo
      omega
    · unfold argOffset at hhi
      omega

-- ================================================================== cells

theorem Stored.valid (h : Stored s q) (ha : s.book.place a ≠ .free)
    {i k : Nat} (hin : i + k ≤ taskSize) : s.machine.Valid (a + i) k := by
  obtain ⟨chunks, free, live, hpool, hlive⟩ := h.pool
  refine hpool.valid (List.mem_append_right _ ((hlive a).mpr ha)) ?_
  rw [h.size]
  exact hin

theorem Stored.ne_zero (h : Stored s q) (ha : s.book.place a ≠ .free) :
    a ≠ 0 := by
  obtain ⟨chunks, free, live, hpool, hlive⟩ := h.pool
  exact hpool.ne_zero (List.mem_append_right _ ((hlive a).mpr ha))

theorem Stored.lt_word (h : Stored s q) (ha : s.book.place a ≠ .free) :
    a < 2 ^ 64 := by
  obtain ⟨chunks, free, live, hpool, hlive⟩ := h.pool
  exact hpool.lt_word (List.mem_append_right _ ((hlive a).mpr ha))

theorem Stored.separated (h : Stored s q) {b : Nat}
    (ha : s.book.place a ≠ .free) (hb : s.book.place b ≠ .free) (hne : a ≠ b) :
    a + taskSize ≤ b ∨ b + taskSize ≤ a := by
  obtain ⟨chunks, free, live, hpool, hlive⟩ := h.pool
  have hsep := hpool.separated (List.mem_append_right _ ((hlive a).mpr ha))
    (List.mem_append_right _ ((hlive b).mpr hb)) hne
  rw [h.size] at hsep
  exact hsep

theorem Stored.in_place (h : Stored s q) (ha : a ∈ q v) :
    s.book.place a ≠ .free := by
  rw [(h.queued v a).mp ha]
  nofun

/-- A queue that has a first task. -/
theorem Stored.head (h : Stored s q) (hhead : (s.workers v).head ≠ 0) :
    ∃ rest, q v = (s.workers v).head :: rest := by
  have hchain := h.chain v
  cases hq : q v with
  | nil =>
      rw [hq] at hchain
      exact absurd hchain.head_nil hhead
  | cons b rest =>
      rw [hq] at hchain
      rw [hchain.uncons.1]
      exact ⟨rest, rfl⟩

theorem Stored.head_place (h : Stored s q) (hhead : (s.workers v).head ≠ 0) :
    s.book.place (s.workers v).head = .queue v := by
  obtain ⟨rest, hq⟩ := h.head hhead
  rw [← h.queued v, hq]
  exact List.mem_cons_self

/-- A step that leaves the cells and the queues alone. -/
theorem Stored.congr (h : Stored s q) (hmachine : s'.machine = s.machine)
    (hpool : s'.taskPool = s.taskPool)
    (hhead : ∀ v, (s'.workers v).head = (s.workers v).head)
    (htail : ∀ v, (s'.workers v).tail = (s.workers v).tail)
    (hplace : s'.book.place = s.book.place) : Stored s' q := by
  refine ⟨?_, ?_, ?_, ?_, h.nodup, ?_⟩
  · rw [hmachine, hpool, hplace]
    exact h.pool
  · rw [hpool]
    exact h.size
  · intro v
    rw [hmachine, hhead]
    exact h.chain v
  · intro v
    rw [htail]
    exact h.tail v
  · intro v a
    rw [hplace]
    exact h.queued v a

/-- Cells that are not in a queue may be written and change hands. -/
theorem Stored.rewrite (h : Stored s q) (hworkers : s'.workers = s.workers)
    (hpool : ∃ chunks free live,
      PoolInv s'.machine s'.taskPool chunks free live
        ∧ ∀ a, a ∈ live ↔ s'.book.place a ≠ .free)
    (hsize : s'.taskPool.elementSize = taskSize)
    (hmem : ∀ v, ∀ a ∈ q v,
      s.machine.mem.Agree s'.machine.mem a taskSize)
    (hplace : ∀ v a, s'.book.place a = .queue v ↔ s.book.place a = .queue v) :
    Stored s' q := by
  refine ⟨hpool, hsize, ?_, ?_, h.nodup, ?_⟩
  · intro v
    rw [hworkers]
    refine (h.chain v).congr ?_
    intro a ha x hlo hhi
    refine hmem v a ha x ?_ ?_
    · omega
    · unfold nextOffset at hhi
      unfold taskSize
      omega
  · intro v
    rw [hworkers]
    exact h.tail v
  · intro v a
    rw [h.queued, hplace]

/-- One queue changes. -/
theorem Stored.relink (h : Stored s q) (v : Nat) (xs : List Nat)
    (hpool : ∃ chunks free live,
      PoolInv s'.machine s'.taskPool chunks free live
        ∧ ∀ a, a ∈ live ↔ s'.book.place a ≠ .free)
    (hsize : s'.taskPool.elementSize = taskSize)
    (hchain : Linked s'.machine.mem nextOffset (s'.workers v).head xs)
    (htail : (s'.workers v).tail = xs.getLast?.getD 0)
    (hnodup : xs.Nodup)
    (hqueued : ∀ a, a ∈ xs ↔ s'.book.place a = .queue v)
    (hworkers : ∀ u, u ≠ v → s'.workers u = s.workers u)
    (hmem : ∀ u, u ≠ v → ∀ a ∈ q u,
      s.machine.mem.Agree s'.machine.mem (a + nextOffset) 8)
    (hplace : ∀ u, u ≠ v → ∀ a,
      s'.book.place a = .queue u ↔ s.book.place a = .queue u) :
    Stored s' (Function.update q v xs) := by
  refine ⟨hpool, hsize, ?_, ?_, ?_, ?_⟩
  · intro u
    by_cases hu : u = v
    · rw [hu, Function.update_self]
      exact hchain
    · rw [hworkers u hu, Function.update_of_ne hu]
      exact (h.chain u).congr (hmem u hu)
  · intro u
    by_cases hu : u = v
    · rw [hu, Function.update_self]
      exact htail
    · rw [hworkers u hu, Function.update_of_ne hu]
      exact h.tail u
  · intro u
    by_cases hu : u = v
    · rw [hu, Function.update_self]
      exact hnodup
    · rw [Function.update_of_ne hu]
      exact h.nodup u
  · intro u a
    by_cases hu : u = v
    · rw [hu, Function.update_self]
      exact hqueued a
    · rw [Function.update_of_ne hu, h.queued, hplace u hu]

-- ==================================================================== pop

theorem Book.take_place (b : Book) (a w : Nat) :
    (b.take a w).place
      = Function.update b.place a (.thread (.worker w)) := by
  unfold Book.take Book.modifyAt
  split
  · rfl
  · rfl

theorem Shared.popped_place (s : Shared) (v w : Nat) :
    (s.popped v w).book.place
      = Function.update s.book.place (s.workers v).head (.thread (.worker w)) :=
  Book.take_place ..

theorem Shared.popped_head (s : Shared) (v w : Nat) :
    ((s.popped v w).workers v).head = s.second v := by
  unfold Shared.popped
  dsimp only
  rw [Function.update_self]

theorem Shared.popped_tail (s : Shared) (v w : Nat) :
    ((s.popped v w).workers v).tail
      = if s.second v = 0 then 0 else (s.workers v).tail := by
  unfold Shared.popped
  dsimp only
  rw [Function.update_self]

/-- Other queues keep their cells when one goes to a thread. -/
theorem queue_iff_of_move {place : Nat → Place} {t : Thread} {u : Nat}
    (hplace : place a = .queue v) (hu : u ≠ v) (b : Nat) :
    Function.update place a (.thread t) b = .queue u ↔ place b = .queue u := by
  by_cases hb : b = a
  · rw [hb, Function.update_self, hplace]
    refine iff_of_false nofun ?_
    intro heq
    exact hu (Place.queue.inj heq).symm
  · rw [Function.update_of_ne hb]

/-- The first task of a queue is taken off it. -/
theorem Stored.pop (h : Stored s q) (hhead : (s.workers v).head ≠ 0) (w : Nat) :
    Stored (s.popped v w) (Function.update q v (q v).tail) := by
  obtain ⟨rest, hq⟩ := h.head hhead
  have hplace := h.head_place hhead
  have hchain := h.chain v
  rw [hq] at hchain
  obtain ⟨-, -, hrest⟩ := hchain.uncons
  have hrest' : Linked s.machine.mem nextOffset (s.second v) rest := hrest
  have hnodup := h.nodup v
  rw [hq] at hnodup
  obtain ⟨hnotin, hnodup'⟩ := List.nodup_cons.mp hnodup
  have htail : (q v).tail = rest := by
    rw [hq]
    rfl
  rw [htail]
  refine h.relink v rest ?_ h.size ?_ ?_ hnodup' ?_ ?_ ?_ ?_
  · obtain ⟨chunks, free, live, hpool, hlive⟩ := h.pool
    refine ⟨chunks, free, live, hpool, ?_⟩
    intro a
    rw [hlive, s.popped_place]
    by_cases ha : a = (s.workers v).head
    · rw [ha, Function.update_self, hplace]
      exact iff_of_true nofun nofun
    · rw [Function.update_of_ne ha]
  · rw [s.popped_head]
    exact hrest'
  · rw [s.popped_tail]
    split
    · next hzero =>
        rw [hzero] at hrest'
        rw [hrest'.eq_nil]
        rfl
    · next hzero =>
        rw [h.tail v, hq, List.getLast?_cons]
        cases hr : rest.getLast? with
        | none =>
            rw [List.getLast?_eq_none_iff.mp hr] at hrest'
            exact absurd hrest'.head_nil hzero
        | some x => rfl
  · intro a
    rw [s.popped_place]
    by_cases ha : a = (s.workers v).head
    · rw [ha, Function.update_self]
      exact iff_of_false hnotin nofun
    · rw [Function.update_of_ne ha, ← h.queued, hq]
      exact ⟨List.mem_cons_of_mem _, fun hin =>
        (List.mem_cons.mp hin).resolve_left ha⟩
  · intro u hu
    exact Function.update_of_ne hu ..
  · intro u _ a _ x _ _
    rfl
  · intro u hu a
    rw [s.popped_place]
    exact queue_iff_of_move hplace hu a

-- =================================================================== link

theorem Book.link_place (b : Book) (a v : Nat) :
    (b.link a v).place = Function.update b.place a (.queue v) := by
  unfold Book.link Book.modifyAt
  split
  · rfl
  · rfl

section Appended
variable (s : Shared) (a v : Nat)

theorem Shared.appended_book : (s.appended a v).book = s.book.link a v := by
  unfold Shared.appended
  split
  · rfl
  · rfl

theorem Shared.appended_arena :
    (s.appended a v).machine.arena = s.machine.arena := by
  unfold Shared.appended
  split
  · rfl
  · rfl

theorem Shared.appended_taskPool : (s.appended a v).taskPool = s.taskPool := by
  unfold Shared.appended
  split
  · rfl
  · rfl

theorem Shared.appended_mem :
    (s.appended a v).machine.mem = if (s.workers v).tail = 0 then s.machine.mem
      else s.machine.mem.store64 ((s.workers v).tail + nextOffset) a := by
  unfold Shared.appended
  split
  · rfl
  · rfl

theorem Shared.appended_head :
    ((s.appended a v).workers v).head
      = if (s.workers v).tail = 0 then a else (s.workers v).head := by
  unfold Shared.appended
  split
  · dsimp only
    rw [Function.update_self]
  · dsimp only
    rw [Function.update_self]

theorem Shared.appended_tail : ((s.appended a v).workers v).tail = a := by
  unfold Shared.appended
  split
  · dsimp only
    rw [Function.update_self]
  · dsimp only
    rw [Function.update_self]

theorem Shared.appended_workers {u : Nat} (hu : u ≠ v) :
    (s.appended a v).workers u = s.workers u := by
  unfold Shared.appended
  split
  · exact Function.update_of_ne hu ..
  · exact Function.update_of_ne hu ..

end Appended

/-- The task pool does not mind what is in a cell it handed out. -/
theorem Stored.pool_frame (h : Stored s q) (m' : Machine)
    (harena : m'.arena = s.machine.arena)
    (hmem : ∀ x, (∀ a, s.book.place a ≠ .free → x < a ∨ a + taskSize ≤ x) →
      m'.mem x = s.machine.mem x) :
    ∃ chunks free live, PoolInv m' s.taskPool chunks free live
      ∧ ∀ a, a ∈ live ↔ s.book.place a ≠ .free := by
  obtain ⟨chunks, free, live, hpool, hlive⟩ := h.pool
  refine ⟨chunks, free, live, hpool.frame m' ?_ ?_, hlive⟩
  · intro c hc
    rw [harena]
    exact hpool.owned c hc
  · intro c _ x _ hx
    apply hmem
    intro a ha
    rw [← h.size]
    exact hx a ((hlive a).mpr ha)

/-- The last task of a queue, by its tail pointer. -/
theorem Stored.last (h : Stored s q) :
    (s.workers v).tail = 0 ∧ q v = []
      ∨ (q v).getLast? = some (s.workers v).tail ∧ (s.workers v).tail ∈ q v := by
  have htail := h.tail v
  cases hlast : (q v).getLast? with
  | none =>
      rw [hlast] at htail
      exact Or.inl ⟨htail, List.getLast?_eq_none_iff.mp hlast⟩
  | some x =>
      rw [hlast] at htail
      have hx : (s.workers v).tail = x := htail
      rw [hx]
      exact Or.inr ⟨rfl, List.mem_of_getLast? hlast⟩

/-- The link word of the last task is all that a task linked in changes. -/
theorem Stored.appended_agree (h : Stored s q) {b : Nat}
    (hb : s.book.place b ≠ .free) {i k : Nat} (hin : i + k ≤ taskSize)
    (hother : i + k ≤ nextOffset ∨ ∀ x, (q v).getLast? = some x → x ≠ b) :
    s.machine.mem.Agree (s.appended a v).machine.mem (b + i) k := by
  rw [s.appended_mem]
  split
  · intro x _ _
    rfl
  · next htail =>
      rcases h.last (v := v) with ⟨hzero, -⟩ | ⟨hlast, hmem⟩
      · exact absurd hzero htail
      · apply agree_store64
        have hplace := h.in_place hmem
        by_cases hne : (s.workers v).tail = b
        · rcases hother with hlow | hother
          · rw [hne]
            unfold nextOffset at hlow ⊢
            omega
          · exact absurd hne (hother _ hlast)
        · have hsep := h.separated hplace hb hne
          unfold taskSize at hsep hin
          unfold nextOffset
          omega

/-- A task in a client's hands is in no queue. -/
theorem Stored.not_queued (h : Stored s q)
    (hplace : s.book.place a = .thread (.client c)) (u : Nat) : a ∉ q u := by
  intro hin
  rw [h.queued, hplace] at hin
  cases hin

theorem Stored.not_last (h : Stored s q)
    (hplace : s.book.place a = .thread (.client c)) (u x : Nat)
    (hx : (q u).getLast? = some x) : x ≠ a := by
  intro heq
  subst heq
  exact h.not_queued hplace u (List.mem_of_getLast? hx)

/-- The pool, with the task in its queue. -/
theorem Stored.appended_pool (h : Stored s q)
    (hplace : s.book.place a = .thread (.client c)) :
    ∃ chunks free live,
      PoolInv (s.appended a v).machine (s.appended a v).taskPool chunks free live
        ∧ ∀ b, b ∈ live ↔ (s.appended a v).book.place b ≠ .free := by
  have hframe := h.pool_frame (s.appended a v).machine (s.appended_arena a v) ?_
  · obtain ⟨chunks, free, live, hpool, hlive⟩ := hframe
    rw [s.appended_taskPool]
    refine ⟨chunks, free, live, hpool, ?_⟩
    intro b
    rw [hlive, s.appended_book, Book.link_place]
    by_cases hb : b = a
    · rw [hb, Function.update_self, hplace]
      exact iff_of_true nofun nofun
    · rw [Function.update_of_ne hb]
  · intro x hx
    rw [s.appended_mem]
    split
    · rfl
    · next htail =>
        rcases h.last (v := v) with ⟨hzero, -⟩ | ⟨-, hmem⟩
        · exact absurd hzero htail
        · have hout := hx _ (h.in_place hmem)
          unfold taskSize at hout
          refine agree_store64 (b := x) (n := 1) ?_ x (Nat.le_refl _)
            (Nat.lt_succ_self _)
          unfold nextOffset
          omega

/-- The queue the task was linked into: what was the last task, if there
was one, points to it. -/
theorem Stored.appended_chain (h : Stored s q)
    (hplace : s.book.place a = .thread (.client c))
    (hend : s.machine.mem.load64 (a + nextOffset) = 0) :
    Linked (s.appended a v).machine.mem nextOffset
      ((s.appended a v).workers v).head (q v ++ [a]) := by
  have hne : s.book.place a ≠ .free := by
    rw [hplace]
    nofun
  have hnext : nextOffset + 8 ≤ taskSize := Nat.le_refl _
  have hhead : ((s.appended a v).workers v).head
      = if q v = [] then a else (s.workers v).head := by
    rw [s.appended_head]
    rcases h.last (v := v) with ⟨hzero, hnil⟩ | ⟨-, hmem⟩
    · rw [if_pos hzero, if_pos hnil]
    · rw [if_neg (h.ne_zero (h.in_place hmem)),
        if_neg (List.ne_nil_of_mem hmem)]
  rw [hhead]
  apply (h.chain v).snoc (h.ne_zero hne)
  · rw [load64_congr (h.appended_agree hne hnext (Or.inr (h.not_last hplace v)))]
    exact hend
  · intro x hx
    rcases h.last (v := v) with ⟨-, hnil⟩ | ⟨hlast, hmem⟩
    · rw [hnil] at hx
      cases hx
    · rw [hlast] at hx
      cases hx
      rw [s.appended_mem, if_neg (h.ne_zero (h.in_place hmem)),
        load64_store64_self, Nat.mod_eq_of_lt (h.lt_word hne)]
  · intro x hx
    have hin : x ∈ q v := List.dropLast_subset _ hx
    apply h.appended_agree (h.in_place hin) hnext
    right
    intro y hy heq
    subst heq
    -- the last node occurs once
    have hsplit := List.dropLast_append_getLast? y hy
    have hnodup := h.nodup v
    rw [← hsplit] at hnodup
    exact (List.nodup_append.mp hnodup).2.2 y hx y List.mem_cons_self rfl

/-- A cell is linked behind the last task of a queue. -/
theorem Stored.link (h : Stored s q)
    (hplace : s.book.place a = .thread (.client c))
    (hend : s.machine.mem.load64 (a + nextOffset) = 0) :
    Stored (s.appended a v) (Function.update q v (q v ++ [a])) := by
  have hplace' : (s.appended a v).book.place
      = Function.update s.book.place a (.queue v) := by
    rw [s.appended_book]
    exact Book.link_place ..
  refine h.relink v (q v ++ [a]) (h.appended_pool hplace) ?_
    (h.appended_chain hplace hend) ?_ ?_ ?_ ?_ ?_ ?_
  · rw [s.appended_taskPool]
    exact h.size
  · rw [s.appended_tail, List.getLast?_concat]
    rfl
  · refine List.nodup_append.mpr ⟨h.nodup v, List.nodup_singleton a, ?_⟩
    intro x hx y hy heq
    rw [List.mem_singleton.mp hy] at heq
    subst heq
    exact h.not_queued hplace v hx
  · intro b
    rw [hplace', List.mem_append, List.mem_singleton, h.queued]
    by_cases hb : b = a
    · rw [hb, Function.update_self]
      exact iff_of_true (Or.inr rfl) rfl
    · rw [Function.update_of_ne hb]
      exact or_iff_left hb
  · intro u hu
    exact s.appended_workers a v hu
  · intro u hu b hb
    apply h.appended_agree (h.in_place hb) (Nat.le_refl _)
    right
    intro x hx heq
    subst heq
    have hqueue := (h.queued v x).mp (List.mem_of_getLast? hx)
    rw [(h.queued u x).mp hb] at hqueue
    exact hu (Place.queue.inj hqueue)
  · intro u hu b
    rw [hplace']
    by_cases hb : b = a
    · rw [hb, Function.update_self, hplace]
      refine iff_of_false ?_ nofun
      intro heq
      exact hu (Place.queue.inj heq).symm
    · rw [Function.update_of_ne hb]

-- ============================================================== init, run

theorem taskInit_cases {function arg : Nat} {m m' : Machine}
    (h : (taskInit a function arg).run m = .ok () m') :
    m' = { m with mem := ((m.mem.store64 a function).store64 (a + argOffset)
      arg).store64 (a + nextOffset) 0 } := by
  unfold taskInit at h
  obtain ⟨_, m₁, h₁, h⟩ := bind_cases h
  obtain ⟨_, m₂, h₂, h⟩ := bind_cases h
  rw [store64_cases h, store64_cases h₂, store64_cases h₁]

theorem taskCall_cases {call : Nat × Nat} {m m' : Machine}
    (h : (taskCall a).run m = .ok call m') :
    m' = m ∧ call = (m.mem.load64 a, m.mem.load64 (a + argOffset)) := by
  unfold taskCall at h
  obtain ⟨function, m₁, h₁, hrest⟩ := bind_cases h
  obtain ⟨hfunction, hm₁⟩ := load64_cases h₁
  rw [hm₁] at hrest
  obtain ⟨arg, m₂, h₂, hend⟩ := bind_cases hrest
  obtain ⟨harg, hm₂⟩ := load64_cases h₂
  rw [hm₂] at hend
  obtain ⟨hcall, hm⟩ := Outcome.ok.inj hend
  rw [← hfunction, ← harg]
  exact ⟨hm.symm, hcall.symm⟩

/-- The cell of a new task is written. -/
structure Written (m m' : Machine) (a function arg : Nat) : Prop where
  arena : m'.arena = m.arena
  refused : m'.refused = m.refused
  outside : ∀ x, x < a ∨ a + taskSize ≤ x → m'.mem x = m.mem x
  function : m'.mem.load64 a = function
  arg : m'.mem.load64 (a + argOffset) = arg
  next : m'.mem.load64 (a + nextOffset) = 0

theorem taskInit_written {function arg : Nat} {m m' : Machine}
    (hfunction : function < 2 ^ 64) (harg : arg < 2 ^ 64)
    (h : (taskInit a function arg).run m = .ok () m') :
    Written m m' a function arg := by
  rw [taskInit_cases h]
  refine ⟨rfl, rfl, ?_, ?_, ?_, ?_⟩
  · intro x hx
    unfold taskSize at hx
    have hagree : ∀ {mem : Mem} {b v : Nat}, a ≤ b → b + 8 ≤ a + 24 →
        mem.store64 b v x = mem x := by
      intro mem b v hlo hhi
      exact agree_store64 (b := x) (n := 1) (by omega) x (Nat.le_refl _)
        (Nat.lt_succ_self _)
    dsimp only
    rw [hagree, hagree, hagree]
    · omega
    · omega
    · unfold argOffset
      omega
    · unfold argOffset
      omega
    · unfold nextOffset
      omega
    · unfold nextOffset
      omega
  · dsimp only
    rw [load64_store64_of_disjoint, load64_store64_of_disjoint,
      load64_store64_self, Nat.mod_eq_of_lt hfunction]
    · unfold argOffset
      omega
    · unfold nextOffset
      omega
  · dsimp only
    rw [load64_store64_of_disjoint, load64_store64_self,
      Nat.mod_eq_of_lt harg]
    unfold argOffset nextOffset
    omega
  · dsimp only
    rw [load64_store64_self]
    rfl

/-- A cell a thread has is not in a queue. -/
theorem Stored.apart (h : Stored s q) {t : Thread}
    (hplace : s.book.place a = .thread t) {b : Nat} (hb : b ∈ q v) :
    a + taskSize ≤ b ∨ b + taskSize ≤ a := by
  have hne : s.book.place a ≠ .free := by
    rw [hplace]
    nofun
  refine h.separated hne (h.in_place hb) ?_
  intro heq
  subst heq
  rw [(h.queued v a).mp hb] at hplace
  cases hplace

theorem Stored.write (h : Stored s q) {t : Thread} {m' : Machine}
    (hplace : s.book.place a = .thread t) {function arg : Nat}
    (hw : Written s.machine m' a function arg) :
    Stored { s with machine := m' } q := by
  have hne : s.book.place a ≠ .free := by
    rw [hplace]
    nofun
  refine h.rewrite rfl (h.pool_frame _ hw.arena ?_) h.size ?_ ?_
  · intro x hx
    exact hw.outside x (hx a hne)
  · intro v b hb x hlo hhi
    apply hw.outside
    have hsep := h.apart hplace hb
    omega
  · intro v b
    rfl

-- ================================================================ recycle

/-- A cell is given back. -/
theorem Stored.recycle (h : Stored s q) {t : Thread} {m' : Machine}
    {taskPool : CxPreallocPool} (hplace : s.book.place a = .thread t)
    (hrun : (cxPreallocPoolRecycle s.taskPool a).run s.machine
      = .ok taskPool m') :
    Stored { s with
        machine := m', taskPool := taskPool, book := s.book.move a .free } q
      ∧ m'.refused = s.machine.refused
      ∧ ∀ x, x < a ∨ a + taskSize ≤ x → m'.mem x = s.machine.mem x := by
  obtain ⟨chunks, free, live, hpool, hlive⟩ := h.pool
  have hne : s.book.place a ≠ .free := by
    rw [hplace]
    nofun
  have hin : a ∈ live := (hlive a).mpr hne
  obtain ⟨hrec, hpool'⟩ := run_cxPreallocPoolRecycle hpool hin
  rw [hrec] at hrun
  obtain ⟨rfl, rfl⟩ := Outcome.ok.inj hrun
  have hmem : ∀ x, x < a ∨ a + taskSize ≤ x →
      (s.machine.mem.store64 a s.taskPool.reusePool) x = s.machine.mem x := by
    intro x hx
    unfold taskSize at hx
    exact agree_store64 (b := x) (n := 1) (by omega) x (Nat.le_refl _)
      (Nat.lt_succ_self _)
  refine ⟨h.rewrite rfl ⟨chunks, _, _, hpool', ?_⟩ h.size ?_ ?_, rfl, hmem⟩
  · intro b
    have hnodup := (List.nodup_append.mp hpool.nodup).2.1
    rw [hnodup.mem_erase_iff, hlive]
    show _ ↔ Function.update s.book.place a .free b ≠ .free
    by_cases hb : b = a
    · rw [hb, Function.update_self]
      exact iff_of_false (fun hba => hba.1 rfl) (fun hfree => hfree rfl)
    · rw [Function.update_of_ne hb]
      exact and_iff_right hb
  · intro v b hb x hlo hhi
    apply hmem
    have hsep := h.apart hplace hb
    omega
  · intro v b
    show Function.update s.book.place a .free b = _ ↔ _
    by_cases hb : b = a
    · rw [hb, Function.update_self, hplace]
      exact iff_of_false nofun nofun
    · rw [Function.update_of_ne hb]

-- ==================================================================== get

/-- A granted request hands out a cell that was free. -/
theorem Stored.get (h : Stored s q) {m' : Machine} {taskPool : CxPreallocPool}
    (hrun : (cxPreallocPoolGet s.taskPool).run s.machine = .ok (a, taskPool) m')
    (hgranted : m'.refused = false) (function arg c : Nat) :
    a ≠ 0 ∧ s.book.place a = .free
      ∧ Stored { s with
        machine := m', taskPool := taskPool
        book := s.book.create a function arg c } q
      ∧ ∀ b, s.book.place b ≠ .free → s.machine.mem.Agree m'.mem b taskSize := by
  obtain ⟨chunks, free, live, hpool, hlive⟩ := h.pool
  obtain ⟨r, m₁, hrun', hout⟩ := (cxPreallocPoolGet_handout hpool).elim
    (by rw [hrun]; exact hgranted)
  rw [hrun] at hrun'
  obtain ⟨rfl, rfl⟩ := Outcome.ok.inj hrun'
  obtain ⟨chunks', hout⟩ := hout
  have hnotin : a ∉ live := hout.not_mem
  have hfree : s.book.place a = .free := by
    by_contra hne
    exact hnotin ((hlive a).mpr hne)
  have ha : a ∈ free.erase a ++ a :: live :=
    List.mem_append_right _ List.mem_cons_self
  -- the new cell shares no byte with those in use
  have hmem : ∀ b, s.book.place b ≠ .free →
      s.machine.mem.Agree m'.mem b taskSize := by
    intro b hb x hlo hhi
    have hbin : b ∈ live := (hlive b).mpr hb
    obtain ⟨chunk, hchunk, hhas⟩ :=
      hpool.inChunk (List.mem_append_right _ hbin)
    rw [h.size] at hhas
    refine hout.mem chunk (hpool.owned chunk hchunk) x ?_ ?_
    · obtain ⟨h₁, h₂⟩ := hhas
      exact ⟨by omega, by omega⟩
    · have hne : a ≠ b := fun heq => hnotin (heq ▸ hbin)
      have hsep := hout.inv.separated ha
        (List.mem_append_right _ (List.mem_cons_of_mem _ hbin)) hne
      rw [hout.size, h.size] at hsep
      rw [h.size]
      omega
  have hplace : ∀ b, b ≠ a →
      (s.book.create a function arg c).place b = s.book.place b :=
    fun b hb => Function.update_of_ne hb ..
  have hplacea : (s.book.create a function arg c).place a
      = .thread (.client c) := Function.update_self ..
  refine ⟨hout.inv.ne_zero ha, hfree, ?_, hmem⟩
  refine h.rewrite rfl ⟨chunks', _, _, hout.inv, ?_⟩ (hout.size.trans h.size)
    (fun v b hb => hmem b (h.in_place hb)) ?_
  · intro b
    by_cases hb : b = a
    · rw [hb, hplacea]
      exact iff_of_true List.mem_cons_self nofun
    · rw [hplace b hb, ← hlive, List.mem_cons]
      exact or_iff_right hb
  · intro v b
    by_cases hb : b = a
    · rw [hb, hplacea, hfree]
      exact iff_of_false nofun nofun
    · rw [hplace b hb]

end Cextras.Concurrency
