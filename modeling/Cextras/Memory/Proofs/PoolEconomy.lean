/-
What a pool costs. It carves a new element off its chunks only when none
was given back, and takes a new chunk, twice as large as the last, only
when the last is used up. So what it takes from the allocator depends on
how many elements its user ever holds at once, and not on how often they
are taken and given back (`cxPreallocPool_economy`).

`Carved` is the exact account: every byte of the older chunks and of the
newest up to `next_offset` belongs to an element, handed out or given back.
-/
import Cextras.Memory.Proofs.PoolRuns

namespace Cextras.Memory

open Lib

variable {m m' : Machine} {p p' : CxPreallocPool} {chunks : List Block}
  {free live : List Nat} {unit size count k : Nat} {s : PoolClient}

-- ============================================================ how a get goes

/-- The ways a granted `cx_prealloc_pool_get` can go. -/
inductive GetWay (p : CxPreallocPool) (m : Machine) (a : Nat) :
    List Nat → CxPreallocPool → Machine → Prop where
  | reuse {rest : List Nat} {m' : Machine} (next : Nat) : m'.tick = m.tick →
      GetWay p m a (a :: rest) { p with reusePool := next } m'
  | bump : p.pools ≠ none →
      GetWay p m a [] { p with nextOffset := p.nextOffset + p.elementSize } m
  | grow {p' : CxPreallocPool} {m' : Machine} :
      (p.pools ≠ none → p.chunkSize < p.nextOffset + p.elementSize) →
      p'.pools ≠ none → p'.poolCount = p.poolCount + 1 →
      p'.chunkSize = p.chunkSize * 2 → p'.nextOffset = p.elementSize →
      m'.tick = m.tick + 2 → GetWay p m a [] p' m'

/-- A granted chunk costs two requests. -/
theorem addChunk_requests (p : CxPreallocPool) (m : Machine) :
    (addChunk p).Granted m fun _ m' => m'.tick = m.tick + 2 := by
  unfold addChunk
  refine granted_bind (granted_reallocArray (Q := fun r m₁ =>
    r = some m.tick ∧ m₁.tick = m.tick + 1) ⟨rfl, rfl⟩) ?_
  intro r m₁ hr
  obtain ⟨rfl, htick₁⟩ := hr
  dsimp only
  refine granted_bind (granted_calloc (Q := fun a m₂ =>
    a ≠ 0 ∧ m₂.tick = m₁.tick + 1)
    fun hf => ⟨Nat.pos_iff_ne_zero.mp hf.1.1, rfl⟩) ?_
  intro a m₂ ha
  obtain ⟨hne, htick₂⟩ := ha
  rw [if_neg hne]
  apply granted_pure
  rw [htick₂, htick₁]

theorem cxPreallocPoolGet_way (h : PoolInv m p chunks free live) :
    (cxPreallocPoolGet p).Granted m fun r m' => GetWay p m r.1 free r.2 m' := by
  have hlt := h.chunk_lt
  have hle := h.size_le
  unfold cxPreallocPoolGet
  by_cases hreuse : p.reusePool ≠ 0
  · rw [if_pos hreuse]
    obtain ⟨a, rest, rfl⟩ := h.exists_free hreuse
    exact granted_of_run (run_reuseNode h) (.reuse _ rfl)
  · rw [if_neg hreuse]
    have hfree : free = [] := by
      cases free with
      | nil => rfl
      | cons a rest =>
          obtain ⟨ha, -, -⟩ := h.reuse.uncons
          exact absurd (ha ▸ h.ne_zero (by simp)) hreuse
    subst hfree
    split
    · next hfull =>
        refine granted_bind ((addChunk_added p m).and
          (addChunk_requests p m)) ?_
        intro r m₁ hr
        obtain ⟨rv, pool⟩ := r
        obtain ⟨⟨hrv, hadded⟩, htick⟩ := hr
        have hpool := hadded.pool
        clear hadded
        dsimp only at hrv hpool ⊢
        generalize pool.currentPool = base at hpool
        subst hpool
        rw [hrv, if_neg (by decide)]
        refine granted_pure (.grow ?_ nofun rfl ?_ (Nat.zero_add _) htick)
        · intro hsome
          have hoff := (h.offset hsome).2
          rcases hfull with hnone | hover
          · exact absurd (Option.isNone_iff_eq_none.mp hnone) hsome
          · rwa [Nat.mod_eq_of_lt (by omega)] at hover
        · exact Nat.mod_eq_of_lt (by omega)
    · next hroom =>
        rw [not_or, Option.isNone_iff_eq_none] at hroom
        exact granted_pure (.bump hroom.1)

-- ============================================================== the account

theorem mul_pow_succ (unit n : Nat) : unit * 2 ^ (n + 1) = 2 * (unit * 2 ^ n) := by
  rw [pow_succ, ← Nat.mul_assoc, Nat.mul_comm]

theorem mul_pow_sub (count size n : Nat) :
    count * (2 ^ n - 2) * size = count * size * 2 ^ n - 2 * (count * size) := by
  rw [Nat.mul_right_comm, Nat.mul_sub, Nat.mul_comm (count * size) 2]

/-- A chunk of whole elements is used up to its end. -/
theorem full_of_over {offset bytes : Nat} (hoffset : size ∣ offset)
    (hbytes : size ∣ bytes) (hle : offset ≤ bytes) (hover : bytes < offset + size) :
    offset = bytes := by
  obtain ⟨i, rfl⟩ := hoffset
  obtain ⟨j, rfl⟩ := hbytes
  have hji : j < i + 1 := by
    refine Nat.lt_of_mul_lt_mul_left (a := size) ?_
    rw [Nat.mul_succ]
    exact hover
  have hmul : size * j ≤ size * i := Nat.mul_le_mul_left _ (Nat.lt_succ_iff.mp hji)
  omega

/-- The pool has carved `n` elements, and those are what its chunks are used
for. -/
structure Carved (unit size n : Nat) (p : CxPreallocPool) : Prop where
  unused : p.pools = none → n = 0 ∧ p.poolCount = 0
  used : p.pools ≠ none →
    n * size + 2 * unit = unit * 2 ^ p.poolCount + p.nextOffset
  chunkSize : p.chunkSize = unit * 2 ^ p.poolCount

variable {n : Nat}

/-- A chunk with no room for an element is used up to its end. -/
theorem Carved.offset_eq (h : Carved unit size n p)
    (hinv : PoolInv m p chunks free live) (hunit : size ∣ unit)
    (hsize : p.elementSize = size) (hpools : p.pools ≠ none)
    (hover : p.chunkSize < p.nextOffset + p.elementSize) :
    p.nextOffset = unit * 2 ^ p.poolCount := by
  obtain ⟨hdvd, hle⟩ := hinv.offset hpools
  rw [hsize] at hdvd hover
  rw [h.chunkSize] at hle hover
  exact full_of_over hdvd (hunit.mul_right _) hle hover

/-- One more element off the current chunk. -/
theorem Carved.bump (h : Carved unit size n p) (hsize : p.elementSize = size)
    (hpools : p.pools ≠ none) :
    Carved unit size (n + 1)
      { p with nextOffset := p.nextOffset + p.elementSize } := by
  have hused := h.used hpools
  refine ⟨fun hnone => absurd hnone hpools, fun _ => ?_, h.chunkSize⟩
  show (n + 1) * size + 2 * unit
    = unit * 2 ^ p.poolCount + (p.nextOffset + p.elementSize)
  rw [hsize, Nat.succ_mul]
  omega

/-- Before a new chunk, what was carved fits the old ones exactly. -/
theorem Carved.full (h : Carved unit size n p)
    (hfull : p.pools ≠ none → p.nextOffset = unit * 2 ^ p.poolCount) :
    n * size + 2 * unit = unit * 2 ^ (p.poolCount + 1) := by
  rw [mul_pow_succ]
  by_cases hnone : p.pools = none
  · obtain ⟨rfl, hzero⟩ := h.unused hnone
    rw [hzero]
    omega
  · have hused := h.used hnone
    rw [hfull hnone] at hused
    omega

/-- One more element off a new chunk. -/
theorem Carved.grow (h : Carved unit size n p)
    (hfull : p.pools ≠ none → p.nextOffset = unit * 2 ^ p.poolCount)
    (hsome : p'.pools ≠ none) (hcount : p'.poolCount = p.poolCount + 1)
    (hchunk : p'.chunkSize = p.chunkSize * 2) (hoffset : p'.nextOffset = size) :
    Carved unit size (n + 1) p' := by
  have hbefore := h.full hfull
  refine ⟨fun hnone => absurd hnone hsome, fun _ => ?_, ?_⟩
  · rw [hcount, hoffset, Nat.succ_mul]
    omega
  · rw [hchunk, h.chunkSize, hcount, pow_succ, Nat.mul_assoc]

/-- Of a pool with nothing to reuse, every get carves an element. -/
theorem Carved.get (h : Carved unit size n p)
    (hinv : PoolInv m p chunks [] live) (hunit : size ∣ unit)
    (hsize : p.elementSize = size) :
    (cxPreallocPoolGet p).Granted m fun r _ => Carved unit size (n + 1) r.2 := by
  apply (cxPreallocPoolGet_way hinv).imp
  intro r m' hway
  obtain ⟨a, pool⟩ := r
  dsimp only at hway ⊢
  cases hway with
  | bump hpools => exact h.bump hsize hpools
  | grow hover hsome hcount hchunk hoffset _ =>
      refine h.grow (fun hpools => ?_) hsome hcount hchunk (hoffset.trans hsize)
      exact h.offset_eq hinv hunit hsize hpools (hover hpools)

/-- What was taken from the allocator, where at most `k` elements were
carved. -/
structure Frugal (count size k n : Nat) (p : CxPreallocPool) (m : Machine) :
    Prop where
  carved : Carved (count * size) size n p
  elements : n ≤ k
  chunks : p.poolCount = 0 ∨ count * (2 ^ p.poolCount - 2) < k
  requests : m.tick = 2 * p.poolCount

/-- Only the number of requests counts, and not what waits for reuse. -/
theorem Frugal.congr (h : Frugal count size k n p m) (next : Nat)
    (htick : m'.tick = m.tick) :
    Frugal count size k n { p with reusePool := next } m' :=
  ⟨⟨h.carved.unused, h.carved.used, h.carved.chunkSize⟩, h.elements, h.chunks,
    htick.trans h.requests⟩

/-- One more element off a new chunk. -/
theorem Frugal.grow (h : Frugal count size k n p m) (hpos : 0 < size)
    (hn : n < k)
    (hfull : p.pools ≠ none → p.nextOffset = count * size * 2 ^ p.poolCount)
    (hsome : p'.pools ≠ none) (hcount : p'.poolCount = p.poolCount + 1)
    (hchunk : p'.chunkSize = p.chunkSize * 2) (hoffset : p'.nextOffset = size)
    (htick : m'.tick = m.tick + 2) :
    Frugal count size k (n + 1) p' m' := by
  refine ⟨h.carved.grow hfull hsome hcount hchunk hoffset, hn, Or.inr ?_, ?_⟩
  · -- the old chunks are full, and hold `n` elements
    have hbefore := h.carved.full hfull
    have hcarved : n = count * (2 ^ (p.poolCount + 1) - 2) := by
      refine Nat.eq_of_mul_eq_mul_right hpos ?_
      rw [mul_pow_sub]
      omega
    rw [hcount, ← hcarved]
    exact hn
  · rw [hcount, htick, h.requests]
    omega

-- ===================================================================== runs

/-- The elements the pool has carved. -/
def PoolClient.carved (s : PoolClient) : Nat := s.live.length + s.recycled.length

/-- The user holds no more than `k` elements at once. -/
def PoolOp.Within (k : Nat) (s : PoolClient) : PoolOp → Prop
  | .get => s.live.length < k
  | op => op.Allowed s

instance PoolOp.decidableWithin (k : Nat) (s : PoolClient) :
    (op : PoolOp) → Decidable (op.Within k s)
  | .get => inferInstanceAs (Decidable (_ < _))
  | .recycle a => PoolOp.decidableAllowed s (.recycle a)
  | .write a i bs => PoolOp.decidableAllowed s (.write a i bs)

theorem PoolOp.Within.allowed {op : PoolOp} (h : op.Within k s) :
    op.Allowed s := by
  cases op with
  | get => trivial
  | recycle a => exact h
  | write a i bs => exact h

/-- The states of runs of such a user in which every request was granted. -/
abbrev PoolClient.RunWithin (k elementCount elementSize : Nat) (mem : Mem)
    (oracle : Nat → Nat) : PoolClient → Machine → Prop :=
  Reached (PoolClient.start elementCount elementSize) PoolClient.exec
    (fun s _ op => op.Within k s) (Machine.boot mem oracle)

theorem frugal_get (h : PoolRun (count * size) size s m)
    (hfrugal : Frugal count size k s.carved s.pool m) (hlive : s.live.length < k) :
    (PoolClient.exec .get s).Granted m fun s' m' =>
      Frugal count size k s'.carved s'.pool m' := by
  obtain ⟨chunks, hinv, -, hsize⟩ := h
  have hpos : 0 < size := by
    have hge := hinv.size_ge
    omega
  have hfull := hfrugal.carved.offset_eq hinv (Nat.dvd_mul_left size count) hsize
  refine granted_bind ((cxPreallocPoolGet_handout hinv).and
    (cxPreallocPoolGet_way hinv)) ?_
  intro r m' hr
  obtain ⟨⟨chunks', hh⟩, hway⟩ := hr
  have hne : r.1 ≠ 0 := hh.inv.ne_zero (by simp)
  show (if r.1 = 0 then _ else _ : C PoolClient).Granted m' _
  rw [if_neg hne]
  apply granted_pure
  clear hinv hh
  obtain ⟨a, pool⟩ := r
  obtain ⟨p, live, recycled⟩ := s
  dsimp only [PoolClient.carved] at hway hfrugal hfull hsize hlive ⊢
  cases hway with
  | @reuse rest _ next htick =>
      -- as many elements as before
      rw [List.erase_cons_head, List.length_cons, Nat.add_right_comm]
      rw [List.length_cons, ← Nat.add_assoc] at hfrugal
      exact hfrugal.congr next htick
  | bump hsome =>
      exact ⟨hfrugal.carved.bump hsize hsome, hlive, hfrugal.chunks,
        hfrugal.requests⟩
  | grow hover hsome hcount hchunk hoffset htick =>
      exact hfrugal.grow hpos hlive (fun h => hfull h (hover h)) hsome hcount
        hchunk (hoffset.trans hsize) htick

theorem frugal_exec (h : PoolRun (count * size) size s m)
    (hfrugal : Frugal count size k s.carved s.pool m) {op : PoolOp}
    (hop : op.Within k s) :
    (PoolClient.exec op s).Granted m fun s' m' =>
      Frugal count size k s'.carved s'.pool m' := by
  cases op with
  | get => exact frugal_get h hfrugal hop
  | recycle a =>
      obtain ⟨chunks, hinv, -, -⟩ := h
      obtain ⟨hrun, -⟩ := run_cxPreallocPoolRecycle hinv hop
      refine granted_bind_run hrun (granted_pure ?_)
      have hin : a ∈ s.live := hop
      have hlength := List.length_erase_add_one hin
      have hsame : (s.live.erase a).length + (a :: s.recycled).length
          = s.carved := by
        unfold PoolClient.carved
        rw [List.length_cons]
        omega
      unfold PoolClient.carved
      dsimp only
      rw [hsame]
      exact hfrugal.congr a rfl
  | write a i bs =>
      obtain ⟨chunks, hinv, -, -⟩ := h
      obtain ⟨ha, hfit⟩ := hop
      obtain ⟨hrun, -⟩ := hinv.write ha hfit
      exact granted_bind_run hrun
        (granted_pure (hfrugal.congr s.pool.reusePool rfl))

theorem frugal_run {mem : Mem} {oracle : Nat → Nat} (hcount : 0 < count)
    (hsize : 8 ≤ size) (hwrap : count * size * 2 < 2 ^ 64)
    (h : PoolClient.RunWithin k count size mem oracle s m) :
    PoolRun (count * size) size s m
      ∧ Frugal count size k s.carved s.pool m := by
  apply h.invariant_granted fun s m => PoolRun (count * size) size s m
    ∧ Frugal count size k s.carved s.pool m
  · refine (poolRun_start hcount hsize hwrap).and ?_
    unfold PoolClient.start
    refine granted_bind_run (cxPreallocPoolInit2_ok (Machine.boot mem oracle)
      hcount hsize (by omega)) (granted_pure ?_)
    exact ⟨⟨fun _ => ⟨rfl, rfl⟩, fun h => absurd rfl h, (Nat.mul_one _).symm⟩,
      Nat.zero_le _, Or.inl rfl, rfl⟩
  · intro s m op h hop
    exact (poolRun_exec h.1 hop.allowed).and (frugal_exec h.1 h.2 hop)

-- ================================================================== the bill

/-- The bytes of all blocks. -/
def totalSize : List Block → Nat
  | [] => 0
  | b :: bs => b.size + totalSize bs

/-- Each chunk is twice as large as the one before it. -/
theorem totalSize_doubling (unit : Nat) {chunks : List Block}
    (h : ∀ i c, chunks.reverse[i]? = some c → c.size = unit * 2 ^ (i + 1)) :
    totalSize chunks + 2 * unit = unit * 2 ^ (chunks.length + 1) := by
  induction chunks with
  | nil =>
      show 0 + 2 * unit = unit * 2
      omega
  | cons c chunks ih =>
      have hc : c.size = unit * 2 ^ (chunks.length + 1) := by
        apply h chunks.length c
        rw [List.reverse_cons, List.getElem?_append_right (by simp)]
        simp
      have hrest := ih fun i d hd => by
        apply h i d
        have hlt : i < chunks.reverse.length :=
          (List.getElem?_eq_some_iff.mp hd).1
        rw [List.reverse_cons, List.getElem?_append_left hlt]
        exact hd
      rw [totalSize, List.length_cons, mul_pow_succ, hc]
      omega

/-- What a pool costs whose user never holds more than `k` elements. -/
structure Economy (count size k : Nat) (s : PoolClient) (m : Machine) : Prop where
  /-- no more elements are carved than were held at once -/
  elements : s.live.length + s.recycled.length ≤ k
  /-- the chunks are less than twice as large as these and a first chunk -/
  bytes : totalSize m.arena.blocks ≤ 2 * size * (k + count)
  /-- chunks are few, and there are two requests for each -/
  chunks : s.pool.poolCount = 0 ∨ count * (2 ^ s.pool.poolCount - 2) < k
  requests : m.tick = 2 * s.pool.poolCount

/-- A pool takes what its user needs at one time, however long it is used. -/
theorem cxPreallocPool_economy {mem : Mem} {oracle : Nat → Nat}
    (hcount : 0 < count) (hsize : 8 ≤ size) (hwrap : count * size * 2 < 2 ^ 64)
    (h : PoolClient.RunWithin k count size mem oracle s m) :
    Economy count size k s m := by
  obtain ⟨⟨chunks, -, hsole, -⟩, hfrugal⟩ := frugal_run hcount hsize hwrap h
  refine ⟨hfrugal.elements, ?_, hfrugal.chunks, hfrugal.requests⟩
  have htotal := totalSize_doubling (count * size) hsole.table.sizes
  rw [← hsole.table.count] at htotal
  rw [hsole.blocks]
  rcases hfrugal.chunks with hzero | hlt
  · rw [hzero] at htotal
    have hnone : totalSize chunks = 0 := by omega
    rw [hnone]
    exact Nat.zero_le _
  · have hbytes : count * (2 ^ s.pool.poolCount - 2) * size ≤ k * size :=
      Nat.mul_le_mul_right _ (Nat.le_of_lt hlt)
    rw [mul_pow_sub] at hbytes
    rw [mul_pow_succ] at htotal
    have hsum : 2 * size * (k + count) = 2 * (k * size) + 2 * (count * size) := by
      rw [Nat.mul_assoc, Nat.mul_add, Nat.mul_add, Nat.mul_comm size k,
        Nat.mul_comm size count]
    omega

/-- Three elements held at once at most, and elements taken six times. -/
theorem cxPreallocPool_economy_reuse : ∃ s m, Economy 1 8 3 s m
    ∧ s.pool.poolCount = 2 ∧ s.live.length = 3 ∧ s.recycled = [] := by
  obtain ⟨s, m, hrun, htest⟩ := reached_of_replayFrom
    (PoolClient.start 1 8) PoolClient.exec (fun s _ op => op.Within 3 s)
    (Machine.boot (fun _ => 0) fun t => 2 ^ 20 * (t + 1))
    [.get, .get, .recycle 2097152, .get, .get, .recycle 2097152,
      .recycle 2097160, .get, .get]
    (fun x => decide (x.1.pool.poolCount = 2 ∧ x.1.live.length = 3
      ∧ x.1.recycled = []))
    (by decide +kernel)
  exact ⟨s, m, cxPreallocPool_economy (by decide) (by decide) (by decide) hrun,
    of_decide_eq_true htest⟩

end Cextras.Memory
