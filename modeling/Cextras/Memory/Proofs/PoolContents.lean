/-
What the elements read as when they are handed out. A chunk is zeroed when
it is added, but `reuse_node` clears no more than the link word of an
element that comes off the reuse list; the rest of it is what its last
user left. The disabled implementation gets every element from `calloc`.

`ContentsClient` is a pool's user that keeps a book on this: what each
element read as when it was handed out, and what was past the link word of
those it recycled (`left`). An element that is handed out again reads as
its cleared link word and what was left (`cxPreallocPoolGet_reads`), so all
elements come zeroed exactly when nothing was left in those handed out
again, and the first chunk has room for an element
(`cxPreallocPool_contents`).
-/
import Cextras.Memory.Proofs.PoolRuns

namespace Cextras.Memory

open Lib

-- ================================================================= client

/-- What an element reads as, where all of it is in one block. -/
def contents (size a : Nat) (m : Machine) : Option (List Byte) :=
  if m.Valid a size then some (m.mem.read a size) else none

/-- What is past the link word of an element. -/
def pastLink (size a : Nat) (m : Machine) : List Byte :=
  m.mem.read (a + reuseListSize) (size - reuseListSize)

structure ContentsClient where
  client : PoolClient
  /-- what the elements read as when they were handed out, oldest first -/
  handed : List (Option (List Byte))
  /-- what was past the link word of an element when it was recycled -/
  left : Nat → List Byte
  /-- of the recycled elements that were handed out again, oldest first -/
  reused : List (List Byte)

namespace ContentsClient

def start (elementCount elementSize : Nat) : C ContentsClient := do
  let client ← PoolClient.start elementCount elementSize
  pure ⟨client, [], fun _ => [], []⟩

def exec : PoolOp → ContentsClient → C ContentsClient
  | .get, s => do
      let (a, pool) ← cxPreallocPoolGet s.client.pool
      if a = 0 then
        pure { s with client.pool := pool }
      else
        let bytes ← C.observe (contents pool.elementSize a)
        pure {
          client := ⟨pool, a :: s.client.live, s.client.recycled.erase a⟩
          handed := s.handed ++ [bytes]
          left := s.left
          reused := if a ∈ s.client.recycled then s.reused ++ [s.left a]
            else s.reused }
  | .recycle a, s => do
      let bytes ← C.observe (pastLink s.client.pool.elementSize a)
      let client ← PoolClient.exec (.recycle a) s.client
      pure { s with client := client, left := Function.update s.left a bytes }
  | .write a i bs, s => do
      let client ← PoolClient.exec (.write a i bs) s.client
      pure { s with client := client }

/-- The states of runs in which every request was granted. -/
abbrev Run (elementCount elementSize : Nat) (mem : Mem)
    (oracle : Nat → Nat) : ContentsClient → Machine → Prop :=
  Reached (start elementCount elementSize) exec
    (fun s _ op => op.Allowed s.client) (Machine.boot mem oracle)

/-- Every element came zeroed. -/
def AllZero (size : Nat) (s : ContentsClient) : Prop :=
  ∀ bytes ∈ s.handed, bytes = some (List.replicate size 0)

/-- Nothing was left past the link words of the elements handed out
again. -/
def NothingLeft (size : Nat) (s : ContentsClient) : Prop :=
  ∀ bytes ∈ s.reused, bytes = List.replicate (size - reuseListSize) 0

end ContentsClient

variable {m m' : Machine} {p : CxPreallocPool} {chunks : List Block}
  {free live : List Nat} {s s' : ContentsClient} {c : PoolClient}
  {size unit : Nat} {op : PoolOp}

/-- The book hides nothing: a user of the pool can keep it. -/
theorem ContentsClient.exec_of_client
    (hrun : (PoolClient.exec op s.client).run m = .ok c m') :
    ∃ s', (ContentsClient.exec op s).run m = .ok s' m' ∧ s'.client = c := by
  cases op with
  | get =>
      obtain ⟨r, m₁, hget, hrun⟩ := bind_cases hrun
      unfold ContentsClient.exec
      simp only [C.run_bind, hget, C.chain_ok]
      dsimp only at hrun
      split at hrun
      · next hnull =>
          cases hrun
          rw [if_pos hnull]
          exact ⟨_, rfl, rfl⟩
      · next hne =>
          cases hrun
          rw [if_neg hne]
          exact ⟨_, rfl, rfl⟩
  | recycle a =>
      unfold ContentsClient.exec
      simp only [C.run_bind, run_observe, C.chain_ok, hrun]
      exact ⟨_, rfl, rfl⟩
  | write a i bs =>
      unfold ContentsClient.exec
      simp only [C.run_bind, C.chain_ok, hrun]
      exact ⟨_, rfl, rfl⟩

/-- Every run of a user has a book. -/
theorem PoolClient.Run.contents {count size : Nat} {mem : Mem}
    {oracle : Nat → Nat} (h : PoolClient.Run count size mem oracle c m) :
    ∃ s, ContentsClient.Run count size mem oracle s m ∧ s.client = c := by
  induction h with
  | start hrun hu =>
      refine ⟨⟨_, [], fun _ => [], []⟩, .start ?_ hu, rfl⟩
      unfold ContentsClient.start
      rw [C.run_bind, hrun, C.chain_ok, C.run_pure]
  | step _ hop hrun hu ih =>
      obtain ⟨s, hs, rfl⟩ := ih
      obtain ⟨s', hrun', rfl⟩ := ContentsClient.exec_of_client hrun
      exact ⟨s', .step hs hop hrun' hu, rfl⟩

-- ==================================================================== get

/-- What a get returns reads as zeros, but for what was left past the link
word. -/
theorem cxPreallocPoolGet_reads (h : PoolInv m p chunks free live) :
    (cxPreallocPoolGet p).Granted m fun r m' =>
      m'.mem.read r.1 p.elementSize = if r.1 ∈ free
        then List.replicate reuseListSize 0 ++ pastLink p.elementSize r.1 m
        else List.replicate p.elementSize 0 := by
  cases free with
  | nil =>
      refine (cxPreallocPoolGet_keeps h).imp ?_
      intro r m' hr
      obtain ⟨chunks', hh⟩ := hr
      rw [if_neg List.not_mem_nil]
      exact read_of_zero (hh.zeroed rfl).2
  | cons a rest =>
      have hne : p.reusePool ≠ 0 := by
        obtain ⟨ha, -, -⟩ := h.reuse.uncons
        rw [ha]
        exact h.ne_zero (by simp)
      have hsize : p.elementSize
          = reuseListSize + (p.elementSize - reuseListSize) :=
        (Nat.add_sub_cancel' h.size_ge).symm
      unfold cxPreallocPoolGet
      rw [if_pos hne]
      refine granted_of_run (run_reuseNode h) ?_
      dsimp only
      rw [if_pos List.mem_cons_self, hsize, read_append, read_zero_self, ← hsize]
      congr 1
      exact read_congr (agree_zero (Or.inr (Nat.le_refl _)))

/-- The disabled implementation. -/
theorem cxPreallocPoolGetDisabled_contents (p : CxPreallocPool) (m : Machine) :
    (cxPreallocPoolGetDisabled p).Granted m fun a m' =>
      contents p.elementSize a m'
        = some (List.replicate p.elementSize 0) := by
  refine granted_calloc fun hf => ?_
  have hvalid : Machine.Valid ⟨m.mem.zero (m.oracle m.tick) p.elementSize,
      m.arena.add _ hf, m.arrays, m.oracle, m.tick + 1, m.refused, m.calls⟩
      (m.oracle m.tick) p.elementSize :=
    ⟨_, List.mem_cons_self, Nat.le_refl _, Nat.le_refl _⟩
  unfold contents
  rw [if_pos hvalid]
  exact congrArg some (read_zero_self m.mem _ _)

-- ============================================================= the first

/-- The first get of a pool makes its first chunk. -/
theorem cxPreallocPoolGet_first (hreuse : p.reusePool = 0)
    (hpools : p.pools = none) :
    (cxPreallocPoolGet p).Granted m fun r m' =>
      ∃ p', Added m p p' m' ∧ r = bumpElement p' := by
  unfold cxPreallocPoolGet
  rw [if_neg (not_not.mpr hreuse), if_pos (Or.inl (by rw [hpools]; rfl))]
  refine granted_bind (addChunk_added p m) ?_
  intro r m₁ hr
  obtain ⟨rv, p'⟩ := r
  obtain ⟨rfl, hadded⟩ := hr
  exact granted_pure ⟨p', hadded, rfl⟩

/-- A pool whose first chunk was made, with room for an element. -/
theorem Added.poolInv {p' : CxPreallocPool} (h : Added m p p' m')
    (hreuse : p.reusePool = 0) (hsize : 8 ≤ p.elementSize)
    (hroom : p.elementSize ≤ p.chunkSize * 2 % 2 ^ 64) :
    PoolInv m' p' [p'.current] [] [] := by
  obtain ⟨a, rfl⟩ : ∃ a, p' = p.added m.tick a := ⟨_, h.pool⟩
  refine ⟨hsize, hroom, h.fits.1.2.2, ?_, List.nodup_nil, nofun, ?_,
    Or.inr ⟨nofun, List.mem_cons_self⟩, fun _ => ⟨Nat.dvd_zero _, Nat.zero_le _⟩,
    nofun, fun _ x hlo hhi => h.mem_new hlo hhi⟩
  · intro c hc
    rw [List.mem_singleton.mp hc]
    exact h.current_mem
  · show Linked m'.mem 0 p.reusePool []
    rw [hreuse]
    exact .nil

-- ============================================================= invariants

/-- Nothing was handed out yet. -/
structure Unused (unit size : Nat) (s : ContentsClient) (m : Machine) :
    Prop where
  size_ge : 8 ≤ size
  client : s.client = ⟨⟨none, unit % 2 ^ 64, size, 0, 0, 0, 0⟩, [], []⟩
  blocks : m.arena.blocks = []
  handed : s.handed = []
  reused : s.reused = []

/-- Elements are handed out, and the book says what they read as. -/
structure Booked (size : Nat) (s : ContentsClient) (m : Machine) : Prop where
  inv : ∃ chunks, PoolInv m s.client.pool chunks s.client.recycled s.client.live
  elementSize : s.client.pool.elementSize = size
  handed : s.handed ≠ []
  left : ∀ a ∈ s.client.recycled, pastLink size a m = s.left a
  zero : s.AllZero size ↔ s.NothingLeft size

/-- Some element was not all there when it was handed out. -/
def Torn (s : ContentsClient) : Prop := none ∈ s.handed

/-- What holds in every state. -/
def ContentsInv (unit size : Nat) (s : ContentsClient) (m : Machine) : Prop :=
  Unused unit size s m ∨ (size ≤ unit * 2 % 2 ^ 64 ∧ Booked size s m)
    ∨ (unit * 2 % 2 ^ 64 < size ∧ Torn s)

theorem contentsInv_start {count : Nat} {mem : Mem} {oracle : Nat → Nat}
    (hrun : (ContentsClient.start count size).run (Machine.boot mem oracle)
      = .ok s m) : ContentsInv (count * size) size s m := by
  obtain ⟨client, m₁, hstart, hrun⟩ := bind_cases hrun
  obtain ⟨pool, m₂, hinit, hpool⟩ := bind_cases hstart
  cases hrun
  cases hpool
  unfold cxPreallocPoolInit2 C.assert at hinit
  split at hinit
  · next hsize =>
      split at hinit
      · cases hinit
        exact Or.inl ⟨hsize, rfl, rfl, rfl, rfl⟩
      · cases hinit
  · cases hinit

-- ================================================================== steps

/-- An element that was just handed out. -/
theorem Handout.contents {a : Nat} {p' : CxPreallocPool} {chunks' : List Block}
    {free' : List Nat} (h : Handout m p chunks free live a p' m' chunks' free') :
    contents p'.elementSize a m' = some (m'.mem.read a p.elementSize) := by
  have hin : a ∈ free' ++ a :: live := by simp
  have hvalid : m'.Valid a p'.elementSize := h.inv.valid (i := 0) hin (by omega)
  unfold Memory.contents
  rw [if_pos hvalid, h.size]

/-- What is past the link words of the other recycled elements stays. -/
theorem Handout.pastLink_other {a b : Nat} {p' : CxPreallocPool}
    {chunks' : List Block} {free' : List Nat}
    (h : Handout m p chunks free live a p' m' chunks' free')
    (hinv : PoolInv m p chunks free live) (hb : b ∈ free) (hb' : b ∈ free')
    (hne : b ≠ a) :
    pastLink p.elementSize b m' = pastLink p.elementSize b m := by
  obtain ⟨d, hd, hhas⟩ := hinv.inChunk (List.mem_append_left live hb)
  have hsep := h.inv.separated (a := b) (b := a) (by simp [hb']) (by simp) hne
  rw [h.size] at hsep
  apply read_congr
  intro x hlo hhi
  unfold reuseListSize at hlo hhi
  refine h.mem d (hinv.owned d hd) x ?_ ?_
  · simp only [Block.Has] at hhas ⊢
    omega
  · omega

theorem Unused.get (h : Unused unit size s m) :
    (ContentsClient.exec .get s).Granted m (ContentsInv unit size) := by
  obtain ⟨hsize, hclient, hblocks, hhanded, hreused⟩ := h
  obtain ⟨client, handed, left, reused⟩ := s
  dsimp only at hclient hhanded hreused
  subst hclient
  refine granted_bind (cxPreallocPoolGet_first rfl rfl) ?_
  intro r m₁ hr
  obtain ⟨p', hadded, rfl⟩ := hr
  have hq : p'.chunkSize = unit * 2 % 2 ^ 64 := by
    rw [hadded.pool]
    exact Nat.mod_mul_mod unit 2 (2 ^ 64)
  have hoff : p'.nextOffset = 0 := by
    rw [hadded.pool]
    rfl
  have hel : p'.elementSize = size := by
    rw [hadded.pool]
    rfl
  have hpos := hadded.fits.1.1
  have hne : (bumpElement p').1 ≠ 0 := by
    show p'.currentPool + p'.nextOffset ≠ 0
    have hpos' : 0 < p'.currentPool := hpos
    omega
  show (if (bumpElement p').1 = 0 then _ else _ : C ContentsClient).Granted m₁ _
  rw [if_neg hne]
  refine granted_pure ?_
  by_cases hroom : size ≤ unit * 2 % 2 ^ 64
  · right
    left
    have hinv := hadded.poolInv rfl hsize (by
      show size ≤ unit % 2 ^ 64 * 2 % 2 ^ 64
      rwa [Nat.mod_mul_mod])
    have hh := hinv.bump (by rw [hadded.pool]; exact nofun) (by omega)
    have hzero := (hh.zeroed rfl).2
    refine ⟨hroom, ⟨[p'.current], hh.inv⟩, hel, by simp, nofun, ?_⟩
    refine iff_of_true ?_ ?_
    · intro bytes hbytes
      rw [hhanded] at hbytes
      rw [List.mem_singleton.mp hbytes]
      refine hh.contents.trans ?_
      rw [hel] at hzero ⊢
      exact congrArg some (read_of_zero hzero)
    · intro bytes hbytes
      rw [if_neg List.not_mem_nil, hreused] at hbytes
      cases hbytes
  · right
    right
    refine ⟨by omega, ?_⟩
    -- the chunk is smaller than an element
    have hinvalid : ¬ m₁.Valid (bumpElement p').1 p'.elementSize := by
      intro hvalid
      obtain ⟨b, hb, hlo, hhi⟩ := hvalid
      rw [hadded.blocks, hblocks] at hb
      rw [List.mem_singleton.mp hb] at hlo hhi
      simp only [bumpElement, CxPreallocPool.current] at hlo hhi
      omega
    have hnone : contents p'.elementSize (bumpElement p').1 m₁ = none :=
      if_neg hinvalid
    refine List.mem_append_right _ ?_
    exact List.mem_singleton.mpr hnone.symm

theorem Booked.get (h : Booked size s m) :
    (ContentsClient.exec .get s).Granted m (Booked size) := by
  obtain ⟨⟨chunks, hinv⟩, hel, hhanded, hleft, hzero⟩ := h
  have hsize : size = reuseListSize + (size - reuseListSize) := by
    have hge := hinv.size_ge
    unfold reuseListSize
    omega
  have hnodup := (List.nodup_append.mp hinv.nodup).1
  refine granted_bind ((cxPreallocPoolGet_handout hinv).and
    (cxPreallocPoolGet_reads hinv)) ?_
  intro r m' hr
  obtain ⟨⟨chunks', hh⟩, hreads⟩ := hr
  obtain ⟨a, p'⟩ := r
  have hcontents := hh.contents
  dsimp only at hh hreads hcontents ⊢
  rw [hreads] at hcontents
  rw [if_neg (hh.inv.ne_zero (by simp))]
  refine granted_pure ⟨⟨chunks', hh.inv⟩, hh.size.trans hel, by simp, ?_, ?_⟩
  · intro b hb
    have hb' : b ∈ s.client.recycled := List.mem_of_mem_erase hb
    have hne : b ≠ a := (hnodup.mem_erase_iff.mp hb).1
    rw [← hleft b hb', ← hel]
    exact hh.pastLink_other hinv hb' hb hne
  · unfold ContentsClient.AllZero ContentsClient.NothingLeft at hzero ⊢
    dsimp only
    rw [hcontents, hel]
    by_cases ha : a ∈ s.client.recycled
    · rw [if_pos ha, if_pos ha, hleft a ha]
      simp only [List.forall_mem_append, List.forall_mem_singleton]
      refine and_congr hzero ?_
      rw [Option.some.injEq]
      conv => lhs; rhs; rw [hsize, List.replicate_add]
      exact List.append_right_inj _
    · rw [if_neg ha, if_neg ha, List.forall_mem_append, List.forall_mem_singleton,
        and_iff_left rfl]
      exact hzero

theorem Booked.recycle {a : Nat} (h : Booked size s m)
    (ha : a ∈ s.client.live) :
    (ContentsClient.exec (.recycle a) s).Granted m (Booked size) := by
  obtain ⟨⟨chunks, hinv⟩, hel, hhanded, hleft, hzero⟩ := h
  obtain ⟨hrun, hinv'⟩ := run_cxPreallocPoolRecycle hinv ha
  have hexec : (PoolClient.exec (.recycle a) s.client).run m
      = .ok ⟨{ s.client.pool with reusePool := a }, s.client.live.erase a,
          a :: s.client.recycled⟩
        { m with mem := m.mem.store64 a s.client.pool.reusePool } := by
    unfold PoolClient.exec
    rw [C.run_bind, hrun, C.chain_ok, C.run_pure]
  refine granted_bind_run (run_observe _) (granted_bind_run hexec ?_)
  refine granted_pure ⟨⟨chunks, hinv'⟩, hel, hhanded, ?_, hzero⟩
  intro b hb
  dsimp only at hb ⊢
  rw [hel]
  by_cases hba : b = a
  · rw [hba, Function.update_self]
    exact read_congr (agree_store64 (Or.inr (Nat.le_refl _)))
  · have hb' : b ∈ s.client.recycled := (List.mem_cons.mp hb).resolve_left hba
    have hsep := hinv.separated (List.mem_append_left _ hb')
      (List.mem_append_right _ ha) hba
    have hge := hinv.size_ge
    rw [Function.update_of_ne hba, ← hleft b hb']
    refine read_congr (agree_store64 ?_)
    unfold reuseListSize
    omega

theorem Booked.write {a i : Nat} {bs : List Byte} (h : Booked size s m)
    (ha : a ∈ s.client.live) (hfit : i + bs.length ≤ s.client.pool.elementSize) :
    (ContentsClient.exec (.write a i bs) s).Granted m (Booked size) := by
  obtain ⟨⟨chunks, hinv⟩, hel, hhanded, hleft, hzero⟩ := h
  obtain ⟨hrun, hinv'⟩ := hinv.write ha hfit
  have hexec : (PoolClient.exec (.write a i bs) s.client).run m
      = .ok s.client { m with mem := m.mem.write (a + i) bs } := by
    unfold PoolClient.exec
    rw [C.run_bind, hrun, C.chain_ok, C.run_pure]
  refine granted_bind_run hexec ?_
  refine granted_pure ⟨⟨chunks, hinv'⟩, hel, hhanded, ?_, hzero⟩
  intro b hb
  have hne : b ≠ a := by
    intro heq
    exact (List.nodup_append.mp hinv.nodup).2.2 b hb a ha heq
  have hsep := hinv.separated (List.mem_append_left _ hb)
    (List.mem_append_right _ ha) hne
  have hge := hinv.size_ge
  rw [← hleft b hb]
  refine read_write_of_disjoint ?_
  unfold reuseListSize
  omega

theorem Booked.exec (h : Booked size s m) (hop : op.Allowed s.client) :
    (ContentsClient.exec op s).Granted m (Booked size) := by
  cases op with
  | get => exact h.get
  | recycle a => exact h.recycle hop
  | write a i bs => exact h.write hop.1 hop.2

/-- What was handed out stays in the book. -/
theorem Torn.exec (h : Torn s)
    (hrun : (ContentsClient.exec op s).run m = .ok s' m') : Torn s' := by
  cases op with
  | get =>
      obtain ⟨r, m₁, -, hrun⟩ := bind_cases hrun
      dsimp only at hrun
      split at hrun
      · cases hrun
        exact h
      · cases hrun
        exact List.mem_append_left _ h
  | recycle a =>
      obtain ⟨bytes, m₁, -, hrun⟩ := bind_cases hrun
      obtain ⟨client, m₂, -, hrun⟩ := bind_cases hrun
      cases hrun
      exact h
  | write a i bs =>
      obtain ⟨client, m₁, -, hrun⟩ := bind_cases hrun
      cases hrun
      exact h

theorem contentsInv_exec (h : ContentsInv unit size s m)
    (hop : op.Allowed s.client)
    (hrun : (ContentsClient.exec op s).run m = .ok s' m')
    (hu : m'.refused = false) : ContentsInv unit size s' m' := by
  rcases h with h | ⟨hroom, h⟩ | ⟨hroom, h⟩
  · -- there is nothing to recycle or to write to
    cases op with
    | get => exact h.get.of_run hrun hu
    | recycle a =>
        have hnone : a ∈ s.client.live := hop
        rw [h.client] at hnone
        cases hnone
    | write a i bs =>
        have hnone : a ∈ s.client.live := hop.1
        rw [h.client] at hnone
        cases hnone
  · exact Or.inr (Or.inl ⟨hroom, (h.exec hop).of_run hrun hu⟩)
  · exact Or.inr (Or.inr ⟨hroom, h.exec hrun⟩)

-- =================================================================== runs

/-- In every run, all elements came zeroed if and only if the first chunk
has room for one and nothing was left past the link words of those handed
out again. -/
theorem cxPreallocPool_contents {count : Nat} {mem : Mem}
    {oracle : Nat → Nat} (h : ContentsClient.Run count size mem oracle s m) :
    s.AllZero size ↔
      (s.handed = [] ∨ size ≤ count * size * 2 % 2 ^ 64) ∧ s.NothingLeft size := by
  have hinv : ContentsInv (count * size) size s m :=
    h.invariant_returned (ContentsInv (count * size) size)
      (fun s m hrun _ => contentsInv_start hrun)
      (fun s m op s' m' hinv hop hrun hu => contentsInv_exec hinv hop hrun hu)
  rcases hinv with hunused | ⟨hroom, hbooked⟩ | ⟨hroom, htorn⟩
  · refine iff_of_true ?_ ⟨Or.inl hunused.handed, ?_⟩
    · unfold ContentsClient.AllZero
      rw [hunused.handed]
      exact nofun
    · unfold ContentsClient.NothingLeft
      rw [hunused.reused]
      exact nofun
  · rw [hbooked.zero]
    exact ⟨fun hnothing => ⟨Or.inr hroom, hnothing⟩, And.right⟩
  · refine iff_of_false ?_ ?_
    · exact fun hall => nomatch hall none htorn
    · intro hright
      rcases hright.1 with hnone | hle
      · exact List.ne_nil_of_mem htorn hnone
      · omega

/-- An element whose first word was written to is recycled and handed out
again. -/
theorem cxPreallocPool_contents_word : ∃ s m,
    ContentsClient.Run 1 16 (fun _ => 0) (fun t => 2 ^ 20 * (t + 1)) s m
      ∧ s.reused.length = 1 ∧ s.AllZero 16 := by
  obtain ⟨s, m, hrun, htest⟩ := reached_of_replayFrom
    (ContentsClient.start 1 16) ContentsClient.exec
    (fun s _ op => op.Allowed s.client)
    (Machine.boot (fun _ => 0) fun t => 2 ^ 20 * (t + 1))
    [.get, .write 2097152 0 [7, 8], .recycle 2097152, .get]
    (fun x => decide (x.1.reused = [List.replicate 8 0]))
    (by decide +kernel)
  have hreused : s.reused = [List.replicate 8 0] := of_decide_eq_true htest
  refine ⟨s, m, hrun, by rw [hreused]; rfl, ?_⟩
  refine (cxPreallocPool_contents hrun).mpr ⟨Or.inr (by decide), ?_⟩
  intro bytes hbytes
  rw [hreused] at hbytes
  exact List.mem_singleton.mp hbytes

/-- The ninth byte of an element stays as its last user left it. -/
theorem cxPreallocPoolGet_dirty : ∃ s m,
    ContentsClient.Run 1 16 (fun _ => 0) (fun t => 2 ^ 20 * (t + 1)) s m
      ∧ s.handed = [some (List.replicate 16 0),
          some (List.replicate 8 0 ++ 7 :: List.replicate 7 0)]
      ∧ ¬ s.AllZero 16 := by
  obtain ⟨s, m, hrun, htest⟩ := reached_of_replayFrom
    (ContentsClient.start 1 16) ContentsClient.exec
    (fun s _ op => op.Allowed s.client)
    (Machine.boot (fun _ => 0) fun t => 2 ^ 20 * (t + 1))
    [.get, .write 2097152 8 [7], .recycle 2097152, .get]
    (fun x => decide (x.1.handed = [some (List.replicate 16 0),
      some (List.replicate 8 0 ++ 7 :: List.replicate 7 0)]))
    (by decide +kernel)
  have hhanded := of_decide_eq_true htest
  refine ⟨s, m, hrun, hhanded, ?_⟩
  intro hall
  have hdirty := hall (some (List.replicate 8 0 ++ 7 :: List.replicate 7 0))
    (by rw [hhanded]; simp)
  exact absurd hdirty (by decide)

end Cextras.Memory
