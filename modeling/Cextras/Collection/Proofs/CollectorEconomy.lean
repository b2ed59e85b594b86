/-
What collecting costs. A buffer that is only appended to has the least power
of two for its size, and each request at least doubled it, so the requests
are as few as the binary digits of the size. `cx_collect` fills two such
buffers in turns and then puts one behind the other; any request may be
refused, and the iterator may fail. Whichever way it ends, it asked the
allocator for no more than twice the digits of the size of the block, and for
the one request that was refused (`cxCollect_economy`).
-/
import Mathlib.Data.Nat.Log
import Cextras.Lib.Requests
import Cextras.Collection.Proofs.BufferGrowth
import Cextras.Collection.Proofs.CollectorFootprint

namespace Cextras.Collection

open Lib

variable {b l w : CxBuffer} {k n : Nat} {us : List (List Byte)}
  {next : Nat → NextResult}

-- ================================================================ buffers

/-- After `k` requests were granted. -/
def Doubled (b : CxBuffer) (k : Nat) : Prop :=
  b.capacity = 0 ∧ b.size = 0 ∧ k = 0
    ∨ ∃ e, b.capacity = 2 ^ e ∧ IsLeast (PowersFrom b.size) (2 ^ e) ∧ k ≤ e + 1

theorem doubled_empty : Doubled ⟨0, 0, 0⟩ 0 := Or.inl ⟨rfl, rfl, rfl⟩

/-- The requests, by any bound on the size. -/
theorem Doubled.requests_le (h : Doubled b k) (hsize : b.size ≤ n) :
    k ≤ Nat.clog 2 n + 1 := by
  rcases h with ⟨-, -, rfl⟩ | ⟨e, -, hleast, hk⟩
  · exact Nat.zero_le _
  · have hroom : n ≤ 2 ^ Nat.clog 2 n := Nat.le_pow_clog (by decide) n
    have hle : 2 ^ e ≤ 2 ^ Nat.clog 2 n :=
      hleast.2 ⟨⟨_, rfl⟩, hsize.trans hroom⟩
    have hexp := (Nat.pow_le_pow_iff_right (by decide)).mp hle
    omega

/-- More bytes in the same room. -/
theorem Doubled.fill (h : Doubled b k) (hcap : b.size + n ≤ b.capacity) :
    Doubled { b with size := b.size + n } k := by
  rcases h with ⟨hzero, -, hk⟩ | ⟨e, hpow, ⟨⟨hexp, hle⟩, hlower⟩, hk⟩
  · refine Or.inl ⟨hzero, ?_, hk⟩
    dsimp only
    omega
  · refine Or.inr ⟨e, hpow, ⟨⟨hexp, by dsimp only; omega⟩, ?_⟩, hk⟩
    intro c hc
    obtain ⟨hc, hlec⟩ := hc
    exact hlower ⟨hc, (Nat.le_add_right _ _).trans hlec⟩

/-- One request more, and at least twice the room. -/
theorem Doubled.grow (h : Doubled b k) {c : Nat} (a : Nat)
    (hleast : IsLeast (PowersFrom (b.size + n)) c)
    (hcap : b.capacity < b.size + n) :
    Doubled ⟨a, c, b.size + n⟩ (k + 1) := by
  obtain ⟨e', rfl⟩ := hleast.1.1
  have hroom : b.size + n ≤ 2 ^ e' := hleast.1.2
  refine Or.inr ⟨e', rfl, hleast, ?_⟩
  rcases h with ⟨-, -, rfl⟩ | ⟨e, hpow, -, hk⟩
  · omega
  · have hlt : e < e' :=
      (Nat.pow_lt_pow_iff_right (by decide : 1 < 2)).mp (by omega)
    omega

/-- What a call made of a buffer that `k` requests had grown, and `n` more
requests: none of them was granted where it failed. -/
def Asked (b : CxBuffer) (k : Nat) (source : List Byte) (rv : Int)
    (b' : CxBuffer) (n : Nat) : Prop :=
  rv < 0 ∧ b' = b ∧ n ≤ 1
    ∨ rv = 0 ∧ b'.size = b.size + source.length ∧ Doubled b' (k + n)

theorem addCapacity_asks (h : Doubled b k) (size : Nat) :
    (cxBufferAddCapacity b size).Asks fun r n =>
      r.1 < 0 ∧ r.2.2 = b ∧ n ≤ 1
        ∨ r.1 = 0 ∧ r.2.2.size = b.size ∧ b.size + size < 2 ^ 64
          ∧ Doubled { r.2.2 with size := b.size + size } (k + n) := by
  by_cases hover : Oversized b size
  · intro m r m' hrun
    rw [run_addCapacity_oversized hover] at hrun
    cases hrun
    exact ⟨0, rfl, Or.inl ⟨overflow_neg, rfl, Nat.zero_le _⟩⟩
  unfold Oversized at hover
  by_cases hcap : b.size + size ≤ b.capacity
  · intro m r m' hrun
    rw [run_addCapacity_fits (by omega) hcap] at hrun
    cases hrun
    exact ⟨0, rfl, Or.inr ⟨rfl, rfl, by omega, h.fill hcap⟩⟩
  · have hsize : b.size + size ≤ 2 ^ 63 := by omega
    have hleast := (roundToNextPow2_least hsize).2
    intro m r m' hrun
    rw [run_addCapacity_grows hsize (by omega), ← C.run_bind] at hrun
    apply asks_bind (asks_realloc _ _) (fun a i hi => ?_) m r m' hrun
    subst hi
    refine asks_ite (fun _ => asks_pure ?_) fun _ => asks_pure ?_
    · exact Or.inl ⟨alloc_neg, rfl, Nat.le_refl _⟩
    · refine Or.inr ⟨rfl, rfl, by omega, ?_⟩
      exact h.grow a hleast (Nat.not_le.mp hcap)

theorem cxBufferAppend_asks (h : Doubled b k) (source : List Byte) :
    (cxBufferAppend b source).Asks fun r n => Asked b k source r.1 r.2 n := by
  unfold cxBufferAppend
  refine asks_ite (fun hnil => asks_pure ?_) fun _ => ?_
  · refine Or.inr ⟨rfl, ?_, h⟩
    rw [hnil, Nat.add_zero]
  · apply asks_bind (addCapacity_asks h source.length)
    intro r i hr
    obtain ⟨rv, additional, b₁⟩ := r
    dsimp only at hr ⊢
    rcases hr with ⟨hneg, rfl, hi⟩ | ⟨rfl, hsize, hfits, hdoubled⟩
    · rw [if_pos hneg]
      exact asks_pure (Or.inl ⟨hneg, rfl, hi⟩)
    · rw [if_neg (Int.lt_irrefl 0)]
      cases additional with
      | none => exact asks_fail _
      | some target =>
          apply asks_after (.writeBytes target source)
          intro _ _
          apply asks_pure
          unfold cxBufferAddSize
          rw [hsize, if_neg (by omega)]
          exact Or.inr ⟨rfl, rfl, hdoubled⟩

-- ============================================================ both buffers

/-- Two buffers of at most so many bytes, after `k` granted requests. -/
structure Grown (table bytes : Nat) (l w : CxBuffer) (k : Nat) : Prop where
  requests : ∃ i j, k = i + j ∧ Doubled l i ∧ Doubled w j
  table : l.size ≤ table
  bytes : w.size ≤ bytes

variable {table bytes table' bytes' : Nat}

theorem Grown.mono (h : Grown table bytes l w k) (htable : table ≤ table')
    (hbytes : bytes ≤ bytes') : Grown table' bytes' l w k :=
  ⟨h.requests, h.table.trans htable, h.bytes.trans hbytes⟩

theorem Grown.swap (h : Grown table bytes l w k) : Grown bytes table w l k := by
  obtain ⟨⟨i, j, rfl, hl, hw⟩, htable, hbytes⟩ := h
  exact ⟨⟨j, i, Nat.add_comm i j, hw, hl⟩, hbytes, htable⟩

theorem Grown.appendList (h : Grown table bytes l w k) (source : List Byte) :
    (cxBufferAppend l source).Asks fun r n =>
      r.1 < 0 ∧ Grown table bytes r.2 w k ∧ n ≤ 1
        ∨ r.1 = 0 ∧ Grown (table + source.length) bytes r.2 w (k + n) := by
  obtain ⟨⟨i, j, rfl, hl, hw⟩, htable, hbytes⟩ := h
  apply (cxBufferAppend_asks hl source).imp
  intro r n hr
  rcases hr with ⟨hneg, rfl, hn⟩ | ⟨hrv, hsize, hdoubled⟩
  · exact Or.inl ⟨hneg, ⟨⟨i, j, rfl, hl, hw⟩, htable, hbytes⟩, hn⟩
  · refine Or.inr ⟨hrv, ⟨i + n, j, Nat.add_right_comm i j n, hdoubled, hw⟩, ?_,
      hbytes⟩
    rw [hsize]
    exact Nat.add_le_add_right htable _

/-- Neither buffer comes first. -/
theorem Grown.appendValues (h : Grown table bytes l w k) (source : List Byte) :
    (cxBufferAppend w source).Asks fun r n =>
      r.1 < 0 ∧ Grown table bytes l r.2 k ∧ n ≤ 1
        ∨ r.1 = 0 ∧ Grown table (bytes + source.length) l r.2 (k + n) := by
  apply (h.swap.appendList source).imp
  intro r n hr
  rcases hr with ⟨hneg, hgrown, hn⟩ | ⟨hrv, hgrown⟩
  · exact Or.inl ⟨hneg, hgrown.swap, hn⟩
  · exact Or.inr ⟨hrv, hgrown.swap⟩

/-- So many requests at most for a block of so many bytes. -/
def requestBound (size : Nat) : Nat := 2 * (Nat.clog 2 size + 1)

theorem Grown.le (h : Grown table bytes l w k) (htable : table ≤ n)
    (hbytes : bytes ≤ n) : k ≤ requestBound n := by
  obtain ⟨⟨i, j, rfl, hl, hw⟩, hlsize, hwsize⟩ := h
  have hi := hl.requests_le (hlsize.trans htable)
  have hj := hw.requests_le (hwsize.trans hbytes)
  unfold requestBound
  omega

-- =============================================================== the loop

/-- The buffers hold no more than the values, after `k` requests; where the
last call failed, one of them may have been refused. -/
def Filled (us : List (List Byte)) (rv : Int) (l w : CxBuffer) (k : Nat) :
    Prop :=
  ∃ n, Grown (8 * us.length) (valueBytes us).length l w n
    ∧ (k = n ∨ rv < 0 ∧ k ≤ n + 1)

theorem Filled.kept {rv : Int} (h : Grown table bytes l w n) (hk : k = n)
    (htable : table ≤ 8 * us.length) (hbytes : bytes ≤ (valueBytes us).length) :
    Filled us rv l w k := ⟨n, h.mono htable hbytes, Or.inl hk⟩

theorem Filled.failed {rv : Int} (h : Grown table bytes l w n) (hneg : rv < 0)
    (hk : k ≤ n + 1) (htable : table ≤ 8 * us.length)
    (hbytes : bytes ≤ (valueBytes us).length) : Filled us rv l w k :=
  ⟨n, h.mono htable hbytes, Or.inr ⟨hneg, hk⟩⟩

/-- What a round costs, and whether the iterator went on. -/
inductive RoundCost (r : NextResult) (us : List (List Byte)) (k : Nat) :
    Int × CxBuffer × CxBuffer → Prop where
  | last {rv : Int} {l w : CxBuffer} : rv ≤ 0 → (0 ≤ rv → r.Ends) →
      Filled us rv l w k → RoundCost r us k (rv, l, w)
  | value {v : List Byte} {rv : Int} {l w : CxBuffer} : 0 ≤ r.rv →
      r.value = some v → rv ≠ 0 → Filled (us ++ [v]) rv l w k →
      RoundCost r us k (rv, l, w)

theorem handleNext_asks (r : NextResult)
    (h : Grown (8 * us.length) (valueBytes us).length l w k) :
    (handleNext r l w).Asks fun x n => RoundCost r us (k + n) x := by
  unfold handleNext
  refine asks_ite (fun hneg => asks_pure ?_) fun hpos => ?_
  · refine .last (Int.le_of_lt hneg) (fun hpos => ?_) ⟨k, h, Or.inl rfl⟩
    exact absurd hneg (Int.not_lt.mpr hpos)
  rw [Int.not_lt] at hpos
  cases hv : r.value with
  | none =>
      apply asks_pure
      exact .last (Int.le_refl 0) (fun _ => ⟨hpos, hv⟩) ⟨k, h, Or.inl rfl⟩
  | some v =>
      have htable : 8 * (us ++ [v]).length = 8 * us.length + 8 := by
        simp [Nat.mul_add]
      have hbytes : (valueBytes (us ++ [v])).length
          = (valueBytes us).length + v.length + 1 := by
        simp [valueBytes_snoc, Nat.add_assoc]
      -- the offset
      apply asks_bind (h.appendList (leBytes 8 (cxBufferSize w)))
      intro x i hx
      obtain ⟨rv, l₁⟩ := x
      dsimp only at hx ⊢
      rw [leBytes_length] at hx
      rcases hx with ⟨hneg, hgrown, hi⟩ | ⟨hrv, hgrown⟩
      · rw [if_pos hneg]
        apply asks_pure
        exact .value hpos hv (Int.ne_of_lt hneg)
          (.failed hgrown hneg (by omega) (by omega) (by omega))
      rw [if_neg (by omega)]
      -- the value
      apply asks_bind (hgrown.appendValues v)
      intro y j hy
      obtain ⟨rv, w₁⟩ := y
      dsimp only at hy ⊢
      rcases hy with ⟨hneg, hgrown, hj⟩ | ⟨hrv, hgrown⟩
      · rw [if_pos hneg]
        apply asks_pure
        exact .value hpos hv (Int.ne_of_lt hneg)
          (.failed hgrown hneg (by omega) (by omega) (by omega))
      rw [if_neg (by omega)]
      -- the zero byte
      apply asks_bind (hgrown.appendValues [0])
      intro z n hz
      obtain ⟨rv, w₂⟩ := z
      dsimp only at hz ⊢
      rw [List.length_singleton] at hz
      rcases hz with ⟨hneg, hgrown, hn⟩ | ⟨hrv, hgrown⟩
      · rw [if_pos hneg]
        apply asks_pure
        exact .value hpos hv (Int.ne_of_lt hneg)
          (.failed hgrown hneg (by omega) (by omega) (by omega))
      · rw [if_neg (by omega)]
        apply asks_pure
        exact .value hpos hv (by decide)
          (.kept hgrown (by omega) (by omega) (by omega))

/-- What the loop costs in at most so many rounds. -/
def LoopCost (next : Nat → NextResult) (limit k : Nat)
    (x : Option (Int × Nat × CxBuffer × CxBuffer)) : Prop :=
  ∃ us, Yields next us ∧ us.length ≤ limit
    ∧ match x with
      | none => k ≤ requestBound (blockSize us)
      | some (rv, _, l, w) => rv ≤ 0 ∧ (0 ≤ rv → (next us.length).Ends)
          ∧ Filled us rv l w k

theorem collectLoop_asks (next : Nat → NextResult) (rounds : Nat) :
    ∀ {us : List (List Byte)} {l w : CxBuffer} {k : Nat}, Yields next us →
      Grown (8 * us.length) (valueBytes us).length l w k →
      (collectLoop next rounds us.length l w).Asks fun x n =>
        LoopCost next (us.length + rounds) (k + n) x := by
  induction rounds with
  | zero =>
      intro us l w k hy h
      apply asks_pure
      refine ⟨us, hy, Nat.le_refl _, h.le ?_ ?_⟩
      · unfold blockSize
        omega
      · unfold blockSize
        omega
  | succ rounds ih =>
      intro us l w k hy h
      unfold collectLoop
      apply asks_bind (handleNext_asks (next us.length) h)
      intro x i hx
      cases hx with
      | @last rv l w hrv hends hfilled =>
          dsimp only
          rw [if_neg (Int.not_lt.mpr hrv)]
          apply asks_pure
          exact ⟨us, hy, Nat.le_add_right _ _, hrv, hends, hfilled⟩
      | @value v rv l w hpos hv hne hfilled =>
          have hy' := hy.snoc hpos hv
          dsimp only
          refine asks_ite (fun hone => ?_) fun hstop => asks_pure ?_
          · obtain ⟨n, hgrown, hk | ⟨hneg, -⟩⟩ := hfilled
            · have hrest := ih hy' hgrown
              rw [List.length_append, List.length_singleton, ← hk] at hrest
              apply hrest.imp
              intro r j hr
              rwa [Nat.add_assoc, Nat.add_comm 1, Nat.add_assoc] at hr
            · omega
          · refine ⟨us ++ [v], hy', ?_, Int.not_lt.mp hstop, fun hz => ?_, hfilled⟩
            · rw [List.length_append, List.length_singleton]
              omega
            · omega

-- ================================================================= the end

theorem cxBufferBytes_length (b : CxBuffer) :
    (cxBufferBytes b).Stays fun bs => bs.length = b.size := by
  intro m bs m' hrun
  refine ⟨(cxBufferBytes_still b m bs m' hrun).1, ?_⟩
  unfold cxBufferBytes cxBufferSize at hrun
  split at hrun
  · next hzero =>
      cases hrun
      exact hzero.symm
  · unfold C.readBytes at hrun
    dsimp only at hrun
    split at hrun
    · cases hrun
      exact read_length ..
    · cases hrun

theorem cxBufferCleanup_asks (b : CxBuffer) :
    (cxBufferCleanup b).Asks fun _ n => n = 0 := by
  unfold cxBufferCleanup
  apply asks_bind (asks_free _)
  intro _ i hi
  exact asks_pure hi

theorem cxBufferUnwrap_asks (b : CxBuffer) :
    (cxBufferUnwrap b).Asks fun _ n => n = 0 := by
  unfold cxBufferUnwrap
  apply asks_bind (cxBufferCleanup_asks _)
  intro _ i hi
  exact asks_pure hi

theorem collectOut_asks (rv : Int) (target : Nat) (l w : CxBuffer) :
    (collectOut rv target l w).Asks fun x n => x = some (rv, target) ∧ n = 0 := by
  unfold collectOut
  apply asks_bind (cxBufferCleanup_asks l)
  intro _ i hi
  apply asks_bind (cxBufferCleanup_asks w)
  intro _ j hj
  apply asks_pure
  exact ⟨rfl, by omega⟩

/-- The bill, with the request that may have been refused. -/
def Billed (size : Nat) (rv : Int) (k : Nat) : Prop :=
  k ≤ requestBound size ∨ rv < 0 ∧ k ≤ requestBound size + 1

theorem Billed.failed {rv : Int} {size : Nat} (h : Grown table bytes l w n)
    (hneg : rv < 0) (hk : k ≤ n + 1) (htable : table ≤ size)
    (hbytes : bytes ≤ size) : Billed size rv k :=
  Or.inr ⟨hneg, hk.trans (Nat.succ_le_succ (h.le htable hbytes))⟩

theorem Filled.billed {rv : Int} (h : Filled us rv l w k) :
    Billed (blockSize us) rv k := by
  obtain ⟨n, hgrown, hk⟩ := h
  have hn : n ≤ requestBound (blockSize us) := by
    apply hgrown.le
    · unfold blockSize
      omega
    · unfold blockSize
      omega
  rcases hk with rfl | ⟨hneg, hk⟩
  · exact Or.inl hn
  · exact Or.inr ⟨hneg, by omega⟩

theorem joinBuffers_asks
    (h : Grown (8 * us.length) (valueBytes us).length l w k)
    (target elements : Nat) :
    (joinBuffers target elements l w).Asks fun x n =>
      Billed (blockSize us) x.1 (k + n) := by
  have hsize : blockSize us = 8 * us.length + 8 + (valueBytes us).length := by
    unfold blockSize
    omega
  unfold joinBuffers
  -- the null word
  apply asks_bind (h.appendList (leBytes 8 0))
  intro x i hx
  obtain ⟨rv, l₁⟩ := x
  dsimp only at hx ⊢
  rw [leBytes_length] at hx
  rcases hx with ⟨hneg, hgrown, hi⟩ | ⟨hrv, hgrown⟩
  · rw [if_pos hneg]
    exact asks_pure (.failed hgrown hneg (by omega) (by omega) (by omega))
  rw [if_neg (by omega)]
  -- the values
  apply asks_after (cxBufferBytes_length w)
  intro values hvalues
  apply asks_bind (hgrown.appendList values)
  intro y j hy
  obtain ⟨rv, l₂⟩ := y
  dsimp only at hy ⊢
  rcases hy with ⟨hneg, hgrown, hj⟩ | ⟨hrv, hgrown'⟩
  · rw [if_pos hneg]
    exact asks_pure (.failed hgrown hneg (by omega) (by omega) (by omega))
  rw [if_neg (by omega)]
  have hbytes := hgrown.bytes
  have hbill := hgrown'.le (n := blockSize us) (by omega) (by omega)
  apply asks_bind (cxBufferUnwrap_asks l₂)
  intro z n hz
  apply asks_after (rebase_still _ _ _ _)
  intro _ _
  apply asks_pure
  exact Or.inl (by omega)

-- ================================================================== the bill

/-- What a call that yielded `us` asked for. -/
structure CollectCost (next : Nat → NextResult) (rounds : Nat)
    (us : List (List Byte)) (r : Option (Int × Nat)) (k : Nat) : Prop where
  yields : Yields next us
  length : us.length ≤ rounds
  billed : match r with
    | none => k ≤ requestBound (blockSize us)
    | some (rv, _) => Billed (blockSize us) rv k
  ended : ∀ rv result, r = some (rv, result) → 0 ≤ rv → (next us.length).Ends

theorem cxCollect_asks (target : Nat) (next : Nat → NextResult)
    (rounds : Nat) :
    (cxCollect target next rounds).Asks fun r k =>
      ∃ us, CollectCost next rounds us r k := by
  have hempty : Grown (8 * ([] : List (List Byte)).length)
      (valueBytes []).length ⟨0, 0, 0⟩ ⟨0, 0, 0⟩ 0 :=
    ⟨⟨0, 0, rfl, doubled_empty, doubled_empty⟩, Nat.le_refl 0, Nat.le_refl 0⟩
  have hloop := collectLoop_asks next rounds Yields.nil hempty
  unfold cxCollect cxBufferInit
  simp only [if_neg (Int.lt_irrefl 0)]
  apply asks_bind hloop
  intro x i hx
  obtain ⟨us, hy, hlen, hx⟩ := hx
  rw [List.length_nil, Nat.zero_add] at hlen
  rw [Nat.zero_add] at hx
  cases x with
  | none =>
      apply asks_pure
      exact ⟨us, hy, hlen, hx, fun rv result hr => nomatch hr⟩
  | some y =>
      obtain ⟨rv, elements, l, w⟩ := y
      obtain ⟨hrv, hends, hfilled⟩ := hx
      refine asks_ite (fun hneg => ?_) fun hpos => ?_
      · apply (collectOut_asks rv target l w).imp
        intro r n hr
        obtain ⟨rfl, rfl⟩ := hr
        refine ⟨us, hy, hlen, hfilled.billed, ?_⟩
        intro rv' result hr hpos
        cases hr
        exact absurd hneg (Int.not_lt.mpr hpos)
      · obtain ⟨n, hgrown, rfl | ⟨hneg, -⟩⟩ := hfilled
        · apply asks_bind (joinBuffers_asks hgrown target elements)
          intro z j hbilled
          apply (collectOut_asks _ _ _ _).imp
          intro r n hr
          obtain ⟨rfl, rfl⟩ := hr
          refine ⟨us, hy, hlen, hbilled, ?_⟩
          intro _ _ _ _
          exact hends (Int.not_lt.mp hpos)
        · exact absurd hneg hpos

theorem CollectCost.le {rounds : Nat} {r : Option (Int × Nat)}
    (h : CollectCost next rounds us r k) :
    k ≤ requestBound (blockSize us) + 1 := by
  have hbilled := h.billed
  cases r with
  | none => exact hbilled.trans (Nat.le_succ _)
  | some x =>
      rcases hbilled with hk | ⟨-, hk⟩
      · exact hk.trans (Nat.le_succ _)
      · exact hk

/-- A call that returned 0 has collected what was yielded. -/
theorem CollectResult.zero_collected {rounds target result : Nat} {m m' : Machine}
    (h : CollectResult next rounds target m m' (some (0, result))) :
    ∃ vs, Yields next vs ∧ (next vs.length).Ends ∧ Collected m' result vs := by
  generalize hx : some ((0 : Int), result) = x at h
  cases h with
  | @collected vs result' hy hends _ _ hcollected =>
      cases hx
      exact ⟨vs, hy, hends, hcollected⟩
  | stopped _ hfails =>
      obtain ⟨hrv, -⟩ := Prod.mk.inj (Option.some.inj hx)
      unfold NextResult.Fails at hfails
      omega
  | unfilled _ hdenied =>
      obtain ⟨hrv, -⟩ := Prod.mk.inj (Option.some.inj hx)
      have hneg := hdenied.neg
      omega
  | unjoined _ _ _ hdenied =>
      obtain ⟨hrv, -⟩ := Prod.mk.inj (Option.some.inj hx)
      have hneg := hdenied.neg
      omega
  | unfinished => cases hx

/-- However many values the iterator yields, the requests are as few as the
digits of the size of the block: no more than twice as many, and one that was
refused. -/
theorem cxCollect_economy {m : Machine} (hsolid : m.arena.Solid)
    (next : Nat → NextResult) (rounds target : Nat) :
    ∃ r m' us, (cxCollect target next rounds).run m = .ok r m'
      ∧ Yields next us ∧ us.length ≤ rounds
      ∧ m'.tick ≤ m.tick + 2 * (Nat.clog 2 (blockSize us) + 1) + 1
      ∧ ∀ result, r = some (0, result) → Collected m' result us
        ∧ m'.tick ≤ m.tick + 2 * (Nat.clog 2 (blockSize us) + 1) := by
  obtain ⟨r, m', hrun, hresult⟩ := cxCollect_result hsolid target next rounds
  obtain ⟨k, htick, us, hcost⟩ := cxCollect_asks target next rounds m r m' hrun
  refine ⟨r, m', us, hrun, hcost.yields, hcost.length, ?_, ?_⟩
  · have hk := hcost.le
    unfold requestBound at hk
    omega
  · intro result hr
    subst hr
    have hbilled : Billed (blockSize us) 0 k := hcost.billed
    have hk : k ≤ requestBound (blockSize us) := by
      rcases hbilled with hk | ⟨hneg, -⟩
      · exact hk
      · exact absurd hneg (Int.lt_irrefl 0)
    have hends := hcost.ended 0 result rfl (Int.le_refl 0)
    refine ⟨?_, by unfold requestBound at hk; omega⟩
    obtain ⟨vs, hvs, hvsends, hcollected⟩ := hresult.zero_collected
    rw [hcost.yields.unique hvs (Or.inl hends) (Or.inl hvsends)]
    exact hcollected

/-- Twelve empty values are 38 calls of `cx_buffer_append`, and 10 requests. -/
theorem cxCollect_economy_twelve : ∃ result m' us,
    (cxCollect 0 (fun i => ⟨0, (List.replicate 12 [])[i]?⟩) 13).run
        (Machine.boot (fun _ => 0) fun t => 2 ^ 20 * (t + 1))
          = .ok (some (0, result)) m'
      ∧ m'.tick = 10 ∧ m'.tick ≤ 2 * (Nat.clog 2 (blockSize us) + 1)
      ∧ Collected m' result us := by
  obtain ⟨r, m', us, hrun, -, -, -, hcollected⟩ := cxCollect_economy
    (m := Machine.boot (fun _ => 0) fun t => 2 ^ 20 * (t + 1))
    (Machine.boot_solid _ _) (fun i => ⟨0, (List.replicate 12 [])[i]?⟩) 13 0
  have hvalue := congrArg Outcome.value hrun
  have htick := congrArg (fun o => o.machine.tick) hrun
  have hzero : ((cxCollect 0 (fun i => ⟨0, (List.replicate 12 [])[i]?⟩) 13).run
      (Machine.boot (fun _ => 0) fun t => 2 ^ 20 * (t + 1))).value
        = some (some (0, 9 * 2 ^ 20)) := by
    decide +kernel
  have hten : ((cxCollect 0 (fun i => ⟨0, (List.replicate 12 [])[i]?⟩) 13).run
      (Machine.boot (fun _ => 0) fun t => 2 ^ 20 * (t + 1))).machine.tick
        = 10 := by
    decide +kernel
  obtain rfl : some (0, 9 * 2 ^ 20) = r :=
    Option.some.inj (hzero.symm.trans hvalue)
  obtain ⟨hblock, hle⟩ := hcollected _ rfl
  refine ⟨_, m', us, hrun, htick.symm.trans hten, ?_, hblock⟩
  exact hle.trans_eq (Nat.zero_add _)

end Cextras.Collection
