/-
What the buffer operations do to one buffer and to the memory beside it.
A buffer owns the block its data is in (`Owned`); growing may move that
block, keeping its bytes (`Regrown`), and an append puts bytes behind
those in use (`Appended`). Everything else in memory stays (`Beside`,
Lib/Realloc.lean). An operation that fails leaves the buffer as it was
and memory untouched (`Quiet`).
-/
import Cextras.Collection.Buffer
import Cextras.Lib.Realloc

namespace Cextras.Collection

open Lib

variable {m m' : Machine} {b b' : CxBuffer} {n : Nat} {bs : List Byte}

-- ============================================================= ownership

/-- The buffer's data is a block of its own. -/
structure Owned (m : Machine) (b : CxBuffer) : Prop where
  solid : m.arena.Solid
  block : b.data = 0 ∧ b.capacity = 0
    ∨ b.data ≠ 0 ∧ (⟨b.data, b.capacity⟩ : Block) ∈ m.arena.blocks
  size_le : b.size ≤ b.capacity

namespace Owned

theorem mem_block (h : Owned m b) (hpos : 0 < b.capacity) :
    (⟨b.data, b.capacity⟩ : Block) ∈ m.arena.blocks := by
  rcases h.block with hnull | hsome
  · omega
  · exact hsome.2

theorem capacity_lt (h : Owned m b) : b.capacity < 2 ^ 64 := by
  rcases h.block with hnull | hsome
  · omega
  · have := (m.arena.bounded _ hsome.2).2
    simp only at this
    omega

/-- Bytes within the capacity may be accessed. -/
theorem valid (h : Owned m b) {i : Nat} (hfit : i + n ≤ b.capacity)
    (hn : 0 < n) : m.Valid (b.data + i) n := by
  refine ⟨_, h.mem_block (by omega), ?_, ?_⟩
  · exact Nat.le_add_right ..
  · show b.data + i + n ≤ b.data + b.capacity
    omega

theorem quiet (h : Owned m b) (hq : Quiet m m') : Owned m' b := by
  obtain ⟨hsolid, hblock, hle⟩ := h
  rw [← hq.arena] at hsolid hblock
  exact ⟨hsolid, hblock, hle⟩

/-- The buffer's block is there to be freed. -/
theorem freeable (h : Owned m b) :
    b.data = 0 ∨ ∃ c ∈ m.arena.blocks, c.base = b.data := by
  rcases h.block with hnull | hsome
  · exact Or.inl hnull.1
  · exact Or.inr ⟨_, hsome.2, rfl⟩

theorem empty (hsolid : m.arena.Solid) : Owned m ⟨0, 0, 0⟩ :=
  ⟨hsolid, Or.inl ⟨rfl, rfl⟩, Nat.le_refl _⟩

end Owned

-- =============================================================== growing

/-- The buffer has at least the capacity it had, and its bytes. -/
structure Regrown (m : Machine) (b : CxBuffer) (m' : Machine) (b' : CxBuffer) :
    Prop where
  owned : Owned m' b'
  size : b'.size = b.size
  capacity : b.capacity ≤ b'.capacity
  bytes : ∀ i < b.capacity, m'.mem (b'.data + i) = m.mem (b.data + i)
  beside : Beside m b.data m' b'.data
  refused : m'.refused = m.refused

theorem Regrown.refl (h : Owned m b) : Regrown m b m b :=
  ⟨h, rfl, Nat.le_refl _, fun _ _ => rfl, (Quiet.refl m).beside _, rfl⟩

theorem resizeBufferExact_cases (h : Owned m b) (hn : b.capacity < n) :
    (resizeBufferExact b n).run m
        = .ok (-cxErrAlloc, b) { m with tick := m.tick + 1, refused := true }
      ∨ ∃ b' m', (resizeBufferExact b n).run m = .ok (0, b') m'
        ∧ Regrown m b m' b' ∧ b'.capacity = n := by
  have ha : b.data = 0 ∧ b.capacity = 0
      ∨ b.data ≠ 0 ∧ (⟨b.data, b.capacity⟩ : Block) ∈ m.arena.blocks := h.block
  unfold resizeBufferExact
  rw [C.run_bind]
  rcases realloc_cases h.solid (by omega) (Nat.le_of_lt hn) ha with hrun | hgrant
  · left
    rw [hrun, C.chain_ok, if_pos rfl, C.run_pure]
  · right
    obtain ⟨a', m', hrun, hne, hmoved⟩ := hgrant
    refine ⟨{ b with data := a', capacity := n }, m', ?_, ⟨⟨hmoved.solid,
      Or.inr ⟨hne, hmoved.block⟩, ?_⟩, rfl, Nat.le_of_lt hn, hmoved.bytes,
      hmoved.beside, hmoved.refused⟩, rfl⟩
    · rw [hrun, C.chain_ok, if_neg hne, C.run_pure]
    · have := h.size_le
      show b.size ≤ n
      omega

theorem overflow_neg : -cxErrIntegerOverflow < 0 := by decide

theorem alloc_neg : -cxErrAlloc < 0 := by decide

/-- Why a buffer cannot hold `n` bytes: a request was refused, or they are
too many to round up. -/
def Denied (m : Machine) (rv : Int) (m' : Machine) (n : Nat) : Prop :=
  rv = -cxErrAlloc ∧ m'.refused = true
    ∨ rv = -cxErrIntegerOverflow ∧ m'.refused = m.refused ∧ 2 ^ 63 < n

theorem Denied.mono {rv : Int} {n' : Nat} (h : Denied m rv m' n)
    (hle : n ≤ n') : Denied m rv m' n' := by
  rcases h with halloc | ⟨hrv, hrefused, hlt⟩
  · exact Or.inl halloc
  · exact Or.inr ⟨hrv, hrefused, Nat.lt_of_lt_of_le hlt hle⟩

/-- Nothing was refused before. -/
theorem Denied.after {rv : Int} {m₁ : Machine} (h : Denied m₁ rv m' n)
    (hm : m₁.refused = m.refused) : Denied m rv m' n := by
  unfold Denied at h ⊢
  rw [← hm]
  exact h

theorem Denied.neg {rv : Int} (h : Denied m rv m' n) : rv < 0 := by
  rcases h with ⟨rfl, -⟩ | ⟨rfl, -⟩
  · exact alloc_neg
  · exact overflow_neg

/-- A rounding gives a capacity that is large enough, unless there is
none. -/
def Rounds (round : Nat → Int × Nat) : Prop :=
  ∀ n, (round n).1 = -cxErrIntegerOverflow ∧ 2 ^ 63 < n
    ∨ (round n).1 = 0 ∧ n ≤ (round n).2

/-- The powers of two that a word has room for. -/
theorem roundToNextPow2_le (h : (roundToNextPow2 n).1 = 0) :
    (roundToNextPow2 n).2 ≤ 2 ^ 63 := by
  unfold roundToNextPow2 at h ⊢
  by_cases h1 : n ≤ 1
  · rw [if_pos h1]
    decide
  · rw [if_neg h1] at h ⊢
    dsimp only at h ⊢
    by_cases hz : clzll (n - 1) = 0
    · rw [if_pos hz] at h
      exact absurd h (Int.ne_of_lt overflow_neg)
    · rw [if_neg hz, Nat.one_shiftLeft]
      exact Nat.pow_le_pow_right (by decide) (by omega)

theorem roundToNextPow2_rounds : Rounds roundToNextPow2 := by
  intro n
  unfold roundToNextPow2
  by_cases h1 : n ≤ 1
  · rw [if_pos h1]
    exact Or.inr ⟨rfl, h1⟩
  · rw [if_neg h1]
    dsimp only
    by_cases hz : clzll (n - 1) = 0
    · rw [if_pos hz]
      refine Or.inl ⟨rfl, ?_⟩
      unfold clzll at hz
      have hle : 2 ^ (n - 1).log2 ≤ n - 1 := Nat.log2_self_le (by omega)
      have hpow : 2 ^ 63 ≤ 2 ^ (n - 1).log2 :=
        Nat.pow_le_pow_right (by decide) (by omega)
      omega
    · rw [if_neg hz]
      refine Or.inr ⟨rfl, ?_⟩
      have hlog : 64 - clzll (n - 1) = (n - 1).log2 + 1 := by
        unfold clzll at hz ⊢
        omega
      have hlt : n - 1 < 2 ^ ((n - 1).log2 + 1) := Nat.lt_log2_self
      show n ≤ 1 <<< (64 - clzll (n - 1))
      rw [hlog, Nat.one_shiftLeft]
      omega

theorem exact_rounds : Rounds fun n => (0, n) :=
  fun n => Or.inr ⟨rfl, Nat.le_refl n⟩

/-- There is a capacity for `n` more bytes. -/
def Fits (round : Nat → Int × Nat) (b : CxBuffer) (n : Nat) : Prop :=
  b.size + n ≤ b.capacity ∨ b.size + n < 2 ^ 64 ∧ (round (b.size + n)).1 = 0

theorem fits_pow2 (h : b.size + n ≤ b.capacity ∨ b.size + n ≤ 2 ^ 63) :
    Fits roundToNextPow2 b n := by
  rcases h with hcap | hle
  · exact Or.inl hcap
  · rcases roundToNextPow2_rounds (b.size + n) with hover | hok
    · omega
    · exact Or.inr ⟨by omega, hok.1⟩

/-- An error leaves everything as it was, and comes of a request that was
refused if there is a capacity; success gives room for `n` more bytes and
the address behind those in use. -/
theorem addCapacityWith_cases {round : Nat → Int × Nat} (hround : Rounds round)
    (h : Owned m b) (n : Nat) :
    (∃ rv m', Denied m rv m' (b.size + n)
        ∧ (addCapacityWith round b n).run m = .ok (rv, none, b) m' ∧ Quiet m m'
        ∧ (Fits round b n → m' = { m with tick := m.tick + 1, refused := true }))
      ∨ ∃ b' m', (addCapacityWith round b n).run m
          = .ok (0, some (b'.data + b.size), b') m'
        ∧ Regrown m b m' b' ∧ b.size + n ≤ b'.capacity
        ∧ (b'.capacity = b.capacity ∨ (round (b.size + n)).1 = 0
          ∧ b'.capacity = (round (b.size + n)).2) := by
  unfold addCapacityWith
  dsimp only
  by_cases hover : b.size + n ≥ 2 ^ 64
  · rw [if_pos hover]
    refine Or.inl ⟨_, m, Or.inr ⟨rfl, rfl, by omega⟩, rfl, Quiet.refl m, ?_⟩
    intro hfits
    have := h.capacity_lt
    unfold Fits at hfits
    omega
  · rw [if_neg hover]
    by_cases hgrow : b.size + n > b.capacity
    · rw [if_pos hgrow]
      rcases hround (b.size + n) with ⟨hrv, hlt⟩ | ⟨hzero, hle⟩
      · rw [if_pos (hrv ▸ overflow_neg)]
        refine Or.inl ⟨_, m, Or.inr ⟨hrv, rfl, hlt⟩, rfl, Quiet.refl m, ?_⟩
        intro hfits
        rcases hfits with hcap | ⟨-, hzero⟩
        · omega
        · exact absurd (hrv.symm.trans hzero) (Int.ne_of_lt overflow_neg)
      · rw [if_neg (by omega), C.run_bind]
        have hlt : b.capacity < (round (b.size + n)).2 := by omega
        rcases resizeBufferExact_cases h hlt with hrun | hok
        · left
          refine ⟨-cxErrAlloc, { m with tick := m.tick + 1, refused := true },
            Or.inl ⟨rfl, rfl⟩, ?_, ⟨rfl, rfl, rfl, rfl⟩, fun _ => rfl⟩
          rw [hrun, C.chain_ok]
          rfl
        · right
          obtain ⟨b', m', hrun, hre, hcap⟩ := hok
          refine ⟨b', m', ?_, hre, by omega, Or.inr ⟨hzero, hcap⟩⟩
          rw [hrun, C.chain_ok]
          rfl
    · rw [if_neg hgrow]
      exact Or.inr ⟨b, m, rfl, Regrown.refl h, Nat.not_lt.mp hgrow, Or.inl rfl⟩

-- ============================================================= appending

/-- The bytes were put behind those in use. -/
structure Appended (m : Machine) (b : CxBuffer) (bs : List Byte) (m' : Machine)
    (b' : CxBuffer) : Prop where
  owned : Owned m' b'
  size : b'.size = b.size + bs.length
  capacity : b.capacity ≤ b'.capacity
  old : ∀ i < b.capacity, i < b.size ∨ b.size + bs.length ≤ i →
    m'.mem (b'.data + i) = m.mem (b.data + i)
  new : ∀ i (h : i < bs.length), m'.mem (b'.data + (b.size + i)) = bs[i]
  beside : Beside m b.data m' b'.data
  refused : m'.refused = m.refused

/-- Writing within the capacity. -/
theorem Owned.write (h : Owned m b) {i : Nat} (hfit : i + bs.length ≤ b.capacity)
    (hne : bs ≠ []) :
    (C.writeBytes (b.data + i) bs).run m
        = .ok () { m with mem := m.mem.write (b.data + i) bs }
      ∧ Beside m b.data { m with mem := m.mem.write (b.data + i) bs } b.data := by
  have hpos : 0 < bs.length := List.length_pos_iff.mpr hne
  exact ⟨run_writeBytes (h.valid hfit hpos),
    Beside.write (h.mem_block (by omega)) hfit⟩

theorem Regrown.append (h : Regrown m b m' b')
    (hfit : b.size + bs.length ≤ b'.capacity) (hne : bs ≠ []) :
    (C.writeBytes (b'.data + b.size) bs).run m'
        = .ok () { m' with mem := m'.mem.write (b'.data + b.size) bs }
      ∧ Appended m b bs { m' with mem := m'.mem.write (b'.data + b.size) bs }
          { b' with size := b'.size + bs.length } := by
  obtain ⟨hrun, hbeside⟩ := h.owned.write (i := b.size) hfit hne
  refine ⟨hrun, ⟨h.owned.solid, h.owned.block, ?_⟩, ?_, h.capacity, ?_, ?_,
    h.beside.trans hbeside, h.refused⟩
  · show b'.size + bs.length ≤ b'.capacity
    rw [h.size]
    exact hfit
  · show b'.size + bs.length = _
    rw [h.size]
  · intro i hi hout
    rw [← h.bytes i hi]
    show m'.mem.write (b'.data + b.size) bs (b'.data + i) = m'.mem (b'.data + i)
    exact write_apply_outside (by omega)
  · intro i hi
    show m'.mem.write (b'.data + b.size) bs (b'.data + (b.size + i)) = _
    rw [← Nat.add_assoc]
    exact write_apply_inside hi

/-- An append that fails changes nothing. -/
theorem cxBufferAppend_cases (h : Owned m b) (bs : List Byte) :
    (∃ rv m', Denied m rv m' (b.size + bs.length)
        ∧ (cxBufferAppend b bs).run m = .ok (rv, b) m' ∧ Quiet m m'
        ∧ (Fits roundToNextPow2 b bs.length →
          m' = { m with tick := m.tick + 1, refused := true }))
      ∨ ∃ b' m', (cxBufferAppend b bs).run m = .ok (0, b') m'
        ∧ Appended m b bs m' b'
        ∧ (b'.capacity = b.capacity ∨ b'.capacity ≤ 2 ^ 63) := by
  unfold cxBufferAppend
  by_cases hlen : bs.length = 0
  · rw [if_pos hlen]
    right
    have hnil : bs = [] := List.length_eq_zero_iff.mp hlen
    subst hnil
    exact ⟨b, m, rfl, ⟨h, rfl, Nat.le_refl _, fun _ _ _ => rfl,
      fun i hi => absurd hi (Nat.not_lt_zero i), (Quiet.refl m).beside _, rfl⟩,
      Or.inl rfl⟩
  · rw [if_neg hlen, C.run_bind]
    have hne : bs ≠ [] := fun hnil => hlen (List.length_eq_zero_iff.mpr hnil)
    rcases addCapacityWith_cases roundToNextPow2_rounds h bs.length with hfail | hok
    · left
      obtain ⟨rv, m', hdenied, hrun, hq⟩ := hfail
      refine ⟨rv, m', hdenied, ?_, hq⟩
      rw [cxBufferAddCapacity, hrun, C.chain_ok]
      dsimp only
      rw [if_pos hdenied.neg, C.run_pure]
    · right
      obtain ⟨b', m', hrun, hre, hcap, hround⟩ := hok
      obtain ⟨hwrite, happended⟩ := hre.append hcap hne
      refine ⟨_, _, ?_, happended, ?_⟩
      rotate_left
      · rcases hround with hkept | ⟨hzero, hnew⟩
        · exact Or.inl hkept
        · exact Or.inr (hnew ▸ roundToNextPow2_le hzero)
      have hadd : cxBufferAddSize b' bs.length
          = (0, { b' with size := b'.size + bs.length }) := by
        have hlt := hre.owned.capacity_lt
        unfold cxBufferAddSize
        rw [hre.size, if_neg (by omega)]
      rw [cxBufferAddCapacity, hrun, C.chain_ok]
      dsimp only
      rw [if_neg (by decide), C.run_bind, hwrite, C.chain_ok, hadd, C.run_pure]

/-- The bytes in use after an append. -/
theorem Appended.read (h : Appended m b bs m' b') (hown : Owned m b) :
    m'.mem.read b'.data b'.size = m.mem.read b.data b.size ++ bs := by
  have hle := hown.size_le
  refine List.ext_getElem? fun i => ?_
  by_cases hi : i < b'.size
  · rw [getElem?_read _ _ hi]
    rw [h.size] at hi
    by_cases hold : i < b.size
    · rw [List.getElem?_append_left (by simpa using hold), getElem?_read _ _ hold,
        h.old i (by omega) (Or.inl hold)]
    · have hlt : i - b.size < bs.length := by omega
      have hnew := h.new (i - b.size) hlt
      rw [Nat.add_sub_cancel' (Nat.not_lt.mp hold)] at hnew
      rw [List.getElem?_append_right (by simpa using hold), read_length,
        List.getElem?_eq_getElem hlt, hnew]
  · rw [List.getElem?_eq_none (by simpa using hi), List.getElem?_eq_none]
    rw [List.length_append, read_length, ← h.size]
    exact Nat.not_lt.mp hi

-- =============================================================== cleanup

theorem run_cxBufferCleanup (h : Owned m b) :
    ∃ m', (cxBufferCleanup b).run m = .ok (0, ⟨0, 0, 0⟩) m'
      ∧ Beside m b.data m' 0
      ∧ (∀ c ∈ m'.arena.blocks, c ∈ m.arena.blocks ∧ c.base ≠ b.data)
      ∧ m'.arena.Solid ∧ m'.refused = m.refused := by
  obtain ⟨m', hrun, hbeside, hback, hsolid, href⟩ :=
    run_free h.solid h.freeable
  refine ⟨m', ?_, hbeside, hback, hsolid, href⟩
  rw [cxBufferCleanup, C.run_bind, hrun, C.chain_ok, C.run_pure]

/-- The data changes hands; nothing is freed. -/
theorem run_cxBufferUnwrap (m : Machine) (b : CxBuffer) :
    (cxBufferUnwrap b).run m = .ok (b.data, ⟨0, 0, 0⟩) m := rfl

end Cextras.Collection
