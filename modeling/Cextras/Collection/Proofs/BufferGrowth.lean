/-
The capacity of a buffer in numbers. A request is turned down as an
overflow when the new size is no `size_t`, or when it exceeds both the
capacity and `2 ^ 63`, the largest power of two. Otherwise the capacity
stays if it suffices and becomes the least power of two that does if not
(`CapacityExact`). This holds of any buffer on any machine.

A buffer that is only appended to and drained has grown to the powers of
two that its sizes called for, so its capacity stays below twice the
largest of them (`cxBuffer_growth`).
-/
import Mathlib.Order.Bounds.Basic
import Cextras.Lib.Run
import Cextras.Collection.Proofs.BufferOps

namespace Cextras.Collection

open Lib

variable {m m' : Machine} {b b' : CxBuffer} {n c : Nat}

-- ============================================================== rounding

/-- The powers of two that are large enough for `n`. -/
def PowersFrom (n : Nat) : Set Nat := {c | (∃ e, c = 2 ^ e) ∧ n ≤ c}

theorem roundToNextPow2_least (h : n ≤ 2 ^ 63) :
    (roundToNextPow2 n).1 = 0
      ∧ IsLeast (PowersFrom n) (roundToNextPow2 n).2 := by
  unfold roundToNextPow2
  by_cases h1 : n ≤ 1
  · rw [if_pos h1]
    refine ⟨rfl, ⟨⟨0, rfl⟩, h1⟩, ?_⟩
    intro c hc
    obtain ⟨⟨e, rfl⟩, -⟩ := hc
    exact Nat.one_le_two_pow
  · rw [if_neg h1]
    have hlow : 2 ^ (n - 1).log2 ≤ n - 1 := Nat.log2_self_le (by omega)
    have hhigh : n - 1 < 2 ^ ((n - 1).log2 + 1) := Nat.lt_log2_self
    have hbits : (n - 1).log2 < 63 := by
      rw [Nat.log2_lt (by omega)]
      omega
    have hclz : 64 - clzll (n - 1) = (n - 1).log2 + 1 := by
      unfold clzll
      omega
    have hzero : clzll (n - 1) ≠ 0 := by
      unfold clzll
      omega
    dsimp only
    rw [if_neg hzero, hclz, Nat.one_shiftLeft]
    refine ⟨rfl, ⟨⟨_, rfl⟩, by simp only; omega⟩, ?_⟩
    intro c hc
    obtain ⟨⟨e, rfl⟩, hle⟩ := hc
    -- a smaller power of two is at most `n - 1`
    by_contra hlt
    have hexp : e < (n - 1).log2 + 1 :=
      (Nat.pow_lt_pow_iff_right (by decide)).mp (Nat.not_le.mp hlt)
    have hpow : 2 ^ e ≤ 2 ^ (n - 1).log2 :=
      Nat.pow_le_pow_right (by decide) (by omega)
    omega

theorem roundToNextPow2_overflow (h : 2 ^ 63 < n) :
    roundToNextPow2 n = (-cxErrIntegerOverflow, n) := by
  have hlog : 63 ≤ (n - 1).log2 := by
    rw [Nat.le_log2 (by omega)]
    omega
  have hclz : clzll (n - 1) = 0 := by
    unfold clzll
    omega
  unfold roundToNextPow2
  rw [if_neg (by omega)]
  simp [hclz]

/-- The least power of two is less than twice as large. -/
theorem capacity_lt_of_isLeast (h : IsLeast (PowersFrom n) c) (hn : 0 < n) :
    c < 2 * n := by
  obtain ⟨⟨⟨e, rfl⟩, -⟩, hlower⟩ := h
  cases e with
  | zero => omega
  | succ e =>
      rw [Nat.pow_succ]
      by_contra hle
      have hhalf : 2 ^ (e + 1) ≤ 2 ^ e := hlower ⟨⟨e, rfl⟩, by omega⟩
      have hpos := Nat.two_pow_pos e
      rw [Nat.pow_succ] at hhalf
      omega

-- ========================================================== add_capacity

/-- The sizes that are turned down. -/
def Oversized (b : CxBuffer) (n : Nat) : Prop :=
  2 ^ 64 - 1 < b.size + n
    ∨ b.capacity < b.size + n ∧ 2 ^ 63 < b.size + n

theorem run_addCapacity_oversized (h : Oversized b n) (m : Machine) :
    (cxBufferAddCapacity b n).run m = .ok (-cxErrIntegerOverflow, none, b) m := by
  unfold cxBufferAddCapacity addCapacityWith
  dsimp only
  by_cases hover : b.size + n ≥ 2 ^ 64
  · rw [if_pos hover, C.run_pure]
  · rw [if_neg hover]
    unfold Oversized at h
    have hgrow : b.size + n > b.capacity ∧ 2 ^ 63 < b.size + n := by omega
    rw [if_pos hgrow.1, roundToNextPow2_overflow hgrow.2]
    rfl

theorem run_addCapacity_fits (h : b.size + n ≤ 2 ^ 64 - 1)
    (hcap : b.size + n ≤ b.capacity) (m : Machine) :
    (cxBufferAddCapacity b n).run m
      = .ok (0, some (b.data + b.size), b) m := by
  unfold cxBufferAddCapacity addCapacityWith
  dsimp only
  rw [if_neg (by omega), if_neg (by omega), C.run_pure]

/-- Growing is a reallocation to the rounded size. -/
theorem run_addCapacity_grows (h : b.size + n ≤ 2 ^ 63)
    (hcap : b.capacity < b.size + n) (m : Machine) :
    (cxBufferAddCapacity b n).run m
      = C.chain ((C.realloc b.data (roundToNextPow2 (b.size + n)).2).run m)
        fun a => if a = 0 then pure (-cxErrAlloc, none, b)
          else pure (0, some (a + b.size),
            { b with
              data := a
              capacity := (roundToNextPow2 (b.size + n)).2 }) := by
  have hrv := (roundToNextPow2_least h).1
  unfold cxBufferAddCapacity addCapacityWith resizeBufferExact
  dsimp only
  rw [if_neg (by omega), if_pos hcap, if_neg (by omega), C.run_bind, C.run_bind]
  cases (C.realloc b.data (roundToNextPow2 (b.size + n)).2).run m with
  | fault e m₁ => rfl
  | ok a m₁ =>
      simp only [C.chain_ok]
      by_cases ha : a = 0
      · rw [if_pos ha, if_pos ha]
        rfl
      · rw [if_neg ha, if_neg ha]
        rfl

/-- What `cx_buffer_add_capacity` does to the capacity. -/
structure CapacityExact (b : CxBuffer) (n : Nat) (m : Machine) : Prop where
  overflow : (∃ p b' m', (cxBufferAddCapacity b n).run m
    = .ok (-cxErrIntegerOverflow, p, b') m') ↔ Oversized b n
  fits : b.size + n ≤ 2 ^ 64 - 1 → b.size + n ≤ b.capacity →
    (cxBufferAddCapacity b n).run m = .ok (0, some (b.data + b.size), b) m
  grows : b.size + n ≤ 2 ^ 63 → b.capacity < b.size + n →
    ∃ c, IsLeast (PowersFrom (b.size + n)) c
      ∧ ∀ a m', (C.realloc b.data c).run m = .ok a m' → a ≠ 0 →
        (cxBufferAddCapacity b n).run m
          = .ok (0, some (a + b.size), { b with data := a, capacity := c }) m'

/-- A call that ends normally, with an error or without. -/
theorem addCapacity_cases {rv : Int} {p : Option Nat}
    (h : (cxBufferAddCapacity b n).run m = .ok (rv, p, b') m') :
    Oversized b n ∧ rv = -cxErrIntegerOverflow ∧ b' = b
      ∨ ¬ Oversized b n ∧ rv = -cxErrAlloc ∧ b' = b
      ∨ ¬ Oversized b n ∧ rv = 0 ∧ b'.size = b.size
        ∧ (b'.capacity = b.capacity
          ∨ IsLeast (PowersFrom (b.size + n)) b'.capacity) := by
  by_cases hover : Oversized b n
  · rw [run_addCapacity_oversized hover m] at h
    cases h
    exact Or.inl ⟨hover, rfl, rfl⟩
  · right
    have hfits := hover
    unfold Oversized at hfits
    by_cases hcap : b.size + n ≤ b.capacity
    · rw [run_addCapacity_fits (by omega) hcap] at h
      cases h
      exact Or.inr ⟨hover, rfl, rfl, Or.inl rfl⟩
    · have hsize : b.size + n ≤ 2 ^ 63 := by omega
      rw [run_addCapacity_grows hsize (by omega)] at h
      cases hrun : (C.realloc b.data (roundToNextPow2 (b.size + n)).2).run m with
      | fault e m₁ =>
          rw [hrun] at h
          cases h
      | ok a m₁ =>
          rw [hrun, C.chain_ok] at h
          split at h
          · cases h
            exact Or.inl ⟨hover, rfl, rfl⟩
          · cases h
            exact Or.inr ⟨hover, rfl, rfl, Or.inr (roundToNextPow2_least hsize).2⟩

theorem capacity_exact (b : CxBuffer) (n : Nat) (m : Machine) :
    CapacityExact b n m := by
  refine ⟨⟨?_, ?_⟩, fun h hcap => run_addCapacity_fits h hcap m, ?_⟩
  · intro h
    obtain ⟨p, b', m', hrun⟩ := h
    rcases addCapacity_cases hrun with ⟨hover, -⟩ | ⟨-, hrv, -⟩ | ⟨-, hrv, -⟩
    · exact hover
    · exact absurd hrv (by decide)
    · exact absurd hrv (by decide)
  · intro h
    exact ⟨_, _, _, run_addCapacity_oversized h m⟩
  · intro h hcap
    refine ⟨_, (roundToNextPow2_least h).2, ?_⟩
    intro a m' hrun ha
    rw [run_addCapacity_grows h hcap, hrun, C.chain_ok, if_neg ha, C.run_pure]

-- ================================================================== runs

/-- A buffer that is appended to and drained, and the largest size it had. -/
structure AppendClient where
  buffer : CxBuffer
  largest : Nat

inductive AppendOp where
  | append (source : List Byte)
  | drain

/-- The buffer after a call. -/
def AppendClient.set (s : AppendClient) (buffer : CxBuffer) : AppendClient :=
  ⟨buffer, max s.largest buffer.size⟩

def AppendClient.exec : AppendOp → AppendClient → C AppendClient
  | .append source, s => do
      let (_, buffer) ← cxBufferAppend s.buffer source
      pure (s.set buffer)
  | .drain, s => pure (s.set (cxBufferDrain s.buffer))

def AppendClient.start : C AppendClient := pure ⟨cxBufferInit.2, 0⟩

/-- The states of runs that begin on `m₀`, whatever is refused. -/
abbrev AppendClient.Run (m₀ : Machine) : AppendClient → Machine → Prop :=
  Steps AppendClient.start AppendClient.exec (fun _ _ _ => True) m₀

/-- An append leaves the buffer as it was, or makes it longer in the
capacity it has or in the least power of two. -/
theorem cxBufferAppend_grows {bs : List Byte} {rv : Int}
    (h : (cxBufferAppend b bs).run m = .ok (rv, b') m') :
    b' = b ∨ 0 < b'.size ∧ (b'.capacity = b.capacity
      ∨ IsLeast (PowersFrom b'.size) b'.capacity) := by
  unfold cxBufferAppend at h
  by_cases hlen : bs.length = 0
  · rw [if_pos hlen] at h
    cases h
    exact Or.inl rfl
  · rw [if_neg hlen] at h
    obtain ⟨⟨rv₁, p, b₁⟩, m₁, hadd, hrest⟩ := bind_cases h
    dsimp only at hrest
    rcases addCapacity_cases hadd with ⟨-, hrv, hb⟩ | ⟨-, hrv, hb⟩ | hgrown
    · rw [if_pos (hrv ▸ overflow_neg)] at hrest
      cases hrest
      exact Or.inl hb
    · rw [if_pos (hrv ▸ alloc_neg)] at hrest
      cases hrest
      exact Or.inl hb
    · obtain ⟨hover, hrv, hsize, hcap⟩ := hgrown
      rw [if_neg (by omega)] at hrest
      cases p with
      | none => cases hrest
      | some target =>
          dsimp only at hrest
          obtain ⟨-, m₂, -, hend⟩ := bind_cases hrest
          have hcount : cxBufferAddSize b₁ bs.length
              = (0, { b₁ with size := b.size + bs.length }) := by
            unfold Oversized at hover
            unfold cxBufferAddSize
            rw [hsize, if_neg (by omega)]
          rw [hcount] at hend
          cases hend
          exact Or.inr ⟨by simp only; omega, hcap⟩

/-- The capacity is 0 or a power of two below twice the largest size. -/
def AppendClient.Fitted (s : AppendClient) : Prop :=
  s.buffer.capacity = 0
    ∨ ∃ e, s.buffer.capacity = 2 ^ e ∧ s.buffer.capacity < 2 * s.largest

/-- A larger size is no harm. -/
theorem AppendClient.Fitted.set {s : AppendClient} (h : s.Fitted)
    (hcap : b.capacity = s.buffer.capacity) : (s.set b).Fitted := by
  unfold AppendClient.Fitted AppendClient.set at *
  dsimp only
  rw [hcap]
  rcases h with hzero | ⟨e, hpow, hlt⟩
  · exact Or.inl hzero
  · exact Or.inr ⟨e, hpow, by omega⟩

theorem AppendClient.Fitted.exec {s s' : AppendClient} {op : AppendOp}
    (h : s.Fitted) (hrun : (AppendClient.exec op s).run m = .ok s' m') :
    s'.Fitted := by
  cases op with
  | append source =>
      obtain ⟨⟨rv, buffer⟩, m₁, happend, hend⟩ := bind_cases hrun
      cases hend
      rcases cxBufferAppend_grows happend with hsame | ⟨hpos, hcap | hleast⟩
      · exact h.set (congrArg CxBuffer.capacity hsame)
      · exact h.set hcap
      · right
        have hlt := capacity_lt_of_isLeast hleast hpos
        obtain ⟨e, hpow⟩ := hleast.1.1
        refine ⟨e, hpow, ?_⟩
        unfold AppendClient.set
        dsimp only
        omega
  | drain =>
      cases hrun
      exact h.set rfl

/-- The arithmetic of growth is exact, and capacities follow the sizes. -/
theorem cxBuffer_growth :
    (∀ b n m, CapacityExact b n m)
      ∧ ∀ m₀ s m, AppendClient.Run m₀ s m → s.Fitted := by
  refine ⟨capacity_exact, ?_⟩
  intro m₀ s m h
  apply h.invariant fun s _ => s.Fitted
  · intro s m hrun
    cases hrun
    exact Or.inl rfl
  · intro s m op s' m' hfit _ hrun
    exact hfit.exec hrun

/-- Five bytes take eight, which last until the ninth byte. -/
theorem cxBuffer_growth_doubled : ∃ s m,
    AppendClient.Run (Machine.boot (fun _ => 0) fun t => 2 ^ 20 * (t + 1)) s m
      ∧ s.buffer.capacity = 16 ∧ s.buffer.size = 0 ∧ s.largest = 9
      ∧ s.Fitted := by
  obtain ⟨s, m, hrun, htest⟩ := steps_of_tryFrom AppendClient.start
    AppendClient.exec (fun _ _ _ => True)
    (Machine.boot (fun _ => 0) fun t => 2 ^ 20 * (t + 1))
    [.append [1, 2, 3, 4, 5], .append [6, 7, 8], .append [9], .drain]
    (fun x => decide (x.1.buffer.capacity = 16 ∧ x.1.buffer.size = 0
      ∧ x.1.largest = 9))
    (by decide +kernel)
  obtain ⟨hcap, hsize, hlargest⟩ := of_decide_eq_true htest
  exact ⟨s, m, hrun, hcap, hsize, hlargest, cxBuffer_growth.2 _ s m hrun⟩

end Cextras.Collection
