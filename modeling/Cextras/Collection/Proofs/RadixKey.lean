/-
Key arithmetic of the radix tree. A tree of `n` levels has capacity
`fullCapacity n`, one byte of ones per level, and descends along
`path n key`: the `n` low bytes of the key, most significant first.
`lowDigits_prepareKey` is the reason for `prepare_key`: consuming the
prepared key from the low end yields exactly that path.
-/
import Mathlib.Tactic.IntervalCases
import Mathlib.Tactic.Ring
import Mathlib.Tactic.Linarith
import Cextras.Collection.RadixTree

namespace Cextras.Collection

open Lib Memory

-- ============================================================= capacities

/-- The capacity of a tree with `n` levels. -/
def fullCapacity : Nat → UInt64
  | 0 => 0
  | n + 1 => growCapacity (fullCapacity n)

theorem fullCapacity_toNat {n : Nat} (h : n ≤ 8) :
    (fullCapacity n).toNat = 256 ^ n - 1 := by
  interval_cases n <;> rfl

theorem fullCapacity_shift {n : Nat} (h : n + 1 ≤ 8) :
    fullCapacity (n + 1) >>> 8 = fullCapacity n := by
  have h' : n ≤ 7 := by omega
  clear h
  interval_cases n <;> rfl

theorem fullCapacity_ne_zero {n : Nat} (h : n + 1 ≤ 8) :
    fullCapacity (n + 1) ≠ 0 := by
  have h' : n ≤ 7 := by omega
  clear h
  interval_cases n <;> decide

/-- The capacity check of the lookup, in levels. -/
theorem le_fullCapacity_iff {n : Nat} (h : n ≤ 8) (key : UInt64) :
    key ≤ fullCapacity n ↔ key.toNat < 256 ^ n := by
  have hpos : 0 < 256 ^ n := Nat.pow_pos (by decide)
  rw [UInt64.le_iff_toNat_le, fullCapacity_toNat h]
  omega

-- ================================================================== paths

/-- The `n` low bytes of `k`, most significant first. -/
def path : Nat → Nat → List Nat
  | 0, _ => []
  | n + 1, k => k / 256 ^ n % 256 :: path n k

/-- The `n` low bytes of `k`, least significant first. -/
def lowDigits : Nat → Nat → List Nat
  | 0, _ => []
  | n + 1, k => k % 256 :: lowDigits n (k / 256)

/-- All entries are bytes. -/
def Digits (p : List Nat) : Prop := ∀ i ∈ p, i < 256

@[simp] theorem path_length (n k : Nat) : (path n k).length = n := by
  induction n with
  | zero => rfl
  | succ n ih => simp [path, ih]

theorem path_digits (n k : Nat) : Digits (path n k) := by
  induction n with
  | zero => intro i hi; cases hi
  | succ n ih =>
      intro i hi
      rcases List.mem_cons.mp hi with rfl | hi
      · exact Nat.mod_lt _ (by decide)
      · exact ih i hi

/-- The path, extended at its least significant end. -/
theorem path_succ (n k : Nat) : path (n + 1) k = path n (k / 256) ++ [k % 256] := by
  induction n with
  | zero => simp [path]
  | succ n ih =>
      have hdiv : k / 256 ^ (n + 1) = k / 256 / 256 ^ n := by
        rw [Nat.div_div_eq_div_mul, Nat.pow_succ, Nat.mul_comm]
      rw [path, ih, path, List.cons_append, hdiv]

/-- Keys of a tree of `n` levels are told apart by their paths. -/
theorem path_injective {n k k' : Nat} (hk : k < 256 ^ n) (hk' : k' < 256 ^ n)
    (h : path n k = path n k') : k = k' := by
  induction n generalizing k k' with
  | zero => omega
  | succ n ih =>
      rw [path_succ, path_succ] at h
      obtain ⟨hinit, hlast⟩ := List.append_inj' h rfl
      have hmod : k % 256 = k' % 256 := by simpa using hlast
      rw [Nat.pow_succ] at hk hk'
      have hdiv := ih (by omega) (by omega) hinit
      omega

/-- One level higher, the keys that fitted before start with a zero
byte. -/
theorem path_grow {n k : Nat} (h : k < 256 ^ n) :
    path (n + 1) k = 0 :: path n k := by
  rw [path, Nat.div_eq_of_lt h]

/-- One level higher, the keys that did not fit before do not. -/
theorem path_grow_head {n k : Nat} (h : 256 ^ n ≤ k) (h' : k < 256 ^ (n + 1)) :
    ∃ i, i ≠ 0 ∧ path (n + 1) k = i :: path n k := by
  refine ⟨_, ?_, rfl⟩
  have hpos : 0 < 256 ^ n := Nat.pow_pos (by decide)
  have hlt : k / 256 ^ n < 256 := by
    rw [Nat.div_lt_iff_lt_mul hpos, Nat.mul_comm, ← Nat.pow_succ]
    exact h'
  have hge : 0 < k / 256 ^ n := Nat.div_pos h hpos
  omega

-- ============================================================ prepare_key

theorem radixIndex_eq (key : UInt64) : radixIndex key = key.toNat % 256 := by
  unfold radixIndex radixMask
  rw [UInt64.toNat_and]
  exact Nat.and_two_pow_sub_one_eq_mod key.toNat 8

theorem toNat_shiftRight_8 (key : UInt64) :
    (key >>> 8).toNat = key.toNat / 256 := by
  rw [UInt64.toNat_shiftRight]
  simp only [UInt64.reduceToNat, Nat.reduceMod, Nat.shiftRight_eq_div_pow]

/-- One turn of the byte reversal, while the result still has room. -/
theorem toNat_shiftIn {result : UInt64} (key : UInt64)
    (h : result.toNat < 256 ^ 7) :
    ((result <<< 8) ||| (key &&& radixMask)).toNat
      = result.toNat * 256 + key.toNat % 256 := by
  have hidx : (key &&& radixMask).toNat = key.toNat % 256 := radixIndex_eq key
  have hshift : (result <<< 8).toNat = 2 ^ 8 * result.toNat := by
    rw [UInt64.toNat_shiftLeft]
    simp only [UInt64.reduceToNat, Nat.reduceMod, Nat.shiftLeft_eq]
    rw [Nat.mod_eq_of_lt (by omega)]
    omega
  have hlow : key.toNat % 256 < 2 ^ 8 := Nat.mod_lt _ (by decide)
  rw [UInt64.toNat_or, hidx, hshift, ← Nat.two_pow_add_eq_or_of_lt hlow]
  omega

/-- The byte reversal turns the low end of what is left of the key into
the high end of the result. -/
theorem lowDigits_prepareKeyLoop (n : Nat) :
    ∀ (j : Nat) (key result : UInt64), n + j ≤ 8 → result.toNat < 256 ^ j →
      lowDigits (n + j) (prepareKeyLoop (fullCapacity n) key result).toNat
        = path n key.toNat ++ lowDigits j result.toNat := by
  induction n with
  | zero =>
      intro j key result _ _
      rw [prepareKeyLoop, dif_neg (by decide), Nat.zero_add]
      rfl
  | succ n ih =>
      intro j key result hn hr
      have hr7 : result.toNat < 256 ^ 7 :=
        Nat.lt_of_lt_of_le hr (Nat.pow_le_pow_right (by decide) (by omega))
      have hin := toNat_shiftIn key hr7
      rw [prepareKeyLoop, dif_pos (fullCapacity_ne_zero (by omega)),
        fullCapacity_shift (by omega), show n + 1 + j = n + (j + 1) by omega,
        ih (j + 1) _ _ (by omega) (by
          rw [hin, Nat.pow_succ]
          have := Nat.mod_lt key.toNat (show 0 < 256 by decide)
          omega),
        hin, toNat_shiftRight_8, path_succ, lowDigits]
      have hmod : (result.toNat * 256 + key.toNat % 256) % 256
          = key.toNat % 256 := by omega
      have hdiv : (result.toNat * 256 + key.toNat % 256) / 256
          = result.toNat := by omega
      rw [hmod, hdiv, List.append_assoc, List.singleton_append]

/-- Consumed from its low end, the prepared key is the path of the key. -/
theorem lowDigits_prepareKey {tree : CxRadixTree} {n : Nat} (hn : n ≤ 8)
    (hcap : tree.capacity = fullCapacity n) (key : UInt64) :
    lowDigits n (prepareKey tree key).toNat = path n key.toNat := by
  have h := lowDigits_prepareKeyLoop n 0 key 0 hn (by decide)
  rw [Nat.add_zero] at h
  rw [prepareKey, hcap, h]
  exact List.append_nil _

end Cextras.Collection
