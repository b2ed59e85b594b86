/-
The generator of the width tables and their reader agree: looking a code
point up in the compiled table tells whether it is in a range.

A printed block's bytes are read as bits (`HasBits`). The loop over the
first level keeps that every block printed so far is found under its
number (`Numbered`); the shared blocks come after it and disturb nothing.
-/
import Cextras.Unicode.Codegen

namespace Cextras.Unicode

open Lib

variable {table : List Bool} {codepointSize radixNum n i : Nat}

-- ================================================================== bits

/-- The first `n` bits of the bytes from `off` on. -/
def HasBits (bytes : List Byte) (off n : Nat) (f : Nat → Bool) : Prop :=
  ∀ j < n, ∃ b, bytes[off + j / 8]? = some b ∧ b.toNat.testBit (j % 8) = f j

variable {bytes more : List Byte} {off : Nat} {f : Nat → Bool}

theorem HasBits.append_left (h : HasBits bytes off n f) (more : List Byte) :
    HasBits (bytes ++ more) off n f := by
  intro j hj
  obtain ⟨b, hget, hbit⟩ := h j hj
  refine ⟨b, ?_, hbit⟩
  rw [List.getElem?_append_left (List.getElem?_eq_some_iff.mp hget).1, hget]

theorem HasBits.append_right (h : HasBits more 0 n f)
    (hoff : bytes.length = off) : HasBits (bytes ++ more) off n f := by
  intro j hj
  obtain ⟨b, hget, hbit⟩ := h j hj
  refine ⟨b, ?_, hbit⟩
  rw [List.getElem?_append_right (by omega), hoff, ← hget]
  congr 1
  omega

/-- Bytes that are all the same. -/
theorem hasBits_replicate {m : Nat} {b : Byte} {v : Bool} (hn : n ≤ 8 * m)
    (hb : ∀ k < 8, b.toNat.testBit k = v) :
    HasBits (List.replicate m b) 0 n fun _ => v := by
  intro j hj
  refine ⟨b, ?_, hb _ (by omega)⟩
  rw [List.getElem?_replicate, if_pos (by omega)]

-- ========================================================== mixed blocks

/-- Bit `j` of block `i`: entries past the end count as clear. -/
def blockBit (table : List Bool) (codepointSize radixNum i j : Nat) : Bool :=
  decide (i * radixNum + j < codepointSize) && flag table (i * radixNum + j)

/-- The loop of `printBlock` after `n` turns: `n / 8` bytes are printed,
and the bits of the one under way are below `n % 8`. -/
structure Printed (f : Nat → Bool) (n : Nat) (out : List Byte × Byte) :
    Prop where
  length : out.1.length = n / 8
  bits : HasBits out.1 0 (8 * (n / 8)) f
  current : ∀ k < 8,
    out.2.toNat.testBit k = (decide (k < n % 8) && f (8 * (n / 8) + k))

/-- Setting bit `n % 8`, if it is to be set. -/
theorem testBit_or_bit (c : Byte) (v : Bool) {r k : Nat} (hr : r < 8) :
    (c ||| if v then UInt8.ofNat (1 <<< r) else 0).toNat.testBit k
      = (c.toNat.testBit k || (decide (r = k) && v)) := by
  have hpow : (UInt8.ofNat (1 <<< r)).toNat = 2 ^ r := by
    rw [UInt8.toNat_ofNat', Nat.one_shiftLeft]
    exact Nat.mod_eq_of_lt (Nat.pow_lt_pow_right (by decide) hr)
  rw [UInt8.toNat_or, Nat.testBit_or]
  cases v with
  | true => rw [if_pos rfl, hpow, Nat.testBit_two_pow, Bool.and_true]
  | false => simp

theorem testBit_current (table : List Bool) (codepointSize radixNum i n : Nat)
    (c : Byte) :
    ∀ k, (if i * radixNum + n < codepointSize then
        c ||| if flag table (i * radixNum + n)
          then UInt8.ofNat (1 <<< (n % 8)) else 0
      else c).toNat.testBit k
      = (c.toNat.testBit k
        || (decide (n % 8 = k) && blockBit table codepointSize radixNum i n)) := by
  intro k
  unfold blockBit
  by_cases hlt : i * radixNum + n < codepointSize
  · rw [if_pos hlt, testBit_or_bit c _ (Nat.mod_lt n (by decide)),
      decide_eq_true hlt, Bool.true_and]
  · rw [if_neg hlt, decide_eq_false hlt, Bool.false_and, Bool.and_false,
      Bool.or_false]

theorem Printed.step {out : List Byte × Byte}
    (h : Printed (blockBit table codepointSize radixNum i) n out) :
    Printed (blockBit table codepointSize radixNum i) (n + 1)
      (printBit table codepointSize radixNum i out n) := by
  obtain ⟨printed, c⟩ := out
  obtain ⟨hlength, hbits, hcurrent⟩ := h
  simp only at hlength hbits hcurrent
  have hcur := testBit_current table codepointSize radixNum i n c
  unfold printBit
  dsimp only
  generalize (if i * radixNum + n < codepointSize then _ else c) = c' at hcur ⊢
  -- the bits of the byte under way, one more than before
  have hnext : ∀ k < 8, c'.toNat.testBit k = (decide (k < n % 8 + 1)
      && blockBit table codepointSize radixNum i (8 * (n / 8) + k)) := by
    intro k hk
    rw [hcur k, hcurrent k hk]
    by_cases heq : n % 8 = k
    · have hn : 8 * (n / 8) + k = n := by omega
      rw [hn, decide_eq_true heq, decide_eq_false (by omega : ¬ k < n % 8),
        decide_eq_true (by omega : k < n % 8 + 1), Bool.false_and,
        Bool.false_or]
    · rw [decide_eq_false heq, Bool.false_and, Bool.or_false]
      congr 2
      rw [eq_iff_iff]
      omega
  by_cases hlast : n % 8 = 7
  · have hdiv : (n + 1) / 8 = n / 8 + 1 := by omega
    rw [if_pos hlast]
    refine ⟨?_, ?_, ?_⟩
    · show (printed ++ [c']).length = _
      rw [List.length_append, List.length_singleton, hlength, hdiv]
    · intro j hj
      show ∃ b, (printed ++ [c'])[0 + j / 8]? = some b ∧ _
      by_cases hold : j < 8 * (n / 8)
      · exact hbits.append_left [c'] j hold
      · refine ⟨c', ?_, ?_⟩
        · rw [List.getElem?_append_right (by omega)]
          have hzero : 0 + j / 8 - printed.length = 0 := by omega
          rw [hzero]
          rfl
        · have hj' : 8 * (n / 8) + j % 8 = j := by omega
          rw [hnext _ (by omega), hj', hlast,
            decide_eq_true (by omega : j % 8 < 7 + 1), Bool.true_and]
    · intro k _
      have hmod : (n + 1) % 8 = 0 := by omega
      show (0 : Byte).toNat.testBit k = _
      rw [hmod, decide_eq_false (Nat.not_lt_zero k), Bool.false_and]
      exact Nat.zero_testBit k
  · have hdiv : (n + 1) / 8 = n / 8 := by omega
    have hmod : (n + 1) % 8 = n % 8 + 1 := by omega
    rw [if_neg hlast]
    refine ⟨?_, ?_, ?_⟩
    · rw [hdiv]
      exact hlength
    · rw [hdiv]
      exact hbits
    · rw [hdiv, hmod]
      exact hnext

theorem printed_foldl (table : List Bool) (codepointSize radixNum i n : Nat) :
    Printed (blockBit table codepointSize radixNum i) n
      ((List.range n).foldl (printBit table codepointSize radixNum i) ([], 0)) := by
  induction n with
  | zero =>
      refine ⟨rfl, fun j hj => absurd hj (Nat.not_lt_zero j), ?_⟩
      intro k _
      exact Nat.zero_testBit k
  | succ n ih =>
      rw [List.range_succ, List.foldl_append]
      exact ih.step

theorem printBlock_length (table : List Bool) (codepointSize radixNum i : Nat) :
    (printBlock table codepointSize radixNum i).length = radixNum / 8 :=
  (printed_foldl table codepointSize radixNum i radixNum).length

theorem printBlock_bits (i : Nat) (hradix : 8 ∣ radixNum) :
    HasBits (printBlock table codepointSize radixNum i) 0 radixNum
      (blockBit table codepointSize radixNum i) := by
  have h := (printed_foldl table codepointSize radixNum i radixNum).bits
  rw [Nat.mul_div_cancel' hradix] at h
  exact h

-- ========================================================= block flags

/-- Every entry of the block that is there is `v`. -/
def AllAre (table : List Bool) (codepointSize radixNum i n : Nat) (v : Bool) :
    Prop :=
  ∀ j < n, i * radixNum + j < codepointSize →
    flag table (i * radixNum + j) = v

theorem allAre_succ {v : Bool} :
    AllAre table codepointSize radixNum i (n + 1) v
      ↔ AllAre table codepointSize radixNum i n v
        ∧ (i * radixNum + n < codepointSize →
          flag table (i * radixNum + n) = v) := by
  unfold AllAre
  constructor
  · intro h
    exact ⟨fun j hj => h j (by omega), h n (Nat.lt_succ_self n)⟩
  · intro h j hj
    rcases Nat.lt_succ_iff_lt_or_eq.mp hj with hlt | heq
    · exact h.1 j hlt
    · rw [heq]
      exact h.2

theorem blockFlags_foldl (n : Nat) :
    (((List.range n).foldl (blockFlagsStep table codepointSize radixNum i)
        (true, true)).1 = true ↔ AllAre table codepointSize radixNum i n false)
      ∧ (((List.range n).foldl (blockFlagsStep table codepointSize radixNum i)
        (true, true)).2 = true
          ↔ AllAre table codepointSize radixNum i n true) := by
  induction n with
  | zero =>
      constructor
      · exact iff_of_true rfl fun j hj => absurd hj (Nat.not_lt_zero j)
      · exact iff_of_true rfl fun j hj => absurd hj (Nat.not_lt_zero j)
  | succ n ih =>
      rw [List.range_succ, List.foldl_append, allAre_succ, allAre_succ, ← ih.1,
        ← ih.2, List.foldl_cons, List.foldl_nil]
      unfold blockFlagsStep
      by_cases hge : i * radixNum + n ≥ codepointSize
      · simp [hge, Nat.not_lt.mpr hge]
      · cases hflag : flag table (i * radixNum + n) with
        | true => simp [hge, Nat.not_le.mp hge]
        | false => simp [hge, Nat.not_le.mp hge]

theorem allUnset_iff (table : List Bool) (codepointSize radixNum i : Nat) :
    (blockFlags table codepointSize radixNum i).1 = true
      ↔ AllAre table codepointSize radixNum i radixNum false :=
  (blockFlags_foldl radixNum).1

theorem allSet_iff (table : List Bool) (codepointSize radixNum i : Nat) :
    (blockFlags table codepointSize radixNum i).2 = true
      ↔ AllAre table codepointSize radixNum i radixNum true :=
  (blockFlags_foldl radixNum).2

-- ======================================================= numbered blocks

variable {st : Level1} {name other : TblName}

/-- The blocks printed so far follow each other, `level2Size` bytes each,
and one has been `#define`d for each number. -/
structure Packed (level2Size : Nat) (st : Level1) : Prop where
  length : st.tbl.length = st.tableIndex * level2Size
  count : st.defines.length = st.tableIndex

/-- The block of this name has the bits of `f`. -/
def Numbered (st : Level1) (radixNum : Nat) (name : TblName)
    (f : Nat → Bool) : Prop :=
  ∃ p < st.tableIndex, number st.defines name = some p
    ∧ HasBits st.tbl (p * (radixNum / 8)) radixNum f

theorem Packed.printNumbered {level2Size : Nat} (h : Packed level2Size st)
    (hlen : bytes.length = level2Size) :
    Packed level2Size (st.printNumbered name bytes) := by
  constructor
  · show (st.tbl ++ bytes).length = (st.tableIndex + 1) * level2Size
    rw [List.length_append, h.length, hlen, Nat.succ_mul]
  · show (st.defines ++ [_]).length = st.tableIndex + 1
    rw [List.length_append, h.count, List.length_singleton]

theorem number_append {defines : List (TblName × Nat)} {p : Nat}
    (h : number defines name = some p) (d : TblName × Nat) :
    number (defines ++ [d]) name = some p := by
  obtain ⟨e, hfind, hp⟩ := Option.map_eq_some_iff.mp h
  unfold number
  rw [List.find?_append, hfind, Option.some_or, Option.map_some, hp]

theorem number_append_self {defines : List (TblName × Nat)} (p : Nat)
    (h : ∀ d ∈ defines, d.1 ≠ name) :
    number (defines ++ [(name, p)]) name = some p := by
  have hnone : defines.find? (fun d => d.1 = name) = none := by
    rw [List.find?_eq_none]
    intro d hd
    simpa using h d hd
  unfold number
  rw [List.find?_append, hnone, Option.none_or, List.find?_singleton,
    decide_eq_true rfl]
  rfl

/-- Blocks stay where they are. -/
theorem Numbered.printNumbered (h : Numbered st radixNum name f)
    (other : TblName) (bytes : List Byte) :
    Numbered (st.printNumbered other bytes) radixNum name f := by
  obtain ⟨p, hp, hnumber, hbits⟩ := h
  exact ⟨p, Nat.lt_succ_of_lt hp, number_append hnumber _,
    hbits.append_left bytes⟩

/-- A new block is found under a new name. -/
theorem Packed.numbered (h : Packed (radixNum / 8) st)
    (hfresh : ∀ d ∈ st.defines, d.1 ≠ name) (hbits : HasBits bytes 0 radixNum f) :
    Numbered (st.printNumbered name bytes) radixNum name f :=
  ⟨st.tableIndex, Nat.lt_succ_self _, number_append_self _ hfresh,
    hbits.append_right h.length⟩

-- =========================================================== first level

/-- The loop over the first level after `n` turns. -/
structure Level1Inv (table : List Bool) (codepointSize radixNum n : Nat)
    (st : Level1) : Prop where
  packed : Packed (radixNum / 8) st
  allSetMap : st.allSetMap = (List.range n).map fun i =>
    (blockFlags table codepointSize radixNum i).2
  allUnsetMap : st.allUnsetMap = (List.range n).map fun i =>
    (blockFlags table codepointSize radixNum i).1
  needFull : ∀ i < n, (blockFlags table codepointSize radixNum i).2 = true →
    st.needFull = true
  needNull : ∀ i < n, (blockFlags table codepointSize radixNum i).1 = true →
    st.needNull = true
  names : ∀ d ∈ st.defines, ∃ i < n, d.1 = .block i
  mixed : ∀ i < n, blockFlags table codepointSize radixNum i = (false, false) →
    Numbered st radixNum (.block i) (blockBit table codepointSize radixNum i)
  /-- there is at most one block for each entry of the first level -/
  bound : st.tableIndex + st.needFull.toNat + st.needNull.toNat ≤ n

theorem forall_lt_succ {P : Nat → Prop} (h : ∀ i < n, P i) (hn : P n) :
    ∀ i < n + 1, P i := by
  intro i hi
  rcases Nat.lt_succ_iff_lt_or_eq.mp hi with hlt | heq
  · exact h i hlt
  · rw [heq]
    exact hn

/-- A block with an entry is not both all set and all clear. -/
theorem blockFlags_ne (table : List Bool) (hn : n * radixNum < codepointSize)
    (hradix : 0 < radixNum) :
    blockFlags table codepointSize radixNum n ≠ (true, true) := by
  intro hboth
  have hunset := (allUnset_iff table codepointSize radixNum n).mp
    (congrArg Prod.fst hboth) 0 hradix hn
  have hset := (allSet_iff table codepointSize radixNum n).mp
    (congrArg Prod.snd hboth) 0 hradix hn
  rw [hset] at hunset
  cases hunset

theorem Level1Inv.step (h : Level1Inv table codepointSize radixNum n st)
    (hn : n * radixNum < codepointSize) (hradix : 0 < radixNum)
    (hdvd : 8 ∣ radixNum) :
    Level1Inv table codepointSize radixNum (n + 1)
      (printLevel1Step table codepointSize radixNum st n) := by
  have hne := blockFlags_ne table hn hradix
  have hbound := h.bound
  have hnames : ∀ d ∈ st.defines, ∃ i < n + 1, d.1 = .block i := by
    intro d hd
    obtain ⟨i, hi, hname⟩ := h.names d hd
    exact ⟨i, Nat.lt_succ_of_lt hi, hname⟩
  have hmap : ∀ (l : List Bool) (g : Nat → Bool), l = (List.range n).map g →
      l ++ [g n] = (List.range (n + 1)).map g := by
    intro l g hl
    rw [hl, List.range_succ, List.map_append, List.map_singleton]
  unfold printLevel1Step
  cases hflags : blockFlags table codepointSize radixNum n with
  | mk allUnset allSet =>
      rw [hflags] at hne
      have hset := hmap _ _ h.allSetMap
      have hunset := hmap _ _ h.allUnsetMap
      simp only [hflags] at hset hunset
      dsimp only
      have hfull : ∀ i < n + 1,
          (blockFlags table codepointSize radixNum i).2 = true →
            (st.needFull || allSet) = true := by
        refine forall_lt_succ (fun i hi hi' => ?_) fun hn' => ?_
        · rw [h.needFull i hi hi', Bool.true_or]
        · rw [hflags] at hn'
          rw [show allSet = true from hn', Bool.or_true]
      have hnull : ∀ i < n + 1,
          (blockFlags table codepointSize radixNum i).1 = true →
            (st.needNull || allUnset) = true := by
        refine forall_lt_succ (fun i hi hi' => ?_) fun hn' => ?_
        · rw [h.needNull i hi hi', Bool.true_or]
        · rw [hflags] at hn'
          rw [show allUnset = true from hn', Bool.or_true]
      by_cases hshared : (allSet || allUnset) = true
      · -- the block is shared
        rw [if_pos hshared]
        refine ⟨⟨h.packed.length, h.packed.count⟩, hset, hunset, hfull, hnull,
          hnames, ?_, ?_⟩
        · refine forall_lt_succ h.mixed fun hmixed => ?_
          rw [hflags] at hmixed
          cases hmixed
          exact absurd hshared Bool.false_ne_true
        · show st.tableIndex + (st.needFull || allSet).toNat
            + (st.needNull || allUnset).toNat ≤ n + 1
          have hone : ∀ a b : Bool, (a, b) ≠ (true, true) →
              a.toNat + b.toNat ≤ 1 := by
            decide
          have := hone allUnset allSet hne
          have hor : ∀ a b : Bool, (a || b).toNat ≤ a.toNat + b.toNat := by
            decide
          have := hor st.needFull allSet
          have := hor st.needNull allUnset
          omega
      · -- the block is printed
        rw [if_neg hshared]
        rw [Bool.or_eq_true, not_or, Bool.not_eq_true, Bool.not_eq_true]
          at hshared
        obtain ⟨rfl, rfl⟩ := hshared
        have hlen := printBlock_length table codepointSize radixNum n
        have hfresh : ∀ d ∈ st.defines, d.1 ≠ .block n := by
          intro d hd heq
          obtain ⟨i, hi, hname⟩ := h.names d hd
          rw [hname] at heq
          cases heq
          exact Nat.lt_irrefl n hi
        refine ⟨Packed.printNumbered ⟨h.packed.length, h.packed.count⟩ hlen, hset,
          hunset, hfull, hnull, ?_, ?_, ?_⟩
        · intro d hd
          rcases List.mem_append.mp hd with hd | hd
          · exact hnames d hd
          · rw [List.mem_singleton.mp hd]
            exact ⟨n, Nat.lt_succ_self n, rfl⟩
        · refine forall_lt_succ (fun i hi hmixed => ?_) fun _ => ?_
          · exact (h.mixed i hi hmixed).printNumbered _ _
          · exact h.packed.numbered hfresh (printBlock_bits n hdvd)
        · show st.tableIndex + 1 + (st.needFull || false).toNat
            + (st.needNull || false).toNat ≤ n + 1
          rw [Bool.or_false, Bool.or_false]
          omega

theorem mul_lt_of_lt_divideCeil {x y : Nat} (h : n < divideCeil x y) :
    n * y < x := by
  unfold divideCeil at h
  have hdiv := Nat.div_add_mod x y
  have hle : n * y ≤ x / y * y := by
    apply Nat.mul_le_mul_right
    split at h
    · omega
    · omega
  rw [Nat.mul_comm (x / y)] at hle
  split at h
  · omega
  · have hlt : n * y + y ≤ x / y * y := by
      rw [← Nat.succ_mul]
      exact Nat.mul_le_mul_right y h
    rw [Nat.mul_comm (x / y)] at hlt
    by_cases hy : y = 0
    · subst hy
      simp at h
    · omega

theorem div_lt_divideCeil {x y cp : Nat} (h : cp < x) :
    cp / y < divideCeil x y := by
  unfold divideCeil
  have hle := Nat.div_le_div_right (c := y) (Nat.le_of_lt h)
  split
  · omega
  · next hmod =>
      have hx : x / y * y = x := Nat.div_mul_cancel
        (Nat.dvd_of_mod_eq_zero (Decidable.not_not.mp hmod))
      apply Nat.div_lt_of_lt_mul
      rw [Nat.add_zero, Nat.mul_comm, hx]
      exact h

theorem printLevel1_inv (table : List Bool) (codepointSize : Nat)
    (hradix : 0 < radixNum) (hdvd : 8 ∣ radixNum) :
    Level1Inv table codepointSize radixNum (divideCeil codepointSize radixNum)
      (printLevel1 table codepointSize radixNum
        (divideCeil codepointSize radixNum)) := by
  suffices h : ∀ n ≤ divideCeil codepointSize radixNum,
      Level1Inv table codepointSize radixNum n
        (printLevel1 table codepointSize radixNum n) from h _ (Nat.le_refl _)
  intro n hn
  unfold printLevel1
  induction n with
  | zero =>
      refine ⟨⟨(Nat.zero_mul _).symm, rfl⟩, rfl, rfl, ?_, ?_, ?_, ?_,
        Nat.le_refl 0⟩
      · exact fun i hi => absurd hi (Nat.not_lt_zero i)
      · exact fun i hi => absurd hi (Nat.not_lt_zero i)
      · intro d hd
        cases hd
      · exact fun i hi => absurd hi (Nat.not_lt_zero i)
  | succ n ih =>
      rw [List.range_succ, List.foldl_append]
      exact (ih (by omega)).step (mul_lt_of_lt_divideCeil hn) hradix hdvd

-- ========================================================= shared blocks

variable {need : Bool} {b : Byte} {v : Bool} {level2Size : Nat}

theorem Packed.printShared (h : Packed level2Size st) (need : Bool)
    (name : TblName) (b : Byte) :
    Packed level2Size (printShared need name b level2Size st) := by
  unfold Unicode.printShared
  split
  · exact h.printNumbered List.length_replicate
  · exact h

theorem Numbered.printShared (h : Numbered st radixNum name f) (need : Bool)
    (other : TblName) (b : Byte) (level2Size : Nat) :
    Numbered (printShared need other b level2Size st) radixNum name f := by
  unfold Unicode.printShared
  split
  · exact h.printNumbered _ _
  · exact h

theorem Packed.numbered_shared (h : Packed (radixNum / 8) st)
    (hdvd : 8 ∣ radixNum) (hfresh : ∀ d ∈ st.defines, d.1 ≠ name)
    (hb : ∀ k < 8, b.toNat.testBit k = v) (hneed : need = true) :
    Numbered (Unicode.printShared need name b (radixNum / 8) st) radixNum name
      fun _ => v := by
  unfold Unicode.printShared
  rw [if_pos hneed]
  refine h.numbered hfresh (hasBits_replicate ?_ hb)
  rw [Nat.mul_div_cancel' hdvd]

theorem printShared_maps (need : Bool) (name : TblName) (b : Byte)
    (level2Size : Nat) (st : Level1) :
    (printShared need name b level2Size st).allSetMap = st.allSetMap
      ∧ (printShared need name b level2Size st).allUnsetMap = st.allUnsetMap
      ∧ (printShared need name b level2Size st).needNull = st.needNull
      ∧ (printShared need name b level2Size st).tableIndex
        = st.tableIndex + need.toNat := by
  unfold printShared
  cases need with
  | true => exact ⟨rfl, rfl, rfl, rfl⟩
  | false => exact ⟨rfl, rfl, rfl, rfl⟩

theorem printShared_names (need : Bool) (b : Byte) (level2Size : Nat) :
    ∀ d ∈ (printShared need name b level2Size st).defines,
      d ∈ st.defines ∨ d.1 = name := by
  unfold printShared
  split
  · intro d hd
    rcases List.mem_append.mp hd with hd | hd
    · exact Or.inl hd
    · rw [List.mem_singleton.mp hd]
      exact Or.inr rfl
  · exact fun d hd => Or.inl hd

/-- All blocks are printed, and each entry of the first level names one with
its bits. -/
structure Complete (table : List Bool) (codepointSize radixNum : Nat)
    (st : Level1) : Prop where
  packed : Packed (radixNum / 8) st
  bound : st.tableIndex ≤ divideCeil codepointSize radixNum
  entries : ∀ i < divideCeil codepointSize radixNum, ∃ f,
    Numbered st radixNum (lookupName st i) f
      ∧ ∀ j < radixNum, i * radixNum + j < codepointSize →
        f j = flag table (i * radixNum + j)

/-- The state the lookup array is printed from. -/
def printBlocks (table : List Bool) (codepointSize radixNum : Nat) : Level1 :=
  let st := printLevel1 table codepointSize radixNum
    (divideCeil codepointSize radixNum)
  let st := printShared st.needFull .full 0xff (radixNum / 8) st
  printShared st.needNull .null 0x00 (radixNum / 8) st

theorem flag_map_range {g : Nat → Bool} (h : i < n) :
    flag ((List.range n).map g) i = g i := by
  unfold flag
  rw [List.getElem?_map, List.getElem?_range h]
  rfl

theorem printBlocks_complete (table : List Bool) (codepointSize : Nat)
    (hradix : 0 < radixNum) (hdvd : 8 ∣ radixNum) :
    Complete table codepointSize radixNum
      (printBlocks table codepointSize radixNum) := by
  have h := printLevel1_inv table codepointSize hradix hdvd
  unfold printBlocks
  generalize printLevel1 table codepointSize radixNum _ = st at h ⊢
  obtain ⟨hset₁, hunset₁, hnull₁, hindex₁⟩ :=
    printShared_maps st.needFull .full 0xff (radixNum / 8) st
  have hpacked := h.packed.printShared st.needFull .full 0xff
  have hfreshFull : ∀ d ∈ st.defines, d.1 ≠ .full := by
    intro d hd heq
    obtain ⟨i, -, hname⟩ := h.names d hd
    rw [hname] at heq
    cases heq
  have hfreshNull : ∀ d ∈ (printShared st.needFull .full 0xff (radixNum / 8)
      st).defines, d.1 ≠ .null := by
    intro d hd heq
    rcases printShared_names _ _ _ d hd with hold | hfull
    · obtain ⟨i, -, hname⟩ := h.names d hold
      rw [hname] at heq
      cases heq
    · rw [hfull] at heq
      cases heq
  have hfull : st.needFull = true → Numbered (printShared st.needFull .full 0xff
      (radixNum / 8) st) radixNum .full fun _ => true :=
    h.packed.numbered_shared hdvd hfreshFull
      (by decide : ∀ k < 8, (0xff : Byte).toNat.testBit k = true)
  have hmixed : ∀ i < divideCeil codepointSize radixNum,
      blockFlags table codepointSize radixNum i = (false, false) →
        Numbered (printShared st.needFull .full 0xff (radixNum / 8) st) radixNum
          (.block i) (blockBit table codepointSize radixNum i) :=
    fun i hi hi' => (h.mixed i hi hi').printShared _ _ _ _
  dsimp only
  generalize printShared st.needFull .full 0xff (radixNum / 8) st = st₁
    at hset₁ hunset₁ hnull₁ hindex₁ hpacked hfreshNull hfull hmixed ⊢
  obtain ⟨hset₂, hunset₂, -, hindex₂⟩ :=
    printShared_maps st₁.needNull .null 0x00 (radixNum / 8) st₁
  refine ⟨hpacked.printShared _ _ _, ?_, ?_⟩
  · rw [hindex₂, hindex₁, hnull₁]
    exact h.bound
  · intro i hi
    have hname : lookupName (printShared st₁.needNull .null 0x00 (radixNum / 8)
        st₁) i = if (blockFlags table codepointSize radixNum i).2 then .full
          else if (blockFlags table codepointSize radixNum i).1 then .null
          else .block i := by
      unfold lookupName
      rw [hset₂, hset₁, h.allSetMap, hunset₂, hunset₁, h.allUnsetMap,
        flag_map_range hi, flag_map_range hi]
    rw [hname]
    by_cases hset : (blockFlags table codepointSize radixNum i).2 = true
    · rw [if_pos hset]
      refine ⟨fun _ => true, (hfull (h.needFull i hi hset)).printShared _ _ _ _,
        ?_⟩
      intro j hj hlt
      exact ((allSet_iff _ _ _ _).mp hset j hj hlt).symm
    · rw [if_neg hset]
      by_cases hunset : (blockFlags table codepointSize radixNum i).1 = true
      · rw [if_pos hunset]
        refine ⟨fun _ => false, ?_, ?_⟩
        · apply hpacked.numbered_shared hdvd hfreshNull
          · exact fun k _ => Nat.zero_testBit k
          · rw [hnull₁]
            exact h.needNull i hi hunset
        · intro j hj hlt
          exact ((allUnset_iff _ _ _ _).mp hunset j hj hlt).symm
      · rw [if_neg hunset]
        refine ⟨_, (hmixed i hi ?_).printShared _ _ _ _, ?_⟩
        · exact Prod.ext (Bool.not_eq_true _ ▸ hunset) (Bool.not_eq_true _ ▸ hset)
        · intro j _ hlt
          unfold blockBit
          rw [decide_eq_true hlt, Bool.true_and]

end Cextras.Unicode
