/-
The first slot that has a key's word, which is all retain looks at, and
how the two kinds of put that write a word move it: filling an empty slot
on the key's path, and filling one in a fresh inner map. The key's own
first slot becomes the one that was filled; another key keeps its first
slot, unless that is the slot that was filled, or the key is 0 and the
fresh slots, whose words are 0, come in front.
-/
import Mathlib.Data.Nat.ModEq
import Cextras.Collection.Proofs.HashBook
import Cextras.Collection.Proofs.HashView

namespace Cextras.Collection

open Lib

variable {m m₁ : Machine} {T T₁ : Table} {k k' : UInt64} {s t u : Place}
  {d : Nat}

/-- The key's first slot, and the turn it is found at. -/
abbrev Table.First (T : Table) (k : UInt64) (d : Nat) (s : Place) : Prop :=
  T.FirstAt (probeLimit T.size) k (fun s => T.word s = k) d s

theorem firstSlot_iff :
    Keeps.firstSlot T k = some t ↔ ∃ d, T.First k d t :=
  Table.probes_find_iff

/-- Turns reach different indices. -/
theorem turn_unique {size h d e : Nat} (hd : d < size) (he : e < size)
    (heq : (h + d) % size = (h + e) % size) : d = e := by
  have hmod : d ≡ e [MOD size] := Nat.ModEq.add_left_cancel' h heq
  rwa [Nat.ModEq, Nat.mod_eq_of_lt hd, Nat.mod_eq_of_lt he] at hmod

theorem probeLimit_le (size : Nat) : probeLimit size ≤ size :=
  Nat.min_le_left ..

theorem probeLimit_pos {size : Nat} (h : 0 < size) : 0 < probeLimit size := by
  simp only [probeLimit, maxCollisions]
  omega

theorem firstSlot_spec (hsize : 0 < T.size)
    (h : Keeps.firstSlot T k = some t) : T.In t ∧ T.word t = k := by
  obtain ⟨hp, hin⟩ := Table.probes_find hsize h
  exact ⟨hin, of_decide_eq_true hp⟩

/-- The full probe finds the key's first slot, too. -/
theorem firstSlot_full (h : Keeps.firstSlot T k = some t) :
    (T.probes T.size k).find? (fun s => T.word s = k) = some t := by
  obtain ⟨d, hd⟩ := firstSlot_iff.mp h
  exact Table.probes_find_iff.mpr ⟨d, hd.longer (probeLimit_le T.size)⟩

-- ======================================================== filling a slot

theorem filled_self : ((T.setWord t k).setRefs t 1).word t = k
    ∧ ((T.setWord t k).setRefs t 1).refs t = 1 :=
  ⟨Function.update_self .., Function.update_self ..⟩

theorem filled_other (hne : s ≠ t) :
    ((T.setWord t k).setRefs t 1).word s = T.word s
      ∧ ((T.setWord t k).setRefs t 1).refs s = T.refs s :=
  ⟨Function.update_of_ne hne _ _, Function.update_of_ne hne _ _⟩

/-- The slot a key's value was put in is its first slot. -/
theorem firstSlot_filled (hslot : TableInv.putSlot T k = some t)
    (hdead : T.refs t = 0) :
    Keeps.firstSlot ((T.setWord t k).setRefs t 1) k = some t := by
  obtain ⟨d, hfirst⟩ := Table.probes_find_iff.mp hslot
  have hbefore : ∀ s, decide (T.refs s = 0 ∨ T.word s = k) = false →
      decide (((T.setWord t k).setRefs t 1).word s = k) = false := by
    intro s hs
    rw [decide_eq_false_iff_not] at hs
    refine decide_eq_false fun hword => ?_
    by_cases hst : s = t
    · exact hs (Or.inl (hst ▸ hdead))
    · rw [(filled_other hst).1] at hword
      exact hs (Or.inr hword)
  exact firstSlot_iff.mpr ⟨d, hfirst.turn, hfirst.inner, hfirst.index,
    decide_eq_true filled_self.1,
    fun e he j hj => hbefore _ (hfirst.turns e he j hj),
    fun j hj => hbefore _ (hfirst.inners j hj)⟩

/-- A live slot that a put stopped at is the key's first slot. -/
theorem firstSlot_live (hslot : TableInv.putSlot T k = some t)
    (hlive : T.refs t ≠ 0) : Keeps.firstSlot T k = some t := by
  obtain ⟨d, hfirst⟩ := Table.probes_find_iff.mp hslot
  have hbefore : ∀ s, decide (T.refs s = 0 ∨ T.word s = k) = false →
      decide (T.word s = k) = false := by
    intro s hs
    rw [decide_eq_false_iff_not] at hs
    exact decide_eq_false fun hword => hs (Or.inr hword)
  have hword : T.word t = k := (of_decide_eq_true hfirst.pass).resolve_left hlive
  exact firstSlot_iff.mpr ⟨d, hfirst.turn, hfirst.inner, hfirst.index,
    decide_eq_true hword, fun e he j hj => hbefore _ (hfirst.turns e he j hj),
    fun j hj => hbefore _ (hfirst.inners j hj)⟩

/-- Another key keeps its first slot. -/
theorem Table.First.filled (h : T.First k' d s) (hk : k' ≠ k) (hst : s ≠ t) :
    ((T.setWord t k).setRefs t 1).First k' d s := by
  have hbefore : ∀ x, decide (T.word x = k') = false →
      decide (((T.setWord t k).setRefs t 1).word x = k') = false := by
    intro x hx
    rw [decide_eq_false_iff_not] at hx
    refine decide_eq_false fun hword => ?_
    by_cases hxt : x = t
    · rw [hxt, filled_self.1] at hword
      exact hk hword.symm
    · rw [(filled_other hxt).1] at hword
      exact hx hword
  refine ⟨h.turn, h.inner, h.index, ?_,
    fun e he j hj => hbefore _ (h.turns e he j hj),
    fun j hj => hbefore _ (h.inners j hj)⟩
  refine decide_eq_true ?_
  rw [(filled_other hst).1]
  exact of_decide_eq_true h.pass

-- ================================================= filling a fresh slot

/-- The words of a table that was extended for an element of `k`. -/
theorem grown_word (he : TableInv.Extended m T m₁ T₁) (s : Place) :
    ((T₁.setWord t k).setRefs t 1).word s
      = if s = t then k else if s.1 = T.count then 0 else T.word s := by
  change Function.update T₁.word t k s = _
  rw [Function.update_apply, he.word]

theorem grown_refs (he : TableInv.Extended m T m₁ T₁) (s : Place) :
    ((T₁.setWord t k).setRefs t 1).refs s
      = if s = t then 1 else if s.1 = T.count then 0 else T.refs s := by
  change Function.update T₁.refs t 1 s = _
  rw [Function.update_apply, he.refs]

/-- A place the table had before is none of the fresh ones. -/
theorem ne_of_lt_count (ht : t.1 = T.count) {j i : Nat} (hj : j < T.count) :
    (j, i) ≠ t ∧ (j, i).1 ≠ T.count := by
  refine ⟨fun heq => ?_, by simpa using Nat.ne_of_lt hj⟩
  rw [← heq] at ht
  exact absurd ht (Nat.ne_of_lt hj)

/-- A slot of the extended table with references is the filled one, or
was there before. -/
theorem grown_live (he : TableInv.Extended m T m₁ T₁)
    (hin : ((T₁.setWord t k).setRefs t 1).In s)
    (hlive : ((T₁.setWord t k).setRefs t 1).refs s ≠ 0) (hst : s ≠ t) :
    T.In s ∧ s.1 ≠ T.count := by
  have hs1 : s.1 ≠ T.count := by
    intro heq
    rw [grown_refs he, if_neg hst, if_pos heq] at hlive
    exact hlive rfl
  have hcount : ((T₁.setWord t k).setRefs t 1).count = T.count + 1 := he.count
  have h1 := hcount ▸ hin.1
  have h2 := he.size ▸ hin.2
  exact ⟨⟨by omega, h2⟩, hs1⟩

/-- The slot a key's value was put in is its first slot. -/
theorem firstSlot_grown (he : TableInv.Extended m T m₁ T₁)
    (hsize : 0 < T.size) (hslot : TableInv.putSlot T k = none)
    (ht : t = (T.count, keyHash k % T.size)) :
    Keeps.firstSlot ((T₁.setWord t k).setRefs t 1) k = some t := by
  have ht1 : t.1 = T.count := by rw [ht]
  have hcount : ((T₁.setWord t k).setRefs t 1).count = T.count + 1 := he.count
  have hsz : ((T₁.setWord t k).setRefs t 1).size = T.size := he.size
  have hlimit := probeLimit_pos hsize
  refine firstSlot_iff.mpr ⟨0, by rwa [hsz], by rw [hcount]; omega,
    by rw [hsz, ht]; rfl, ?_, fun e he => absurd he (Nat.not_lt_zero e), ?_⟩
  · refine decide_eq_true ?_
    rw [grown_word he, if_pos rfl]
  · intro j hj
    obtain ⟨hne, hne'⟩ := ne_of_lt_count (i := t.2) ht1 (ht1 ▸ hj)
    refine decide_eq_false ?_
    rw [grown_word he, if_neg hne, if_neg hne', ht]
    intro heq
    -- the slot is on the key's path, where the put found nothing
    have hnone := List.find?_eq_none.mp hslot _ (Table.mem_probes
      (s := (j, _)).mpr ⟨ht1 ▸ hj, 0, hlimit, rfl⟩)
    exact hnone (decide_eq_true (Or.inr heq))

/-- Another key keeps its first slot; key 0 does if it is in front of the
fresh slots. -/
theorem Table.First.grown (h : T.First k' d s)
    (he : TableInv.Extended m T m₁ T₁) (ht : t = (T.count, keyHash k % T.size))
    (hk : k' ≠ k) (hzero : k' = 0 →
      ∀ e < d, (keyHash 0 + e) % T.size = keyHash k % T.size) :
    ((T₁.setWord t k).setRefs t 1).First k' d s := by
  have ht1 : t.1 = T.count := by rw [ht]
  have hcount : ((T₁.setWord t k).setRefs t 1).count = T.count + 1 := he.count
  have hsz : ((T₁.setWord t k).setRefs t 1).size = T.size := he.size
  obtain ⟨hst, hs1⟩ := ne_of_lt_count (t := t) (i := s.2) ht1 h.inner
  refine ⟨by rw [hsz]; exact h.turn,
    by rw [hcount]; exact Nat.lt_succ_of_lt h.inner,
    by rw [hsz]; exact h.index, ?_, ?_, ?_⟩
  · refine decide_eq_true ?_
    rw [grown_word he, if_neg hst, if_neg hs1]
    exact of_decide_eq_true h.pass
  · intro e he' j hj
    rw [hsz]
    refine decide_eq_false ?_
    rw [grown_word he]
    by_cases hjc : j = T.count
    · -- a fresh slot has the word 0, or is the new element
      by_cases hnew : (j, (keyHash k' + e) % T.size) = t
      · rw [if_pos hnew]
        exact fun heq => hk heq.symm
      · rw [if_neg hnew, if_pos hjc]
        intro hzw
        refine hnew ?_
        rw [ht, hjc, ← hzw, hzero hzw.symm e he']
    · rw [hcount] at hj
      obtain ⟨hne, hne'⟩ := ne_of_lt_count (t := t)
        (i := (keyHash k' + e) % T.size) ht1 (by omega : j < T.count)
      rw [if_neg hne, if_neg hne']
      exact of_decide_eq_false (h.turns e he' j (by omega))
  · intro j hj
    obtain ⟨hne, hne'⟩ := ne_of_lt_count (t := t) (i := s.2) ht1
      (hj.trans h.inner)
    refine decide_eq_false ?_
    rw [grown_word he, if_neg hne, if_neg hne']
    exact of_decide_eq_false (h.inners j hj)

end Cextras.Collection
