/-
A hash map that users and an LRU cache share. The cache takes and gives
back its references by key, at the first slot that has the key word,
live or not, while the users' references are on slots. `SharedMap` says
that the two agree: a slot's counter is what the users hold on it plus
what the queue holds on its key, provided that it is the key's first
slot.

What may go wrong is that a key in the queue gets another first slot.
Of the puts, only one that fills an empty slot for such a key does
that.
-/
import Cextras.Collection.Proofs.HashUnique
import Cextras.Collection.Proofs.HashFirst
import Cextras.Collection.Proofs.LruClient

namespace Cextras.Collection

open Lib

variable {m m' : Machine} {T T' : Table} {b b' : HashBook} {held : Nat → Nat}
  {w w' : List UInt64} {k : UInt64} {t : Place}

/-- The references the queue has on a slot. -/
def share (T : Table) (w : List UInt64) (t : Place) : Nat :=
  if Keeps.firstSlot T (T.word t) = some t then occurrences w (T.word t) else 0

structure SharedMap (m : Machine) (T : Table) (b : HashBook)
    (held : Nat → Nat) (w : List UInt64) : Prop where
  keeps : Keeps m T b
  /-- a key in the queue has a first slot -/
  queued : ∀ k, occurrences w k ≠ 0 → k ≠ 0 ∧ ∃ t, Keeps.firstSlot T k = some t
  refs : ∀ t, T.In t → T.refs t = held (T.address t) + share T w t
  placed : ∀ p, held p ≠ 0 → ∃ t, T.In t ∧ p = T.address t

-- ================================================================= shares

theorem share_first (hword : T.word t = k)
    (h : Keeps.firstSlot T k = some t) : share T w t = occurrences w k := by
  unfold share
  rw [hword, if_pos h]

theorem share_other {s : Place} (hword : T.word s = k)
    (h : Keeps.firstSlot T k = some t) (hne : s ≠ t) : share T w s = 0 := by
  unfold share
  rw [hword, if_neg]
  intro hs
  exact hne (Option.some.inj (hs.symm.trans h))

theorem share_absent (h : occurrences w (T.word t) = 0) : share T w t = 0 := by
  unfold share
  rw [h, ite_self]

/-- Shares stay while the keys of the queue keep their first slots. -/
theorem share_congr
    (hsame : ∀ k, occurrences w k ≠ 0 →
      Keeps.firstSlot T' k = Keeps.firstSlot T k)
    (hword : T'.word t = T.word t) : share T' w t = share T w t := by
  by_cases hout : occurrences w (T.word t) = 0
  · rw [share_absent hout, share_absent (by rwa [hword])]
  · unfold share
    rw [hword, hsame _ hout]

theorem share_perm (h : w.Perm w') : share T w t = share T w' t := by
  unfold share
  rw [occurrences_perm h]

namespace SharedMap

/-- The queue only matters up to its order. -/
theorem perm (h : SharedMap m T b held w) (hw : w.Perm w') :
    SharedMap m T b held w' := by
  refine ⟨h.keeps, fun k hk => ?_, fun t ht => ?_, h.placed⟩
  · rw [← occurrences_perm hw] at hk
    exact h.queued k hk
  · rw [← share_perm hw]
    exact h.refs t ht

/-- A key in the queue has a live first slot. -/
theorem first (h : SharedMap m T b held w) (hk : occurrences w k ≠ 0) :
    ∃ t, Keeps.firstSlot T k = some t ∧ T.In t ∧ T.word t = k
      ∧ T.refs t ≠ 0 := by
  obtain ⟨-, t, ht⟩ := h.queued k hk
  obtain ⟨hin, hword⟩ := firstSlot_spec h.keeps.inv.size_pos ht
  refine ⟨t, ht, hin, hword, ?_⟩
  rw [h.refs t hin, share_first hword ht]
  omega

/-- What a user holds is live. -/
theorem live (h : SharedMap m T b held w) {p : Nat} (hp : held p ≠ 0) :
    b.ledger.refs p ≠ 0 := by
  obtain ⟨t, hin, rfl⟩ := h.placed p hp
  rw [← h.keeps.refs t hin, h.refs t hin]
  omega

-- ================================================================ counting

/-- The users' references on a slot change. -/
theorem counted (h : SharedMap m T b held w) (ht : T.In t) {n n' : Nat}
    (hk : Keeps m' (T.setRefs t n') b') (hn : n' = n + share T w t) :
    SharedMap m' (T.setRefs t n') b'
      (Function.update held (T.address t) n) w := by
  have hself : ∀ s, T.In s → T.address s = T.address t → s = t :=
    fun s hs heq => h.keeps.inv.address_injective hs ht heq
  refine ⟨hk, h.queued, fun s hs => ?_, fun p hp => ?_⟩
  · show Function.update T.refs t n' s
      = Function.update held (T.address t) n (T.address s) + share T w s
    rw [Function.update_apply, Function.update_apply]
    by_cases hst : s = t
    · rw [if_pos hst, if_pos (by rw [hst]), hst, hn]
    · rw [if_neg hst, if_neg fun heq => hst (hself s hs heq)]
      exact h.refs s hs
  · by_cases hpt : p = T.address t
    · exact ⟨t, ht, hpt⟩
    · rw [Function.update_of_ne hpt] at hp
      exact h.placed p hp

/-- The cache's references on a key change. -/
theorem moved (h : SharedMap m T b held w) (hkey : k ≠ 0)
    (hfirst : Keeps.firstSlot T k = some t) {n : Nat}
    (hk : Keeps m' (T.setRefs t n) b')
    (hw : ∀ k' ≠ k, occurrences w' k' = occurrences w k')
    (hn : n + occurrences w k = T.refs t + occurrences w' k) :
    SharedMap m' (T.setRefs t n) b' held w' := by
  obtain ⟨hin, hword⟩ := firstSlot_spec h.keeps.inv.size_pos hfirst
  refine ⟨hk, fun k' hk' => ?_, fun s hs => ?_, h.placed⟩
  · by_cases hkk : k' = k
    · rw [hkk]
      exact ⟨hkey, t, hfirst⟩
    · rw [hw k' hkk] at hk'
      exact h.queued k' hk'
  · show Function.update T.refs t n s = held (T.address s) + share T w' s
    rw [Function.update_apply]
    have hrefs := h.refs s hs
    by_cases hst : s = t
    · rw [hst, share_first hword hfirst] at hrefs
      rw [if_pos hst, hst, share_first hword hfirst]
      omega
    · rw [if_neg hst, hrefs]
      by_cases hsk : T.word s = k
      · rw [share_other hsk hfirst hst, share_other hsk hfirst hst]
      · unfold share
        rw [hw _ hsk]

-- ==================================================================== put

/-- A slot got a new element, of a key that is not in the queue. -/
theorem stored (h : SharedMap m T b held w) (hk : Keeps m' T' b')
    (ht : T'.In t) (hone : T'.refs t = 1)
    (hout : occurrences w (T'.word t) = 0)
    (hin : ∀ s, T.In s → T'.In s ∧ T'.address s = T.address s)
    (hold : ∀ s, T'.In s → s ≠ t →
      T'.refs s = held (T'.address s) + share T' w s)
    (hsame : ∀ k, occurrences w k ≠ 0 →
      Keeps.firstSlot T' k = Keeps.firstSlot T k) :
    SharedMap m' T' b' (Function.update held (T'.address t) 1) w := by
  refine ⟨hk, fun k hk => ?_, fun s hs => ?_, fun p hp => ?_⟩
  · rw [hsame k hk]
    exact h.queued k hk
  · rw [Function.update_apply]
    by_cases hst : s = t
    · rw [if_pos (by rw [hst]), hst, hone, share_absent hout]
    · rw [if_neg fun heq => hst (hk.inv.address_injective hs ht heq)]
      exact hold s hs hst
  · by_cases hpt : p = T'.address t
    · exact ⟨t, ht, hpt⟩
    · rw [Function.update_of_ne hpt] at hp
      obtain ⟨s, hs, rfl⟩ := h.placed p hp
      exact ⟨s, (hin s hs).1, (hin s hs).2.symm⟩

/-- An empty slot on the key's path was filled. -/
theorem filled (h : SharedMap m T b held w)
    (hslot : TableInv.putSlot T k = some t) (hdead : T.refs t = 0)
    (hout : occurrences w k = 0)
    (hk : Keeps m' ((T.setWord t k).setRefs t 1) b') :
    SharedMap m' ((T.setWord t k).setRefs t 1) b'
      (Function.update held (T.address t) 1) w := by
  have hsame : ∀ k', occurrences w k' ≠ 0 →
      Keeps.firstSlot ((T.setWord t k).setRefs t 1) k'
        = Keeps.firstSlot T k' := by
    intro k' hk'
    obtain ⟨s, hs, -, -, hlive⟩ := h.first hk'
    obtain ⟨d, hd⟩ := firstSlot_iff.mp hs
    have hne : k' ≠ k := fun heq => hk' (heq ▸ hout)
    have hst : s ≠ t := fun heq => hlive (heq ▸ hdead)
    rw [hs]
    exact firstSlot_iff.mpr ⟨d, hd.filled hne hst⟩
  obtain ⟨hin, -, -⟩ := h.keeps.putSlot_spec hslot
  refine h.stored hk hin filled_self.2 ?_ (fun s hs => ⟨hs, rfl⟩)
    (fun s hs hst => ?_) hsame
  · rw [filled_self.1]
    exact hout
  · obtain ⟨hword, hrefs⟩ := filled_other (T := T) (k := k) hst
    rw [hrefs, share_congr hsame hword]
    exact h.refs s hs

/-- A slot of a new inner map was filled. -/
theorem grown {m₁ : Machine} {T₁ : Table} (h : SharedMap m T b held w)
    (he : TableInv.Extended m T m₁ T₁)
    (ht : t = (T.count, keyHash k % T.size)) (hout : occurrences w k = 0)
    (hk : Keeps m' ((T₁.setWord t k).setRefs t 1) b') :
    SharedMap m' ((T₁.setWord t k).setRefs t 1) b'
      (Function.update held (T₁.address t) 1) w := by
  have hsize := h.keeps.inv.size_pos
  have hsame : ∀ k', occurrences w k' ≠ 0 →
      Keeps.firstSlot ((T₁.setWord t k).setRefs t 1) k'
        = Keeps.firstSlot T k' := by
    intro k' hk'
    obtain ⟨hk0, s, hs⟩ := h.queued k' hk'
    obtain ⟨d, hd⟩ := firstSlot_iff.mp hs
    have hne : k' ≠ k := fun heq => hk' (heq ▸ hout)
    rw [hs]
    exact firstSlot_iff.mpr ⟨d, hd.grown he ht hne fun h0 => absurd h0 hk0⟩
  have hcount := he.count
  have haddr : ∀ s, T.In s → T₁.address s = T.address s := by
    intro s hs
    rw [Table.address, he.base _ hs.1, he.elementSize]
    rfl
  have hzero : occurrences w 0 = 0 := by
    by_contra hne
    exact (h.queued 0 hne).1 rfl
  refine h.stored hk ?_ ?_ ?_ (fun s hs => ?_) (fun s hs hst => ?_) hsame
  · rw [ht]
    refine ⟨?_, ?_⟩
    · show T.count < T₁.count
      omega
    · show keyHash k % T.size < T₁.size
      rw [he.size]
      exact Nat.mod_lt _ hsize
  · rw [grown_refs he, if_pos rfl]
  · rw [grown_word he, if_pos rfl]
    exact hout
  · refine ⟨⟨?_, ?_⟩, haddr s hs⟩
    · show s.1 < T₁.count
      have := hs.1
      omega
    · show s.2 < T₁.size
      rw [he.size]
      exact hs.2
  · have hs₁ : T₁.In s := hs
    rw [grown_refs he, if_neg hst]
    by_cases hnew : s.1 = T.count
    · -- nobody holds an address in the new block
      have hfree : T₁.refs s = b.ledger.refs (T₁.address s) :=
        (h.keeps.extended he).refs s hs₁
      rw [he.refs, if_pos hnew] at hfree
      have hheld : held (T₁.address s) = 0 := by
        by_contra hne
        exact h.live hne hfree.symm
      rw [if_pos hnew, share_absent]
      · show 0 = held (T₁.address s) + 0
        rw [hheld]
      · rw [grown_word he, if_neg hst, if_pos hnew]
        exact hzero
    · have hin : T.In s := by
        have h1 := hs₁.1
        have h2 := hs₁.2
        rw [he.size] at h2
        exact ⟨by omega, h2⟩
      rw [if_neg hnew, share_congr hsame]
      · show T.refs s = held (T₁.address s) + share T w s
        rw [haddr s hin]
        exact h.refs s hin
      · rw [grown_word he, if_neg hst, if_neg hnew]

/-- A put of a key that is not in the queue, or that finds no gap. -/
theorem put (h : SharedMap m T b held w) (hin : T'.In t)
    (heffect : Keeps.PutEffect m T k t T') (hk : Keeps m' T' b')
    (hgap : occurrences w k ≠ 0 → T.toMap.NoGap k) :
    SharedMap m' T' b'
      (Function.update held (T'.address t) (held (T'.address t) + 1)) w := by
  have hlive : occurrences w k ≠ 0 → ∃ u, TableInv.putSlot T k = some u
      ∧ T.refs u ≠ 0 := by
    intro hq
    obtain ⟨u, -, hu, hword, hlive⟩ := h.first hq
    obtain ⟨u, hslot, -, hlive, -⟩ :=
      h.keeps.putSlot_live (hgap hq) hu hlive hword
    exact ⟨u, hslot, hlive⟩
  cases heffect with
  | live hslot hne hT' =>
      subst hT'
      have hin : T.In t := hin
      refine h.counted hin hk ?_
      rw [h.refs t hin]
      show _ = held (T.address t) + 1 + _
      omega
  | empty hslot hdead hT' =>
      subst hT'
      have hin : T.In t := hin
      have hout : occurrences w k = 0 := by
        by_contra hq
        obtain ⟨u, hu, hne⟩ := hlive hq
        rw [hslot, Option.some.injEq] at hu
        exact hne (hu ▸ hdead)
      have hfree : held (T.address t) = 0 := by
        have hrefs := h.refs t hin
        omega
      have hadd : ((T.setWord t k).setRefs t 1).address t = T.address t := rfl
      rw [hadd, hfree]
      exact h.filled hslot hdead hout hk
  | grown m₁ T₁ hslot he hs hT' =>
      subst hT'
      have hout : occurrences w k = 0 := by
        by_contra hq
        obtain ⟨u, hu, -⟩ := hlive hq
        rw [hslot] at hu
        cases hu
      have hfree : held (T₁.address t) = 0 := by
        have hrefs : T₁.refs t = b.ledger.refs (T₁.address t) :=
          (h.keeps.extended he).refs t hin
        rw [he.refs, if_pos (by rw [hs])] at hrefs
        by_contra hne
        exact h.live hne hrefs.symm
      have hadd : ((T₁.setWord t k).setRefs t 1).address t = T₁.address t := rfl
      rw [hadd, hfree]
      exact h.grown he hs hout hk

end SharedMap

end Cextras.Collection
