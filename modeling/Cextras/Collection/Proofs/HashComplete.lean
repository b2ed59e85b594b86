/-
Finding what is stored. Retain looks no further than the first slot that
has the key word, and key words outlive their elements, so an element is
found exactly while that first slot is live (`Table.Found`). Two kinds of
operation lose an element this way:

- the last release of an element that stands in front of another element
  of its key, and
- a put that extends the map, for the element of key 0, whose word the
  fresh slots have: those of the turns before it now come first.

`cxRcHashMap_complete` says that no other operation does.
-/
import Cextras.Collection.Proofs.HashClient
import Cextras.Collection.Proofs.HashFirst

namespace Cextras.Collection

open Lib

namespace CxRcHashMap

/-- Every slot of the key's path holds an element of another key, so that
a put extends the map. -/
def Full (map : CxRcHashMap) (k : UInt64) : Prop :=
  ∀ s ∈ map.path k, map.Live s ∧ map.word s ≠ some k

instance decidableFull (map : CxRcHashMap) (k : UInt64) :
    Decidable (map.Full k) :=
  inferInstanceAs (Decidable (∀ s ∈ map.path k, _))

/-- In front of the element of key 0, if it is found, lie only turns at
the index `k` starts at. -/
def ZeroStays (map : CxRcHashMap) (k : UInt64) : Prop :=
  ∀ s ∈ map.firstWith 0, map.Live s → ∀ d < probeLimit map.mapSize,
    s.2 = (keyHash 0 + d) % map.mapSize →
      ∀ e < d, (keyHash 0 + e) % map.mapSize = keyHash k % map.mapSize

instance decidableZeroStays (map : CxRcHashMap) (k : UInt64) :
    Decidable (map.ZeroStays k) :=
  inferInstanceAs (Decidable (∀ s ∈ map.firstWith 0, map.Live s →
    ∀ d < probeLimit map.mapSize, _ → ∀ e < d, _))

/-- The slot the pointer is in is not the first one of `k`, or it is the
only slot with an element of `k`. -/
def OnlyOne (map : CxRcHashMap) (k : UInt64) (p : Nat) : Prop :=
  ∀ t ∈ map.firstWith k, map.element t = some p →
    ∀ u ∈ map.path k, map.HasLive k u → u = t

instance decidableOnlyOne (map : CxRcHashMap) (k : UInt64) (p : Nat) :
    Decidable (map.OnlyOne k p) :=
  inferInstanceAs (Decidable (∀ t ∈ map.firstWith k, _ →
    ∀ u ∈ map.path k, map.HasLive k u → u = t))

end CxRcHashMap

/-- The operation loses no element. -/
def HashOp.KeepsFound (s : HashClient) : HashOp → Prop
  | .put k _ => k ≠ 0 → s.map.Full k → s.map.ZeroStays k
  | .retain _ => True
  | .release p =>
      s.book.ledger.refs p = 1 → s.map.OnlyOne (s.book.keyOf p) p

instance HashOp.decidableKeepsFound (s : HashClient) :
    (op : HashOp) → Decidable (op.KeepsFound s)
  | .put k _ => inferInstanceAs (Decidable (k ≠ 0 → _ → s.map.ZeroStays k))
  | .retain _ => inferInstanceAs (Decidable True)
  | .release p =>
      inferInstanceAs (Decidable (_ → s.map.OnlyOne (s.book.keyOf p) p))

-- ================================================================= tables

variable {m m' : Machine} {T T' : Table} {b : HashBook} {s : HashClient}
  {k : UInt64} {t u : Place}

/-- Every key that has an element has one at its first slot. -/
def Table.Found (T : Table) : Prop :=
  ∀ u, T.In u → T.refs u ≠ 0 →
    ∃ s, Keeps.firstSlot T (T.word u) = some s ∧ T.refs s ≠ 0

/-- The key has an element, and its first slot is empty. -/
def Table.Lost (T : Table) (k : UInt64) : Prop :=
  (∃ u, T.In u ∧ T.refs u ≠ 0 ∧ T.word u = k)
    ∧ ∀ s, Keeps.firstSlot T k = some s → T.refs s = 0

-- ==================================================== operations that keep

/-- Counting at a live slot that stays live. -/
theorem Table.Found.setRefs (h : T.Found) (ht : T.refs t ≠ 0) {n : Nat}
    (hn : n ≠ 0) : (T.setRefs t n).Found := by
  have hlive : ∀ s, (T.setRefs t n).refs s ≠ 0 ↔ T.refs s ≠ 0 := by
    intro s
    change Function.update T.refs t n s ≠ 0 ↔ _
    by_cases hst : s = t
    · rw [hst, Function.update_self]
      exact ⟨fun _ => ht, fun _ => hn⟩
    · rw [Function.update_of_ne hst]
  intro u hu hul
  obtain ⟨s, hs, hsl⟩ := h u hu ((hlive u).mp hul)
  exact ⟨s, hs, (hlive s).mpr hsl⟩

/-- The last reference on an element goes. -/
theorem Table.Found.emptied (h : T.Found)
    (honly : Keeps.firstSlot T (T.word t) = some t →
      ∀ u, T.In u → T.refs u ≠ 0 → T.word u = T.word t → u = t) :
    (T.setRefs t 0).Found := by
  intro u hu hul
  change Function.update T.refs t 0 u ≠ 0 at hul
  have hut : u ≠ t := by
    intro heq
    rw [heq, Function.update_self] at hul
    exact hul rfl
  rw [Function.update_of_ne hut] at hul
  obtain ⟨s, hs, hsl⟩ := h u hu hul
  have hst : s ≠ t := by
    intro heq
    subst heq
    have hword : T.word s = T.word u :=
      of_decide_eq_true (List.find?_some hs :)
    exact hut (honly (hword ▸ hs) u hu hul hword.symm)
  refine ⟨s, hs, ?_⟩
  change Function.update T.refs t 0 s ≠ 0
  rwa [Function.update_of_ne hst]

/-- An element stored in the first empty slot of its key's path. -/
theorem Table.Found.filled (h : T.Found)
    (hslot : TableInv.putSlot T k = some t) (hdead : T.refs t = 0) :
    ((T.setWord t k).setRefs t 1).Found := by
  intro u hu hul
  by_cases hk : ((T.setWord t k).setRefs t 1).word u = k
  · refine ⟨t, ?_, ?_⟩
    · rw [hk]
      exact firstSlot_filled hslot hdead
    · rw [filled_self.2]
      exact one_ne_zero
  · -- another key's first slot is live, so it is not the one filled
    have hut : u ≠ t := fun heq => hk (heq ▸ filled_self.1)
    rw [(filled_other hut).1] at hk ⊢
    rw [(filled_other hut).2] at hul
    obtain ⟨s, hs, hsl⟩ := h u hu hul
    have hst : s ≠ t := fun heq => hsl (heq ▸ hdead)
    obtain ⟨d, hd⟩ := firstSlot_iff.mp hs
    exact ⟨s, firstSlot_iff.mpr ⟨d, hd.filled hk hst⟩,
      by rwa [(filled_other hst).2]⟩

section Grown

variable {m₁ : Machine} {T₁ : Table}

/-- Extending for an element of `k`: the element of key 0 stays in front
of the fresh slots. -/
theorem Table.Found.grown (h : T.Found) (he : TableInv.Extended m T m₁ T₁)
    (hsize : 0 < T.size) (hslot : TableInv.putSlot T k = none)
    (ht : t = (T.count, keyHash k % T.size))
    (hzero : k ≠ 0 → ∀ s d, T.First 0 d s → T.refs s ≠ 0 →
        ∀ e < d, (keyHash 0 + e) % T.size = keyHash k % T.size) :
    ((T₁.setWord t k).setRefs t 1).Found := by
  have ht1 : t.1 = T.count := by rw [ht]
  intro u hu hul
  by_cases hk : ((T₁.setWord t k).setRefs t 1).word u = k
  · refine ⟨t, ?_, ?_⟩
    · rw [hk]
      exact firstSlot_grown he hsize hslot ht
    · rw [filled_self.2]
      exact one_ne_zero
  · have hut : u ≠ t := fun heq => hk (heq ▸ filled_self.1)
    obtain ⟨hin, hu1⟩ := grown_live he hu hul hut
    rw [grown_word he, if_neg hut, if_neg hu1] at hk ⊢
    rw [grown_refs he, if_neg hut, if_neg hu1] at hul
    obtain ⟨s, hs, hsl⟩ := h u hin hul
    obtain ⟨d, hd⟩ := firstSlot_iff.mp hs
    obtain ⟨hst, hs1⟩ := ne_of_lt_count (t := t) (i := s.2) ht1 hd.inner
    refine ⟨s, firstSlot_iff.mpr ⟨d, hd.grown he ht hk ?_⟩, ?_⟩
    · intro hzw
      rw [hzw] at hd
      exact hzero (fun h0 => hk (hzw.trans h0.symm)) s d hd hsl
    · rwa [grown_refs he, if_neg hst, if_neg hs1]

/-- Otherwise a fresh slot comes first. -/
theorem Table.lost_grown (he : TableInv.Extended m T m₁ T₁)
    (ht : t = (T.count, keyHash k % T.size)) (hk : k ≠ 0) {d e : Nat}
    (hd : T.FirstAt (probeLimit T.size) 0 (fun s => T.word s = 0) d u)
    (hul : T.refs u ≠ 0) (hed : e < d)
    (hne : (keyHash 0 + e) % T.size ≠ keyHash k % T.size) :
    ((T₁.setWord t k).setRefs t 1).Lost 0 := by
  have ht1 : t.1 = T.count := by rw [ht]
  have hword := grown_word (k := k) (t := t) he
  have hrefs := grown_refs (k := k) (t := t) he
  have hcount : ((T₁.setWord t k).setRefs t 1).count = T.count + 1 := he.count
  have hsz : ((T₁.setWord t k).setRefs t 1).size = T.size := he.size
  have hu := hd.inner
  refine ⟨⟨u, ⟨by rw [hcount]; omega, ?_⟩, ?_, ?_⟩, fun s hs => ?_⟩
  · rw [hsz, hd.index]
    refine Nat.mod_lt _ ?_
    have := hd.turn
    have := probeLimit_le T.size
    omega
  · obtain ⟨hut, hu1⟩ := ne_of_lt_count (t := t) (i := u.2) ht1 hu
    rwa [hrefs, if_neg hut, if_neg hu1]
  · obtain ⟨hut, hu1⟩ := ne_of_lt_count (t := t) (i := u.2) ht1 hu
    rw [hword, if_neg hut, if_neg hu1]
    exact of_decide_eq_true hd.pass
  · obtain ⟨d', hd'⟩ := firstSlot_iff.mp hs
    have hpass : ((T₁.setWord t k).setRefs t 1).word s = 0 :=
      of_decide_eq_true hd'.pass
    rw [hword] at hpass
    have hst : s ≠ t := by
      intro heq
      rw [if_pos heq] at hpass
      exact hk hpass
    rw [if_neg hst] at hpass
    rw [hrefs, if_neg hst]
    by_contra hlive
    have hs1 : s.1 ≠ T.count := by
      intro heq
      rw [if_pos heq] at hlive
      exact hlive rfl
    rw [if_neg hs1] at hpass
    by_cases hlt : e < d'
    · -- the fresh slot of turn `e` comes before `s`
      have hfresh := of_decide_eq_false
        (hd'.turns e hlt T.count (by rw [hcount]; exact Nat.lt_succ_self _))
      rw [hword, hsz] at hfresh
      refine hfresh ?_
      split
      case isTrue heq =>
        rw [ht] at heq
        exact absurd (congrArg Prod.snd heq) hne
      case isFalse => exact if_pos rfl
    · -- `s` comes before the old first slot
      have hinner := hd'.inner
      rw [hcount] at hinner
      refine of_decide_eq_false (hd.turns d' (by omega) s.1 (by omega)) ?_
      rw [← hsz, ← hd'.index]
      exact hpass

end Grown

-- ================================================================== steps

/-- An operation that loses no element keeps every element found. -/
theorem Keeps.found_step (h : Keeps m T b) (hf : T.Found) {op : HashOp}
    (hs : s = ⟨T.toMap, b⟩) (hkeep : op.KeepsFound s)
    (heffect : OpEffect m T T' op) : T'.Found := by
  subst hs
  cases op with
  | put k v =>
      obtain ⟨t, -, heffect⟩ := heffect
      cases heffect with
      | live hslot hne hT' => exact hT' ▸ hf.setRefs hne (Nat.succ_ne_zero _)
      | empty hslot hdead hT' => exact hT' ▸ hf.filled hslot hdead
      | grown m₁ T₁ hslot he ht hT' =>
          rw [hT']
          refine hf.grown he h.inv.size_pos hslot ht fun hk s d hd hlive e hed => ?_
          have hin : T.In s := (Table.probes_find h.inv.size_pos
            (firstSlot_iff.mpr ⟨d, hd⟩)).2
          have hfull : T.toMap.Full k := by
            intro x hx
            have hxin := Table.in_of_mem_probes h.inv.size_pos hx
            have hnot := List.find?_eq_none.mp hslot x hx
            simp only [decide_eq_true_eq, not_or] at hnot
            refine ⟨Table.live_iff.mpr ⟨hxin, hnot.1⟩, ?_⟩
            rw [Table.word_toMap hxin]
            exact fun heq => hnot.2 (Option.some.inj heq)
          refine hkeep hk hfull s ?_ (Table.live_iff.mpr ⟨hin, hlive⟩) d hd.turn
            hd.index e hed
          rw [Option.mem_def, Table.firstWith_toMap h.inv.size_pos]
          exact firstSlot_iff.mpr ⟨d, hd⟩
  | retain k =>
      rcases heffect with rfl | ⟨t, -, -, hne, hT'⟩
      · exact hf
      · exact hT' ▸ hf.setRefs hne (Nat.succ_ne_zero _)
  | release p =>
      obtain ⟨t, hin, hp, hne, hT'⟩ := heffect
      rw [hT']
      by_cases hlast : T.refs t = 1
      · rw [hlast]
        refine hf.emptied fun hfirst u hu hul hword => ?_
        have hkey : b.keyOf p = T.word t := by rw [h.word t hin hne, hp]
        have hone : b.ledger.refs p = 1 := by rw [hp, ← h.refs t hin, hlast]
        have honly := hkeep hone
        dsimp only at honly
        rw [hkey] at honly
        refine honly t ?_ ?_ u ?_ (Table.hasLive_iff.mpr ⟨hu, hul, hword⟩)
        · rw [Option.mem_def, Table.firstWith_toMap h.inv.size_pos]
          exact hfirst
        · rw [h.inv.element_toMap hin, hp]
        · exact hword ▸ h.home u hu hul
      · exact hf.setRefs hne (by omega)

/-- An operation that is not of this kind loses one. -/
theorem Keeps.lost_step (h : Keeps m T b) {op : HashOp}
    (hs : s = ⟨T.toMap, b⟩) (hlose : ¬ op.KeepsFound s)
    (heffect : OpEffect m T T' op) : ∃ k, T'.Lost k := by
  subst hs
  cases op with
  | put k v =>
      simp only [HashOp.KeepsFound, Classical.not_imp] at hlose
      obtain ⟨hk, hfull, hzero⟩ := hlose
      unfold CxRcHashMap.ZeroStays at hzero
      push Not at hzero
      obtain ⟨u, hu, hul, d, hd, hidx, e, hed, hne⟩ := hzero
      rw [Option.mem_def, Table.firstWith_toMap h.inv.size_pos] at hu
      obtain ⟨d', hd'⟩ := Table.probes_find_iff.mp hu
      have hdd : d = d' := by
        have hle := probeLimit_le T.size
        have hlt : d < T.size := lt_of_lt_of_le hd hle
        have hlt' : d' < T.size := lt_of_lt_of_le hd'.turn hle
        exact turn_unique hlt hlt' (hidx.symm.trans hd'.index)
      have hnone : ∀ w, TableInv.putSlot T k ≠ some w := by
        intro w hslot
        obtain ⟨hin, hpath, hor⟩ := h.putSlot_spec hslot
        obtain ⟨hlive, hword⟩ := hfull w hpath
        rw [Table.word_toMap hin] at hword
        rcases hor with hdead | heq
        · exact (Table.live_iff.mp hlive).2 hdead
        · exact hword (congrArg some heq)
      obtain ⟨t, -, heffect⟩ := heffect
      cases heffect with
      | live hslot _ _ => exact absurd hslot (hnone t)
      | empty hslot _ _ => exact absurd hslot (hnone t)
      | grown m₁ T₁ _ he ht hT' =>
          rw [hT']
          exact ⟨0, Table.lost_grown he ht hk hd' (Table.live_iff.mp hul).2
            (hdd ▸ hed) hne⟩
  | retain k => exact absurd trivial hlose
  | release p =>
      simp only [HashOp.KeepsFound, Classical.not_imp] at hlose
      obtain ⟨hone, honly⟩ := hlose
      unfold CxRcHashMap.OnlyOne at honly
      push Not at honly
      obtain ⟨t, ht, hel, u, hu, hul, hne⟩ := honly
      rw [Option.mem_def, Table.firstWith_toMap h.inv.size_pos] at ht
      obtain ⟨hword, hin⟩ := Table.probes_find h.inv.size_pos ht
      rw [h.inv.element_toMap hin, Option.some.injEq] at hel
      obtain ⟨t', hin', hp, hne', hT'⟩ := heffect
      have htt : t' = t := h.inv.address_injective hin' hin (hp.symm.trans hel.symm)
      subst htt
      obtain ⟨huin, hulive, huword⟩ := Table.hasLive_iff.mp hul
      have hzero : T.refs t' - 1 = 0 := by
        rw [h.refs t' hin', ← hp, hone]
      rw [hT', hzero]
      refine ⟨b.keyOf p, ⟨u, huin, ?_, huword⟩, fun s hs => ?_⟩
      · change Function.update T.refs t' 0 u ≠ 0
        rwa [Function.update_of_ne hne]
      · have heq : s = t' := Option.some.inj (hs.symm.trans ht)
        rw [heq]
        exact Function.update_self ..

-- ================================================================ the map

/-- What holds in a state of a run whose operations lose no element. -/
structure Complete (s : HashClient) (m : Machine) : Prop where
  found : ∀ k, s.book.Spare k →
    (∃ p, s.book.ledger.refs p ≠ 0 ∧ s.book.keyOf p = k) →
      ∃ p map', (cxRcHashMapRetain s.map k).run m = .ok (p, map') m ∧ p ≠ 0
        ∧ s.book.ledger.refs p ≠ 0 ∧ s.book.keyOf p = k
  /-- an operation of the other kind leaves a key that has an element and
  is not found -/
  lost : ∀ op : HashOp, op.Allowed s → ¬ op.KeepsFound s →
    (HashClient.exec op s).Granted m fun s' m' =>
      ∃ k p, s'.book.ledger.refs p ≠ 0 ∧ s'.book.keyOf p = k
        ∧ (cxRcHashMapRetain s'.map k).run m' = .ok (0, s'.map) m'

theorem Keeps.found (h : Keeps m T b) (hf : T.Found) (hspare : b.Spare k)
    {p : Nat} (hp : b.ledger.refs p ≠ 0) (hkey : b.keyOf p = k) :
    ∃ p map', (cxRcHashMapRetain T.toMap k).run m = .ok (p, map') m ∧ p ≠ 0
      ∧ b.ledger.refs p ≠ 0 ∧ b.keyOf p = k := by
  obtain ⟨u, hu, rfl⟩ := h.owned p hp
  have hul := (h.live_iff hu).mpr hp
  obtain ⟨s, hs, hlive⟩ := hf u hu hul
  rw [h.word u hu hul, hkey] at hs
  obtain ⟨hword, hin⟩ := Table.probes_find h.inv.size_pos hs
  have hword : T.word s = k := of_decide_eq_true hword
  obtain ⟨-, hrun, -⟩ := h.run_retain hs hlive (h.spare hspare hin hlive hword)
  exact ⟨T.address s, _, hrun, h.inv.address_ne_zero hin,
    (h.live_iff hin).mp hlive, (h.word s hin hlive).symm.trans hword⟩

/-- Runs whose operations lose no element find every element, and any
other operation loses one. -/
theorem cxRcHashMap_complete {mem : Mem} {oracle : Nat → Nat}
    {size elementSize : Nat} (hsize : 0 < size) (helem : 0 < elementSize)
    (h : Reached (HashClient.start size elementSize) HashClient.exec
      (fun s _ op => op.Allowed s ∧ op.KeepsFound s) (Machine.boot mem oracle)
      s m) : Complete s m := by
  have hinv : ∃ T, Agrees s m T ∧ T.Found := by
    refine h.invariant_granted (fun s m => ∃ T, Agrees s m T ∧ T.Found)
      ?_ ?_
    · refine (agrees_start hsize helem).imp ?_
      rintro s m ⟨T, hagrees, hbook, -, -⟩
      refine ⟨T, hagrees, fun u hu hul => ?_⟩
      rw [hagrees.2.refs u hu, hbook] at hul
      exact absurd rfl hul
    · rintro s m op ⟨T, hagrees, hfound⟩ ⟨hop, hkeep⟩
      refine (exec_effect hagrees hop).imp ?_
      rintro s' m' ⟨T', hagrees', heffect⟩
      exact ⟨T', hagrees', hagrees.2.found_step hfound
        (by rw [← hagrees.1]) hkeep heffect⟩
  obtain ⟨T, hagrees, hfound⟩ := hinv
  refine ⟨fun k hspare hheld => ?_, fun op hop hlose => ?_⟩
  · obtain ⟨p, hp, hkey⟩ := hheld
    rw [hagrees.1]
    exact hagrees.2.found hfound hspare hp hkey
  · refine (exec_effect hagrees hop).imp ?_
    rintro s' m' ⟨T', ⟨hmap', hkeeps'⟩, heffect⟩
    obtain ⟨k, ⟨u, hu, hul, hword⟩, hdead⟩ :=
      hagrees.2.lost_step (by rw [← hagrees.1]) hlose heffect
    refine ⟨k, T'.address u, (hkeeps'.live_iff hu).mp hul,
      (hkeeps'.word u hu hul).symm.trans hword, ?_⟩
    rw [hmap']
    exact hkeeps'.inv.run_hashMapRetain_dead hkeeps'.count_pos hdead

/-- Three slots an inner map, filled by keys 0, 1 and 2: the put of key 3
extends the map, and the first key is released and put again. -/
theorem cxRcHashMap_complete_chain : ∃ s m,
    Reached (HashClient.start 3 1) HashClient.exec
      (fun s _ op => op.Allowed s ∧ op.KeepsFound s)
      (Machine.boot (fun _ => 0) fun t => 2 ^ 20 * (t + 1)) s m
      ∧ s.map.hashMapCount = 2 ∧ Complete s m := by
  obtain ⟨s, m, hrun, htest⟩ := reached_of_replayFrom
    (HashClient.start 3 1) HashClient.exec
    (fun s _ op => op.Allowed s ∧ op.KeepsFound s)
    (Machine.boot (fun _ => 0) fun t => 2 ^ 20 * (t + 1))
    [.put 0 [11], .put 1 [22], .put 2 [33], .put 3 [44], .retain 3]
    (fun x => decide (x.1.map.hashMapCount = 2))
    (by decide +kernel)
  exact ⟨s, m, hrun, of_decide_eq_true htest,
    cxRcHashMap_complete (by decide) (by decide) hrun⟩

/-- Key 1 fills the only slot and key 2 goes to a second inner map; key 1
is released, and key 2 put again in front of its element and released
there. The element of key 2 that is left is not found. -/
theorem cxRcHashMap_hidden : ∃ s m p map' m',
    HashClient.Run 1 1 (fun _ => 0) (fun t => 2 ^ 20 * (t + 1)) s m
      ∧ s.book.ledger.refs p ≠ 0 ∧ s.book.keyOf p = 2 ∧ s.book.Spare 2
      ∧ (cxRcHashMapRetain s.map 2).run m = .ok (0, map') m' := by
  obtain ⟨s, m, hrun, htest⟩ := reached_of_replayFrom
    (HashClient.start 1 1) HashClient.exec
    (fun s _ op => op.Allowed s)
    (Machine.boot (fun _ => 0) (fun t => 2 ^ 20 * (t + 1)))
    [.put 1 [11], .put 2 [22], .release 3145728, .put 2 [33],
      .release 3145728]
    (fun x => decide (x.1.book.ledger.refs 7340032 ≠ 0
        ∧ x.1.book.keyOf 7340032 = 2 ∧ x.1.book.Spare 2)
      && match (cxRcHashMapRetain x.1.map 2).run x.2 with
        | .ok (p, _) _ => p == 0
        | .fault _ _ => false)
    (by decide +kernel)
  rw [Bool.and_eq_true] at htest
  obtain ⟨hheld, hnull⟩ := htest
  obtain ⟨hrefs, hkey, hspare⟩ := of_decide_eq_true hheld
  split at hnull
  case h_1 p map' m' hret =>
    rw [beq_iff_eq] at hnull
    subst hnull
    exact ⟨s, m, 7340032, map', m', hrun, hrefs, hkey, hspare, hret⟩
  case h_2 => cases hnull

end Cextras.Collection
