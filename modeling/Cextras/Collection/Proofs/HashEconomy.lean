/-
How long the chain of inner maps gets. A put takes a further inner map only
when every slot on the key's path holds another key's element. So the chain
is as long as the elements held at one time ask for, whatever was put and
released in between, and what put and retain search for a key is a few slots
more than those elements (`cxRcHashMap_economy`).

The count is taken where the chain grows: the path that was full, and the
new slot, are all live then, and they have different addresses.
-/
import Mathlib.Data.List.Nodup
import Mathlib.Data.List.Perm.Subperm
import Cextras.Collection.Proofs.HashFirst
import Cextras.Collection.Proofs.HashFootprint

namespace Cextras.Collection

open Lib

variable {m m' : Machine} {T T' : Table} {b : HashBook} {s s' : HashClient}
  {size elementSize limit n : Nat} {k : UInt64}

-- ================================================================= the path

theorem Table.length_probes : (T.probes limit k).length = limit * T.count := by
  simp [probes, row]

theorem Table.nodup_row (count index : Nat) : (row count index).Nodup := by
  apply List.nodup_range.map
  intro i j heq
  exact congrArg Prod.fst heq

/-- A path visits no slot twice. -/
theorem Table.nodup_probes (hlimit : limit ≤ T.size) :
    (T.probes limit k).Nodup := by
  apply List.nodup_flatMap.mpr
  refine ⟨fun d _ => nodup_row T.count _, ?_⟩
  apply List.nodup_range.pairwise_of_forall_ne
  intro d hd e he hne t hrow hrow'
  obtain ⟨i, -, rfl⟩ := List.mem_map.mp hrow
  obtain ⟨j, -, heq⟩ := List.mem_map.mp hrow'
  apply hne
  apply turn_unique (Nat.lt_of_lt_of_le (List.mem_range.mp hd) hlimit)
    (Nat.lt_of_lt_of_le (List.mem_range.mp he) hlimit)
  exact (congrArg Prod.snd heq).symm

-- =================================================================== counts

/-- Live slots are held elements, each another one. -/
theorem Keeps.length_le (h : Keeps m T b) (slots : List Place)
    (hnodup : slots.Nodup) (hlive : ∀ t ∈ slots, T.In t ∧ T.refs t ≠ 0) :
    slots.length ≤ b.ledger.live.length := by
  have hsub : slots.map T.address ⊆ b.ledger.live := by
    intro p hp
    obtain ⟨t, ht, rfl⟩ := List.mem_map.mp hp
    obtain ⟨hin, hrefs⟩ := hlive t ht
    exact (b.ledger.mem_live _).mpr ((h.live_iff hin).mp hrefs)
  have hnodup' : (slots.map T.address).Nodup := by
    apply hnodup.map_on
    intro t ht u hu heq
    exact h.inv.address_injective (hlive t ht).1 (hlive u hu).1 heq
  have hle := (List.subperm_of_subset hnodup' hsub).length_le
  rwa [List.length_map] at hle

/-- When the chain has grown, a path through all of the old chain and one
more slot are live. -/
theorem Keeps.grown_length {m₁ : Machine} {T₁ : Table} {t : Place}
    (h : Keeps m' T' b) (hsize : 0 < T.size)
    (hslot : TableInv.putSlot T k = none) (he : TableInv.Extended m T m₁ T₁)
    (ht : t = (T.count, keyHash k % T.size))
    (hT' : T' = (T₁.setWord t k).setRefs t 1) :
    probeLimit T.size * T.count + 1 ≤ b.ledger.live.length := by
  have hcount : T'.count = T.count + 1 := hT' ▸ he.count
  have hsizes : T'.size = T.size := hT' ▸ he.size
  have hold : ∀ u, u.1 < T.count → T'.refs u = T.refs u := by
    intro u hu
    have hne : u ≠ t := by
      rintro rfl
      rw [ht] at hu
      exact Nat.lt_irrefl _ hu
    subst hT'
    rw [(filled_other hne).2, he.refs, if_neg (Nat.ne_of_lt hu)]
  have hle := h.length_le (t :: T.probes (probeLimit T.size) k) ?_ ?_
  · rwa [List.length_cons, Table.length_probes] at hle
  · refine List.nodup_cons.mpr ⟨?_, Table.nodup_probes (probeLimit_le _)⟩
    intro hmem
    have hlt := (Table.mem_probes.mp hmem).1
    rw [ht] at hlt
    exact Nat.lt_irrefl _ hlt
  · intro u hu
    rcases List.mem_cons.mp hu with rfl | hmem
    · refine ⟨⟨?_, ?_⟩, ?_⟩
      · rw [ht, hcount]
        exact Nat.lt_succ_self _
      · rw [ht, hsizes]
        exact Nat.mod_lt _ hsize
      · subst hT'
        rw [filled_self.2]
        exact Nat.one_ne_zero
    · obtain ⟨hin, hidx⟩ := Table.in_of_mem_probes hsize hmem
      refine ⟨⟨?_, ?_⟩, ?_⟩
      · rw [hcount]
        exact Nat.lt_succ_of_lt hin
      · rwa [hsizes]
      · -- the put would have stopped at a slot that is empty
        rw [hold u hin]
        intro hzero
        have hnone := List.find?_eq_none.mp hslot u hmem
        exact hnone (decide_eq_true (Or.inl hzero))

-- ===================================================================== runs

/-- How many elements are held after an operation that ends. -/
def HashOp.heldAfter (op : HashOp) (s : HashClient) (m : Machine) : Nat :=
  match (HashClient.exec op s).run m with
  | .ok after _ => after.book.ledger.live.length
  | .fault _ _ => 0

/-- No more than `n` elements are held after the operation. -/
def HashOp.Within (n : Nat) (s : HashClient) (m : Machine) (op : HashOp) :
    Prop :=
  op.Allowed s ∧ op.heldAfter s m ≤ n

instance HashOp.decidableWithin (n : Nat) (s : HashClient) (m : Machine)
    (op : HashOp) : Decidable (op.Within n s m) :=
  inferInstanceAs (Decidable (_ ∧ _))

/-- The states of runs of users that never hold more than `n` elements. -/
abbrev HashClient.RunWithin (n size elementSize : Nat) (mem : Mem)
    (oracle : Nat → Nat) : HashClient → Machine → Prop :=
  Reached (HashClient.start size elementSize) HashClient.exec
    (fun s m op => op.Within n s m) (Machine.boot mem oracle)

/-- The inner maps beyond the first were needed at one time. -/
def Chained (n size count : Nat) : Prop :=
  count = 1 ∨ (count - 1) * probeLimit size < n

/-- Elements that fit one path never ask for a second inner map. -/
theorem Chained.eq_one {count : Nat} (h : Chained n size count)
    (hpos : 0 < count) (hn : n ≤ probeLimit size) : count = 1 := by
  rcases h with hone | hlt
  · exact hone
  · have hless : (count - 1) * probeLimit size < 1 * probeLimit size := by
      rw [Nat.one_mul]
      exact Nat.lt_of_lt_of_le hlt hn
    have hzero := Nat.lt_of_mul_lt_mul_right hless
    omega

/-- The table the state's map holds is no longer than it has to be. -/
def FewMaps (n size elementSize : Nat) (s : HashClient) (m : Machine) : Prop :=
  ∃ T, Agrees s m T ∧ T.size = size ∧ T.elementSize = elementSize
    ∧ Chained n size T.count

theorem opEffect_count {op : HashOp} {b : HashBook} (h : OpEffect m T T' op)
    (hk : Keeps m' T' b) (hsize : 0 < T.size)
    (hlive : b.ledger.live.length ≤ n) (hfew : Chained n T.size T.count) :
    Chained n T.size T'.count := by
  cases op with
  | put k v =>
      obtain ⟨t, -, heffect⟩ := h
      cases heffect with
      | live _ _ hT' =>
          rw [hT']
          exact hfew
      | empty _ _ hT' =>
          rw [hT']
          exact hfew
      | grown m₁ T₁ hslot he ht hT' =>
          have hlength := hk.grown_length hsize hslot he ht hT'
          have hcount : T'.count = T.count + 1 := hT' ▸ he.count
          right
          rw [hcount, Nat.add_sub_cancel, Nat.mul_comm]
          omega
  | retain k =>
      rcases h with rfl | ⟨t, -, -, -, hT'⟩
      · exact hfew
      · rw [hT']
        exact hfew
  | release p =>
      obtain ⟨t, -, -, -, hT'⟩ := h
      rw [hT']
      exact hfew

/-- A map begins with one inner map. -/
theorem cxRcHashMapInit_count (m : Machine) (hsize : 0 < size)
    (helem : 0 < elementSize) :
    (cxRcHashMapInit size elementSize).Granted m fun r _ =>
      r.2.hashMapCount = 1 := by
  have hinv : TableInv m ⟨size, elementSize, 0, 0, fun _ => 0, fun _ => 0,
      fun _ => 0, fun _ => 0, fun _ => 0⟩ :=
    ⟨hsize, helem, fun _ hj => absurd hj (Nat.not_lt_zero _),
      fun _ hi => absurd hi (Nat.not_lt_zero _)⟩
  refine (TableInv.extendHashMap_granted hinv ⟨rfl, rfl, rfl, rfl⟩
    (by simp only [innerMapSize]; omega)).imp ?_
  intro r m' hr
  obtain ⟨-, T, hmap, he⟩ := hr
  rw [hmap]
  exact he.count

theorem fewMaps_start (hsize : 0 < size) (helem : 0 < elementSize) {mem : Mem}
    {oracle : Nat → Nat} :
    (HashClient.start size elementSize).Granted (Machine.boot mem oracle)
      fun s m => FewMaps n size elementSize s m := by
  have hcount : (HashClient.start size elementSize).Granted
      (Machine.boot mem oracle) fun s _ => s.map.hashMapCount = 1 := by
    refine granted_bind ((Keeps.init_granted _ hsize helem).and
      (cxRcHashMapInit_count _ hsize helem)) ?_
    intro r m' hr
    obtain ⟨⟨hrv, -⟩, hcount⟩ := hr
    exact granted_bind_run (run_assert hrv) (granted_pure hcount)
  refine ((agrees_start hsize helem).and hcount).imp ?_
  intro s m h
  obtain ⟨⟨T, hagrees, -, hTsize, hTelem⟩, hcount⟩ := h
  refine ⟨T, hagrees, hTsize, hTelem, Or.inl ?_⟩
  rw [hagrees.1] at hcount
  exact hcount

theorem fewMaps_run {mem : Mem} {oracle : Nat → Nat} (hsize : 0 < size)
    (helem : 0 < elementSize)
    (h : HashClient.RunWithin n size elementSize mem oracle s m) :
    FewMaps n size elementSize s m := by
  apply h.invariant_returned (FewMaps n size elementSize)
  · intro s m hrun hu
    exact (fewMaps_start hsize helem).of_run hrun hu
  · intro s m op s' m' hfew hop hrun hu
    obtain ⟨T, hagrees, rfl, rfl, hchained⟩ := hfew
    obtain ⟨hallowed, hlive⟩ := hop
    rw [HashOp.heldAfter, hrun] at hlive
    obtain ⟨T', hagrees', heffect⟩ :=
      (exec_effect hagrees hallowed).of_run hrun hu
    obtain ⟨hTsize, hTelem⟩ := opEffect_sizes heffect
    exact ⟨T', hagrees', hTsize, hTelem,
      opEffect_count heffect hagrees'.2 hsize hlive hchained⟩

-- ================================================================= the bill

theorem Table.card_footprintFrom (n : Nat) : ∀ i,
    (T.footprintFrom i n).1.card = n ∧ (T.footprintFrom i n).2.card = 2 * n := by
  induction n with
  | zero =>
      intro i
      exact ⟨rfl, rfl⟩
  | succ n ih =>
      intro i
      obtain ⟨hblocks, harrays⟩ := ih (i + 1)
      rw [Table.footprintFrom_succ]
      constructor
      · show ((T.footprintFrom (i + 1) n).1 + ((T.inner i).footprint).1).card = _
        rw [Multiset.card_add, hblocks]
        rfl
      · show ((T.footprintFrom (i + 1) n).2 + ((T.inner i).footprint).2).card = _
        rw [Multiset.card_add, harrays]
        rfl

/-- What a map costs whose users never hold more than `n` elements. -/
structure HashEconomy (n size : Nat) (s : HashClient) (m : Machine) : Prop where
  chain : Chained n size s.map.hashMapCount
  /-- while the elements fit a path of one inner map, there is no other -/
  unextended : n ≤ probeLimit size → s.map.hashMapCount = 1
  /-- put and retain search a few slots more than there are elements -/
  path : ∀ key, (s.map.path key).length < n + maxCollisions + 1
  /-- a block, key words and counters for each inner map, and the chain -/
  blocks : m.arena.blocks.length = s.map.hashMapCount
  arrays : m.arrays.length = 2 * s.map.hashMapCount + 1

/-- The chain is as long as the elements held at one time ask for, however
many were put. -/
theorem cxRcHashMap_economy {mem : Mem} {oracle : Nat → Nat} (hsize : 0 < size)
    (helem : 0 < elementSize)
    (h : HashClient.RunWithin n size elementSize mem oracle s m) :
    HashEconomy n size s m := by
  obtain ⟨T, ⟨hmap, hkeeps⟩, rfl, rfl, hchained⟩ := fewMaps_run hsize helem h
  obtain ⟨-, f, hown, hheld⟩ := h.held (fun s g => HashOwns s.map g)
    (Machine.tidy_boot _ _) (HashClient.start_turns (Nat.mul_pos hsize helem))
    fun s m op f hown hop => HashClient.exec_turns hown hop.1
  have hfoot : m.held = T.footprintFrom 0 T.count + .storage (some T.storage) := by
    rw [hheld, Machine.held_boot, zero_add, hown.owns, hmap,
      Table.footprint_toMap]
  obtain ⟨hblocks, harrays⟩ := Table.card_footprintFrom (T := T) T.count 0
  have hlimit : probeLimit T.size ≤ maxCollisions := Nat.min_le_right ..
  have hcount : s.map.hashMapCount = T.count := by
    rw [hmap]
    rfl
  refine ⟨?_, ?_, ?_, ?_, ?_⟩
  · rwa [hcount]
  · intro hn
    rw [hcount]
    exact hchained.eq_one hkeeps.count_pos hn
  · intro key
    rw [hmap, Table.path_toMap, Table.length_probes]
    rcases hchained with hone | hlt
    · rw [hone]
      omega
    · have hsplit : probeLimit T.size * T.count
          ≤ (T.count - 1) * probeLimit T.size + probeLimit T.size := by
        rw [← Nat.succ_mul, Nat.mul_comm]
        exact Nat.mul_le_mul_right _ (by omega)
      omega
  · have hsum : (T.footprintFrom 0 T.count + .storage (some T.storage)).1.card
        = T.count := by
      rw [Prod.fst_add, Multiset.card_add, hblocks]
      rfl
    rw [hcount, ← hsum, ← hfoot]
    rfl
  · have hsum : (T.footprintFrom 0 T.count + .storage (some T.storage)).2.card
        = 2 * T.count + 1 := by
      rw [Prod.snd_add, Multiset.card_add, harrays]
      rfl
    rw [hcount, ← hsum, ← hfoot]
    rfl

/-- One slot an inner map, two elements held at most, and three keys put. -/
theorem cxRcHashMap_economy_reuse : ∃ s m, HashEconomy 2 1 s m
    ∧ s.map.hashMapCount = 2 ∧ s.book.ledger.values.length = 5 := by
  obtain ⟨s, m, hrun, htest⟩ := reached_of_replayFrom
    (HashClient.start 1 1) HashClient.exec
    (fun s m op => op.Within 2 s m)
    (Machine.boot (fun _ => 0) (fun t => 2 ^ 20 * (t + 1)))
    [.put 1 [11], .put 2 [22], .release 3145728, .put 3 [33], .put 2 [44],
      .release 3145728, .put 1 [55]]
    (fun x => decide (x.1.map.hashMapCount = 2
      ∧ x.1.book.ledger.values.length = 5))
    (by decide +kernel)
  obtain ⟨hcount, hvalues⟩ := of_decide_eq_true htest
  exact ⟨s, m, cxRcHashMap_economy (by decide) (by decide) hrun, hcount,
    hvalues⟩

end Cextras.Collection
