/-
Runs of a hash map's users, and what holds in all of them: a held
element is never corrupted (`cxRcHashMap_safety`). The users put, retain
and release in any order, releasing only pointers they hold; the book
(HashBook.lean) is brought up to date by what each call returned.

`exec_effect` is the step lemma of this and of the lookup results: it
says what each operation does to the table.
-/
import Cextras.Collection.Proofs.HashBook

namespace Cextras.Collection

open Lib

structure HashClient where
  map : CxRcHashMap
  book : HashBook

inductive HashOp where
  | put (key : UInt64) (value : List Byte)
  | retain (key : UInt64)
  | release (element : Nat)

/-- Every live element put under the key has room for one more
reference. -/
def HashBook.Spare (b : HashBook) (k : UInt64) : Prop :=
  ∀ p ∈ b.ledger.live, b.keyOf p = k → b.ledger.refs p + 1 < 2 ^ 31

instance HashBook.decidableSpare (b : HashBook) (k : UInt64) :
    Decidable (b.Spare k) :=
  inferInstanceAs (Decidable (∀ p ∈ _, _ → _))

/-- References stay below `INT_MAX`, only held pointers are released, and
the array of inner maps can grow by one. -/
def HashOp.Allowed (s : HashClient) : HashOp → Prop
  | .put k v => v.length = s.map.elementSize
      ∧ (s.map.hashMapCount + 1) * innerMapSize < 2 ^ 64 ∧ s.book.Spare k
  | .retain k => s.book.Spare k
  | .release p => s.book.ledger.refs p ≠ 0

instance HashOp.decidableAllowed (s : HashClient) :
    (op : HashOp) → Decidable (op.Allowed s)
  | .put k v => inferInstanceAs (Decidable (v.length = _ ∧ _ ∧ s.book.Spare k))
  | .retain k => inferInstanceAs (Decidable (s.book.Spare k))
  | .release p => inferInstanceAs (Decidable (s.book.ledger.refs p ≠ 0))

def HashClient.start (size elementSize : Nat) : C HashClient := do
  let (rv, map) ← cxRcHashMapInit size elementSize
  C.assert (rv = 0)
  pure ⟨map, .empty, fun _ => 0⟩

/-- One operation, entered into the book by what it returned. -/
def HashClient.exec : HashOp → HashClient → C HashClient
  | .put k v, s => do
      let (p, map) ← cxRcHashMapPut s.map k v
      pure ⟨map, s.book.ledger.put p v, Function.update s.book.keyOf p k⟩
  | .retain k, s => do
      let (p, map) ← cxRcHashMapRetain s.map k
      if p = 0 then
        pure { s with map := map }
      else
        pure ⟨map, { s.book with ledger := s.book.ledger.retain p }⟩
  | .release p, s => do
      let (_, map) ← cxRcHashMapRelease s.map p
      pure ⟨map, { s.book with ledger := s.book.ledger.release p }⟩

/-- The states of runs over a map of `size` slots an inner map. -/
abbrev HashClient.Run (size elementSize : Nat) (mem : Mem)
    (oracle : Nat → Nat) : HashClient → Machine → Prop :=
  Reached (HashClient.start size elementSize) HashClient.exec
    (fun s _ op => op.Allowed s) (Machine.boot mem oracle)

-- ================================================================== steps

variable {m m' : Machine} {T T' : Table} {s : HashClient} {k : UInt64}
  {size elementSize : Nat}

/-- What an operation does to the table. -/
def OpEffect (m : Machine) (T T' : Table) : HashOp → Prop
  | .put k _ => ∃ t, T'.In t ∧ Keeps.PutEffect m T k t T'
  | .retain k => T' = T ∨ ∃ t, Keeps.firstSlot T k = some t ∧ T.In t
      ∧ T.refs t ≠ 0 ∧ T' = T.setRefs t (T.refs t + 1)
  | .release p => ∃ t, T.In t ∧ p = T.address t ∧ T.refs t ≠ 0
      ∧ T' = T.setRefs t (T.refs t - 1)

/-- The map of the state holds the table, and the table agrees with the
book. -/
def Agrees (s : HashClient) (m : Machine) (T : Table) : Prop :=
  s.map = T.toMap ∧ Keeps m T s.book

theorem spare_iff {b : HashBook} :
    b.Spare k ↔ ∀ p, b.ledger.refs p ≠ 0 → b.keyOf p = k →
      b.ledger.refs p + 1 < 2 ^ 31 :=
  ⟨fun h p hp => h p ((b.ledger.mem_live p).mpr hp),
    fun h p hp => h p ((b.ledger.mem_live p).mp hp)⟩

/-- A slot of a key with room for a reference. -/
theorem Keeps.spare {b : HashBook} (h : Keeps m T b) (hspare : b.Spare k)
    {t : Place} (ht : T.In t) (hlive : T.refs t ≠ 0) (hword : T.word t = k) :
    T.refs t + 1 < 2 ^ 31 := by
  rw [h.refs t ht]
  exact spare_iff.mp hspare _ ((h.live_iff ht).mp hlive)
    ((h.word t ht hlive).symm.trans hword)

/-- What a retain returns, by the key's first slot. -/
theorem Keeps.retain_cases {b : HashBook} (h : Keeps m T b)
    (hspare : b.Spare k) :
    (cxRcHashMapRetain T.toMap k).run m = .ok (0, T.toMap) m
      ∨ ∃ t, firstSlot T k = some t ∧ T.In t ∧ T.refs t ≠ 0
        ∧ (cxRcHashMapRetain T.toMap k).run m
          = .ok (T.address t, (T.setRefs t (T.refs t + 1)).toMap) m := by
  by_cases hfirst : ∃ t, firstSlot T k = some t ∧ T.refs t ≠ 0
  · obtain ⟨t, ht, hlive⟩ := hfirst
    obtain ⟨hp, hin⟩ := Table.probes_find h.inv.size_pos ht
    have hlt := h.spare hspare hin hlive (of_decide_eq_true hp)
    exact Or.inr ⟨t, ht, hin, hlive, (h.run_retain ht hlive hlt).2.1⟩
  · refine Or.inl (h.inv.run_hashMapRetain_dead h.count_pos fun t ht => ?_)
    by_contra hlive
    exact hfirst ⟨t, ht, hlive⟩

/-- Every allowed operation keeps map and book in agreement. -/
theorem exec_effect (h : Agrees s m T) {op : HashOp} (hop : op.Allowed s) :
    (HashClient.exec op s).Granted m fun s' m' =>
      ∃ T', Agrees s' m' T' ∧ OpEffect m T T' op := by
  obtain ⟨hmap, hkeeps⟩ := h
  cases op with
  | put k v =>
      obtain ⟨hv, hroom, hspare⟩ := hop
      rw [hmap] at hv hroom
      have hput := hkeeps.put_granted (v := v) hv hroom (spare_iff.mp hspare)
      rw [← hmap] at hput
      refine granted_bind hput ?_
      rintro ⟨p, map⟩ m' ⟨T', t, heq, ht, heffect, hk⟩
      rw [Prod.mk.injEq] at heq
      exact granted_pure ⟨T', ⟨heq.2, hk⟩, t, ht, heffect⟩
  | retain k =>
      rcases hkeeps.retain_cases (k := k) hop with hrun | ⟨t, ht, hin, hlive, hrun⟩
      · refine granted_bind_run (by rw [hmap]; exact hrun) ?_
        exact granted_pure ⟨T, ⟨rfl, hkeeps⟩, Or.inl rfl⟩
      · refine granted_bind_run (by rw [hmap]; exact hrun) ?_
        dsimp only
        rw [if_neg (hkeeps.inv.address_ne_zero hin)]
        exact granted_pure ⟨_, ⟨rfl, hkeeps.retained hin hlive⟩,
          Or.inr ⟨t, ht, hin, hlive, rfl⟩⟩
  | release p =>
      obtain ⟨t, hin, heq, hlive, hrun, hk⟩ := hkeeps.run_release hop
      refine granted_bind_run (by rw [hmap]; exact hrun) ?_
      exact granted_pure ⟨_, ⟨rfl, hk⟩, t, hin, heq, hlive, rfl⟩

theorem agrees_start (hsize : 0 < size) (helem : 0 < elementSize) {mem : Mem}
    {oracle : Nat → Nat} :
    (HashClient.start size elementSize).Granted (Machine.boot mem oracle)
      fun s m => ∃ T, Agrees s m T ∧ s.book = ⟨.empty, fun _ => 0⟩ ∧ T.size = size
        ∧ T.elementSize = elementSize := by
  refine granted_bind (Keeps.init_granted _ hsize helem) ?_
  rintro ⟨rv, map⟩ m' ⟨hrv, hkeeps⟩
  obtain ⟨T, hmap, hTsize, hTelem, hk⟩ := hkeeps rfl
  refine granted_bind_run (run_assert hrv) ?_
  exact granted_pure ⟨T, ⟨hmap, hk⟩, rfl, hTsize, hTelem⟩

/-- Operations keep the sizes. -/
theorem opEffect_sizes {op : HashOp} (h : OpEffect m T T' op) :
    T'.size = T.size ∧ T'.elementSize = T.elementSize := by
  cases op with
  | put k v =>
      obtain ⟨t, -, heffect⟩ := h
      cases heffect with
      | live _ _ hT' => rw [hT']; exact ⟨rfl, rfl⟩
      | empty _ _ hT' => rw [hT']; exact ⟨rfl, rfl⟩
      | grown m₁ T₁ _ he _ hT' => rw [hT']; exact ⟨he.size, he.elementSize⟩
  | retain k =>
      rcases h with rfl | ⟨t, -, -, -, hT'⟩
      · exact ⟨rfl, rfl⟩
      · rw [hT']
        exact ⟨rfl, rfl⟩
  | release p =>
      obtain ⟨t, -, -, -, hT'⟩ := h
      rw [hT']
      exact ⟨rfl, rfl⟩

/-- Map and book agree in every state of every run. -/
theorem agrees_run {mem : Mem} {oracle : Nat → Nat} (hsize : 0 < size)
    (helem : 0 < elementSize)
    (h : HashClient.Run size elementSize mem oracle s m) :
    ∃ T, Agrees s m T ∧ T.size = size ∧ T.elementSize = elementSize := by
  refine h.invariant_granted (fun s m => ∃ T, Agrees s m T
    ∧ T.size = size ∧ T.elementSize = elementSize) ?_ ?_
  · refine (agrees_start hsize helem).imp ?_
    rintro s m ⟨T, hagrees, -, hTsize, hTelem⟩
    exact ⟨T, hagrees, hTsize, hTelem⟩
  · rintro s m op ⟨T, hagrees, hTsize, hTelem⟩ hop
    refine (exec_effect hagrees hop).imp ?_
    rintro s' m' ⟨T', hagrees', heffect⟩
    obtain ⟨hs, he⟩ := opEffect_sizes heffect
    exact ⟨T', hagrees', hs.trans hTsize, he.trans hTelem⟩

-- ================================================================= safety

/-- A put never returns an element that is held under another key. -/
theorem Keeps.putEffect_key {b : HashBook} (h : Keeps m T b) {t : Place}
    (ht : T'.In t) (heffect : PutEffect m T k t T')
    (hlive : b.ledger.refs (T'.address t) ≠ 0) : b.keyOf (T'.address t) = k := by
  cases heffect with
  | live hslot hne hT' =>
      obtain ⟨hin, -, hor⟩ := h.putSlot_spec hslot
      subst hT'
      exact (h.word t hin hne).symm.trans (hor.resolve_left hne)
  | empty hslot hdead hT' =>
      obtain ⟨hin, -, -⟩ := h.putSlot_spec hslot
      subst hT'
      exact absurd ((h.refs t hin).symm.trans hdead) hlive
  | grown m₁ T₁ hslot he hs hT' =>
      subst hT'
      have hdead : T₁.refs t = 0 := by rw [he.refs, if_pos (by rw [hs])]
      exact absurd (((h.extended he).refs t ht).symm.trans hdead) hlive

/-- Held elements keep their bytes and their key over an operation. -/
theorem exec_stable (h : Agrees s m T) {op : HashOp} (hop : op.Allowed s) :
    (HashClient.exec op s).Granted m fun s' m' =>
      ∀ p, s.book.ledger.refs p ≠ 0 → s'.book.ledger.refs p ≠ 0 →
        m'.mem.read p T.elementSize = m.mem.read p T.elementSize
          ∧ s'.book.keyOf p = s.book.keyOf p := by
  obtain ⟨hmap, hkeeps⟩ := h
  cases op with
  | put k v =>
      obtain ⟨hv, hroom, hspare⟩ := hop
      rw [hmap] at hv hroom
      have hput := hkeeps.put_granted (v := v) hv hroom (spare_iff.mp hspare)
      rw [← hmap] at hput
      refine granted_bind hput ?_
      rintro ⟨q, map⟩ m' ⟨T', t, heq, ht, heffect, hk⟩
      rw [Prod.mk.injEq] at heq
      obtain ⟨rfl, -⟩ := heq
      refine granted_pure fun p hp hp' => ⟨?_, ?_⟩
      · have hbytes := hk.bytes p hp'
        have heff : OpEffect m T T' (.put k v) := ⟨t, ht, heffect⟩
        have hsize := (opEffect_sizes heff).2
        rw [Ledger.stored_put hp, hkeeps.bytes p hp, hsize,
          Option.some.injEq] at hbytes
        exact hbytes.symm
      · dsimp only
        rw [Function.update_apply]
        split
        · next hpq => rw [hpq, hkeeps.putEffect_key ht heffect (hpq ▸ hp)]
        · rfl
  | retain k =>
      rcases hkeeps.retain_cases (k := k) hop with hrun | ⟨t, ht, hin, hlive, hrun⟩
      · refine granted_bind_run (by rw [hmap]; exact hrun) ?_
        exact granted_pure fun _ _ _ => ⟨rfl, rfl⟩
      · refine granted_bind_run (by rw [hmap]; exact hrun) ?_
        dsimp only
        rw [if_neg (hkeeps.inv.address_ne_zero hin)]
        exact granted_pure fun _ _ _ => ⟨rfl, rfl⟩
  | release p =>
      obtain ⟨t, hin, heq, hlive, hrun, hk⟩ := hkeeps.run_release hop
      refine granted_bind_run (by rw [hmap]; exact hrun) ?_
      refine granted_pure fun q hq hq' => ⟨?_, rfl⟩
      have hbytes := hk.bytes q hq'
      rw [Ledger.stored_release, hkeeps.bytes q hq, Option.some.injEq] at hbytes
      exact hbytes.symm

/-- What holds in a state of the users of a hash map. -/
structure HashSafety (elementSize : Nat) (s : HashClient) (m : Machine) :
    Prop where
  /-- counters are outstanding references, and all of those are counted -/
  counts : ∀ j < s.map.hashMapCount, ∀ i < s.map.mapSize, ∃ array,
    (valuesAt s.map j).run m = .ok array m
      ∧ (refCountAt array i).run m
        = .ok (s.book.ledger.refs (getElement array i) : Int) m
  owned : ∀ p, s.book.ledger.refs p ≠ 0 → ∃ j < s.map.hashMapCount,
    ∃ i < s.map.mapSize, ∃ array, (valuesAt s.map j).run m = .ok array m
      ∧ p = getElement array i
      ∧ (keyAt s.map j i).run m = .ok (s.book.keyOf p) m
  value : ∀ p, s.book.ledger.refs p ≠ 0 →
    s.book.ledger.stored p = some (m.mem.read p elementSize)
  stable : ∀ op : HashOp, op.Allowed s →
    (HashClient.exec op s).Granted m fun s' m' =>
      ∀ p, s.book.ledger.refs p ≠ 0 → s'.book.ledger.refs p ≠ 0 →
        m'.mem.read p elementSize = m.mem.read p elementSize
          ∧ s'.book.keyOf p = s.book.keyOf p
  retain_live : ∀ k, s.book.Spare k → ∃ p map' m',
    (cxRcHashMapRetain s.map k).run m = .ok (p, map') m'
      ∧ (p ≠ 0 → s.book.ledger.refs p ≠ 0 ∧ s.book.keyOf p = k)
  release_found : ∀ p, s.book.ledger.refs p ≠ 0 → ∃ map' m',
    (cxRcHashMapRelease s.map p).run m = .ok (0, map') m'
  calls : m.calls = s.book.ledger.log
  once : ∀ i < s.book.ledger.values.length, s.book.ledger.cleaned.count i
    + (s.book.ledger.live.map s.book.ledger.origin).count i = 1

/-- A held element is never corrupted, in any state of any run. -/
theorem cxRcHashMap_safety {mem : Mem} {oracle : Nat → Nat} (hsize : 0 < size)
    (helem : 0 < elementSize)
    (h : HashClient.Run size elementSize mem oracle s m) :
    HashSafety elementSize s m := by
  obtain ⟨T, ⟨hmap, hkeeps⟩, -, rfl⟩ := agrees_run hsize helem h
  have haddr : ∀ j < T.count, ∀ i < T.size,
      getElement (T.array j) i = T.address (j, i) := fun j hj i hi =>
    getElement_eq (hkeeps.inv.laid hj) hi
  refine ⟨fun j hj i hi => ?_, fun p hp => ?_, hkeeps.bytes,
    fun op hop => exec_stable ⟨hmap, hkeeps⟩ hop, fun k hspare => ?_,
    fun p hp => ?_, hkeeps.calls, fun i => Ledger.cleaned_count _⟩
  · rw [hmap] at hj hi ⊢
    refine ⟨T.array j, Table.run_valuesAt hj, ?_⟩
    rw [haddr j hj i hi, ← hkeeps.refs (j, i) ⟨hj, hi⟩]
    exact run_refCountAt hi
  · obtain ⟨t, ht, rfl⟩ := hkeeps.owned p hp
    rw [hmap]
    refine ⟨t.1, ht.1, t.2, ht.2, T.array t.1, Table.run_valuesAt ht.1,
      (haddr _ ht.1 _ ht.2).symm, ?_⟩
    rw [Table.run_keyAt ht, hkeeps.word t ht ((hkeeps.live_iff ht).mpr hp)]
  · rw [hmap]
    rcases hkeeps.retain_cases hspare with hrun | ⟨t, ht, hin, hlive, hrun⟩
    · exact ⟨0, _, m, hrun, fun h0 => absurd rfl h0⟩
    · refine ⟨_, _, m, hrun, fun _ => ⟨(hkeeps.live_iff hin).mp hlive, ?_⟩⟩
      rw [← hkeeps.word t hin hlive]
      exact of_decide_eq_true (Table.probes_find hkeeps.inv.size_pos ht).1
  · obtain ⟨t, -, -, -, hrun, -⟩ := hkeeps.run_release hp
    rw [hmap]
    exact ⟨_, _, hrun⟩

/-- One slot an inner map: three keys extend the map twice, and the
second element is put again while it is held. -/
theorem cxRcHashMap_safety_chain : ∃ s m,
    HashClient.Run 1 1 (fun _ => 0) (fun t => 2 ^ 20 * (t + 1)) s m
      ∧ s.map.hashMapCount = 3 ∧ HashSafety 1 s m := by
  obtain ⟨s, m, hrun, htest⟩ := reached_of_replayFrom
    (HashClient.start 1 1) HashClient.exec
    (fun s _ op => op.Allowed s)
    (Machine.boot (fun _ => 0) (fun t => 2 ^ 20 * (t + 1)))
    [.put 1 [11], .put 2 [22], .put 3 [33], .put 2 [44], .retain 3]
    (fun x => decide (x.1.map.hashMapCount = 3))
    (by decide +kernel)
  exact ⟨s, m, hrun, of_decide_eq_true htest,
    cxRcHashMap_safety (by decide) (by decide) hrun⟩

end Cextras.Collection
