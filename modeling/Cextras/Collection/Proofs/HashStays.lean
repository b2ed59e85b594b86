/-
What was put stays where retain finds it. A put of a key leaves its
pointer in the key's first slot, and while the pointer is held no other
key moves that slot: a put of another key writes its own word into an
empty slot, and the words of a fresh inner map are 0
(`First.stays`, `cxRcHashMapPut_stays`).
-/
import Cextras.Collection.Proofs.HashKeys

namespace Cextras.Collection

open Lib

/-- The operation puts no value under the key. -/
def HashKeyOp.NotPut (k : UInt64) : HashKeyOp → Prop
  | .call (.put k' _) => k' ≠ k
  | .call (.retain _) => True
  | .call (.release _) => True
  | .releaseKey _ => True

instance HashKeyOp.decidableNotPut (k : UInt64) :
    (op : HashKeyOp) → Decidable (op.NotPut k)
  | .call (.put k' _) => inferInstanceAs (Decidable (k' ≠ k))
  | .call (.retain _) => inferInstanceAs (Decidable True)
  | .call (.release _) => inferInstanceAs (Decidable True)
  | .releaseKey _ => inferInstanceAs (Decidable True)

/-- The states of runs from `s` on that begin with a put of `k`, and in
which the key is not put again and a reference on `p` is held at every
operation. -/
abbrev HashKeyOp.Onwards (k : UInt64) (v : List Byte) (p : Nat)
    (s : HashClient) (m : Machine) : HashClient → Machine → Prop :=
  Reached (HashClient.exec (.put k v) s) HashKeyOp.exec (fun s _ op =>
    op.Allowed s ∧ op.NotPut k ∧ s.book.ledger.refs p ≠ 0) m

/-- Only the counter of the slot changed, and became `n`. -/
def CxRcHashMap.Counted (map map' : CxRcHashMap) (t : Place) (n : Int) :
    Prop :=
  map'.count t = some n ∧ ∀ u, u ≠ t → map'.count u = map.count u

variable {m m' : Machine} {T T' : Table} {b : HashBook} {s : HashClient}
  {k : UInt64} {t : Place} {d p size elementSize : Nat}

-- ============================================================= first slots

/-- The key's first slot is the one at `p`. -/
def FirstOf (T : Table) (k : UInt64) (p : Nat) : Prop :=
  ∃ d t, T.First k d t ∧ T.In t ∧ p = T.address t

/-- Counters do not matter to first slots. -/
theorem FirstOf.setRefs (h : FirstOf T k p) (u : Place) (n : Nat) :
    FirstOf (T.setRefs u n) k p := by
  obtain ⟨d, t, hfirst, hin, hp⟩ := h
  exact ⟨d, t, ⟨hfirst.turn, hfirst.inner, hfirst.index, hfirst.pass,
    hfirst.turns, hfirst.inners⟩, hin, hp⟩

/-- A put leaves its pointer in the first slot of its key. -/
theorem Keeps.firstOf_put (h : Keeps m T b) (ht : T'.In t)
    (heffect : PutEffect m T k t T') : FirstOf T' k (T'.address t) := by
  have hfirst : Keeps.firstSlot T' k = some t := by
    cases heffect with
    | live hslot hne hT' =>
        rw [hT']
        obtain ⟨d, hat⟩ := firstSlot_iff.mp (firstSlot_live hslot hne)
        exact firstSlot_iff.mpr ⟨d, hat.turn, hat.inner, hat.index, hat.pass,
          hat.turns, hat.inners⟩
    | empty hslot hdead hT' => rw [hT']; exact firstSlot_filled hslot hdead
    | grown m₁ T₁ hslot he hs hT' =>
        rw [hT']
        exact firstSlot_grown he h.inv.size_pos hslot hs
  obtain ⟨d, hd⟩ := firstSlot_iff.mp hfirst
  exact ⟨d, t, hd, ht, rfl⟩

/-- A put of another key leaves a first slot that is live as it was. -/
theorem Keeps.firstOf_other (h : Keeps m T b) {k' : UInt64} (hzero : k ≠ 0)
    (hne : k ≠ k') (hfirst : FirstOf T k p) (hheld : b.ledger.refs p ≠ 0)
    (heffect : PutEffect m T k' t T') : FirstOf T' k p := by
  obtain ⟨d, u, hat, hin, rfl⟩ := hfirst
  have hlive : T.refs u ≠ 0 := (h.live_iff hin).mpr hheld
  cases heffect with
  | live hslot _ hT' =>
      rw [hT']
      exact FirstOf.setRefs ⟨d, u, hat, hin, rfl⟩ t _
  | empty hslot hdead hT' =>
      have hut : u ≠ t := fun heq => hlive (heq ▸ hdead)
      rw [hT']
      exact ⟨d, u, hat.filled hne hut, hin, rfl⟩
  | grown m₁ T₁ hslot he ht hT' =>
      rw [hT']
      refine ⟨d, u, hat.grown he ht hne fun h0 => absurd h0 hzero, ?_, ?_⟩
      · refine ⟨?_, ?_⟩
        · change u.1 < T₁.count
          rw [he.count]
          exact Nat.lt_succ_of_lt hin.1
        · change u.2 < T₁.size
          rw [he.size]
          exact hin.2
      · change T.base u.1 + u.2 * T.elementSize
          = T₁.base u.1 + u.2 * T₁.elementSize
        rw [he.base u.1 hin.1, he.elementSize]

/-- An operation that does not put the key leaves its first slot as it
was. -/
theorem Keeps.firstOf_step (h : Keeps m T b) (hzero : k ≠ 0)
    (hfirst : FirstOf T k p) (hheld : b.ledger.refs p ≠ 0) {op : HashKeyOp}
    (hop : op.NotPut k) (heffect : KeyOpEffect m T T' op) :
    FirstOf T' k p := by
  cases op with
  | call op =>
      cases op with
      | put k' v =>
          obtain ⟨t, -, hput⟩ := heffect
          exact h.firstOf_other hzero (Ne.symm hop) hfirst hheld hput
      | retain k' =>
          rcases heffect with rfl | ⟨t, -, -, -, hT'⟩
          · exact hfirst
          · rw [hT']
            exact hfirst.setRefs t _
      | release q =>
          obtain ⟨t, -, -, -, hT'⟩ := heffect
          rw [hT']
          exact hfirst.setRefs t _
  | releaseKey k' =>
      rcases heffect with rfl | ⟨t, -, -, hT'⟩
      · exact hfirst
      · rw [hT']
        exact hfirst.setRefs t _

-- ==================================================================== runs

/-- Only one counter changes. -/
theorem Table.counted_setRefs (hin : T.In t) (n : Nat) :
    T.toMap.Counted (T.setRefs t n).toMap t n := by
  constructor
  · rw [Table.count_toMap (T := T.setRefs t n) hin]
    change some ((Function.update T.refs t n t : Nat) : Int) = _
    rw [Function.update_self]
  · intro u hut
    by_cases hu : T.In u
    · rw [Table.count_toMap (T := T.setRefs t n) hu, Table.count_toMap hu]
      change some ((Function.update T.refs t n u : Nat) : Int) = _
      rw [Function.update_of_ne hut]
    · rw [Table.count_toMap_none (T := T.setRefs t n) hu,
        Table.count_toMap_none hu]

/-- The key leads to the slot of `p`: a retain returns `p`, and a retain
and a release by key count there and nowhere else. -/
structure LeadsTo (s : HashClient) (m : Machine) (k : UInt64) (p : Nat)
    (t : Place) (count : Int) : Prop where
  element : s.map.element t = some p
  counter : s.map.count t = some count
  retain : (HashOp.retain k).Allowed s → ∃ map',
    (cxRcHashMapRetain s.map k).run m = .ok (p, map') m
      ∧ s.map.Counted map' t (count + 1)
  releaseKey : ∃ map' m',
    (cxRcHashMapReleaseKey s.map k).run m = .ok (0, map') m'
      ∧ s.map.Counted map' t (count - 1)

/-- A key whose first slot is at a held pointer leads there. -/
theorem FirstOf.leadsTo (hfirst : FirstOf T k p) (h : Agrees s m T)
    (hheld : s.book.ledger.refs p ≠ 0) : ∃ t count, LeadsTo s m k p t count := by
  obtain ⟨hmap, hkeeps⟩ := h
  obtain ⟨d, t, hat, hin, rfl⟩ := hfirst
  have hlive : T.refs t ≠ 0 := (hkeeps.live_iff hin).mpr hheld
  have hslot : Keeps.firstSlot T k = some t := firstSlot_iff.mpr ⟨d, hat⟩
  refine ⟨t, T.refs t, ?_, ?_, ?_, ?_⟩
  · rw [hmap]
    exact hkeeps.inv.element_toMap hin
  · rw [hmap]
    exact Table.count_toMap hin
  · intro hspare
    have hlt := hkeeps.spare hspare hin hlive (of_decide_eq_true hat.pass)
    obtain ⟨-, hrun, -⟩ := hkeeps.run_retain hslot hlive hlt
    rw [hmap]
    exact ⟨_, hrun, Table.counted_setRefs hin _⟩
  · have hcount : ((T.refs t - 1 : Nat) : Int) = (T.refs t : Int) - 1 := by omega
    rw [hmap, ← hcount]
    exact ⟨_, _, hkeeps.inv.run_hashMapReleaseKey hkeeps.count_pos
      (firstSlot_full hslot) hlive, Table.counted_setRefs hin _⟩

/-- A put that returned `p` leaves it in the first slot of the key. -/
theorem firstOf_exec {v : List Byte} {map : CxRcHashMap} {m₁ : Machine}
    {s' : HashClient} (h : Agrees s m T) (hop : (HashOp.put k v).Allowed s)
    (hput : (cxRcHashMapPut s.map k v).run m = .ok (p, map) m₁)
    (hexec : (HashClient.exec (.put k v) s).run m = .ok s' m')
    (hu : m'.refused = false) : ∃ T', Agrees s' m' T' ∧ FirstOf T' k p := by
  change (cxRcHashMapPut s.map k v >>= _).run m = _ at hexec
  rw [C.run_bind, hput, C.chain_ok, C.run_pure, Outcome.ok.injEq] at hexec
  obtain ⟨rfl, rfl⟩ := hexec
  obtain ⟨hmap, hkeeps⟩ := h
  obtain ⟨hv, hroom, hspare⟩ := hop
  rw [hmap] at hv hroom
  have hgranted := hkeeps.put_granted (v := v) hv hroom (spare_iff.mp hspare)
  rw [← hmap] at hgranted
  obtain ⟨T', t, heq, ht, heffect, hkeeps'⟩ := hgranted.of_run hput hu
  rw [Prod.mk.injEq] at heq
  obtain ⟨rfl, hmap'⟩ := heq
  exact ⟨T', ⟨hmap', hkeeps'⟩, hkeeps.firstOf_put ht heffect⟩

/-- In every state of every run, what was put under a key other than 0
stays where the key leads to, as long as a reference on it is held and the
key is not put again. -/
theorem cxRcHashMapPut_stays {mem : Mem} {oracle : Nat → Nat} {v : List Byte}
    {map : CxRcHashMap} {s₂ : HashClient} {m₁ m₂ : Machine}
    (hsize : 0 < size) (helem : 0 < elementSize)
    (h : HashKeyOp.Run size elementSize mem oracle s m) (hk : k ≠ 0)
    (hop : (HashOp.put k v).Allowed s)
    (hput : (cxRcHashMapPut s.map k v).run m = .ok (p, map) m₁)
    (honwards : HashKeyOp.Onwards k v p s m s₂ m₂)
    (hheld : s₂.book.ledger.refs p ≠ 0) :
    ∃ t count, LeadsTo s₂ m₂ k p t count := by
  obtain ⟨T, hagrees⟩ := keyAgrees_run hsize helem h
  have hinv : ∃ T, Agrees s₂ m₂ T ∧ FirstOf T k p := by
    refine honwards.invariant
      (fun s m => ∃ T, Agrees s m T ∧ FirstOf T k p) ?_ ?_
    · exact fun s' m' hexec hu => firstOf_exec hagrees hop hput hexec hu
    · intro s m op hs hop
      obtain ⟨T, hagrees, hfirst⟩ := hs
      obtain ⟨hallowed, hnot, hheld⟩ := hop
      refine (keyExec_effect hagrees hallowed).imp ?_
      intro s' m' heffect
      obtain ⟨T', hagrees', heffect⟩ := heffect
      exact ⟨T', hagrees', hagrees.2.firstOf_step hk hfirst hheld hnot heffect⟩
  obtain ⟨T₂, hagrees₂, hfirst₂⟩ := hinv
  exact hfirst₂.leadsTo hagrees₂ hheld

/-- One slot an inner map: key 2 goes to the second inner map and key 3 to
a third; key 1 is released in front of them, and key 4 takes its slot. -/
theorem cxRcHashMapPut_stays_behind : ∃ s m,
    s.map.hashMapCount = 3 ∧ ∃ t count, LeadsTo s m 2 7340032 t count := by
  obtain ⟨s, m, hrun, htest⟩ := reached_of_replayFrom
    (HashClient.start 1 1) HashKeyOp.exec (fun s _ op => op.Allowed s)
    (Machine.boot (fun _ => 0) (fun t => 2 ^ 20 * (t + 1)))
    [.call (.put 1 [11])]
    (fun x => decide ((HashOp.put 2 [22]).Allowed x.1
        ∧ ((cxRcHashMapPut x.1.map 2 [22]).run x.2).value.map Prod.fst
          = some 7340032)
      && (replayFrom (HashClient.exec (.put 2 [22]) x.1) HashKeyOp.exec
          (fun s _ op => op.Allowed s ∧ op.NotPut 2
            ∧ s.book.ledger.refs 7340032 ≠ 0)
          [.call (.put 3 [33]), .releaseKey 1, .call (.put 4 [44])] x.2).any
        fun y : HashClient × Machine => decide (y.1.map.hashMapCount = 3
          ∧ y.1.book.ledger.refs 7340032 ≠ 0))
    (by decide +kernel)
  rw [Bool.and_eq_true] at htest
  obtain ⟨hput, honwards⟩ := htest
  obtain ⟨hop, hvalue⟩ := of_decide_eq_true hput
  obtain ⟨s₂, m₂, hreached, hend⟩ := reached_of_replayFrom _ _ _ _ _ _ honwards
  obtain ⟨hcount, hheld⟩ := of_decide_eq_true hend
  cases hret : (cxRcHashMapPut s.map 2 [22]).run m with
  | fault e m₁ =>
      rw [hret] at hvalue
      cases hvalue
  | ok r m₁ =>
      obtain ⟨p, map⟩ := r
      rw [hret] at hvalue
      have hp : p = 7340032 := Option.some.inj hvalue
      subst hp
      exact ⟨s₂, m₂, hcount, cxRcHashMapPut_stays (by decide) (by decide) hrun
        (by decide) hop hret hreached hheld⟩

end Cextras.Collection
