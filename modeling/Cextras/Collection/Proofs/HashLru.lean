/-
Runs of the users of a hash map that an LRU cache holds references in,
too. `cxLruRcHashMap_spares` says when the cache leaves the users'
references alone: as long as

- a put of a key that is in the ring finds no gap (HashUnique.lean), and
- a touch that enters its key into the ring finds the key's first slot
  live,

no counter falls below what the users hold. `cxLruRcHashMap_takes` is a
run where a put of a key in the ring lands in front of its element, and
the cleanup of the cache cleans up what the user put.
-/
import Cextras.Collection.Proofs.HashKeys
import Cextras.Collection.Proofs.HashShare

namespace Cextras.Collection

open Lib

-- ================================================================ backend

/-- The book after a retain that returned `p`. -/
def HashBook.retained (b : HashBook) (p : Nat) : HashBook :=
  if p = 0 then b else { b with ledger := b.ledger.retain p }

/-- `cx_lru_rc_hash_map`, with its calls entered into the book. -/
def cxLruRcHashMapBooked : CxLruBackendImpl (CxRcHashMap × HashBook) where
  retain := fun backend k => do
    let (p, map) ← cxLruRcHashMap.retain backend.1 k
    pure (p, map, backend.2.retained p)
  retainValue := none
  release := fun backend k => do
    let (rv, map) ← cxLruRcHashMap.release backend.1 k
    pure (rv, map, backend.2.releasedKey backend.1 k)

-- ================================================================= client

structure HashLruClient where
  lru : CxLru (CxRcHashMap × HashBook)
  map : CxRcHashMap
  /-- all references, the users' and the cache's -/
  book : HashBook
  /-- the users' references -/
  held : Nat → Nat

inductive HashLruOp where
  | put (key : UInt64) (value : List Byte)
  | retain (key : UInt64)
  | release (element : Nat)
  | touch (key : UInt64)
  | cleanup

/-- Users release what they hold and touch keys that have an element;
references stay below `INT_MAX`, and the array of inner maps can grow by
one. -/
def HashLruOp.Allowed (s : HashLruClient) : HashLruOp → Prop
  | .put k v => v.length = s.map.elementSize
      ∧ (s.map.hashMapCount + 1) * innerMapSize < 2 ^ 64 ∧ s.book.Spare k
  | .retain k => s.book.Spare k
  | .release p => s.held p ≠ 0
  | .touch k => (k ≠ 0 ∧ k ≠ emptyMarker) ∧ s.book.Spare k
      ∧ ∃ p ∈ s.book.ledger.live, s.book.keyOf p = k
  | .cleanup => True

instance HashLruOp.decidableAllowed (s : HashLruClient) :
    (op : HashLruOp) → Decidable (op.Allowed s)
  | .put k v => inferInstanceAs (Decidable (v.length = _ ∧ _ ∧ s.book.Spare k))
  | .retain k => inferInstanceAs (Decidable (s.book.Spare k))
  | .release p => inferInstanceAs (Decidable (s.held p ≠ 0))
  | .touch k => inferInstanceAs (Decidable ((k ≠ 0 ∧ _) ∧ _ ∧ ∃ p ∈ _, _))
  | .cleanup => inferInstanceAs (Decidable True)

/-- A put of a key in the ring finds no gap, and a touch that changes the
ring finds the key's first slot live. -/
def HashLruOp.Spares (s : HashLruClient) : HashLruOp → Prop
  | .put k _ => occurrences s.lru.cells k ≠ 0 → s.map.NoGap k
  | .retain _ => True
  | .release _ => True
  | .touch k => ¬ Idle (window s.lru.cells s.lru.ringIndex) k →
      ∃ t ∈ s.map.firstWith k, s.map.Live t
  | .cleanup => True

instance HashLruOp.decidableSpares (s : HashLruClient) :
    (op : HashLruOp) → Decidable (op.Spares s)
  | .put k _ => inferInstanceAs (Decidable (_ ≠ 0 → s.map.NoGap k))
  | .retain _ => inferInstanceAs (Decidable True)
  | .release _ => inferInstanceAs (Decidable True)
  | .touch k => inferInstanceAs (Decidable (¬ Idle _ k → ∃ t ∈ _, _))
  | .cleanup => inferInstanceAs (Decidable True)

def HashLruClient.start (size elementSize lruSize : Nat) : C HashLruClient := do
  let (rv, map) ← cxRcHashMapInit size elementSize
  C.assert (rv = 0)
  let (rv, lru) ← cxLruInit lruSize cxLruRcHashMapBooked
  C.assert (rv = 0)
  pure ⟨lru, map, ⟨.empty, fun _ => 0⟩, fun _ => 0⟩

def HashLruClient.exec : HashLruOp → HashLruClient → C HashLruClient
  | .put k v, s => do
      let (p, map) ← cxRcHashMapPut s.map k v
      pure { s with
        map := map
        book := ⟨s.book.ledger.put p v, Function.update s.book.keyOf p k⟩
        held := Function.update s.held p (s.held p + 1) }
  | .retain k, s => do
      let (p, map) ← cxRcHashMapRetain s.map k
      if p = 0 then
        pure { s with map := map }
      else
        pure { s with
          map := map
          book := s.book.retained p
          held := Function.update s.held p (s.held p + 1) }
  | .release p, s => do
      let (_, map) ← cxRcHashMapRelease s.map p
      pure { s with
        map := map
        book := { s.book with ledger := s.book.ledger.release p }
        held := Function.update s.held p (s.held p - 1) }
  | .touch k, s => do
      let (_, lru, map, book) ← cxLruTouch s.lru (s.map, s.book) k
      pure { s with lru := lru, map := map, book := book }
  | .cleanup, s => do
      let (_, lru, map, book) ← cxLruCleanup s.lru (s.map, s.book)
      pure { s with lru := lru, map := map, book := book }

/-- The states of runs over a map of `size` slots an inner map, with a
cache of `lruSize` entries. -/
abbrev HashLruClient.Run (size elementSize lruSize : Nat) (mem : Mem)
    (oracle : Nat → Nat) : HashLruClient → Machine → Prop :=
  Reached (HashLruClient.start size elementSize lruSize) HashLruClient.exec
    (fun s _ op => op.Allowed s) (Machine.boot mem oracle)

-- ====================================================== the cache's calls

variable {m m' : Machine} {T : Table} {b : HashBook} {held : Nat → Nat}
  {w : List UInt64} {k old : UInt64} {t : Place} {s : HashLruClient}
  {lru : CxLru (CxRcHashMap × HashBook)}

/-- A release by a key whose first slot is live. -/
theorem Keeps.run_releaseBooked (h : Keeps m T b)
    (hfirst : Keeps.firstSlot T k = some t) (hlive : T.refs t ≠ 0) :
    (cxLruRcHashMapBooked.release (T.toMap, b) k).run m
        = .ok (0, (T.setRefs t (T.refs t - 1)).toMap,
            { b with ledger := b.ledger.release (T.address t) })
            (TableInv.releasedMachine m T t)
      ∧ Keeps (TableInv.releasedMachine m T t) (T.setRefs t (T.refs t - 1))
        { b with ledger := b.ledger.release (T.address t) } := by
  obtain ⟨hin, -⟩ := firstSlot_spec h.inv.size_pos hfirst
  have hfull := firstSlot_full hfirst
  have hbook : b.releasedKey T.toMap k
      = { b with ledger := b.ledger.release (T.address t) } := by
    unfold HashBook.releasedKey
    rw [Table.releaseSlot_toMap h.inv.size_pos, hfull, Option.bind_some,
      h.inv.element_toMap hin]
  refine ⟨?_, h.released hin hlive⟩
  show (cxRcHashMapReleaseKey T.toMap k >>= _).run m = _
  rw [C.run_bind, h.inv.run_hashMapReleaseKey h.count_pos hfull hlive,
    C.chain_ok, C.run_pure, hbook]

/-- A retain of a key whose first slot is live. -/
theorem Keeps.run_retainBooked (h : Keeps m T b)
    (hfirst : Keeps.firstSlot T k = some t) (hlive : T.refs t ≠ 0)
    (hlt : T.refs t + 1 < 2 ^ 31) :
    (cxLruRcHashMapBooked.retain (T.toMap, b) k).run m
        = .ok (T.address t, (T.setRefs t (T.refs t + 1)).toMap,
            { b with ledger := b.ledger.retain (T.address t) }) m
      ∧ Keeps m (T.setRefs t (T.refs t + 1))
        { b with ledger := b.ledger.retain (T.address t) } := by
  obtain ⟨hin, hrun, hk⟩ := h.run_retain hfirst hlive hlt
  refine ⟨?_, hk⟩
  show (cxRcHashMapRetain T.toMap k >>= _).run m = _
  rw [C.run_bind, hrun, C.chain_ok, C.run_pure]
  unfold HashBook.retained
  rw [if_neg (h.inv.address_ne_zero hin)]

namespace SharedMap

/-- The key in front of the queue is released; the slots of other keys
stay as they were. -/
theorem releaseItem_granted (h : SharedMap m T b held (old :: w))
    (himpl : lru.impl = cxLruRcHashMapBooked) :
    (releaseItem lru (T.toMap, b) old).Granted m fun r m' => ∃ T' b',
      r = (T'.toMap, b') ∧ SharedMap m' T' b' held w
        ∧ Keeps.firstSlot T' = Keeps.firstSlot T
        ∧ ∀ s, T.word s ≠ old → T'.refs s = T.refs s := by
  unfold releaseItem
  by_cases ho : old = emptyMarker
  · rw [if_neg (not_not.mpr ho)]
    have hocc : ∀ k, occurrences (old :: w) k = occurrences w k := by
      intro k
      rw [occurrences_cons, if_neg fun hk => hk.2 ho, Nat.add_zero]
    refine granted_pure ⟨T, b, rfl, ⟨h.keeps, fun k hk => ?_, fun t ht => ?_,
      h.placed⟩, rfl, fun _ _ => rfl⟩
    · rw [← hocc] at hk
      exact h.queued k hk
    · rw [h.refs t ht]
      unfold share
      rw [hocc]
  · have hself : occurrences (old :: w) old = occurrences w old + 1 := by
      rw [occurrences_cons, if_pos ⟨rfl, ho⟩]
    have hq : occurrences (old :: w) old ≠ 0 := by omega
    obtain ⟨t, hfirst, -, hword, hlive⟩ := h.first hq
    obtain ⟨hrun, hk⟩ := h.keeps.run_releaseBooked hfirst hlive
    rw [if_pos ho, himpl]
    refine granted_bind_run hrun (granted_pure ⟨_, _, rfl,
      h.moved (h.queued old hq).1 hfirst hk ?_ ?_, rfl, fun s hs => ?_⟩)
    · intro k' hne
      rw [occurrences_cons, if_neg fun hk => hne hk.1, Nat.add_zero]
    · omega
    · have hst : s ≠ t := fun heq => hs (heq ▸ hword)
      exact Function.update_of_ne hst _ _

/-- All keys of the queue are released. -/
theorem releaseAll_granted (himpl : lru.impl = cxLruRcHashMapBooked)
    (keys : List UInt64) :
    ∀ {m T b}, SharedMap m T b held keys →
      (releaseAll lru keys (T.toMap, b)).Granted m fun r m' => ∃ T' b',
        r = (T'.toMap, b') ∧ SharedMap m' T' b' held [] := by
  induction keys with
  | nil =>
      intro m T b h
      exact granted_pure ⟨T, b, rfl, h⟩
  | cons old keys ih =>
      intro m T b h
      rw [releaseAll]
      refine granted_bind (h.releaseItem_granted himpl) ?_
      rintro _ m₁ ⟨T₁, b₁, rfl, h₁, -⟩
      exact ih h₁

/-- A touch whose key has a live first slot, if it changes the queue. -/
theorem touch_granted (h : SharedMap m T b held w)
    (himpl : lru.impl = cxLruRcHashMapBooked) (hq : Queue lru w)
    (hkey : k ≠ 0 ∧ k ≠ emptyMarker) (hspare : b.Spare k)
    (hfirst : ¬ Idle w k → ∃ t, Keeps.firstSlot T k = some t ∧ T.refs t ≠ 0) :
    (cxLruTouch lru (T.toMap, b) k).Granted m fun r m' => ∃ lru' w' T' b',
      r = (0, lru', T'.toMap, b') ∧ lru'.impl = cxLruRcHashMapBooked
        ∧ Queue lru' w' ∧ SharedMap m' T' b' held w' := by
  by_cases hidle : Idle w k
  · exact granted_of_run (hq.run_cxLruTouch_idle hidle)
      ⟨lru, w, T, b, rfl, himpl, hq, h⟩
  · obtain ⟨t, ht, hlive⟩ := hfirst hidle
    obtain ⟨old, rest, rfl, hne⟩ := cons_of_not_idle hidle
    obtain ⟨hin, hword⟩ := firstSlot_spec h.keeps.inv.size_pos ht
    have hlt := h.keeps.spare hspare hin hlive hword
    refine C.Granted.of_run_eq ?_ (hq.run_cxLruTouch hidle)
    refine granted_bind (h.releaseItem_granted himpl) ?_
    rintro _ m₁ ⟨T₁, b₁, rfl, h₁, hsame, hother⟩
    -- the key's first slot is not the one released
    have hrefs := hother t (by rwa [hword])
    have ht₁ : Keeps.firstSlot T₁ k = some t := by rw [hsame, ht]
    obtain ⟨hrun, hk⟩ := h₁.keeps.run_retainBooked ht₁
      (by rwa [hrefs]) (by rwa [hrefs])
    rw [himpl]
    refine granted_bind_run hrun (granted_pure ⟨_, _, _, _, rfl, himpl,
      hq.next_queue, h₁.moved hkey.1 ht₁ hk ?_ ?_⟩)
    · intro k' hne'
      rw [occurrences_concat, if_neg fun heq => hne' heq.1, Nat.add_zero]
    · rw [occurrences_concat, if_pos ⟨rfl, hkey.2⟩]
      omega

/-- The cleanup of the cache. -/
theorem cleanup_granted (h : SharedMap m T b held w)
    (himpl : lru.impl = cxLruRcHashMapBooked) (hq : Queue lru w) :
    (cxLruCleanup lru (T.toMap, b)).Granted m fun r m' => ∃ lru' T' b',
      r = (0, lru', T'.toMap, b') ∧ lru'.impl = cxLruRcHashMapBooked
        ∧ Queue lru' [] ∧ SharedMap m' T' b' held [] := by
  refine C.Granted.of_run_eq ?_ (run_cxLruCleanup hq)
  refine granted_bind (releaseAll_granted himpl lru.cells (h.perm hq.perm)) ?_
  rintro _ m₁ ⟨T₁, b₁, rfl, h₁⟩
  refine granted_bind_run rfl (granted_pure ⟨_, T₁, b₁, rfl, himpl, ?_,
    h₁.keeps.transfer rfl rfl rfl, h₁.queued, h₁.refs, h₁.placed⟩)
  exact ⟨rfl, fun h0 => absurd rfl h0, List.rotate_nil _⟩

end SharedMap

-- =================================================================== runs

/-- The invariant of runs whose operations spare the users' references. -/
def HashLruInv (s : HashLruClient) (m : Machine) : Prop :=
  ∃ T w, s.map = T.toMap ∧ s.lru.impl = cxLruRcHashMapBooked
    ∧ Queue s.lru w ∧ SharedMap m T s.book s.held w

theorem hashLruInv_start {size elementSize lruSize : Nat} {mem : Mem}
    {oracle : Nat → Nat} (hsize : 0 < size) (helem : 0 < elementSize) :
    (HashLruClient.start size elementSize lruSize).Granted
      (Machine.boot mem oracle) HashLruInv := by
  refine granted_bind (Keeps.init_granted _ hsize helem) ?_
  rintro ⟨rv, map⟩ m₁ ⟨hrv, hkeeps⟩
  obtain ⟨T, hmap, -, -, hk⟩ := hkeeps rfl
  refine granted_bind_run (run_assert hrv) ?_
  refine granted_bind (cxLruInit_granted m₁ lruSize cxLruRcHashMapBooked) ?_
  rintro ⟨rv, lru⟩ m₂ ⟨hrv, himpl, hqueue, hmem, harena, hcalls⟩
  refine granted_bind_run (run_assert hrv) (granted_pure
    ⟨T, _, hmap, himpl, hqueue, hk.transfer hmem harena hcalls, ?_, ?_, ?_⟩)
  · intro k hq
    exact absurd occurrences_replicate hq
  · intro t ht
    rw [hk.refs t ht, share_absent occurrences_replicate]
    rfl
  · intro p hp
    exact absurd rfl hp

/-- Every allowed operation that spares the users' references keeps the
invariant. -/
theorem hashLruInv_exec (h : HashLruInv s m) {op : HashLruOp}
    (hop : op.Allowed s) (hspares : op.Spares s) :
    (HashLruClient.exec op s).Granted m HashLruInv := by
  obtain ⟨T, w, hmap, himpl, hqueue, hshared⟩ := h
  have hkeeps := hshared.keeps
  cases op with
  | put k v =>
      obtain ⟨hv, hroom, hspare⟩ := hop
      have hgap : occurrences w k ≠ 0 → T.toMap.NoGap k := by
        rw [occurrences_perm hqueue.perm, ← hmap]
        exact hspares
      rw [hmap] at hv hroom
      have hput := hkeeps.put_granted (v := v) hv hroom (spare_iff.mp hspare)
      rw [← hmap] at hput
      refine granted_bind hput ?_
      rintro ⟨p, map⟩ m' ⟨T', t, heq, ht, heffect, hk⟩
      rw [Prod.mk.injEq] at heq
      obtain ⟨rfl, rfl⟩ := heq
      exact granted_pure ⟨T', w, rfl, himpl, hqueue,
        hshared.put ht heffect hk hgap⟩
  | retain k =>
      rcases hkeeps.retain_cases (k := k) hop with hrun | ⟨t, -, hin, hlive, hrun⟩
      · refine granted_bind_run (by rw [hmap]; exact hrun) ?_
        exact granted_pure ⟨T, w, rfl, himpl, hqueue, hshared⟩
      · refine granted_bind_run (by rw [hmap]; exact hrun) ?_
        have hne := hkeeps.inv.address_ne_zero hin
        dsimp only
        rw [if_neg hne, HashBook.retained, if_neg hne]
        refine granted_pure ⟨_, w, rfl, himpl, hqueue,
          hshared.counted hin (hkeeps.retained hin hlive) ?_⟩
        rw [hshared.refs t hin]
        omega
  | release p =>
      have hheld : s.held p ≠ 0 := hop
      obtain ⟨t, hin, rfl, -, hrun, hk⟩ := hkeeps.run_release (hshared.live hop)
      refine granted_bind_run (by rw [hmap]; exact hrun) ?_
      refine granted_pure ⟨_, w, rfl, himpl, hqueue, hshared.counted hin hk ?_⟩
      rw [hshared.refs t hin]
      omega
  | touch k =>
      obtain ⟨hkey, hspare, -⟩ := hop
      have hfirst : ¬ Idle w k →
          ∃ t, Keeps.firstSlot T k = some t ∧ T.refs t ≠ 0 := by
        intro hidle
        rw [← hqueue.window] at hidle
        obtain ⟨t, ht, hlive⟩ := hspares hidle
        rw [hmap] at ht hlive
        rw [Option.mem_def, Table.firstWith_toMap hkeeps.inv.size_pos] at ht
        exact ⟨t, ht, (Table.live_iff.mp hlive).2⟩
      have htouch := hshared.touch_granted himpl hqueue hkey hspare hfirst
      rw [← hmap] at htouch
      refine granted_bind htouch ?_
      rintro _ m' ⟨lru', w', T', b', rfl, himpl', hqueue', hshared'⟩
      exact granted_pure ⟨T', w', rfl, himpl', hqueue', hshared'⟩
  | cleanup =>
      have hclean := hshared.cleanup_granted himpl hqueue
      rw [← hmap] at hclean
      refine granted_bind hclean ?_
      rintro _ m' ⟨lru', T', b', rfl, himpl', hqueue', hshared'⟩
      exact granted_pure ⟨T', [], rfl, himpl', hqueue', hshared'⟩

/-- What holds in a state of the users and the cache. -/
structure UsersKept (s : HashLruClient) (m : Machine) : Prop where
  /-- no counter is below what the users hold -/
  counts : ∀ j < s.map.hashMapCount, ∀ i < s.map.mapSize, ∃ array, ∃ n : Nat,
    (valuesAt s.map j).run m = .ok array m
      ∧ (refCountAt array i).run m = .ok (n : Int) m
      ∧ s.held (getElement array i) ≤ n
  owned : ∀ p, s.held p ≠ 0 → ∃ j < s.map.hashMapCount,
    ∃ i < s.map.mapSize, ∃ array,
      (valuesAt s.map j).run m = .ok array m ∧ p = getElement array i
  /-- no value a user holds was cleaned up -/
  kept : ∀ p, s.held p ≠ 0 → s.book.ledger.refs p ≠ 0
    ∧ s.book.ledger.origin p ∉ s.book.ledger.cleaned
  calls : m.calls = s.book.ledger.log
  progress : ∀ op : HashLruOp, op.Allowed s → op.Spares s →
    (HashLruClient.exec op s).Granted m fun _ _ => True

/-- In runs whose operations spare the users' references the cache takes
none of them. -/
theorem cxLruRcHashMap_spares {size elementSize lruSize : Nat} {mem : Mem}
    {oracle : Nat → Nat} (hsize : 0 < size) (helem : 0 < elementSize)
    (h : Reached (HashLruClient.start size elementSize lruSize)
      HashLruClient.exec (fun s _ op => op.Allowed s ∧ op.Spares s)
      (Machine.boot mem oracle) s m) : UsersKept s m := by
  have hinv : HashLruInv s m := by
    apply h.invariant_granted HashLruInv
    · exact hashLruInv_start hsize helem
    · intro s m op hinv hop
      exact hashLruInv_exec hinv hop.1 hop.2
  have hprogress : ∀ op : HashLruOp, op.Allowed s → op.Spares s →
      (HashLruClient.exec op s).Granted m fun _ _ => True :=
    fun op hop hspares => (hashLruInv_exec hinv hop hspares).imp
      fun _ _ _ => trivial
  obtain ⟨T, w, hmap, -, -, hshared⟩ := hinv
  have hkeeps := hshared.keeps
  have haddr : ∀ t, T.In t → getElement (T.array t.1) t.2 = T.address t :=
    fun t ht => getElement_eq (hkeeps.inv.laid ht.1) ht.2
  refine ⟨fun j hj i hi => ?_, fun p hp => ?_, fun p hp => ?_, hkeeps.calls,
    hprogress⟩
  · rw [hmap] at hj hi ⊢
    refine ⟨T.array j, T.refs (j, i), Table.run_valuesAt hj,
      run_refCountAt hi, ?_⟩
    rw [haddr (j, i) ⟨hj, hi⟩, hshared.refs (j, i) ⟨hj, hi⟩]
    exact Nat.le_add_right _ _
  · obtain ⟨t, ht, rfl⟩ := hshared.placed p hp
    rw [hmap]
    exact ⟨t.1, ht.1, t.2, ht.2, T.array t.1, Table.run_valuesAt ht.1,
      (haddr t ht).symm⟩
  · have hlive := hshared.live hp
    exact ⟨hlive, Ledger.origin_not_cleaned hlive⟩

/-- Two slots an inner map and a cache of one entry: the touch of the
second key evicts the first, which its user still holds. -/
theorem cxLruRcHashMap_spares_evicts : ∃ s m,
    Reached (HashLruClient.start 2 1 1) HashLruClient.exec
      (fun s _ op => op.Allowed s ∧ op.Spares s)
      (Machine.boot (fun _ => 0) fun t => 2 ^ 20 * (t + 1)) s m
      ∧ s.lru.cells = [2] ∧ m.calls = [[23]] ∧ UsersKept s m := by
  obtain ⟨s, m, hrun, htest⟩ := reached_of_replayFrom
    (HashLruClient.start 2 1 1) HashLruClient.exec
    (fun s _ op => op.Allowed s ∧ op.Spares s)
    (Machine.boot (fun _ => 0) fun t => 2 ^ 20 * (t + 1))
    [.put 1 [11], .put 2 [22], .touch 1, .touch 2, .put 2 [23]]
    (fun x => decide (x.1.lru.cells = [2] ∧ x.2.calls = [[23]]))
    (by decide +kernel)
  obtain ⟨hcells, hcalls⟩ := of_decide_eq_true htest
  exact ⟨s, m, hrun, hcells, hcalls,
    cxLruRcHashMap_spares (by decide) (by decide) hrun⟩

/-- Key 1 fills the only slot and key 2, which is touched, goes to a
second inner map. Key 1 is released, and key 2 put again in front of its
element; the cleanup of the cache releases it there, and the user's
value is cleaned up. -/
theorem cxLruRcHashMap_takes : ∃ s m,
    HashLruClient.Run 1 1 1 (fun _ => 0) (fun t => 2 ^ 20 * (t + 1)) s m
      ∧ s.held 3145728 = 1 ∧ s.map.element (0, 0) = some 3145728
      ∧ s.map.count (0, 0) = some 0 ∧ m.calls = [[11], [33]] := by
  obtain ⟨s, m, hrun, htest⟩ := reached_of_replayFrom
    (HashLruClient.start 1 1 1) HashLruClient.exec
    (fun s _ op => op.Allowed s)
    (Machine.boot (fun _ => 0) (fun t => 2 ^ 20 * (t + 1)))
    [.put 1 [11], .put 2 [22], .touch 2, .release 3145728, .put 2 [33],
      .cleanup]
    (fun x => decide (x.1.held 3145728 = 1
      ∧ x.1.map.element (0, 0) = some 3145728
      ∧ x.1.map.count (0, 0) = some 0 ∧ x.2.calls = [[11], [33]]))
    (by decide +kernel)
  obtain ⟨hheld, helement, hcount, hcalls⟩ := of_decide_eq_true htest
  exact ⟨s, m, hrun, hheld, helement, hcount, hcalls⟩

end Cextras.Collection
