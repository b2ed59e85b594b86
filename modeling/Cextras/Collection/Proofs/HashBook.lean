/-
The users of a hash map keep a book: a ledger (Lib/Ledger.lean) of the
pointers they hold and the key each live element was put under. `Keeps`
says that the map agrees with the book: a slot's counter is the number
of references outstanding on its address, live slots have the key and
the bytes the book says, and the callback ran on exactly the values the
ledger says were cleaned up.

Each operation is described twice: what it does to the table
(`PutEffect`, and a change of one counter for the others), and that map
and book still agree afterwards. Nothing here needs a key to have only
one live slot; the map does not see to that.
-/
import Cextras.Lib.Ledger
import Cextras.Lib.Run
import Cextras.Collection.Proofs.HashOps

namespace Cextras.Collection

open Lib

structure HashBook where
  ledger : Ledger Nat (List Byte)
  /-- the key the element at an address was put under -/
  keyOf : Nat → UInt64

/-- The map holds the table, and the table agrees with the book. -/
structure Keeps (m : Machine) (T : Table) (b : HashBook) : Prop where
  inv : TableInv m T
  count_pos : 0 < T.count
  refs : ∀ s, T.In s → T.refs s = b.ledger.refs (T.address s)
  owned : ∀ p, b.ledger.refs p ≠ 0 → ∃ s, T.In s ∧ p = T.address s
  word : ∀ s, T.In s → T.refs s ≠ 0 → T.word s = b.keyOf (T.address s)
  bytes : ∀ p, b.ledger.refs p ≠ 0 →
    b.ledger.stored p = some (m.mem.read p T.elementSize)
  calls : m.calls = b.ledger.log
  /-- a live slot is on the probe path of its key -/
  home : ∀ s, T.In s → T.refs s ≠ 0 →
    s ∈ T.probes (probeLimit T.size) (T.word s)

namespace Keeps

variable {m m' : Machine} {T T' : Table} {b : HashBook} {s t : Place}
  {k : UInt64} {v : List Byte}

/-- A slot is live when its address is held. -/
theorem live_iff (h : Keeps m T b) (hs : T.In s) :
    T.refs s ≠ 0 ↔ b.ledger.refs (T.address s) ≠ 0 := by rw [h.refs s hs]

/-- Only memory, blocks and callbacks count. -/
theorem transfer (h : Keeps m T b) (hmem : m'.mem = m.mem)
    (harena : m'.arena = m.arena) (hcalls : m'.calls = m.calls) :
    Keeps m' T b := by
  refine ⟨h.inv.transfer rfl rfl rfl rfl fun _ hb => by rwa [harena],
    h.count_pos, h.refs, h.owned, h.word, fun p hp => ?_, hcalls.trans h.calls,
    h.home⟩
  rw [hmem]
  exact h.bytes p hp

-- ================================================================ counting

/-- One counter changes, and the ledger with it; the memory stays. -/
theorem recount (h : Keeps m T b) {l : Ledger Nat (List Byte)} {n : Nat}
    (hs : T.In s) (hlive : T.refs s ≠ 0)
    (hrefs : ∀ p, l.refs p = if p = T.address s then n else b.ledger.refs p)
    (hstored : ∀ p, b.ledger.refs p ≠ 0 → l.stored p = b.ledger.stored p)
    (hcalls : m'.calls = l.log) (harena : m'.arena = m.arena)
    (hmem : m'.mem = m.mem) :
    Keeps m' (T.setRefs s n) { b with ledger := l } := by
  have hself : ∀ t, T.In t →
      (T.address t = T.address s ↔ t = s) := fun t ht =>
    ⟨h.inv.address_injective ht hs, fun heq => by rw [heq]⟩
  have hheld : ∀ p, l.refs p ≠ 0 → b.ledger.refs p ≠ 0 := by
    intro p hp
    rw [hrefs p] at hp
    by_cases hps : p = T.address s
    · rw [hps]
      exact (h.live_iff hs).mp hlive
    · rwa [if_neg hps] at hp
  have hlive' : ∀ t, T.In t → (T.setRefs s n).refs t ≠ 0 → T.refs t ≠ 0 := by
    intro t ht hn
    simp only [Table.setRefs, Function.update_apply] at hn
    by_cases hts : t = s
    · rwa [hts]
    · rwa [if_neg hts] at hn
  refine ⟨(h.inv.setRefs s n).transfer rfl rfl rfl rfl
    (fun _ hb => by rwa [harena]), h.count_pos, ?_, ?_, ?_, ?_, hcalls, ?_⟩
  · intro t ht
    change Function.update T.refs s n t = l.refs (T.address t)
    rw [hrefs, Function.update_apply]
    by_cases hts : t = s
    · rw [if_pos hts, if_pos ((hself t ht).mpr hts)]
    · rw [if_neg hts, if_neg (fun heq => hts ((hself t ht).mp heq))]
      exact h.refs t ht
  · exact fun p hp => h.owned p (hheld p hp)
  · exact fun t ht hn => h.word t ht (hlive' t ht hn)
  · intro p hp
    rw [hstored p (hheld p hp), hmem]
    exact h.bytes p (hheld p hp)
  · exact fun t ht hn => h.home t ht (hlive' t ht hn)

/-- A reference taken through a slot. -/
theorem retained (h : Keeps m T b) (hs : T.In s) (hlive : T.refs s ≠ 0) :
    Keeps m (T.setRefs s (T.refs s + 1))
      { b with ledger := b.ledger.retain (T.address s) } := by
  have hheld := (h.live_iff hs).mp hlive
  refine h.recount hs hlive (fun p => ?_) (fun _ _ => Ledger.stored_retain)
    (by rw [Ledger.log_retain]; exact h.calls) rfl rfl
  rw [Ledger.refs_retain hheld, h.refs s hs]

/-- A reference given back through a slot. -/
theorem released (h : Keeps m T b) (hs : T.In s) (hlive : T.refs s ≠ 0) :
    Keeps (TableInv.releasedMachine m T s) (T.setRefs s (T.refs s - 1))
      { b with ledger := b.ledger.release (T.address s) } := by
  have hheld := (h.live_iff hs).mp hlive
  have hrefs := h.refs s hs
  refine h.recount hs hlive (fun p => ?_) (fun _ _ => Ledger.stored_release)
    ?_ ?_ ?_
  · rw [Ledger.refs_release hheld, hrefs]
  · unfold TableInv.releasedMachine
    by_cases hlast : T.refs s = 1
    · rw [if_pos hlast, Ledger.log_release_last (hrefs ▸ hlast)
        (h.bytes _ hheld), ← h.calls]
      rfl
    · rw [if_neg hlast, Ledger.log_release_more (by rwa [← hrefs])]
      exact h.calls
  · unfold TableInv.releasedMachine
    split <;> rfl
  · unfold TableInv.releasedMachine
    split <;> rfl

/-- A value turned away by a live slot that has its key. -/
theorem putLive (h : Keeps m T b) (hs : T.In s) (hlive : T.refs s ≠ 0)
    (hword : T.word s = k) :
    Keeps (called m v) (T.setRefs s (T.refs s + 1))
      { ledger := b.ledger.put (T.address s) v
        keyOf := Function.update b.keyOf (T.address s) k } := by
  have hheld := (h.live_iff hs).mp hlive
  have hsame : Function.update b.keyOf (T.address s) k = b.keyOf := by
    rw [← hword, h.word s hs hlive, Function.update_eq_self]
  rw [hsame]
  refine h.recount hs hlive (fun p => ?_) (fun _ hp => Ledger.stored_put hp)
    ?_ rfl rfl
  · rw [Ledger.refs_put, h.refs s hs]
  · rw [Ledger.log_put_live hheld, ← h.calls]
    rfl

/-- A value stored in an empty slot on its key's probe path. -/
theorem putEmpty (h : Keeps m T b) (hs : T.In s) (hdead : T.refs s = 0)
    (hv : v.length = T.elementSize)
    (hprobe : s ∈ T.probes (probeLimit T.size) k) :
    Keeps (wrote m (T.address s) v) ((T.setWord s k).setRefs s 1)
      { ledger := b.ledger.put (T.address s) v
        keyOf := Function.update b.keyOf (T.address s) k } := by
  have hfree : b.ledger.refs (T.address s) = 0 := (h.refs s hs).symm.trans hdead
  have hself : ∀ t, T.In t → t ≠ s → T.address t ≠ T.address s :=
    fun t ht hne heq => hne (h.inv.address_injective ht hs heq)
  refine ⟨((h.inv.setWord s k).setRefs s 1).transfer rfl rfl rfl rfl
    (fun _ hb => hb), h.count_pos, ?_, ?_, ?_, ?_, ?_, ?_⟩
  · intro t ht
    change Function.update T.refs s 1 t = _
    rw [Function.update_apply, Ledger.refs_put]
    change _ = if T.address t = T.address s then _ else _
    by_cases hts : t = s
    · rw [if_pos hts, if_pos (by rw [hts]), hfree]
    · rw [if_neg hts, if_neg (hself t ht hts)]
      exact h.refs t ht
  · intro p hp
    rw [Ledger.refs_put] at hp
    by_cases hps : p = T.address s
    · exact ⟨s, hs, hps⟩
    · rw [if_neg hps] at hp
      exact h.owned p hp
  · intro t ht hn
    change Function.update T.word s k t
      = Function.update b.keyOf (T.address s) k (T.address t)
    rw [Function.update_apply, Function.update_apply]
    by_cases hts : t = s
    · rw [if_pos hts, if_pos (by rw [hts])]
    · rw [if_neg hts, if_neg (hself t ht hts)]
      change Function.update T.refs s 1 t ≠ 0 at hn
      rw [Function.update_of_ne hts] at hn
      exact h.word t ht hn
  · intro p hp
    change _ = some ((m.mem.write (T.address s) v).read p T.elementSize)
    rw [Ledger.refs_put] at hp
    by_cases hps : p = T.address s
    · rw [hps, Ledger.stored_put_self hfree, ← hv, read_write_self]
    · rw [if_neg hps] at hp
      obtain ⟨t, ht, rfl⟩ := h.owned p hp
      have hts : t ≠ s := fun heq => hps (by rw [heq])
      have hsep := h.inv.separated ht hs hts
      rw [Ledger.stored_put hp, h.bytes _ hp,
        read_write_of_disjoint (by rw [hv]; exact hsep)]
  · rw [Ledger.log_put_dead hfree]
    exact h.calls
  · intro t ht hn
    change t ∈ T.probes (probeLimit T.size) (Function.update T.word s k t)
    rw [Function.update_apply]
    by_cases hts : t = s
    · rw [if_pos hts, hts]
      exact hprobe
    · rw [if_neg hts]
      change Function.update T.refs s 1 t ≠ 0 at hn
      rw [Function.update_of_ne hts] at hn
      exact h.home t ht hn

/-- A row of empty slots. -/
theorem extended (h : Keeps m T b) (he : TableInv.Extended m T m' T') :
    Keeps m' T' b := by
  have hcount := he.count
  have hin : ∀ t, T'.In t → t.1 ≠ T.count → T.In t := by
    intro t ht hne
    have h1 := ht.1
    have h2 := ht.2
    rw [he.size] at h2
    exact ⟨by omega, h2⟩
  have haddr : ∀ t, T.In t → T'.address t = T.address t := by
    intro t ht
    rw [Table.address, he.base _ ht.1, he.elementSize]
    rfl
  have hin' : ∀ t, T.In t → T'.In t := fun t ht =>
    ⟨by have := ht.1; omega, by rw [he.size]; exact ht.2⟩
  have hlive : ∀ t, T'.In t → T'.refs t ≠ 0 →
      T.In t ∧ T.refs t ≠ 0 ∧ T'.word t = T.word t := by
    intro t ht hn
    rw [he.refs] at hn
    split at hn
    case isTrue => exact absurd rfl hn
    case isFalse hne => exact ⟨hin t ht hne, hn, by rw [he.word, if_neg hne]⟩
  refine ⟨he.inv, by omega, ?_, ?_, ?_, ?_, he.calls.trans h.calls, ?_⟩
  · intro t ht
    rw [he.refs]
    split
    case isFalse hne =>
      rw [haddr t (hin t ht hne)]
      exact h.refs t (hin t ht hne)
    case isTrue heq =>
      -- nobody holds an address in the new block
      by_contra hne
      obtain ⟨t', ht', hat⟩ := h.owned _ (fun h0 => hne h0.symm)
      have hsame := he.inv.address_injective ht (hin' t' ht')
        (hat.trans (haddr t' ht').symm)
      have hlt := ht'.1
      rw [← hsame, heq] at hlt
      omega
  · intro p hp
    obtain ⟨t, ht, rfl⟩ := h.owned p hp
    exact ⟨t, hin' t ht, (haddr t ht).symm⟩
  · intro t ht hn
    obtain ⟨hti, htn, hword⟩ := hlive t ht hn
    rw [hword, haddr t hti]
    exact h.word t hti htn
  · intro p hp
    rw [h.bytes p hp, he.elementSize]
    obtain ⟨t, ht, rfl⟩ := h.owned p hp
    have hhas := h.inv.has ht
    simp only [Block.Has, Table.block] at hhas
    congr 1
    refine (read_congr fun x hlo hhi => ?_).symm
    refine he.mem _ (h.inv.block _ ht.1) x ?_
    simp only [Block.Has, Table.block]
    omega
  · intro t ht hn
    obtain ⟨hti, htn, hword⟩ := hlive t ht hn
    obtain ⟨-, d, hd, hidx⟩ := Table.mem_probes.mp (h.home t hti htn)
    rw [hword, Table.mem_probes, he.size]
    exact ⟨(hin' t hti).1, d, hd, hidx⟩

-- ============================================================ operations

/-- The first slot of a key's probe that has its key word. -/
def firstSlot (T : Table) (k : UInt64) : Option Place :=
  (T.probes (probeLimit T.size) k).find? fun s => T.word s = k

/-- What a put of `k` does to the table, at the slot `s`. -/
inductive PutEffect (m : Machine) (T : Table) (k : UInt64) (s : Place)
    (T' : Table) : Prop where
  | live : TableInv.putSlot T k = some s → T.refs s ≠ 0 →
      T' = T.setRefs s (T.refs s + 1) → PutEffect m T k s T'
  | empty : TableInv.putSlot T k = some s → T.refs s = 0 →
      T' = (T.setWord s k).setRefs s 1 → PutEffect m T k s T'
  | grown (m₁ : Machine) (T₁ : Table) : TableInv.putSlot T k = none →
      TableInv.Extended m T m₁ T₁ → s = (T.count, keyHash k % T.size) →
      T' = (T₁.setWord s k).setRefs s 1 → PutEffect m T k s T'

/-- The slot a put stops at is empty or has the key. -/
theorem putSlot_spec (h : Keeps m T b) (hslot : TableInv.putSlot T k = some s) :
    T.In s ∧ s ∈ T.probes (probeLimit T.size) k
      ∧ (T.refs s = 0 ∨ T.word s = k) := by
  obtain ⟨hp, hs⟩ := Table.probes_find h.inv.size_pos hslot
  exact ⟨hs, List.mem_of_find?_eq_some hslot, of_decide_eq_true hp⟩

theorem put_granted (h : Keeps m T b) (hv : v.length = T.elementSize)
    (hroom : (T.count + 1) * innerMapSize < 2 ^ 64)
    (hsmall : ∀ p, b.ledger.refs p ≠ 0 → b.keyOf p = k →
      b.ledger.refs p + 1 < 2 ^ 31) :
    (cxRcHashMapPut T.toMap k v).Granted m fun r m' => ∃ T' s,
      r = (T'.address s, T'.toMap) ∧ T'.In s ∧ PutEffect m T k s T'
        ∧ Keeps m' T' { ledger := b.ledger.put r.1 v
                        keyOf := Function.update b.keyOf r.1 k } := by
  refine C.Granted.of_run_eq ?_ (h.inv.run_hashMapPut h.count_pos k v)
  cases hslot : TableInv.putSlot T k with
  | some s =>
      obtain ⟨hs, hprobe, hor⟩ := h.putSlot_spec hslot
      by_cases hdead : T.refs s = 0
      · exact granted_of_run (h.inv.run_putAt_empty hs hdead hv)
          ⟨(T.setWord s k).setRefs s 1, s, rfl, hs, .empty hslot hdead rfl,
            h.putEmpty hs hdead hv hprobe⟩
      · have hword : T.word s = k := hor.resolve_left hdead
        have hlt : T.refs s + 1 < 2 ^ 31 := by
          rw [h.refs s hs]
          exact hsmall _ ((h.live_iff hs).mp hdead)
            ((h.word s hs hdead).symm.trans hword)
        exact granted_of_run (h.inv.run_putAt_live hs hdead hlt hword v)
          ⟨T.setRefs s (T.refs s + 1), s, rfl, hs, .live hslot hdead rfl,
            h.putLive hs hdead hword⟩
  | none =>
      refine granted_bind (TableInv.extendHashMap_granted h.inv
        (TableInv.holds_toMap T) hroom) ?_
      rintro ⟨rv, map⟩ m₁ ⟨hrv, T₁, hmap, he⟩
      dsimp only at hrv hmap ⊢
      subst hrv hmap
      have h₁ := h.extended he
      have hcount : T₁.toMap.hashMapCount - 1 = T.count := by
        change T₁.count - 1 = _
        rw [he.count, Nat.add_sub_cancel]
      have hin : T₁.In (T.count, keyHash k % T.size) :=
        ⟨by rw [he.count]; exact Nat.lt_succ_self _,
          by rw [he.size]; exact Nat.mod_lt _ h.inv.size_pos⟩
      have hdead : T₁.refs (T.count, keyHash k % T.size) = 0 := by
        rw [he.refs, if_pos rfl]
      have hprobe : (T.count, keyHash k % T.size)
          ∈ T₁.probes (probeLimit T₁.size) k := by
        refine Table.mem_probes.mpr ⟨hin.1, 0, ?_, by rw [he.size]; rfl⟩
        have := h.inv.size_pos
        rw [he.size]
        simp only [probeLimit, maxCollisions]
        omega
      have hv₁ : v.length = T₁.elementSize := hv.trans he.elementSize.symm
      rw [if_neg (by decide), hcount]
      exact granted_of_run (h₁.inv.run_putAt_empty hin hdead hv₁)
        ⟨(T₁.setWord (T.count, keyHash k % T.size) k).setRefs
            (T.count, keyHash k % T.size) 1, _, rfl, hin,
          .grown m₁ T₁ hslot he rfl rfl,
          h₁.putEmpty hin hdead hv₁ hprobe⟩

/-- Retaining a key whose first slot is live. -/
theorem run_retain (h : Keeps m T b) (hfirst : firstSlot T k = some s)
    (hlive : T.refs s ≠ 0) (hlt : T.refs s + 1 < 2 ^ 31) :
    T.In s ∧ (cxRcHashMapRetain T.toMap k).run m
        = .ok (T.address s, (T.setRefs s (T.refs s + 1)).toMap) m
      ∧ Keeps m (T.setRefs s (T.refs s + 1))
        { b with ledger := b.ledger.retain (T.address s) } := by
  have hs := (Table.probes_find h.inv.size_pos hfirst).2
  exact ⟨hs, h.inv.run_hashMapRetain h.count_pos hfirst hlive hlt,
    h.retained hs hlive⟩

/-- Releasing a held pointer. -/
theorem run_release (h : Keeps m T b) {p : Nat} (hp : b.ledger.refs p ≠ 0) :
    ∃ s, T.In s ∧ p = T.address s ∧ T.refs s ≠ 0
      ∧ (cxRcHashMapRelease T.toMap p).run m
        = .ok (0, (T.setRefs s (T.refs s - 1)).toMap)
            (TableInv.releasedMachine m T s)
      ∧ Keeps (TableInv.releasedMachine m T s) (T.setRefs s (T.refs s - 1))
        { b with ledger := b.ledger.release p } := by
  obtain ⟨s, hs, rfl⟩ := h.owned p hp
  have hlive := (h.live_iff hs).mpr hp
  exact ⟨s, hs, rfl, hlive, h.inv.run_hashMapRelease hs hlive,
    h.released hs hlive⟩

/-- A map that was set up is empty. -/
theorem init_granted (m : Machine) {size elementSize : Nat} (hsize : 0 < size)
    (helem : 0 < elementSize) :
    (cxRcHashMapInit size elementSize).Granted m fun r m' =>
      r.1 = 0 ∧ (m.calls = [] → ∃ T, r.2 = T.toMap ∧ T.size = size
        ∧ T.elementSize = elementSize ∧ Keeps m' T ⟨.empty, fun _ => 0⟩) := by
  -- the table of no inner maps
  have hinv : TableInv m ⟨size, elementSize, 0, 0, fun _ => 0, fun _ => 0,
      fun _ => 0, fun _ => 0, fun _ => 0⟩ :=
    ⟨hsize, helem, fun _ hj => absurd hj (Nat.not_lt_zero _),
      fun _ hi => absurd hi (Nat.not_lt_zero _)⟩
  refine (TableInv.extendHashMap_granted hinv ⟨rfl, rfl, rfl, rfl⟩
    (by simp only [innerMapSize]; omega)).imp ?_
  rintro ⟨rv, map⟩ m' ⟨hrv, T, hmap, he⟩
  refine ⟨hrv, fun hcalls => ⟨T, hmap, he.size, he.elementSize, he.inv, ?_, ?_,
    ?_, ?_, ?_, ?_, ?_⟩⟩
  · rw [he.count]
    exact Nat.succ_pos _
  · intro s _
    rw [he.refs]
    split <;> rfl
  · exact fun p hp => absurd rfl hp
  · intro s _ hn
    rw [he.refs] at hn
    split at hn <;> exact absurd rfl hn
  · exact fun p hp => absurd rfl hp
  · exact he.calls.trans hcalls
  · intro s _ hn
    rw [he.refs] at hn
    split at hn <;> exact absurd rfl hn

end Keeps

end Cextras.Collection
