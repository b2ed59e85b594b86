/-
Touches by key and touches by element. `cx_lru_touch` finds the counter
by the key, `cx_lru_touch_value` by the address of the element, and the
eviction of the oldest key comes in between. Over the reference-counted
array and the radix tree the two do the same in every state
(`touchValue_eq`), whatever was touched before: the entries may be keys
that are gone, so that the eviction finds nothing to release. Over the
hash map, which has no `retain_value`, a touch by element that is to
enter its key does not come back.
-/
import Cextras.Collection.Proofs.HashLru
import Cextras.Collection.Proofs.LruStores

namespace Cextras.Collection

open Lib

-- ================================================================== client

/-- A cache, its store, and what is held in the store. -/
structure LruCaller (S : LruStore) where
  lru : CxLru S.Backend
  backend : S.Backend
  /-- all references, the users' and the cache's -/
  book : RcBook

variable {S : LruStore}

/-- Any key may be touched, and any live one released; counters stay below
their bound. -/
def LruOp.Called (s : LruCaller S) : LruOp → Prop
  | .put k v => S.inRange k = true ∧ v.length = S.elementSize
      ∧ s.book.ledger.refs k + 1 < S.bound
  | .retain k => S.inRange k = true ∧ s.book.ledger.refs k + 1 < S.bound
  | .release k => s.book.ledger.refs k ≠ 0
  | .touch k => s.book.ledger.refs k + 1 < S.bound
  | .touchValue k => s.book.ledger.refs k ≠ 0
      ∧ s.book.ledger.refs k + 1 < S.bound
  | .cleanup => True

instance LruOp.decidableCalled (s : LruCaller S) :
    (op : LruOp) → Decidable (op.Called s)
  | .put _ _ => inferInstanceAs (Decidable (_ = true ∧ _ = _ ∧ _ < _))
  | .retain _ => inferInstanceAs (Decidable (_ = true ∧ _ < _))
  | .release _ => inferInstanceAs (Decidable (_ ≠ 0))
  | .touch _ => inferInstanceAs (Decidable (_ < _))
  | .touchValue _ => inferInstanceAs (Decidable (_ ≠ 0 ∧ _ < _))
  | .cleanup => inferInstanceAs (Decidable True)

/-- What a touch of the key asks of the store. -/
def touchCalls (w : List UInt64) (k : UInt64) : List LruCall :=
  if Idle w k then [] else w.head?.toList.flatMap evictCalls ++ [.retain k]

def LruCaller.start (S : LruStore) (size : Nat) : C (LruCaller S) := do
  let backend ← S.start
  let (rv, lru) ← cxLruInit size S.impl
  C.assert (rv = 0)
  pure ⟨lru, backend, ⟨.empty, fun _ => 0⟩⟩

def LruCaller.exec : LruOp → LruCaller S → C (LruCaller S)
  | .put k v, s => do
      let (p, backend) ← S.put s.backend k v
      pure ⟨s.lru, backend,
        ⟨s.book.ledger.put k v, Function.update s.book.element k p⟩⟩
  | .retain k, s => do
      let (_, backend) ← S.retain s.backend k
      pure ⟨s.lru, backend, { s.book with ledger := s.book.ledger.retain k }⟩
  | .release k, s => do
      let (_, backend) ← S.release s.backend k (s.book.element k)
      pure ⟨s.lru, backend, { s.book with ledger := s.book.ledger.release k }⟩
  | .touch k, s => do
      let (_, lru, backend) ← cxLruTouch s.lru s.backend k
      pure ⟨lru, backend, s.book.entered k (touchCalls s.lru.queue k)⟩
  | .touchValue k, s => do
      let (_, lru, backend) ←
        cxLruTouchValue s.lru s.backend k (s.book.element k)
      pure ⟨lru, backend, s.book.entered k (touchCalls s.lru.queue k)⟩
  | .cleanup, s => do
      let (_, lru, backend) ← cxLruCleanup s.lru s.backend
      pure ⟨lru, backend, s.book.entered 0 (s.lru.cells.flatMap evictCalls)⟩

/-- The states of runs over a store, with a cache of `size` entries. -/
abbrev LruCaller.Run (S : LruStore) (size : Nat) (mem : Mem)
    (oracle : Nat → Nat) : LruCaller S → Machine → Prop :=
  Reached (LruCaller.start S size) LruCaller.exec
    (fun s _ op => op.Called s) (Machine.boot mem oracle)

-- ============================================================== agreement

/-- A touch by element comes back, and does what a touch by key does. -/
structure TouchAgrees {β : Type} (lru : CxLru β) (backend : β) (k : UInt64)
    (p : Nat) (m : Machine) : Prop where
  defined : ∃ r m', (cxLruTouchValue lru backend k p).run m = .ok r m'
  same : (cxLruTouchValue lru backend k p).run m
    = (cxLruTouch lru backend k).run m

/-- A sound store whose counters are found by key and by element alike.
`Evicts` says when a release by key comes back. -/
structure LruStore.Routed (S : LruStore)
    (Keeps : Machine → S.Backend → RcBook → Prop)
    (Evicts : RcBook → UInt64 → Prop) : Prop where
  sound : S.Sound Keeps
  /-- the retain of any key that comes back -/
  retained : ∀ {m m' b bk k r}, Keeps m b bk → bk.ledger.refs k + 1 < S.bound →
    (S.impl.retain b k).run m = .ok r m' →
    Keeps m' r.2 { bk with ledger := bk.ledger.retain k }
  released : ∀ {m m' b bk k r}, Keeps m b bk →
    (S.impl.release b k).run m = .ok r m' →
    Keeps m' r.2 { bk with ledger := bk.ledger.release k }
  evicts : ∀ {m b bk k}, Keeps m b bk →
    ((∃ r m', (S.impl.release b k).run m = .ok r m') ↔ Evicts bk k)
  /-- what a user is given -/
  handle : ∀ {m m' b bk k r}, Keeps m b bk → bk.ledger.refs k ≠ 0 →
    bk.ledger.refs k + 1 < S.bound → (S.retain b k).run m = .ok r m' →
    r.1 = bk.element k
  routes : ∃ f, S.impl.retainValue = some f ∧
    ∀ {m b bk k}, Keeps m b bk → bk.ledger.refs k ≠ 0 →
      bk.ledger.refs k + 1 < S.bound → ∃ r m',
        (S.impl.retain b k).run m = .ok r m'
          ∧ (f b (bk.element k)).run m = .ok r.2 m'

section Touch

variable {Keeps : Machine → S.Backend → RcBook → Prop}
  {Evicts : RcBook → UInt64 → Prop} {m m' : Machine} {b b' : S.Backend}
  {bk : RcBook} {w : List UInt64} {k old : UInt64} {lru : CxLru S.Backend}

/-- The oldest entry is released. -/
theorem LruStore.Routed.releaseItem_keeps (hS : S.Routed Keeps Evicts)
    (himpl : lru.impl = S.impl) (h : Keeps m b bk) (key : UInt64)
    (hrun : (releaseItem lru b old).run m = .ok b' m') :
    Keeps m' b' (bk.entered key (evictCalls old)) := by
  unfold releaseItem at hrun
  unfold evictCalls
  by_cases ho : old = emptyMarker
  · rw [if_neg (not_not.mpr ho)] at hrun
    cases hrun
    rw [if_pos ho]
    exact h
  · rw [if_pos ho, himpl] at hrun
    obtain ⟨r, m₁, hrel, hpure⟩ := bind_cases hrun
    cases hpure
    rw [if_neg ho]
    exact hS.released h hrel

/-- It is released if it is empty, or the store finds it. -/
theorem LruStore.Routed.releaseItem_iff (hS : S.Routed Keeps Evicts)
    (himpl : lru.impl = S.impl) (h : Keeps m b bk) :
    (∃ b' m', (releaseItem lru b old).run m = .ok b' m')
      ↔ old = emptyMarker ∨ Evicts bk old := by
  unfold releaseItem
  by_cases ho : old = emptyMarker
  · rw [if_neg (not_not.mpr ho)]
    exact ⟨fun _ => Or.inl ho, fun _ => ⟨b, m, rfl⟩⟩
  · rw [if_pos ho, himpl, ← hS.evicts h]
    constructor
    · rintro ⟨b', m', hrun⟩
      obtain ⟨r, m₁, hrel, -⟩ := bind_cases hrun
      exact Or.inr ⟨r, m₁, hrel⟩
    · rintro (heq | ⟨r, m₁, hrel⟩)
      · exact absurd heq ho
      · refine ⟨r.2, m₁, ?_⟩
        rw [C.run_bind, hrel]
        rfl

/-- All entries are released. -/
theorem LruStore.Routed.releaseAll_keeps (hS : S.Routed Keeps Evicts)
    (himpl : lru.impl = S.impl) (key : UInt64) (keys : List UInt64) :
    ∀ {m b bk}, Keeps m b bk →
      (releaseAll lru keys b).run m = .ok b' m' →
      Keeps m' b' (bk.entered key (keys.flatMap evictCalls)) := by
  induction keys with
  | nil =>
      intro m b bk h hrun
      cases hrun
      exact h
  | cons old keys ih =>
      intro m b bk h hrun
      rw [releaseAll] at hrun
      obtain ⟨b₁, m₁, hfirst, hrest⟩ := bind_cases hrun
      have h₁ := ih (hS.releaseItem_keeps himpl h key hfirst) hrest
      rw [List.flatMap_cons, RcBook.entered, List.foldl_append]
      exact h₁

/-- The eviction of another key leaves the key's references. -/
theorem refs_entered_evict (hne : k ≠ old) (key : UInt64) :
    (bk.entered key (evictCalls old)).ledger.refs k = bk.ledger.refs k := by
  unfold evictCalls
  split
  case isTrue => rfl
  case isFalse =>
    show (bk.ledger.release old).refs k = _
    by_cases hdead : bk.ledger.refs old = 0
    · rw [Ledger.release_dead hdead]
    · rw [Ledger.refs_release hdead, if_neg hne]

/-- Once another key is evicted, a live key is still retained either way. -/
theorem LruStore.Routed.routes_evicted (hS : S.Routed Keeps Evicts)
    (himpl : lru.impl = S.impl) (h : Keeps m b bk)
    (hlive : bk.ledger.refs k ≠ 0) (hlt : bk.ledger.refs k + 1 < S.bound)
    (hne : k ≠ old) (hrel : (releaseItem lru b old).run m = .ok b' m') :
    ∃ f r m₁, S.impl.retainValue = some f
      ∧ (S.impl.retain b' k).run m' = .ok r m₁
      ∧ (f b' (bk.element k)).run m' = .ok r.2 m₁ := by
  obtain ⟨f, hf, hroutes⟩ := hS.routes
  have h₁ := hS.releaseItem_keeps himpl h k hrel
  have hsame : (bk.entered k (evictCalls old)).ledger.refs k
      = bk.ledger.refs k := refs_entered_evict hne k
  obtain ⟨r, m₁, hkey, helement⟩ :=
    hroutes (k := k) h₁ (by rwa [hsame]) (by rwa [hsame])
  exact ⟨f, r, m₁, hf, hkey, helement⟩

/-- A touch of a live key by its element is a touch by key. -/
theorem LruStore.Routed.touchValue_eq (hS : S.Routed Keeps Evicts)
    (himpl : lru.impl = S.impl) (hq : Queue lru w) (h : Keeps m b bk)
    (hlive : bk.ledger.refs k ≠ 0) (hlt : bk.ledger.refs k + 1 < S.bound) :
    (cxLruTouchValue lru b k (bk.element k)).run m
      = (cxLruTouch lru b k).run m := by
  by_cases hidle : Idle w k
  · rw [hq.run_cxLruTouchValue_idle hidle, hq.run_cxLruTouch_idle hidle]
  obtain ⟨old, rest, rfl, hne⟩ := cons_of_not_idle hidle
  rw [hq.run_cxLruTouchValue hidle, hq.run_cxLruTouch hidle, C.run_bind,
    C.run_bind, himpl]
  cases hrel : (releaseItem lru b old).run m with
  | fault e m₁ => rfl
  | ok b₁ m₁ =>
      obtain ⟨f, r, m₂, hf, hkey, helement⟩ :=
        hS.routes_evicted himpl h hlive hlt hne hrel
      simp only [C.chain_ok, C.run_bind, hf, hkey, helement]

/-- A touch comes back if it changes nothing, or the eviction does. -/
theorem LruStore.Routed.touch_iff (hS : S.Routed Keeps Evicts)
    (himpl : lru.impl = S.impl) (hq : Queue lru w) (h : Keeps m b bk)
    (hlive : bk.ledger.refs k ≠ 0) (hlt : bk.ledger.refs k + 1 < S.bound) :
    (∃ r m', (cxLruTouch lru b k).run m = .ok r m')
      ↔ Idle w k ∨ ∀ old ∈ w.head?, old = emptyMarker ∨ Evicts bk old := by
  by_cases hidle : Idle w k
  · rw [hq.run_cxLruTouch_idle hidle]
    exact ⟨fun _ => Or.inl hidle, fun _ => ⟨_, _, rfl⟩⟩
  obtain ⟨old, rest, rfl, hne⟩ := cons_of_not_idle hidle
  have hhead : (∀ old' ∈ (old :: rest).head?, old' = emptyMarker
      ∨ Evicts bk old') ↔ old = emptyMarker ∨ Evicts bk old := by
    simp
  rw [hq.run_cxLruTouch hidle, or_iff_right hidle, hhead,
    ← hS.releaseItem_iff himpl h]
  constructor
  · rintro ⟨r, m', hrun⟩
    obtain ⟨b₁, m₁, hrel, -⟩ := bind_cases hrun
    exact ⟨b₁, m₁, hrel⟩
  · rintro ⟨b₁, m₁, hrel⟩
    obtain ⟨f, r, m₂, -, hkey, -⟩ :=
      hS.routes_evicted himpl h hlive hlt hne hrel
    refine ⟨(0, Queue.next lru k, r.2), m₂, ?_⟩
    rw [C.run_bind, hrel, C.chain_ok, himpl, C.run_bind, hkey]
    rfl

theorem LruStore.Routed.agrees_iff (hS : S.Routed Keeps Evicts)
    (himpl : lru.impl = S.impl) (hq : Queue lru w) (h : Keeps m b bk)
    (hlive : bk.ledger.refs k ≠ 0) (hlt : bk.ledger.refs k + 1 < S.bound) :
    TouchAgrees lru b k (bk.element k) m
      ↔ Idle w k ∨ ∀ old ∈ w.head?, old = emptyMarker ∨ Evicts bk old := by
  have heq := hS.touchValue_eq himpl hq h hlive hlt
  rw [← hS.touch_iff himpl hq h hlive hlt]
  constructor
  · intro hagrees
    have hdefined := hagrees.defined
    rwa [heq] at hdefined
  · exact fun hdefined => ⟨by rwa [heq], heq⟩

end Touch

/-- Without a `retain_value`, only touches that change nothing agree. -/
theorem agrees_missing_iff {β : Type} {lru : CxLru β} {backend : β} {k : UInt64}
    {p : Nat} {m : Machine} {w : List UInt64} (hq : Queue lru w)
    (hmissing : lru.impl.retainValue = none) :
    TouchAgrees lru backend k p m ↔ Idle w k := by
  constructor
  · intro hagrees
    by_contra hidle
    obtain ⟨old, rest, rfl, -⟩ := cons_of_not_idle hidle
    obtain ⟨r, m', hrun⟩ := hagrees.defined
    rw [hq.run_cxLruTouchValue hidle] at hrun
    obtain ⟨b₁, m₁, -, hnull⟩ := bind_cases hrun
    rw [hmissing] at hnull
    cases hnull
  · intro hidle
    exact ⟨⟨_, _, hq.run_cxLruTouchValue_idle hidle p⟩, by
      rw [hq.run_cxLruTouchValue_idle hidle, hq.run_cxLruTouch_idle hidle]⟩

-- ==================================================================== runs

section Runs

variable {Keeps : Machine → S.Backend → RcBook → Prop}
  {Evicts : RcBook → UInt64 → Prop} {m m' : Machine} {b b' : S.Backend}
  {bk : RcBook} {w : List UInt64} {k old : UInt64} {lru : CxLru S.Backend}
  {s s' : LruCaller S}

/-- A touch that comes back did to the store what it asked of it. -/
theorem LruStore.Routed.touch_keeps (hS : S.Routed Keeps Evicts)
    (himpl : lru.impl = S.impl) (hq : Queue lru w) (h : Keeps m b bk)
    (hlt : bk.ledger.refs k + 1 < S.bound) {r : Int × CxLru S.Backend × S.Backend}
    (hrun : (cxLruTouch lru b k).run m = .ok r m') :
    Keeps m' r.2.2 (bk.entered k (touchCalls w k)) := by
  unfold touchCalls
  by_cases hidle : Idle w k
  · rw [hq.run_cxLruTouch_idle hidle] at hrun
    cases hrun
    rw [if_pos hidle]
    exact h
  obtain ⟨old, rest, rfl, hne⟩ := cons_of_not_idle hidle
  rw [hq.run_cxLruTouch hidle, himpl] at hrun
  obtain ⟨b₁, m₁, hrel, hretain⟩ := bind_cases hrun
  obtain ⟨r₁, m₂, hret, hpure⟩ := bind_cases hretain
  cases hpure
  have h₁ := hS.releaseItem_keeps himpl h k hrel
  have hsame : (bk.entered k (evictCalls old)).ledger.refs k
      = bk.ledger.refs k := refs_entered_evict hne k
  have h₂ : Keeps m' r₁.2
      ⟨LruCall.enter k (bk.entered k (evictCalls old)).ledger (.retain k),
        bk.element⟩ := hS.retained h₁ (by rwa [hsame]) hret
  rw [← bk.entered_concat] at h₂
  rw [if_neg hidle, List.head?_cons, Option.toList_some, List.flatMap_singleton]
  exact h₂

/-- The store keeps the book of a cache whose ring is in order. -/
structure CallerInv (Keeps : Machine → S.Backend → RcBook → Prop)
    (s : LruCaller S) (m : Machine) : Prop where
  impl : s.lru.impl = S.impl
  queue : Queue s.lru s.lru.queue
  keeps : Keeps m s.backend s.book

/-- Every call that comes back keeps it. -/
theorem callerInv_exec (hS : S.Routed Keeps Evicts) (h : CallerInv Keeps s m)
    {op : LruOp} (hop : op.Called s)
    (hrun : (LruCaller.exec op s).run m = .ok s' m')
    (hu : m'.refused = false) : CallerInv Keeps s' m' := by
  cases op with
  | put k v =>
      obtain ⟨hin, hv, hlt⟩ := hop
      obtain ⟨⟨p, backend⟩, m₁, hput, hpure⟩ := bind_cases hrun
      cases hpure
      exact ⟨h.impl, h.queue, (hS.sound.put h.keeps hin hv hlt).of_run hput hu⟩
  | retain k =>
      obtain ⟨hin, hlt⟩ := hop
      obtain ⟨⟨p, backend⟩, m₁, hretain, hpure⟩ := bind_cases hrun
      cases hpure
      refine ⟨h.impl, h.queue, ?_⟩
      by_cases hdead : s.book.ledger.refs k = 0
      · rw [hS.sound.retain_absent h.keeps hin hdead] at hretain
        cases hretain
        rw [Ledger.retain_dead hdead]
        exact h.keeps
      · exact ((hS.sound.retain h.keeps hdead hlt).of_run hretain hu).2
  | release k =>
      obtain ⟨⟨rv, backend⟩, m₁, hrelease, hpure⟩ := bind_cases hrun
      cases hpure
      exact ⟨h.impl, h.queue, (hS.sound.release h.keeps hop).of_run hrelease hu⟩
  | touch k =>
      obtain ⟨⟨rv, lru, backend⟩, m₁, htouch, hpure⟩ := bind_cases hrun
      cases hpure
      obtain ⟨himpl, w', hq⟩ := h.queue.touch_returned htouch
      exact ⟨himpl.trans h.impl, hq.self,
        hS.touch_keeps h.impl h.queue h.keeps hop htouch⟩
  | touchValue k =>
      obtain ⟨hlive, hlt⟩ := hop
      obtain ⟨⟨rv, lru, backend⟩, m₁, htouch, hpure⟩ := bind_cases hrun
      cases hpure
      rw [hS.touchValue_eq h.impl h.queue h.keeps hlive hlt] at htouch
      obtain ⟨himpl, w', hq⟩ := h.queue.touch_returned htouch
      exact ⟨himpl.trans h.impl, hq.self,
        hS.touch_keeps h.impl h.queue h.keeps hlt htouch⟩
  | cleanup =>
      obtain ⟨⟨rv, lru, backend⟩, m₁, hcleanup, hpure⟩ := bind_cases hrun
      cases hpure
      obtain ⟨himpl, hq⟩ := cleanup_returned hcleanup
      refine ⟨himpl.trans h.impl, hq.self, ?_⟩
      rw [run_cxLruCleanup h.queue] at hcleanup
      obtain ⟨b₁, m₂, hall, hfree⟩ := bind_cases hcleanup
      have hkeeps := hS.releaseAll_keeps h.impl 0 s.lru.cells h.keeps hall
      cases hfree
      exact hS.sound.transfer hkeeps rfl rfl rfl

theorem callerInv_run (hS : S.Routed Keeps Evicts) {size : Nat} {mem : Mem}
    {oracle : Nat → Nat} (h : LruCaller.Run S size mem oracle s m) :
    CallerInv Keeps s m := by
  apply h.invariant_returned (CallerInv Keeps)
  · intro s m hrun hu
    obtain ⟨backend, m₁, hstart, hinit⟩ := bind_cases hrun
    have hkeeps := hS.sound.start mem oracle backend m₁ hstart
      (unrefused_of_run hinit hu)
    refine C.Granted.of_run (Q := CallerInv Keeps) ?_ hinit hu
    refine granted_bind (cxLruInit_granted m₁ size S.impl) ?_
    rintro ⟨rv, lru⟩ m₂ ⟨hrv, himpl, hqueue, hmem, harena, hcalls⟩
    exact granted_bind_run (run_assert hrv) (granted_pure
      ⟨himpl, hqueue.self, hS.sound.transfer hkeeps hmem harena hcalls⟩)
  · intro s m op s' m' hinv hop hrun hu
    exact callerInv_exec hS hinv hop hrun hu

end Runs

-- ================================================================= stores

section Stores

variable {size elementSize data storage : Nat} {m m' : Machine} {b : RcBook}
  {k : UInt64}

/-- Only the counters of the array are read. -/
theorem RcMapKeeps.range_of_count {count : Int}
    (hrun : (refCountAt (tallied size elementSize data storage b.ledger)
      k.toNat).run m = .ok count m') : k.toNat < size := by
  by_contra hout
  have hnone : ((List.range size).map fun i =>
      ((b.ledger.refs (UInt64.ofNat i) : Nat) : Int))[k.toNat]? = none := by
    simpa using hout
  change (C.cell _ _).run m = _ at hrun
  unfold C.cell at hrun
  rw [hnone] at hrun
  cases hrun

/-- A release of an element without references fails its assert. -/
theorem RcMapKeeps.live_of_release {r : Int × CxRcMap}
    (h : RcMapKeeps size elementSize data m b)
    (hrun : (cxRcMapReleaseIndex (tallied size elementSize data storage b.ledger)
      k.toNat).run m = .ok r m') : b.ledger.refs k ≠ 0 := by
  intro hdead
  obtain ⟨r₁, m₁, hrelease, -⟩ := bind_cases hrun
  obtain ⟨count, m₂, hcount, hrest⟩ := bind_cases hrelease
  have hin := range_of_count hcount
  rw [h.run_refCount hin, hdead] at hcount
  cases hcount
  cases hrest

theorem rcMapStore_routed (helem : 0 < elementSize) :
    (rcMapStore size elementSize).Routed (RcMapHolds size elementSize)
      fun b k => b.ledger.refs k ≠ 0 where
  sound := rcMapStore_sound helem
  retained := by
    intro m m' array b k r h hlt hrun
    obtain ⟨data, storage, rfl, h⟩ := h
    by_cases hdead : b.ledger.refs k = 0
    · obtain ⟨empty, m₁, hempty, -⟩ := bind_cases hrun
      obtain ⟨count, m₂, hcount, -⟩ := bind_cases hempty
      have hin := RcMapKeeps.range_of_count hcount
      have hrun' : (cxRcMapRetain (tallied size elementSize data storage b.ledger)
          k.toNat).run m = .ok (0, tallied size elementSize data storage b.ledger)
            m := RcMapKeeps.run_retain_absent hin hdead
      rw [show (cxRcMapRetain _ k.toNat).run m = _ from hrun] at hrun'
      cases hrun'
      rw [Ledger.retain_dead hdead]
      exact ⟨data, storage, rfl, h⟩
    · obtain ⟨hrun', h'⟩ := h.run_retain hdead hlt
      rw [show (cxRcMapRetain _ k.toNat).run m = _ from hrun] at hrun'
      cases hrun'
      exact ⟨data, storage, rfl, h'⟩
  released := by
    intro m m' array b k r h hrun
    obtain ⟨data, storage, rfl, h⟩ := h
    obtain ⟨m₁, hrun', h'⟩ := h.run_release (h.live_of_release hrun)
    rw [show (cxRcMapReleaseIndex _ k.toNat).run m = _ from hrun] at hrun'
    cases hrun'
    exact ⟨data, storage, rfl, h'⟩
  evicts := by
    intro m array b k h
    obtain ⟨data, storage, rfl, h⟩ := h
    constructor
    · rintro ⟨r, m', hrun⟩
      exact h.live_of_release hrun
    · intro hlive
      obtain ⟨m', hrun, -⟩ := h.run_release hlive
      exact ⟨_, m', hrun⟩
  handle := by
    intro m m' array b k r h hlive hlt hrun
    obtain ⟨data, storage, rfl, h⟩ := h
    obtain ⟨hrun', -⟩ := h.run_retain hlive hlt
    rw [show (cxRcMapRetain _ k.toNat).run m = _ from hrun] at hrun'
    cases hrun'
    rfl
  routes := by
    refine ⟨lruRcMapRetainValue, rfl, ?_⟩
    intro m array b k h hlive hlt
    obtain ⟨data, storage, rfl, h⟩ := h
    obtain ⟨hrun, -⟩ := h.run_retain hlive hlt
    refine ⟨_, m, hrun, ?_⟩
    rw [h.element k hlive, lruRcMapRetainValue, C.run_bind]
    rw [show tallied size elementSize data storage b.ledger = tally data size
      elementSize storage fun i => b.ledger.refs (UInt64.ofNat i) from rfl]
      at hrun ⊢
    rw [run_elementIndex h.laid (h.range k hlive), C.chain_ok, C.run_bind, hrun]
    rfl

/-- The counter of a live key's leaf lies in front of its element. -/
theorem RcTree.run_routes {tree : CxRcRadixTree} {g : Ghost}
    (h : RcTree elementSize m tree b g) (hlive : b.ledger.refs k ≠ 0)
    (hlt : b.ledger.refs k + 1 < 2 ^ 64) :
    ∃ m', (cxRcRadixTreeRetain tree k).run m = .ok (b.element k) m'
      ∧ (cxRcRadixTreeRetainValue tree (b.element k)).run m = .ok () m' := by
  obtain ⟨hne, helement⟩ := h.present k hlive
  refine ⟨setCounter m (leafAt m tree.values g.levels k)
    (b.ledger.refs k + 1), ?_, ?_⟩
  · rw [cxRcRadixTreeRetain, C.run_bind, h.run_radixTreeRetain hlive hlt,
      C.chain_ok, if_neg hne, C.run_pure, helement]
  · rw [cxRcRadixTreeRetainValue, helement, objData, Nat.add_sub_cancel]
    exact h.run_incrementRc hlive hlt

theorem rcRadixTreeStore_routed
    (hsize : 16 * (rcSize + elementSize) < 2 ^ 64) :
    (rcRadixTreeStore elementSize).Routed (RcTreeHolds elementSize)
      fun _ _ => True where
  sound := rcRadixTreeStore_sound hsize
  retained := by
    intro m m' tree b k r h hlt hrun
    by_cases hdead : b.ledger.refs k = 0
    · have hrun' := (rcRadixTreeStore_sound hsize).retain_absent h rfl hdead
      rw [show ((rcRadixTreeStore elementSize).retain tree k).run m = _ from hrun]
        at hrun'
      cases hrun'
      rw [Ledger.retain_dead hdead]
      exact h
    · obtain ⟨g, h⟩ := h
      obtain ⟨m₁, hrun', h'⟩ := h.run_retain hdead hlt
      obtain ⟨p, m₂, hretain, hpure⟩ := bind_cases hrun
      rw [hrun'] at hretain
      cases hretain
      cases hpure
      exact ⟨g, h'⟩
  released := by
    intro m m' tree b k r h hrun
    obtain ⟨g, h⟩ := h
    by_cases hdead : b.ledger.refs k = 0
    · have hrun' := h.run_release_absent hdead
      rw [show (cxRcRadixTreeRelease tree k).run m = _ from hrun] at hrun'
      cases hrun'
      rw [Ledger.release_dead hdead]
      exact ⟨g, h⟩
    · obtain ⟨t', m₁, g', hrun', -, h'⟩ := h.run_release hdead
      rw [show (cxRcRadixTreeRelease tree k).run m = _ from hrun] at hrun'
      cases hrun'
      exact ⟨g', h'⟩
  evicts := by
    intro m tree b k h
    obtain ⟨g, h⟩ := h
    refine ⟨fun _ => trivial, fun _ => ?_⟩
    by_cases hdead : b.ledger.refs k = 0
    · exact ⟨_, _, h.run_release_absent hdead⟩
    · obtain ⟨t', m', g', hrun, -, -⟩ := h.run_release hdead
      exact ⟨_, _, hrun⟩
  handle := by
    intro m m' tree b k r h hlive hlt hrun
    obtain ⟨g, h⟩ := h
    obtain ⟨m₁, hrun', -⟩ := h.run_retain hlive hlt
    obtain ⟨p, m₂, hretain, hpure⟩ := bind_cases hrun
    rw [hrun'] at hretain
    cases hretain
    cases hpure
    rfl
  routes := by
    refine ⟨_, rfl, ?_⟩
    intro m tree b k h hlive hlt
    obtain ⟨g, h⟩ := h
    obtain ⟨m', hkey, helement⟩ := h.run_routes hlive hlt
    refine ⟨(b.element k, tree), m', ?_, ?_⟩
    · show C.chain ((cxRcRadixTreeRetain tree k).run m) _ = _
      rw [hkey]
      rfl
    · show C.chain ((cxRcRadixTreeRetainValue tree (b.element k)).run m) _ = _
      rw [helement]
      rfl

end Stores

-- ============================================================== the hash map

/-- The caches of `size` entries that calls leave behind, whatever becomes of
the store and of memory between them. -/
inductive CxLru.Made {β : Type} (impl : CxLruBackendImpl β) (size : Nat) :
    CxLru β → Prop where
  | init {lru : CxLru β} {m m' : Machine} :
      (cxLruInit size impl).run m = .ok (0, lru) m' → Made impl size lru
  | touch {lru : CxLru β} {backend : β} {k : UInt64} {r : Int × CxLru β × β}
      {m m' : Machine} : Made impl size lru →
      (cxLruTouch lru backend k).run m = .ok r m' → Made impl size r.2.1
  | touchValue {lru : CxLru β} {backend : β} {k : UInt64} {p : Nat}
      {r : Int × CxLru β × β} {m m' : Machine} : Made impl size lru →
      (cxLruTouchValue lru backend k p).run m = .ok r m' → Made impl size r.2.1
  | cleanup {lru : CxLru β} {backend : β} {r : Int × CxLru β × β}
      {m m' : Machine} : Made impl size lru →
      (cxLruCleanup lru backend).run m = .ok r m' → Made impl size r.2.1

theorem CxLru.Made.queue {β : Type} {impl : CxLruBackendImpl β} {size : Nat}
    {lru : CxLru β} (h : CxLru.Made impl size lru) :
    lru.impl = impl ∧ Queue lru lru.queue := by
  induction h with
  | init hrun =>
      obtain ⟨himpl, w, hq⟩ := cxLruInit_returned hrun
      exact ⟨himpl, hq.self⟩
  | touch _ hrun ih =>
      obtain ⟨himpl, w, hq⟩ := ih.2.touch_returned hrun
      exact ⟨himpl.trans ih.1, hq.self⟩
  | touchValue _ hrun ih =>
      obtain ⟨himpl, w, hq⟩ := ih.2.touchValue_returned hrun
      exact ⟨himpl.trans ih.1, hq.self⟩
  | cleanup _ hrun ih =>
      obtain ⟨himpl, hq⟩ := cleanup_returned hrun
      exact ⟨himpl.trans ih.1, hq.self⟩

/-- The cache, over the store itself. -/
def CxLru.over {β γ : Type} (lru : CxLru β) (impl : CxLruBackendImpl γ) : CxLru γ :=
  ⟨impl, lru.items, lru.ringIndex, lru.size⟩

/-- The ring of a cache over a hash map is in order, whatever became of the
references. -/
theorem HashLruClient.Run.queue {size elementSize lruSize : Nat} {mem : Mem}
    {oracle : Nat → Nat} {s : HashLruClient} {m : Machine}
    (h : HashLruClient.Run size elementSize lruSize mem oracle s m) :
    Queue s.lru s.lru.queue := by
  apply h.invariant_returned fun s _ => Queue s.lru s.lru.queue
  · intro s m hrun hu
    obtain ⟨⟨rv, map⟩, m₁, -, hrest⟩ := bind_cases hrun
    obtain ⟨_, m₂, -, hinit⟩ := bind_cases hrest
    refine C.Granted.of_run (Q := fun s _ => Queue s.lru s.lru.queue) ?_ hinit hu
    refine granted_bind (cxLruInit_granted m₂ lruSize cxLruRcHashMapBooked) ?_
    rintro ⟨rv', lru⟩ m₃ ⟨hrv, -, hqueue, -⟩
    exact granted_bind_run (run_assert hrv) (granted_pure hqueue.self)
  · intro s m op s' m' hq hop hrun hu
    cases op with
    | put k v =>
        obtain ⟨⟨p, map⟩, m₁, -, hpure⟩ := bind_cases hrun
        cases hpure
        exact hq
    | retain k =>
        obtain ⟨⟨p, map⟩, m₁, -, hpure⟩ := bind_cases hrun
        dsimp only at hpure
        split at hpure <;> (cases hpure; exact hq)
    | release p =>
        obtain ⟨⟨rv, map⟩, m₁, -, hpure⟩ := bind_cases hrun
        cases hpure
        exact hq
    | touch k =>
        obtain ⟨⟨rv, lru, map, book⟩, m₁, htouch, hpure⟩ := bind_cases hrun
        cases hpure
        obtain ⟨-, w', hq'⟩ := hq.touch_returned htouch
        exact hq'.self
    | cleanup =>
        obtain ⟨⟨rv, lru, map, book⟩, m₁, hcleanup, hpure⟩ := bind_cases hrun
        cases hpure
        exact (cleanup_returned hcleanup).2.self

-- ============================================================= the backends

/-- A release of the oldest entry comes back: the array's fails its assert
when the key has no references. -/
def LruBackend.Evicts (b : RcBook) (old : UInt64) : LruBackend → Prop
  | .rcMap _ => b.ledger.refs old ≠ 0
  | .rcRadixTree => True

/-- The pointers a user has been given for a live key: by the put that
stored the element, or by a retain. -/
def LruCaller.Handle (s : LruCaller S) (m : Machine) (k : UInt64) (p : Nat) :
    Prop :=
  p = s.book.element k ∨ ∃ backend m', (S.retain s.backend k).run m
    = .ok (p, backend) m'

theorem LruStore.Routed.caller_iff {Keeps : Machine → S.Backend → RcBook → Prop}
    {Evicts : RcBook → UInt64 → Prop} (hS : S.Routed Keeps Evicts) {size : Nat}
    {mem : Mem} {oracle : Nat → Nat} {s : LruCaller S} {m : Machine}
    {k : UInt64} {p : Nat} (h : LruCaller.Run S size mem oracle s m)
    (hlive : s.book.ledger.refs k ≠ 0)
    (hlt : s.book.ledger.refs k + 1 < S.bound) (hp : s.Handle m k p) :
    TouchAgrees s.lru s.backend k p m ↔ Idle s.lru.queue k
      ∨ ∀ old ∈ s.lru.queue.head?, old = emptyMarker ∨ Evicts s.book old := by
  have hinv := callerInv_run hS h
  have helement : p = s.book.element k := by
    rcases hp with heq | ⟨backend, m', hrun⟩
    · exact heq
    · exact hS.handle hinv.keeps hlive hlt hrun
  rw [helement]
  exact hS.agrees_iff hinv.impl hinv.queue hinv.keeps hlive hlt

/-- Over the array and the radix tree a touch by element does what a touch
by key does, if the eviction comes back; over the hash map, only if it
changes nothing. -/
theorem cxLruTouchValue_agrees_iff {elementSize lruSize : Nat} {mem : Mem}
    {oracle : Nat → Nat} (helem : 0 < elementSize)
    (hsize : 16 * (rcSize + elementSize) < 2 ^ 64) :
    (∀ (backend : LruBackend) (s : LruCaller (backend.store elementSize)) m k p,
      LruCaller.Run (backend.store elementSize) lruSize mem oracle s m →
      s.book.ledger.refs k ≠ 0 →
      s.book.ledger.refs k + 1 < (backend.store elementSize).bound →
      s.Handle m k p →
      (TouchAgrees s.lru s.backend k p m ↔ Idle s.lru.queue k
        ∨ ∀ old ∈ s.lru.queue.head?, old = emptyMarker
          ∨ backend.Evicts s.book old))
    ∧ (∀ (lru : CxLru CxRcHashMap) map m k p,
      lru.Made cxLruRcHashMap lruSize →
      (TouchAgrees lru map k p m ↔ Idle lru.queue k))
    ∧ ∀ slots (s : HashLruClient) m k p,
      HashLruClient.Run slots elementSize lruSize mem oracle s m →
      (TouchAgrees (s.lru.over cxLruRcHashMap) s.map k p m
        ↔ Idle s.lru.queue k) := by
  refine ⟨?_, ?_, ?_⟩
  · intro backend s m k p h hlive hlt hp
    cases backend with
    | rcMap n => exact (rcMapStore_routed helem).caller_iff h hlive hlt hp
    | rcRadixTree => exact (rcRadixTreeStore_routed hsize).caller_iff h hlive hlt hp
  · intro lru map m k p h
    obtain ⟨himpl, hq⟩ := h.queue
    have hmissing : lru.impl.retainValue = none := by
      rw [himpl]
      rfl
    exact agrees_missing_iff hq hmissing
  · intro slots s m k p h
    have hq := HashLruClient.Run.queue h
    have hover : Queue (s.lru.over cxLruRcHashMap) s.lru.queue :=
      ⟨hq.size, hq.cursor, rfl⟩
    exact agrees_missing_iff hover rfl

/-- A cache of two entries over three elements, full: the third is touched
by its element, which evicts the first. -/
theorem cxLruTouchValue_agrees_third : ∃ s m,
    LruCaller.Run (LruBackend.store 1 (.rcMap 3)) 2 (fun _ => 0)
        (fun t => 2 ^ 20 * (t + 1)) s m
      ∧ s.lru.queue = [0, 1] ∧ s.book.ledger.refs 2 ≠ 0
      ∧ TouchAgrees s.lru s.backend 2 (s.book.element 2) m := by
  obtain ⟨s, m, hrun, htest⟩ := reached_of_replayFrom
    (LruCaller.start (LruBackend.store 1 (.rcMap 3)) 2) LruCaller.exec
    (fun s _ op => op.Called s)
    (Machine.boot (fun _ => 0) fun t => 2 ^ 20 * (t + 1))
    [.put 0 [10], .put 1 [11], .put 2 [12], .touch 0, .touchValue 1]
    (fun x => decide (x.1.lru.queue = [0, 1] ∧ x.1.book.ledger.refs 2 ≠ 0
      ∧ x.1.book.ledger.refs 2 + 1 < 2 ^ 31 ∧ x.1.book.ledger.refs 0 ≠ 0))
    (by decide +kernel)
  obtain ⟨hqueue, hlive, hlt, hold⟩ := of_decide_eq_true htest
  have hagrees := (cxLruTouchValue_agrees_iff (by decide) (by decide)).1
    (.rcMap 3) s m 2 _ hrun hlive hlt (Or.inl rfl)
  refine ⟨s, m, hrun, hqueue, hlive, hagrees.mpr (Or.inr ?_)⟩
  rw [hqueue]
  intro old hhead
  cases hhead
  exact Or.inr hold

/-- The first touch of a cache over the hash map, by element: the key was
put, and the cache has an entry for it. -/
theorem cxLruTouchValue_hashMap_faults : ∃ s m p,
    HashLruClient.Run 1 1 1 (fun _ => 0) (fun t => 2 ^ 20 * (t + 1)) s m
      ∧ p ∈ s.book.ledger.live ∧ s.book.keyOf p = 1
      ∧ ¬ TouchAgrees (s.lru.over cxLruRcHashMap) s.map 1 p m := by
  obtain ⟨s, m, hrun, htest⟩ := reached_of_replayFrom
    (HashLruClient.start 1 1 1) HashLruClient.exec
    (fun s _ op => op.Allowed s)
    (Machine.boot (fun _ => 0) fun t => 2 ^ 20 * (t + 1))
    [.put 1 [11]]
    (fun x => decide ((x.1.book.ledger.live = [3145728]
      ∧ x.1.book.keyOf 3145728 = 1) ∧ ¬ Idle x.1.lru.queue 1))
    (by decide +kernel)
  obtain ⟨⟨hlive, hkey⟩, hidle⟩ := of_decide_eq_true htest
  have hq := HashLruClient.Run.queue hrun
  have hover : Queue (s.lru.over cxLruRcHashMap) s.lru.queue :=
    ⟨hq.size, hq.cursor, rfl⟩
  refine ⟨s, m, 3145728, hrun, ?_, hkey, fun hagrees => hidle ?_⟩
  · rw [hlive]
    exact List.mem_singleton_self _
  · exact (agrees_missing_iff hover rfl).mp hagrees

end Cextras.Collection
