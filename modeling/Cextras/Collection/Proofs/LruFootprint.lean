/-
What a cache and its store own: the store what its operations left it, the
cache the storage of its ring. The cache never frees what the store owns,
and hands every reference it took back when it is cleaned up, so that once
the users have given back theirs the cleanup of the store goes through, all
memory is back, and every value put was cleaned up exactly once, whatever
was touched and evicted in between (`cxLru_teardown`).
-/
import Cextras.Collection.Proofs.LruStores
import Cextras.Collection.Proofs.RadixFootprint
import Cextras.Collection.Proofs.RcMapFootprint

namespace Cextras.Collection

open Lib

-- ================================================================== cache

section Cache

variable {β : Type} {impl : CxLruBackendImpl β} {lru : CxLru β} {backend : β}
  {f : Footprint}

/-- The functions of a backend keep track of what it owns. -/
structure CxLruBackendImpl.Owned (impl : CxLruBackendImpl β)
    (own : β → Footprint → Prop) : Prop where
  retain : ∀ {b f} (k : UInt64), own b f →
    (impl.retain b k).Turns True f fun r g => own r.2 g
  retainValue : ∀ {fn}, impl.retainValue = some fn → ∀ {b f} (value : Nat),
    own b f → (fn b value).Turns True f own
  release : ∀ {b f} (k : UInt64), own b f →
    (impl.release b k).Turns True f fun r g => own r.2 g

def CxLru.footprint (lru : CxLru β) : Footprint :=
  .storage (lru.items.map CArray.storage)

/-- The same ring storage, reached through the same functions. -/
structure CxLru.Same (lru lru' : CxLru β) : Prop where
  footprint : lru'.footprint = lru.footprint
  impl : lru'.impl = lru.impl
  size : lru'.size = lru.size
  unset : lru'.items = none ↔ lru.items = none

theorem CxLru.same_setItem (i ringIndex : Nat) (key : UInt64) :
    lru.Same { lru.setItem i key with ringIndex := ringIndex } := by
  unfold setItem
  refine ⟨?_, rfl, rfl, ?_⟩
  · unfold footprint
    cases lru.items with
    | none => rfl
    | some items => rfl
  · simp

theorem itemAt_still (i : Nat) : (itemAt lru i).Still := by
  unfold itemAt
  cases lru.items with
  | none => exact .fail _
  | some items => exact (C.Stays.cell _ _).still

variable {own : β → Footprint → Prop}

theorem releaseItem_turns (h : lru.impl.Owned own) (hown : own backend f)
    (key : UInt64) : (releaseItem lru backend key).Turns True f own := by
  unfold releaseItem
  refine turns_ite (fun _ => ?_) fun _ => turns_pure hown
  refine turns_bind (h.release key hown) ?_
  exact fun r g hr => turns_pure hr

theorem tryTouch_turns (h : lru.impl.Owned own) (hown : own backend f)
    (key : UInt64) :
    (tryTouch lru backend key).Turns True f
      fun r g => lru.Same r.2.1 ∧ own r.2.2 g := by
  have hsame : lru.Same lru := ⟨rfl, rfl, rfl, Iff.rfl⟩
  unfold tryTouch
  refine turns_ite (fun _ => turns_pure ⟨hsame, hown⟩) fun _ => ?_
  refine turns_after (itemAt_still _) fun lastKey _ => ?_
  refine turns_after (itemAt_still _) fun oldKey _ => ?_
  refine turns_ite (fun _ => turns_pure ⟨hsame, hown⟩) fun _ => ?_
  refine turns_bind (releaseItem_turns h hown oldKey) ?_
  exact fun b g hb => turns_pure ⟨CxLru.same_setItem _ _ _, hb⟩

theorem cxLruTouch_turns (h : lru.impl.Owned own) (hown : own backend f)
    (key : UInt64) :
    (cxLruTouch lru backend key).Turns True f
      fun r g => lru.Same r.2.1 ∧ own r.2.2 g := by
  unfold cxLruTouch
  refine turns_bind (tryTouch_turns h hown key) ?_
  intro r g hr
  obtain ⟨entered, lru', backend'⟩ := r
  obtain ⟨hsame, hown'⟩ := hr
  refine turns_ite (fun _ => ?_) fun _ => turns_pure ⟨hsame, hown'⟩
  dsimp only at hsame hown' ⊢
  rw [← hsame.impl] at h
  refine turns_bind (h.retain key hown') ?_
  exact fun r g' hr => turns_pure ⟨hsame, hr⟩

theorem cxLruTouchValue_turns (h : lru.impl.Owned own) (hown : own backend f)
    (key : UInt64) (value : Nat) :
    (cxLruTouchValue lru backend key value).Turns True f
      fun r g => lru.Same r.2.1 ∧ own r.2.2 g := by
  unfold cxLruTouchValue
  refine turns_bind (tryTouch_turns h hown key) ?_
  intro r g hr
  obtain ⟨entered, lru', backend'⟩ := r
  obtain ⟨hsame, hown'⟩ := hr
  refine turns_ite (fun _ => ?_) fun _ => turns_pure ⟨hsame, hown'⟩
  dsimp only at hsame hown' ⊢
  rw [← hsame.impl] at h
  cases hfn : lru'.impl.retainValue with
  | none => exact turns_fail _
  | some fn =>
      refine turns_bind (h.retainValue hfn value hown') ?_
      exact fun b g' hb => turns_pure ⟨hsame, hb⟩

theorem releaseItems_turns (h : lru.impl.Owned own) (backend : β)
    (f : Footprint) (hown : own backend f) (i : Nat) :
    (releaseItems lru backend i).Turns True f own := by
  rw [releaseItems]
  split
  · refine turns_after (itemAt_still _) fun key _ => ?_
    refine turns_bind (releaseItem_turns h hown key) ?_
    exact fun b g hb => releaseItems_turns h b g hb (i + 1)
  · exact turns_pure hown
termination_by lru.size - i

theorem cxLruInit_turns (size : Nat) (impl : CxLruBackendImpl β) :
    (cxLruInit size impl).Turns True f fun r g => g = f + r.2.footprint
      ∧ r.2.impl = impl ∧ (r.2.size = 0 → r.2.items = none) := by
  unfold cxLruInit
  refine turns_ite (fun _ => ?_) fun hsize => ?_
  · exact turns_pure ⟨(add_zero f).symm, rfl, fun _ => rfl⟩
  · refine turns_bind turns_allocArray ?_
    intro s g hr
    rcases hr with ⟨hG, -⟩ | ⟨storage, rfl, rfl⟩
    · exact absurd trivial hG
    · exact turns_pure ⟨rfl, rfl, fun h0 => absurd h0 hsize⟩

/-- The cleanup gives the ring back. -/
theorem cxLruCleanup_turns (h : lru.impl.Owned own) (hown : own backend f) :
    (cxLruCleanup lru backend).Turns True (lru.footprint + f) fun r g =>
      own r.2.2 g ∧ r.2.1.items = none ∧ r.2.1.impl = lru.impl := by
  unfold cxLruCleanup
  refine turns_bind (turns_part (S := fun b g => ∃ fb, own b fb
    ∧ g = fb + lru.footprint) lru.footprint
    (releaseItems_turns h backend f hown 0)
    fun b g hb => ⟨g, hb, add_comm _ _⟩) ?_
  intro b g hr
  obtain ⟨fb, hb, rfl⟩ := hr
  refine turns_bind turns_freeArray ?_
  rintro _ g rfl
  exact turns_pure ⟨hb, rfl, rfl⟩

end Cache

-- ================================================================= client

section Client

variable {S : LruStore} {own : S.Backend → Footprint → Prop}
  {s : LruClient S} {f : Footprint}

/-- The operations of users and cache keep track of what a store owns. -/
structure LruStore.Owned (S : LruStore)
    (own : S.Backend → Footprint → Prop) : Prop where
  start : S.start.Turns True 0 own
  put : ∀ {b f} (k : UInt64) (v : List Byte), own b f →
    (S.put b k v).Turns True f fun r g => own r.2 g
  retain : ∀ {b f} (k : UInt64), own b f →
    (S.retain b k).Turns True f fun r g => own r.2 g
  release : ∀ {b f} (k : UInt64) (element : Nat), own b f →
    (S.release b k element).Turns True f fun r g => own r.2 g
  impl : S.impl.Owned own

/-- A record of the calls takes no memory. -/
theorem CxLruBackendImpl.Owned.logged {impl : CxLruBackendImpl S.Backend}
    (h : impl.Owned own) : impl.logged.Owned fun b f => own b.1 f := by
  refine ⟨fun k hb => ?_, fun {fn} hfn b f value hb => ?_, fun k hb => ?_⟩
  · refine turns_bind (h.retain k hb) ?_
    exact fun r g hr => turns_pure hr
  · obtain ⟨fn', hfn', rfl⟩ := Option.map_eq_some_iff.mp hfn
    refine turns_bind (h.retainValue hfn' value hb) ?_
    exact fun b g hb => turns_pure hb
  · refine turns_bind (h.release k hb) ?_
    exact fun r g hr => turns_pure hr

structure LruClient.Owns (own : S.Backend → Footprint → Prop) (s : LruClient S)
    (f : Footprint) : Prop where
  impl : s.lru.impl = S.impl.logged
  unset : s.lru.size = 0 → s.lru.items = none
  owns : ∃ fb, own s.backend fb ∧ f = s.lru.footprint + fb

theorem LruClient.start_turns (hS : S.Owned own) (size : Nat) :
    (LruClient.start S size).Turns True 0 (LruClient.Owns own) := by
  unfold LruClient.start
  refine turns_bind hS.start fun b fb hb => ?_
  refine turns_bind (cxLruInit_turns size S.impl.logged) ?_
  intro r g hr
  obtain ⟨rv, lru⟩ := r
  obtain ⟨rfl, himpl, hunset⟩ := hr
  refine turns_after (.assert _) fun _ _ => ?_
  exact turns_pure ⟨himpl, hunset, fb, hb, add_comm _ _⟩

/-- What a touch leaves. -/
theorem LruClient.Owns.touched (h : s.Owns own f) {t : LruTouch}
    {x : C (Int × CxLru (S.Backend × List LruCall) × S.Backend × List LruCall)}
    (hx : ∀ fb, own s.backend fb → x.Turns True fb fun r g =>
      s.lru.Same r.2.1 ∧ own r.2.2.1 g) :
    (do
      let (_, lru, backend, calls) ← x
      pure (s.touched t lru backend calls)).Turns True f (LruClient.Owns own) := by
  obtain ⟨himpl, hunset, fb, hb, rfl⟩ := h
  refine turns_bind (turns_part s.lru.footprint (hx fb hb)
    (S := fun r g => s.lru.Same r.2.1 ∧ ∃ g', own r.2.2.1 g'
      ∧ g = s.lru.footprint + g') fun r g hr => ⟨hr.1, g, hr.2, rfl⟩) ?_
  intro r g hr
  obtain ⟨rv, lru, backend, calls⟩ := r
  obtain ⟨hsame, g', hb', rfl⟩ := hr
  refine turns_pure ⟨hsame.impl.trans himpl, fun h0 => ?_, g', hb', ?_⟩
  · exact hsame.unset.mpr (hunset (hsame.size.symm.trans h0))
  · exact congrArg (· + g') hsame.footprint.symm

/-- What an operation of a user leaves. -/
theorem LruClient.Owns.used (h : s.Owns own f) {α : Type}
    {x : C (α × S.Backend)} {k : α × S.Backend → C (LruClient S)}
    (hx : ∀ fb, own s.backend fb → x.Turns True fb fun r g => own r.2 g)
    (hk : ∀ r f, LruClient.Owns own { s with backend := r.2 } f →
      (k r).Turns True f (LruClient.Owns own)) :
    (x >>= k).Turns True f (LruClient.Owns own) := by
  obtain ⟨himpl, hunset, fb, hb, rfl⟩ := h
  refine turns_bind (turns_part s.lru.footprint (hx fb hb)
    (S := fun r g => ∃ g', own r.2 g' ∧ g = s.lru.footprint + g')
    fun r g hr => ⟨g, hr, rfl⟩) ?_
  intro r g hr
  obtain ⟨g', hb', rfl⟩ := hr
  exact hk r _ ⟨himpl, hunset, g', hb', rfl⟩

theorem LruClient.exec_turns (hS : S.Owned own) (h : s.Owns own f)
    (op : LruOp) :
    (LruClient.exec op s).Turns True f (LruClient.Owns own) := by
  have himpl : s.lru.impl.Owned fun b f => own b.1 f := by
    rw [h.impl]
    exact hS.impl.logged
  cases op with
  | put k v =>
      refine h.used (fun fb hb => hS.put k v hb) fun r g hr => ?_
      exact turns_pure ⟨hr.impl, hr.unset, hr.owns⟩
  | retain k =>
      refine h.used (fun fb hb => hS.retain k hb) fun r g hr => ?_
      exact turns_ite (fun _ => turns_pure hr)
        fun _ => turns_pure ⟨hr.impl, hr.unset, hr.owns⟩
  | release k =>
      refine h.used (fun fb hb => hS.release k _ hb) fun r g hr => ?_
      exact turns_pure ⟨hr.impl, hr.unset, hr.owns⟩
  | touch k =>
      exact h.touched fun fb hb => cxLruTouch_turns himpl hb k
  | touchValue k =>
      exact h.touched fun fb hb => cxLruTouchValue_turns himpl hb k _
  | cleanup =>
      obtain ⟨hlogged, -, fb, hb, rfl⟩ := h
      refine turns_bind (cxLruCleanup_turns himpl hb) ?_
      intro r g hr
      obtain ⟨rv, lru, backend, calls⟩ := r
      obtain ⟨hb', hitems, himpl'⟩ := hr
      refine turns_pure ⟨himpl'.trans hlogged, fun _ => hitems, g, hb', ?_⟩
      show g = Footprint.storage (lru.items.map CArray.storage) + g
      rw [show lru.items = none from hitems, Option.map_none,
        Footprint.storage_none, zero_add]

/-- No user and no cache holds anything any more. -/
theorem LruInv.unheld {Keeps : Machine → S.Backend → RcBook → Prop}
    {size : Nat} {m : Machine} {w : List UInt64} (h : LruInv Keeps size s m w)
    (hsize : s.lru.size = 0) (hheld : ∀ k, s.held k = 0) (k : UInt64) :
    s.book.ledger.refs k = 0 := by
  have hcells : s.lru.cells = [] := by
    rw [h.queue.size] at hsize
    exact List.length_eq_zero_iff.mp hsize
  have hw : w = [] := by
    have hperm := h.queue.perm
    rw [hcells] at hperm
    exact List.perm_nil.mp hperm
  rw [h.account.refs, hheld, hw, Nat.zero_add]
  exact occurrences_replicate (n := 0)

/-- Once nothing is held, the store goes. -/
theorem LruClient.returned {Keeps : Machine → S.Backend → RcBook → Prop}
    (hS : S.Sound Keeps) (hO : S.Owned own) {size : Nat} {mem : Mem}
    {oracle : Nat → Nat} {m : Machine} {cleanup : S.Backend → C Int}
    (hfrees : ∀ {m b bk f}, Keeps m b bk → own b f →
      (∀ k, bk.ledger.refs k = 0) → (cleanup b).Frees f)
    (hzero : ∀ b, (cleanup b).Ensures fun rv => rv = 0)
    (h : LruClient.Run S size mem oracle s m) (hsize : s.lru.size = 0)
    (hheld : ∀ k, s.held k = 0) :
    Returned (cleanup s.backend) m s.book.ledger.values := by
  obtain ⟨w, hinv⟩ := lruInv_run hS h
  obtain ⟨ht, f, hown, hf⟩ := h.held (LruClient.Owns own)
    (Machine.tidy_boot _ _) (LruClient.start_turns hO size)
    fun s m op f hown _ => LruClient.exec_turns hO hown op
  obtain ⟨-, hunset, fb, hb, rfl⟩ := hown
  have hnone := hinv.unheld hsize hheld
  have hkeeps := hinv.account.keeps
  refine (hfrees hkeeps hb hnone).returned ht ?_ ?_ (hzero s.backend)
  · -- the ring is gone
    rw [hf, Machine.held_boot, zero_add, CxLru.footprint, hunset hsize,
      Option.map_none, Footprint.storage_none, zero_add]
  · rw [hS.calls hkeeps]
    exact Ledger.log_perm_values hnone

end Client

-- ================================================================ stores

theorem newRcMap_turns {size elementSize : Nat}
    (hpos : 0 < size * elementSize) :
    (newRcMap size elementSize).Turns True 0
      fun array g => g = array.footprint := by
  unfold newRcMap
  refine turns_bind (cxRcMapInit_turns hpos) ?_
  intro r g hr
  obtain ⟨array, rfl, rfl⟩ := hr
  exact turns_after (.assert _) fun _ _ => turns_pure (zero_add _)

theorem rcMapStore_owned {size elementSize : Nat}
    (hpos : 0 < size * elementSize) :
    (rcMapStore size elementSize).Owned
      fun (array : CxRcMap) f => f = array.footprint where
  start := newRcMap_turns hpos
  put k v hf := (cxRcMapSet_kept _ v).turns fun r hr => hf.trans hr.symm
  retain k hf := (cxRcMapRetain_kept _).turns fun r hr => hf.trans hr.symm
  release k element hf :=
    (cxRcMapRelease_kept element).turns fun r hr => hf.trans hr.symm
  impl := by
    refine ⟨fun k hf => ?_, fun {fn} hfn array f value hf => ?_, fun k hf => ?_⟩
    · exact (cxRcMapRetain_kept _).turns fun r hr => hf.trans hr.symm
    · cases hfn
      refine turns_after (elementIndex_still value) fun index _ => ?_
      refine turns_after (cxRcMapRetain_kept index) fun r hr => ?_
      exact turns_pure (hf.trans hr.symm)
    · exact (cxRcMapReleaseIndex_kept _).turns fun r hr => hf.trans hr.symm

theorem rcRadixTreeStore_owned {elementSize : Nat}
    (hsize : 16 * (rcSize + elementSize) < 2 ^ 64) :
    (rcRadixTreeStore elementSize).Owned RcTreeOwns where
  start := cxRcRadixTreeInit_turns hsize
  put k v hf := cxRcRadixTreePut_turns hf k v
  retain k hf :=
    turns_after (cxRcRadixTreeRetain_still _ k) fun _ _ => turns_pure hf
  release k _ hf := cxRcRadixTreeRelease_turns hf k
  impl := by
    refine ⟨fun k hf => ?_, fun {fn} hfn tree f value hf => ?_, fun k hf => ?_⟩
    · exact turns_after (cxRcRadixTreeRetain_still _ k)
        fun _ _ => turns_pure hf
    · cases hfn
      exact turns_after (incrementRc_still _) fun _ _ => turns_pure hf
    · exact cxRcRadixTreeRelease_turns hf k

/-- The cleanup of a backend. -/
def LruBackend.cleanup (elementSize : Nat) :
    (backend : LruBackend) → (backend.store elementSize).Backend → C Int
  | .rcMap _ => fun (array : CxRcMap) => do
      let (rv, _) ← cxRcMapCleanup array
      pure rv
  | .rcRadixTree => cxRcRadixTreeCleanup

section RcMap

variable {size elementSize : Nat} {m : Machine} {array : CxRcMap}
  {b : RcBook}

/-- An array nothing is held in goes. -/
theorem RcMapHolds.cleanup_frees (h : RcMapHolds size elementSize m array b)
    (hnone : ∀ k, b.ledger.refs k = 0) :
    (LruBackend.cleanup elementSize (.rcMap size) array).Frees
      array.footprint := by
  obtain ⟨data, storage, rfl, -⟩ := h
  have hzero : ∀ count ∈ ((List.range size).map fun i =>
      (b.ledger.refs (UInt64.ofNat i) : Int)).take size, count = 0 := by
    intro count hcount
    obtain ⟨i, -, rfl⟩ := List.mem_map.mp (List.mem_of_mem_take hcount)
    rw [hnone]
    rfl
  have hfrees : (cxRcMapCleanup (tallied size elementSize data storage
      b.ledger)).Frees _ := cxRcMapCleanup_frees rfl hzero
  have hlast := frees_bind hfrees fun r => frees_pure r.1
  rwa [zero_add] at hlast

theorem rcMapCleanup_zero :
    (LruBackend.cleanup elementSize (.rcMap size) array).Ensures
      fun rv => rv = 0 := by
  have hclean : (cxRcMapCleanup array).Ensures fun r => r.1 = 0 := by
    unfold cxRcMapCleanup
    cases array.refCount with
    | none => exact .after fun _ => .after fun _ => .pure rfl
    | some counts =>
        exact .after fun _ => .after fun _ => .after fun _ => .pure rfl
  exact hclean.bind fun r hr => .pure hr

end RcMap

/-- A cache that was cleaned up, or has no entries, leaves the store to its
users: when they hold nothing, the store goes, with every value that was put
cleaned up once. -/
theorem cxLru_teardown (backend : LruBackend) {elementSize size : Nat}
    {mem : Mem} {oracle : Nat → Nat} {s : LruClient (backend.store elementSize)}
    {m : Machine} (hfits : backend.Fits elementSize)
    (hsome : ∀ n, backend = .rcMap n → 0 < n)
    (h : LruClient.Run (backend.store elementSize) size mem oracle s m)
    (hsize : s.lru.size = 0) (hheld : ∀ k, s.held k = 0) :
    Returned (backend.cleanup elementSize s.backend) m s.book.ledger.values := by
  cases backend with
  | rcMap n =>
      refine LruClient.returned (rcMapStore_sound hfits)
        (rcMapStore_owned (Nat.mul_pos (hsome n rfl) hfits)) ?_
        (fun _ => rcMapCleanup_zero) h hsize hheld
      intro m array bk f hholds hf hnone
      exact hf ▸ RcMapHolds.cleanup_frees hholds hnone
  | rcRadixTree =>
      refine LruClient.returned (rcRadixTreeStore_sound hfits)
        (rcRadixTreeStore_owned hfits) ?_
        (fun _ => cxRcRadixTreeCleanup_zero) h hsize hheld
      exact fun _ hown _ => cxRcRadixTreeCleanup_frees hown

/-- A cache of two entries over three elements, one of which it evicts; it is
cleaned up while it still keeps two, and then the array. -/
theorem cxLru_teardown_evicts : ∃ s m,
    LruClient.Run (LruBackend.store 1 (.rcMap 3)) 2 (fun _ => 0)
        (fun t => 2 ^ 20 * (t + 1)) s m
      ∧ s.touches.length = 3 ∧ m.arena.blocks.length = 1
      ∧ Returned (LruBackend.cleanup 1 (.rcMap 3) s.backend) m
        [[10], [11], [12]] := by
  obtain ⟨s, m, hrun, htest⟩ := reached_of_replayFrom
    (LruClient.start (LruBackend.store 1 (.rcMap 3)) 2) LruClient.exec
    (fun s _ op => op.Allowed s)
    (Machine.boot (fun _ => 0) fun t => 2 ^ 20 * (t + 1))
    [.put 0 [10], .put 1 [11], .put 2 [12], .touch 0, .touchValue 1,
      .release 0, .touch 2, .release 1, .release 2, .cleanup]
    (fun x => decide (x.1.touches.length = 3 ∧ x.2.arena.blocks.length = 1
      ∧ x.1.lru.size = 0 ∧ x.1.book.ledger.live = []
      ∧ x.1.book.ledger.values = [[10], [11], [12]]))
    (by decide +kernel)
  obtain ⟨htouches, hblocks, hsize, hlive, hvalues⟩ := of_decide_eq_true htest
  refine ⟨s, m, hrun, htouches, hblocks, ?_⟩
  rw [← hvalues]
  refine cxLru_teardown (.rcMap 3) Nat.one_pos (fun n hn => ?_) hrun hsize ?_
  · cases hn
    exact Nat.succ_pos _
  · -- what is held is live
    intro k
    obtain ⟨w, hinv⟩ := lruInv_run (rcMapStore_sound Nat.one_pos) hrun
    have hrefs := hinv.account.refs k
    rw [Ledger.refs_eq_zero_of_live hlive] at hrefs
    omega

end Cextras.Collection
