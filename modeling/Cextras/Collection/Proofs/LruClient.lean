/-
An LRU cache and its users share a reference-counted store. The users
put, retain and release; touches and the cleanup make the cache take and
release references of its own. `LruStore` is what users and cache need of
a store, `LruStore.Sound` what the account below needs to know about it:
that every operation does to the store what it does to the ledger.

The account (`LruAccount`): a counter is what the users hold plus the
number of times the key is in the ring, and what the cache asked of the
store follows a fixed schedule. A reference taken by one touch is
released by the touch that comes `size` later, or by the cleanup.

`LruInv` carries it: the queue holds the last `size` of everything ever
entered, empty entries first.
-/
import Cextras.Lib.Run
import Cextras.Collection.Proofs.LruOps
import Cextras.Collection.Proofs.RcRadix

namespace Cextras.Collection

open Lib

/-- What the cache asks of its store. -/
inductive LruCall where
  | retain (key : UInt64)
  | retainValue (value : Nat)
  | release (key : UInt64)
  deriving DecidableEq

/-- The store's functions, with a record of the calls. -/
def CxLruBackendImpl.logged {β : Type} (impl : CxLruBackendImpl β) :
    CxLruBackendImpl (β × List LruCall) where
  retain := fun b k => do
    let (p, backend) ← impl.retain b.1 k
    pure (p, backend, b.2 ++ [.retain k])
  retainValue := impl.retainValue.map fun f b value => do
    let backend ← f b.1 value
    pure (backend, b.2 ++ [.retainValue value])
  release := fun b k => do
    let (rv, backend) ← impl.release b.1 k
    pure (rv, backend, b.2 ++ [.release k])

/-- A store users and a cache share. -/
structure LruStore where
  Backend : Type
  start : C Backend
  /-- the keys an element may have -/
  inRange : UInt64 → Bool
  /-- counters stay below -/
  bound : Nat
  elementSize : Nat
  put : Backend → UInt64 → List Byte → C (Nat × Backend)
  retain : Backend → UInt64 → C (Nat × Backend)
  /-- by key and element, whichever the store goes by -/
  release : Backend → UInt64 → Nat → C (Int × Backend)
  /-- a reader's view of the counter -/
  refCount : Backend → UInt64 → C Int
  impl : CxLruBackendImpl Backend

/-- Every operation does to the store what it does to the book. -/
structure LruStore.Sound (S : LruStore)
    (Keeps : Machine → S.Backend → RcBook → Prop) : Prop where
  start : ∀ mem oracle b m, S.start.run (Machine.boot mem oracle) = .ok b m →
    m.refused = false → Keeps m b ⟨.empty, fun _ => 0⟩
  calls : ∀ {m b bk}, Keeps m b bk → m.calls = bk.ledger.log
  /-- list-held storage is not the store's -/
  transfer : ∀ {m m' b bk}, Keeps m b bk → m'.mem = m.mem →
    m'.arena = m.arena → m'.calls = m.calls → Keeps m' b bk
  refCount : ∀ {m b bk k}, Keeps m b bk → S.inRange k →
    (S.refCount b k).run m = .ok (bk.ledger.refs k : Int) m
  put : ∀ {m b bk k v}, Keeps m b bk → S.inRange k → v.length = S.elementSize →
    bk.ledger.refs k + 1 < S.bound →
    (S.put b k v).Granted m fun r m' => Keeps m' r.2
      ⟨bk.ledger.put k v, Function.update bk.element k r.1⟩
  retain_absent : ∀ {m b bk k}, Keeps m b bk → S.inRange k →
    bk.ledger.refs k = 0 → (S.retain b k).run m = .ok (0, b) m
  retain : ∀ {m b bk k}, Keeps m b bk → bk.ledger.refs k ≠ 0 →
    bk.ledger.refs k + 1 < S.bound →
    (S.retain b k).Granted m fun r m' =>
      r.1 ≠ 0 ∧ Keeps m' r.2 { bk with ledger := bk.ledger.retain k }
  release : ∀ {m b bk k}, Keeps m b bk → bk.ledger.refs k ≠ 0 →
    (S.release b k (bk.element k)).Granted m fun r m' =>
      Keeps m' r.2 { bk with ledger := bk.ledger.release k }
  lruRetain : ∀ {m b bk k}, Keeps m b bk → bk.ledger.refs k ≠ 0 →
    bk.ledger.refs k + 1 < S.bound →
    (S.impl.retain b k).Granted m fun r m' =>
      Keeps m' r.2 { bk with ledger := bk.ledger.retain k }
  lruRetainValue : ∃ f, S.impl.retainValue = some f ∧
    ∀ {m b bk k}, Keeps m b bk → bk.ledger.refs k ≠ 0 →
      bk.ledger.refs k + 1 < S.bound →
      (f b (bk.element k)).Granted m fun b' m' =>
        Keeps m' b' { bk with ledger := bk.ledger.retain k }
  lruRelease : ∀ {m b bk k}, Keeps m b bk → bk.ledger.refs k ≠ 0 →
    (S.impl.release b k).Granted m fun r m' =>
      Keeps m' r.2 { bk with ledger := bk.ledger.release k }

-- ================================================================= client

/-- A touch that entered a key, and the reference it took. -/
structure LruTouch where
  key : UInt64
  take : LruCall

structure LruClient (S : LruStore) where
  lru : CxLru (S.Backend × List LruCall)
  backend : S.Backend
  /-- all references, the users' and the cache's -/
  book : RcBook
  /-- the users' references -/
  held : UInt64 → Nat
  /-- the touches that changed the ring, oldest first -/
  touches : List LruTouch
  /-- what the cache asked of the store, oldest first -/
  calls : List LruCall

inductive LruOp where
  | put (key : UInt64) (value : List Byte)
  | retain (key : UInt64)
  | release (key : UInt64)
  | touch (key : UInt64)
  | touchValue (key : UInt64)
  | cleanup

variable {S : LruStore}

/-- Users release what they hold, and touch keys that are live; counters
stay below their bound. -/
def LruOp.Allowed (s : LruClient S) : LruOp → Prop
  | .put k v => S.inRange k = true ∧ v.length = S.elementSize
      ∧ s.book.ledger.refs k + 1 < S.bound
  | .retain k => S.inRange k = true ∧ s.book.ledger.refs k + 1 < S.bound
  | .release k => s.held k ≠ 0
  | .touch k => s.book.ledger.refs k ≠ 0 ∧ k ≠ emptyMarker
      ∧ s.book.ledger.refs k + 1 < S.bound
  | .touchValue k => s.book.ledger.refs k ≠ 0 ∧ k ≠ emptyMarker
      ∧ s.book.ledger.refs k + 1 < S.bound
  | .cleanup => True

instance LruOp.decidableAllowed (s : LruClient S) :
    (op : LruOp) → Decidable (op.Allowed s)
  | .put _ _ => inferInstanceAs (Decidable (_ = true ∧ _ = _ ∧ _ < _))
  | .retain _ => inferInstanceAs (Decidable (_ = true ∧ _ < _))
  | .release k => inferInstanceAs (Decidable (s.held k ≠ 0))
  | .touch k => inferInstanceAs (Decidable (_ ∧ k ≠ emptyMarker ∧ _ < _))
  | .touchValue k => inferInstanceAs (Decidable (_ ∧ k ≠ emptyMarker ∧ _ < _))
  | .cleanup => inferInstanceAs (Decidable True)

/-- A call entered into the ledger; `key` is the key being touched, whose
element a `retain_value` is given. -/
def LruCall.enter (key : UInt64) (l : Ledger UInt64 (List Byte)) :
    LruCall → Ledger UInt64 (List Byte)
  | .retain k => l.retain k
  | .retainValue _ => l.retain key
  | .release k => l.release k

/-- The book after the cache called the store. -/
def RcBook.entered (bk : RcBook) (key : UInt64) (calls : List LruCall) :
    RcBook :=
  { bk with ledger := calls.foldl (LruCall.enter key) bk.ledger }

theorem RcBook.entered_concat (bk : RcBook) (key : UInt64)
    (calls : List LruCall) (call : LruCall) :
    (bk.entered key (calls ++ [call])).ledger
      = call.enter key (bk.entered key calls).ledger := by
  rw [entered, List.foldl_append]
  rfl

/-- The client after the cache called the store. -/
def LruClient.entered (s : LruClient S) (key : UInt64)
    (lru : CxLru (S.Backend × List LruCall)) (backend : S.Backend)
    (calls : List LruCall) : LruClient S :=
  { s with
    lru := lru
    backend := backend
    calls := calls
    book := s.book.entered key (calls.drop s.calls.length) }

/-- The client after a touch; it is on record if the ring changed. -/
def LruClient.touched (s : LruClient S) (t : LruTouch)
    (lru : CxLru (S.Backend × List LruCall)) (backend : S.Backend)
    (calls : List LruCall) : LruClient S :=
  { s.entered t.key lru backend calls with
    touches := if lru.cells = s.lru.cells then s.touches else s.touches ++ [t] }

def LruClient.start (S : LruStore) (size : Nat) : C (LruClient S) := do
  let backend ← S.start
  let (rv, lru) ← cxLruInit size S.impl.logged
  C.assert (rv = 0)
  pure ⟨lru, backend, ⟨.empty, fun _ => 0⟩, fun _ => 0, [], []⟩

def LruClient.exec : LruOp → LruClient S → C (LruClient S)
  | .put k v, s => do
      let (p, backend) ← S.put s.backend k v
      pure { s with
        backend := backend
        book := ⟨s.book.ledger.put k v, Function.update s.book.element k p⟩
        held := Function.update s.held k (s.held k + 1) }
  | .retain k, s => do
      let (p, backend) ← S.retain s.backend k
      if p = 0 then
        pure { s with backend := backend }
      else
        pure { s with
          backend := backend
          book := { s.book with ledger := s.book.ledger.retain k }
          held := Function.update s.held k (s.held k + 1) }
  | .release k, s => do
      let (_, backend) ← S.release s.backend k (s.book.element k)
      pure { s with
        backend := backend
        book := { s.book with ledger := s.book.ledger.release k }
        held := Function.update s.held k (s.held k - 1) }
  | .touch k, s => do
      let (_, lru, backend, calls) ← cxLruTouch s.lru (s.backend, s.calls) k
      pure (s.touched ⟨k, .retain k⟩ lru backend calls)
  | .touchValue k, s => do
      let value := s.book.element k
      let (_, lru, backend, calls) ←
        cxLruTouchValue s.lru (s.backend, s.calls) k value
      pure (s.touched ⟨k, .retainValue value⟩ lru backend calls)
  | .cleanup, s => do
      let (_, lru, backend, calls) ← cxLruCleanup s.lru (s.backend, s.calls)
      pure (s.entered 0 lru backend calls)

/-- The states of runs over a store, with a cache of `size` entries. -/
abbrev LruClient.Run (S : LruStore) (size : Nat) (mem : Mem)
    (oracle : Nat → Nat) : LruClient S → Machine → Prop :=
  Reached (LruClient.start S size) LruClient.exec
    (fun s _ op => op.Allowed s) (Machine.boot mem oracle)

-- =============================================================== counting

/-- How often a key is in the ring; empty entries are no key's. -/
def occurrences (w : List UInt64) (k : UInt64) : Nat :=
  if k = emptyMarker then 0 else w.count k

section Counting

variable {w w' : List UInt64} {k old : UInt64}

theorem occurrences_perm (h : w.Perm w') : occurrences w k = occurrences w' k := by
  unfold occurrences
  rw [h.count_eq]

theorem occurrences_replicate {n : Nat} :
    occurrences (List.replicate n emptyMarker) k = 0 := by
  unfold occurrences
  split
  case isTrue => rfl
  case isFalse hk =>
    exact List.count_eq_zero.mpr fun h => hk (List.eq_of_mem_replicate h)

theorem occurrences_cons : occurrences (old :: w) k
    = occurrences w k + if k = old ∧ old ≠ emptyMarker then 1 else 0 := by
  unfold occurrences
  by_cases hk : k = emptyMarker
  · have hnot : ¬ (k = old ∧ old ≠ emptyMarker) := fun h => h.2 (h.1 ▸ hk)
    rw [if_pos hk, if_pos hk, if_neg hnot]
  · rw [if_neg hk, if_neg hk, List.count_cons]
    by_cases ho : k = old
    · rw [if_pos (by simp [ho]), if_pos ⟨ho, ho ▸ hk⟩]
    · have hne : ¬ (old == k) = true := by simpa using Ne.symm ho
      rw [if_neg hne, if_neg (fun h => ho h.1)]

theorem occurrences_concat : occurrences (w ++ [old]) k
    = occurrences w k + if k = old ∧ old ≠ emptyMarker then 1 else 0 := by
  rw [← occurrences_cons]
  exact occurrences_perm (List.perm_append_singleton old w)

end Counting

/-- The store keeps the book, and its counters are what the users hold
plus what the queue holds. -/
structure Accounted (Keeps : Machine → S.Backend → RcBook → Prop) (m : Machine)
    (b : S.Backend) (bk : RcBook) (held : UInt64 → Nat) (w : List UInt64) :
    Prop where
  keeps : Keeps m b bk
  refs : ∀ k, bk.ledger.refs k = held k + occurrences w k

section Calls

variable {Keeps : Machine → S.Backend → RcBook → Prop} {m : Machine}
  {b : S.Backend} {bk : RcBook} {held : UInt64 → Nat} {w : List UInt64}
  {k old : UInt64} {lru : CxLru (S.Backend × List LruCall)}
  {log : List LruCall}

/-- The call that makes room for a key. -/
def evictCalls (old : UInt64) : List LruCall :=
  if old = emptyMarker then [] else [.release old]

/-- The oldest entry is released. -/
theorem releaseItem_granted (hS : S.Sound Keeps)
    (himpl : lru.impl = S.impl.logged)
    (h : Accounted Keeps m b bk held (old :: w)) (key : UInt64) :
    (releaseItem lru (b, log) old).Granted m fun r m' => ∃ b',
      r = (b', log ++ evictCalls old)
        ∧ Accounted Keeps m' b' (bk.entered key (evictCalls old)) held w := by
  unfold releaseItem evictCalls
  by_cases ho : old = emptyMarker
  · rw [if_neg (not_not.mpr ho), if_pos ho, List.append_nil]
    refine granted_pure ⟨b, rfl, h.keeps, ?_⟩
    intro k
    have hrefs := h.refs k
    rw [occurrences_cons, if_neg (fun hk => hk.2 ho)] at hrefs
    exact hrefs
  · have hlive : bk.ledger.refs old ≠ 0 := by
      rw [h.refs, occurrences_cons, if_pos ⟨rfl, ho⟩]
      omega
    rw [if_pos ho, if_neg ho, himpl]
    have hrel := hS.lruRelease h.keeps hlive
    refine granted_bind (granted_bind hrel fun r m' hk => granted_pure
      (Q := fun (r : Int × S.Backend × List LruCall) m' =>
        r.2.2 = log ++ [.release old]
          ∧ Keeps m' r.2.1 { bk with ledger := bk.ledger.release old })
      ⟨rfl, hk⟩) ?_
    rintro ⟨rv, b', log'⟩ m' ⟨hlog, hk⟩
    refine granted_pure ⟨b', by rw [← hlog], hk, ?_⟩
    intro k
    show (bk.ledger.release old).refs k = held k + occurrences w k
    have hrefs := h.refs k
    rw [occurrences_cons] at hrefs
    rw [Ledger.refs_release hlive]
    by_cases hko : k = old
    · rw [if_pos ⟨hko, ho⟩] at hrefs
      rw [if_pos hko, ← hko]
      omega
    · rw [if_neg (fun hk => hko hk.1)] at hrefs
      rw [if_neg hko, hrefs, Nat.add_zero]

/-- All entries are released. -/
theorem releaseAll_granted (hS : S.Sound Keeps)
    (himpl : lru.impl = S.impl.logged) (key : UInt64) (keys : List UInt64) :
    ∀ {m b bk log}, Accounted Keeps m b bk held keys →
      (releaseAll lru keys (b, log)).Granted m fun r m' => ∃ b',
        r = (b', log ++ keys.flatMap evictCalls)
          ∧ Accounted Keeps m' b' (bk.entered key (keys.flatMap evictCalls))
            held [] := by
  induction keys with
  | nil =>
      intro m b bk log h
      exact granted_pure ⟨b, by simp, h⟩
  | cons old keys ih =>
      intro m b bk log h
      rw [releaseAll]
      refine granted_bind (releaseItem_granted hS himpl h key) ?_
      rintro _ m₁ ⟨b₁, rfl, h₁⟩
      refine (ih h₁).imp ?_
      rintro _ m₂ ⟨b₂, rfl, h₂⟩
      refine ⟨b₂, ?_, ?_⟩
      · rw [List.flatMap_cons, List.append_assoc]
      · rw [List.flatMap_cons, RcBook.entered, List.foldl_append]
        exact h₂

/-- What a touch does to cache, queue and log. -/
inductive TouchEffect (lru : CxLru (S.Backend × List LruCall))
    (w : List UInt64) (t : LruTouch) :
    CxLru (S.Backend × List LruCall) → List UInt64 → List LruCall → Prop where
  | idle : Idle w t.key → TouchEffect lru w t lru w []
  | entered (old : UInt64) (rest : List UInt64) : w = old :: rest →
      ¬ Idle w t.key → TouchEffect lru w t (Queue.next lru t.key)
        (rest ++ [t.key]) (evictCalls old ++ [t.take])

/-- What a touch of a key at neither end of the ring comes to: the key is
entered in place of the oldest. -/
def Enters (s : LruClient S) (t : LruTouch) (s' : LruClient S) : Prop :=
  ¬ Idle s.lru.queue t.key → s'.lru.queue = s.lru.queue.tail ++ [t.key]
    ∧ s'.touches = s.touches ++ [t]

theorem TouchEffect.enters {s : LruClient S} {t : LruTouch}
    {lru' : CxLru (S.Backend × List LruCall)} {w' : List UInt64}
    {calls : List LruCall} (h : TouchEffect s.lru w t lru' w' calls)
    (hq : Queue s.lru w) (b' : S.Backend) (log' : List LruCall) :
    Enters s t (s.touched t lru' b' log') := by
  intro hnot
  rw [show s.lru.queue = w from hq.window] at hnot ⊢
  cases h with
  | idle hidle => exact absurd hidle hnot
  | entered old rest hw hidle =>
      subst hw
      obtain ⟨_, _, heq, hne⟩ := cons_of_not_idle hidle
      cases heq
      exact ⟨hq.next_queue.window, if_neg (hq.cells_next_ne hne.symm)⟩

/-- A touch, given how it takes its reference. -/
theorem touch_granted (hS : S.Sound Keeps) (himpl : lru.impl = S.impl.logged)
    (hq : Queue lru w) (h : Accounted Keeps m b bk held w) {t : LruTouch}
    {x : C (Int × CxLru (S.Backend × List LruCall) × S.Backend × List LruCall)}
    (takeRef : S.Backend × List LruCall → C (S.Backend × List LruCall))
    (hidle : Idle w t.key → x.run m = .ok (0, lru, b, log) m)
    (henter : ∀ old rest, w = old :: rest → ¬ Idle w t.key → x.run m = (do
      let backend ← releaseItem lru (b, log) old
      let backend ← takeRef backend
      pure ((0 : Int), Queue.next lru t.key, backend)).run m)
    (htake : ∀ m b log l, Keeps m b { bk with ledger := l } → l.refs t.key ≠ 0 →
      l.refs t.key + 1 < S.bound →
      (takeRef (b, log)).Granted m fun r m' => ∃ b', r = (b', log ++ [t.take])
        ∧ Keeps m' b' { bk with ledger := l.retain t.key })
    (hcall : ∀ l, t.take.enter t.key l = l.retain t.key)
    (hlive : bk.ledger.refs t.key ≠ 0) (hkey : t.key ≠ emptyMarker)
    (hlt : bk.ledger.refs t.key + 1 < S.bound) :
    x.Granted m fun r m' => ∃ lru' w' calls b', TouchEffect lru w t lru' w' calls
      ∧ r = (0, lru', b', log ++ calls)
      ∧ Accounted Keeps m' b' (bk.entered t.key calls) held w' := by
  by_cases hi : Idle w t.key
  · exact granted_of_run (hidle hi)
      ⟨lru, w, [], b, .idle hi, by rw [List.append_nil], h⟩
  · cases hw : w with
    | nil => exact absurd (Or.inl hw) hi
    | cons old rest =>
        subst hw
        have hne : t.key ≠ old := fun heq => hi (Or.inr (Or.inl (by rw [heq]; rfl)))
        refine C.Granted.of_run_eq ?_ (henter old rest rfl hi)
        refine granted_bind (releaseItem_granted hS himpl h t.key) ?_
        rintro _ m₁ ⟨b₁, rfl, h₁⟩
        -- the key is not the one that went
        have hsame : (bk.entered t.key (evictCalls old)).ledger.refs t.key
            = bk.ledger.refs t.key := by
          rw [h₁.refs, h.refs, occurrences_cons, if_neg (fun hk => hne hk.1)]
          rfl
        have hlive₁ :
            (bk.entered t.key (evictCalls old)).ledger.refs t.key ≠ 0 := by
          rwa [hsame]
        refine granted_bind (htake m₁ b₁ _
          (bk.entered t.key (evictCalls old)).ledger h₁.keeps hlive₁
          (by rwa [hsame])) ?_
        rintro _ m₂ ⟨b₂, rfl, hk₂⟩
        have hledger := bk.entered_concat t.key (evictCalls old) t.take
        rw [hcall] at hledger
        refine granted_pure ⟨_, _, _, b₂, .entered old rest rfl hi,
          by rw [List.append_assoc], ?_, ?_⟩
        · rw [← hledger] at hk₂
          exact hk₂
        · intro k
          rw [hledger, Ledger.refs_retain hlive₁, occurrences_concat]
          have hrefs := h₁.refs k
          by_cases hk : k = t.key
          · rw [hk] at hrefs ⊢
            rw [if_pos rfl, if_pos ⟨rfl, hkey⟩, hrefs, Nat.add_assoc]
          · rw [if_neg hk, if_neg (fun h => hk h.1), Nat.add_zero, hrefs]

theorem cxLruTouch_granted (hS : S.Sound Keeps)
    (himpl : lru.impl = S.impl.logged) (hq : Queue lru w)
    (h : Accounted Keeps m b bk held w) (hlive : bk.ledger.refs k ≠ 0)
    (hkey : k ≠ emptyMarker) (hlt : bk.ledger.refs k + 1 < S.bound) :
    (cxLruTouch lru (b, log) k).Granted m fun r m' => ∃ lru' w' calls b',
      TouchEffect lru w ⟨k, .retain k⟩ lru' w' calls
        ∧ r = (0, lru', b', log ++ calls)
        ∧ Accounted Keeps m' b' (bk.entered k calls) held w' := by
  refine touch_granted hS himpl hq h (t := ⟨k, .retain k⟩) (fun b => do
    let (_, backend) ← S.impl.logged.retain b k
    pure backend) hq.run_cxLruTouch_idle ?_ ?_ (fun _ => rfl) hlive hkey hlt
  · intro old rest hw hidle
    subst hw
    rw [hq.run_cxLruTouch hidle, himpl]
    apply run_bind_congr
    intro b' m'
    rw [C.run_bind, C.run_bind, C.run_bind]
    cases (S.impl.logged.retain b' k).run m' with
    | fault e m'' => rfl
    | ok r m'' => rfl
  · intro m b log l hk hlive hlt
    refine granted_bind (granted_bind (hS.lruRetain hk hlive hlt)
      fun r m' hk' => granted_pure
        (Q := fun (r : Nat × S.Backend × List LruCall) m' =>
          r.2.2 = log ++ [.retain k]
            ∧ Keeps m' r.2.1 { bk with ledger := l.retain k }) ⟨rfl, hk'⟩) ?_
    rintro ⟨p, b', log'⟩ m' ⟨hlog, hk'⟩
    exact granted_pure ⟨b', by rw [← hlog], hk'⟩

theorem cxLruTouchValue_granted (hS : S.Sound Keeps)
    (himpl : lru.impl = S.impl.logged) (hq : Queue lru w)
    (h : Accounted Keeps m b bk held w) (hlive : bk.ledger.refs k ≠ 0)
    (hkey : k ≠ emptyMarker) (hlt : bk.ledger.refs k + 1 < S.bound) :
    (cxLruTouchValue lru (b, log) k (bk.element k)).Granted m fun r m' =>
      ∃ lru' w' calls b',
        TouchEffect lru w ⟨k, .retainValue (bk.element k)⟩ lru' w' calls
          ∧ r = (0, lru', b', log ++ calls)
          ∧ Accounted Keeps m' b' (bk.entered k calls) held w' := by
  obtain ⟨f, hf, hretain⟩ := hS.lruRetainValue
  refine touch_granted hS himpl hq h (t := ⟨k, .retainValue (bk.element k)⟩)
    (fun b => do
      let backend ← f b.1 (bk.element k)
      pure (backend, b.2 ++ [.retainValue (bk.element k)])) ?_ ?_ ?_
    (fun _ => rfl) hlive hkey hlt
  · exact fun hidle => hq.run_cxLruTouchValue_idle hidle _
  · intro old rest hw hidle
    subst hw
    rw [hq.run_cxLruTouchValue hidle, himpl, CxLruBackendImpl.logged]
    simp only [hf, Option.map_some]
  · intro m b log l hk hlive hlt
    have hvalue := hretain hk hlive hlt
    refine granted_bind hvalue ?_
    intro b' m' hk'
    exact granted_pure ⟨b', rfl, hk'⟩

end Calls

end Cextras.Collection
