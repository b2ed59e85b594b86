/-
Recency: is the key that was touched last still in the cache after one
more touch of another key? A touch enters its key at the new end of the
queue, unless the key is at one of the ends already. At the new end that
is as good; at the old end it is not: the key stays the next one to go.
`cxLruTouch_recency` says that this is the one way to lose it, provided
that the ring has no other entry of the key and that the second key is not
at the new end, where its touch changes nothing.
-/
import Cextras.Lib.Inert
import Cextras.Collection.Proofs.LruStores

namespace Cextras.Collection

open Lib

-- ================================================================== queues

/-- The queue after a touch of the key. -/
def touchedQueue (w : List UInt64) (k : UInt64) : List UInt64 :=
  if Idle w k then w else w.tail ++ [k]

section Queues

variable {w : List UInt64} {k k' : UInt64}

theorem touchedQueue_idle (h : Idle w k) : touchedQueue w k = w := if_pos h

theorem touchedQueue_enters (h : ¬ Idle w k) :
    touchedQueue w k = w.tail ++ [k] := if_neg h

/-- The newest of several entries is not the oldest. -/
theorem mem_tail_of_getLast? (hlen : 2 ≤ w.length) (h : w.getLast? = some k) :
    k ∈ w.tail := by
  cases w with
  | nil => cases h
  | cons a w =>
      cases w with
      | nil => simp at hlen
      | cons b w =>
          rw [List.getLast?_cons_cons] at h
          exact List.mem_of_getLast? h

/-- An idle touch keeps the key where it is, and one that is not puts it
where the next touch does not reach. -/
theorem mem_touchedQueue (hlen : 2 ≤ w.length) :
    k ∈ (touchedQueue w k).tail ∨ (w.head? = some k ∧ k ∉ w.tail) := by
  by_cases hidle : Idle w k
  · rw [touchedQueue_idle hidle]
    by_cases htail : k ∈ w.tail
    · exact Or.inl htail
    · rcases hidle with hnil | hhead | hlast
      · simp [hnil] at hlen
      · exact Or.inr ⟨hhead, htail⟩
      · exact absurd (mem_tail_of_getLast? hlen hlast) htail
  · left
    have hne : w.tail ≠ [] := by
      intro hnil
      have hzero := congrArg List.length hnil
      rw [List.length_tail, List.length_nil] at hzero
      omega
    rw [touchedQueue_enters hidle, List.tail_append_of_ne_nil hne]
    exact List.mem_append_right _ (List.mem_singleton_self k)

/-- After touches of two keys the first one is gone only if it was the
oldest entry, had no other, and the second one was not the newest. -/
theorem mem_touchedQueue_twice (hlen : 2 ≤ w.length) (hne : k ≠ k') :
    k ∈ touchedQueue (touchedQueue w k) k'
      ↔ ¬ (w.head? = some k ∧ k ∉ w.tail ∧ w.getLast? ≠ some k') := by
  by_cases hold : w.head? = some k ∧ k ∉ w.tail
  · obtain ⟨hhead, htail⟩ := hold
    rw [touchedQueue_idle (Or.inr (Or.inl hhead))]
    have hmem : k ∈ w := List.mem_of_head? hhead
    by_cases hlast : w.getLast? = some k'
    · rw [touchedQueue_idle (Or.inr (Or.inr hlast))]
      simp [hmem, hlast]
    · have hidle : ¬ Idle w k' := by
        intro hidle
        rcases hidle with hnil | hhead' | hlast'
        · simp [hnil] at hlen
        · exact hne (Option.some.inj (hhead.symm.trans hhead'))
        · exact hlast hlast'
      rw [touchedQueue_enters hidle]
      simp [hhead, htail, hlast, hne]
  · have htail := (mem_touchedQueue hlen).resolve_right hold
    have hstays : k ∈ touchedQueue (touchedQueue w k) k' := by
      by_cases hidle : Idle (touchedQueue w k) k'
      · rw [touchedQueue_idle hidle]
        exact List.mem_of_mem_tail htail
      · rw [touchedQueue_enters hidle]
        exact List.mem_append_left _ htail
    refine iff_of_true hstays fun h => hold ⟨h.1, h.2.1⟩

/-- Other keys do not come in. -/
theorem occurrences_touchedQueue_le (hne : k' ≠ k) :
    occurrences (touchedQueue w k) k' ≤ occurrences w k' := by
  by_cases hidle : Idle w k
  · rw [touchedQueue_idle hidle]
  · rw [touchedQueue_enters hidle, occurrences_concat,
      if_neg (fun h => hne h.1), Nat.add_zero]
    unfold occurrences
    split
    case isTrue => exact le_rfl
    case isFalse => exact (List.tail_sublist w).count_le k'

end Queues

-- =================================================================== rings

/-- The oldest entry of the ring is the only one of `k`, and the newest is
not one of `k'`. -/
def CxLru.Exposed {β : Type} (lru : CxLru β) (k k' : UInt64) : Prop :=
  lru.cells[(lru.ringIndex + 1) % lru.size]? = some k
    ∧ lru.cells.count k = 1 ∧ lru.cells[lru.ringIndex]? ≠ some k'

instance CxLru.decidableExposed {β : Type} (lru : CxLru β) (k k' : UInt64) :
    Decidable (lru.Exposed k k') := inferInstanceAs (Decidable (_ ∧ _ ∧ _))

theorem Queue.exposed_iff {β : Type} {lru : CxLru β} {w : List UInt64}
    {k k' : UInt64} (h : Queue lru w) (hsize : 2 ≤ lru.size) :
    lru.Exposed k k'
      ↔ w.head? = some k ∧ k ∉ w.tail ∧ w.getLast? ≠ some k' := by
  have hne : lru.cells ≠ [] := by
    intro hnil
    have hzero := h.size
    rw [hnil, List.length_nil] at hzero
    omega
  have hcursor : lru.ringIndex < lru.cells.length := by
    rw [← h.size]
    exact h.cursor (by omega)
  unfold CxLru.Exposed
  rw [h.size, ← window_head hne, ← window_last hcursor, h.window,
    ← h.perm.count_eq]
  refine and_congr_right fun hhead => and_congr_left' ?_
  obtain ⟨rest, rfl⟩ := List.head?_eq_some_iff.mp hhead
  rw [List.count_cons_self, List.tail_cons, ← List.count_eq_zero]
  omega

-- ==================================================================== runs

/-- The states of runs of any calls at all: of keys that are not live, of
references nobody holds, and whatever the allocator turned down. -/
abbrev LruClient.AnyRun (S : LruStore) (size : Nat) (mem : Mem)
    (oracle : Nat → Nat) : LruClient S → Machine → Prop :=
  Steps (LruClient.start S size) LruClient.exec (fun _ _ _ => True)
    (Machine.boot mem oracle)

section Runs

variable {β : Type} {lru : CxLru β} {w : List UInt64}

theorem cxLruInit_ensures (size : Nat) (impl : CxLruBackendImpl β) :
    (cxLruInit size impl).Ensures fun r => r.1 = 0 → ∃ w, Queue r.2 w := by
  unfold cxLruInit
  by_cases hsize : size = 0
  · subst hsize
    rw [if_pos rfl]
    exact .pure fun _ => ⟨_, rfl, fun h0 => absurd rfl h0, rfl⟩
  · rw [if_neg hsize]
    apply C.Ensures.after
    intro storage
    cases storage with
    | none => exact .pure fun h0 => absurd h0 (by decide : -cxErrAlloc ≠ 0)
    | some storage =>
        refine .pure fun _ => ⟨_, ?_, ?_, rfl⟩
        · exact List.length_replicate.symm
        · exact fun _ => Nat.pos_of_ne_zero hsize

theorem tryTouch_ensures (h : Queue lru w) (b : β) (k : UInt64) :
    (tryTouch lru b k).Ensures fun r => Queue r.2.1 (touchedQueue w k) := by
  by_cases hidle : Idle w k
  · refine .of_run_eq (fun m => h.run_tryTouch_idle hidle) (.pure ?_)
    rw [touchedQueue_idle hidle]
    exact h
  · obtain ⟨old, w, rfl, -⟩ := cons_of_not_idle hidle
    refine .of_run_eq (fun m => h.run_tryTouch hidle) (.after fun b => .pure ?_)
    rw [touchedQueue_enters hidle]
    exact h.next_queue

/-- Whatever the backend answers. -/
theorem cxLruTouch_ensures (h : Queue lru w) (b : β) (k : UInt64) :
    (cxLruTouch lru b k).Ensures fun r => Queue r.2.1 (touchedQueue w k) := by
  unfold cxLruTouch
  apply (tryTouch_ensures h b k).bind
  intro r hr
  exact .ite (.after fun _ => .pure hr) (.pure hr)

theorem cxLruTouchValue_ensures (h : Queue lru w) (b : β) (k : UInt64)
    (value : Nat) :
    (cxLruTouchValue lru b k value).Ensures fun r =>
      Queue r.2.1 (touchedQueue w k) := by
  unfold cxLruTouchValue
  apply (tryTouch_ensures h b k).bind
  intro r hr
  refine .ite ?_ (.pure hr)
  cases r.2.1.impl.retainValue with
  | none => exact .fail
  | some retainValue => exact .after fun _ => .pure hr

theorem cxLruCleanup_ensures (lru : CxLru β) (b : β) :
    (cxLruCleanup lru b).Ensures fun r => Queue r.2.1 [] := by
  unfold cxLruCleanup
  refine .after fun b => .after fun _ => .pure ⟨rfl, ?_, rfl⟩
  exact fun h0 => absurd rfl h0

/-- No operation takes the ring apart, allowed or not. -/
theorem queue_exec {S : LruStore} {s : LruClient S} (h : Queue s.lru w)
    (op : LruOp) :
    (LruClient.exec op s).Ensures fun s' => ∃ w', Queue s'.lru w' := by
  cases op with
  | put k v => exact .after fun r => .pure ⟨w, h⟩
  | retain k => exact .after fun r => .ite (.pure ⟨w, h⟩) (.pure ⟨w, h⟩)
  | release k => exact .after fun r => .pure ⟨w, h⟩
  | touch k => exact (cxLruTouch_ensures h _ k).bind fun r hr => .pure ⟨_, hr⟩
  | touchValue k =>
      exact (cxLruTouchValue_ensures h _ k _).bind fun r hr => .pure ⟨_, hr⟩
  | cleanup => exact (cxLruCleanup_ensures _ _).bind fun r hr => .pure ⟨_, hr⟩

theorem queue_run {S : LruStore} {size : Nat} {mem : Mem} {oracle : Nat → Nat}
    {s : LruClient S} {m : Machine} (h : LruClient.AnyRun S size mem oracle s m) :
    ∃ w, Queue s.lru w := by
  apply h.invariant fun s _ => ∃ w, Queue s.lru w
  · intro s m hrun
    have hstart : (LruClient.start S size).Ensures fun s => ∃ w, Queue s.lru w := by
      refine .after fun backend => (cxLruInit_ensures _ _).bind fun r hr => ?_
      exact (C.Ensures.assert _).bind fun _ hrv => .pure (hr hrv)
    exact hstart.result _ _ _ hrun
  · intro s m op s' m' hinv _ hrun
    obtain ⟨w, hq⟩ := hinv
    exact (queue_exec hq op).result _ _ _ hrun

end Runs

-- ================================================================= touches

section Touches

variable {S : LruStore} {Keeps : Machine → S.Backend → RcBook → Prop}
  {m : Machine} {b : S.Backend} {bk : RcBook} {held : UInt64 → Nat}
  {w : List UInt64} {k k' : UInt64} {lru : CxLru (S.Backend × List LruCall)}
  {log : List LruCall}

/-- What a touch does to the queue. -/
theorem TouchEffect.queue {t : LruTouch}
    {lru' : CxLru (S.Backend × List LruCall)} {w' : List UInt64}
    {calls : List LruCall} (heffect : TouchEffect lru w t lru' w' calls)
    (hq : Queue lru w) (himpl : lru.impl = S.impl.logged) :
    w' = touchedQueue w t.key ∧ Queue lru' w' ∧ lru'.impl = S.impl.logged := by
  cases heffect with
  | idle hidle => exact ⟨(touchedQueue_idle hidle).symm, hq, himpl⟩
  | entered old rest hw hidle =>
      subst hw
      exact ⟨(touchedQueue_enters hidle).symm, hq.next_queue, himpl⟩

/-- A touch of a key that need not be live any more. -/
theorem cxLruTouch_returns (hS : S.Sound Keeps)
    (hretain : S.impl.retain = S.retain) (himpl : lru.impl = S.impl.logged)
    (hq : Queue lru w) (h : Accounted Keeps m b bk held w) (hin : S.inRange k)
    (hkey : k ≠ emptyMarker) (hlt : bk.ledger.refs k + 1 < S.bound) :
    (cxLruTouch lru (b, log) k).Granted m fun _ _ => True := by
  by_cases hlive : bk.ledger.refs k = 0
  · by_cases hidle : Idle w k
    · exact granted_of_run (hq.run_cxLruTouch_idle hidle) trivial
    · cases hw : w with
      | nil => exact absurd (Or.inl hw) hidle
      | cons old rest =>
          subst hw
          refine C.Granted.of_run_eq ?_ (hq.run_cxLruTouch hidle)
          refine granted_bind (releaseItem_granted hS himpl h k) ?_
          intro r m₁ hr
          obtain ⟨b₁, rfl, h₁⟩ := hr
          -- what the cache released was another key
          have hdead : (bk.entered k (evictCalls old)).ledger.refs k = 0 := by
            have hrefs := h.refs k
            rw [hlive, occurrences_cons] at hrefs
            rw [h₁.refs]
            omega
          have hcall : (S.impl.logged.retain (b₁, log ++ evictCalls old) k).run m₁
              = .ok (0, b₁, log ++ evictCalls old ++ [.retain k]) m₁ := by
            show (S.impl.retain b₁ k >>= _).run m₁ = _
            rw [C.run_bind, hretain, hS.retain_absent h₁.keeps hin hdead,
              C.chain_ok, C.run_pure]
          rw [himpl]
          exact granted_bind_run hcall (granted_pure trivial)
  · exact (cxLruTouch_granted hS himpl hq h hlive hkey hlt).imp
      fun _ _ _ => trivial

/-- Two touches, one after the other. -/
def LruClient.touchTwice (s : LruClient S) (k k' : UInt64) : C (LruClient S) := do
  let s ← LruClient.exec (.touch k) s
  LruClient.exec (.touch k') s

/-- Neither touch fails, when users do as they should. -/
theorem touchTwice_returns {size : Nat} {s : LruClient S} (hS : S.Sound Keeps)
    (hretain : S.impl.retain = S.retain)
    (hrange : ∀ {m b bk k}, Keeps m b bk → bk.ledger.refs k ≠ 0 → S.inRange k)
    (h : LruInv Keeps size s m w) (hne : k ≠ k')
    (hk : (LruOp.touch k).Allowed s) (hk' : (LruOp.touch k').Allowed s) :
    (s.touchTwice k k').Granted m fun _ _ => True := by
  obtain ⟨hlive, hkey, hlt⟩ := hk
  obtain ⟨hlive', hkey', hlt'⟩ := hk'
  have hfirst : (LruClient.exec (.touch k) s).Granted m fun s' m' =>
      ∃ bk, Queue s'.lru (touchedQueue w k) ∧ s'.lru.impl = S.impl.logged
        ∧ Accounted Keeps m' s'.backend bk s.held (touchedQueue w k) := by
    refine granted_bind (cxLruTouch_granted hS h.impl h.queue h.account hlive
      hkey hlt) ?_
    intro r m' hr
    obtain ⟨lru', w', calls, b', heffect, rfl, haccount⟩ := hr
    obtain ⟨rfl, hq', himpl'⟩ := heffect.queue h.queue h.impl
    exact granted_pure ⟨_, hq', himpl', haccount⟩
  refine granted_bind hfirst ?_
  intro s' m' hs'
  obtain ⟨bk, hq, himpl, haccount⟩ := hs'
  have hroom : bk.ledger.refs k' + 1 < S.bound := by
    have hle := occurrences_touchedQueue_le (w := w) (Ne.symm hne)
    have hrefs := h.account.refs k'
    rw [haccount.refs]
    omega
  refine granted_bind (cxLruTouch_returns hS hretain himpl hq haccount
    (hrange h.account.keeps hlive') hkey' hroom) ?_
  exact fun _ _ _ => granted_pure trivial

/-- The key is in the ring after both, if it was not exposed. -/
theorem touchTwice_ensures {s : LruClient S} (h : Queue s.lru w)
    (hsize : 2 ≤ s.lru.size) (hne : k ≠ k') :
    (s.touchTwice k k').Ensures fun s' =>
      k ∈ s'.lru.cells ↔ ¬ s.lru.Exposed k k' := by
  have hlen : 2 ≤ w.length := h.length ▸ hsize
  have htouch : ∀ {s : LruClient S} {w} (k : UInt64), Queue s.lru w →
      (LruClient.exec (.touch k) s).Ensures fun s' =>
        Queue s'.lru (touchedQueue w k) := by
    intro s w k hq
    exact (cxLruTouch_ensures hq _ k).bind fun r hr => .pure hr
  apply (htouch k h).bind
  intro s₁ h₁
  apply (htouch k' h₁).imp
  intro s₂ h₂
  rw [← h₂.perm.mem_iff, h.exposed_iff hsize]
  exact mem_touchedQueue_twice hlen hne

end Touches

/-- Over both backends, in every state of every run of any calls: after a
touch of one key and a touch of another, the first is in the ring exactly
if it was not exposed. Where users do as they should both touches
return. -/
theorem cxLruTouch_recency (backend : LruBackend) {elementSize size : Nat}
    {mem : Mem} {oracle : Nat → Nat}
    {s : LruClient (backend.store elementSize)} {m : Machine} {k k' : UInt64}
    (h : LruClient.AnyRun (backend.store elementSize) size mem oracle s m)
    (hsize : 2 ≤ s.lru.size) (hne : k ≠ k') :
    ((s.touchTwice k k').Ensures fun s' =>
      k ∈ s'.lru.cells ↔ ¬ s.lru.Exposed k k')
    ∧ (backend.Fits elementSize →
      LruClient.Run (backend.store elementSize) size mem oracle s m →
      (LruOp.touch k).Allowed s → (LruOp.touch k').Allowed s →
      (s.touchTwice k k').Granted m fun _ _ => True) := by
  constructor
  · obtain ⟨w, hq⟩ := queue_run h
    exact touchTwice_ensures hq hsize hne
  · intro hfits hrun hk hk'
    cases backend with
    | rcMap n =>
        obtain ⟨w, hinv⟩ := lruInv_run (rcMapStore_sound hfits) hrun
        refine touchTwice_returns (rcMapStore_sound hfits) rfl ?_ hinv hne hk hk'
        intro m b bk k hkeeps hlive
        obtain ⟨data, storage, -, hkeeps⟩ := hkeeps
        exact decide_eq_true (hkeeps.range k hlive)
    | rcRadixTree =>
        have hS := rcRadixTreeStore_sound hfits
        obtain ⟨w, hinv⟩ := lruInv_run hS hrun
        exact touchTwice_returns hS rfl (fun _ _ => rfl) hinv hne hk hk'

/-- A full cache of two entries: a third key is entered, and the touch of
the older one of the two does not reach it. -/
theorem cxLruTouch_recency_entered : ∃ s m,
    LruClient.Run (LruBackend.store 1 (.rcMap 3)) 2 (fun _ => 0)
        (fun t => 2 ^ 20 * (t + 1)) s m
      ∧ s.lru.cells = [1, 0]
      ∧ ((s.touchTwice 2 1).Ensures fun s' => 2 ∈ s'.lru.cells)
      ∧ (s.touchTwice 2 1).Granted m fun _ _ => True := by
  obtain ⟨s, m, hrun, htest⟩ := reached_of_replayFrom
    (LruClient.start (LruBackend.store 1 (.rcMap 3)) 2) LruClient.exec
    (fun s _ op => op.Allowed s)
    (Machine.boot (fun _ => 0) fun t => 2 ^ 20 * (t + 1))
    [.put 0 [10], .put 1 [11], .put 2 [12], .touch 0, .touch 1]
    (fun x => decide (x.1.lru.cells = [1, 0] ∧ 2 ≤ x.1.lru.size
      ∧ (LruOp.touch 2).Allowed x.1 ∧ (LruOp.touch 1).Allowed x.1
      ∧ ¬ x.1.lru.Exposed 2 1))
    (by decide +kernel)
  obtain ⟨hcells, hsize, hk, hk', hnot⟩ := of_decide_eq_true htest
  obtain ⟨hstays, hreturns⟩ := cxLruTouch_recency (.rcMap 3)
    (hrun.steps fun _ _ _ _ => trivial) hsize (by decide : (2 : UInt64) ≠ 1)
  refine ⟨s, m, hrun, hcells, ⟨fun m₁ s₁ m₂ h => ?_⟩,
    hreturns Nat.one_pos hrun hk hk'⟩
  exact (hstays.result m₁ s₁ m₂ h).mpr hnot

/-- Key 0 is the older one of two entries. It is touched, and goes with the
next touch of another key. -/
theorem cxLruTouch_forgets : ∃ s m s' m',
    LruClient.Run (LruBackend.store 1 (.rcMap 3)) 2 (fun _ => 0)
        (fun t => 2 ^ 20 * (t + 1)) s m
      ∧ 2 ≤ s.lru.size ∧ (LruOp.touch 0).Allowed s ∧ (LruOp.touch 2).Allowed s
      ∧ (s.touchTwice 0 2).run m = .ok s' m' ∧ 0 ∉ s'.lru.cells := by
  obtain ⟨s, m, hrun, htest⟩ := reached_of_replayFrom
    (LruClient.start (LruBackend.store 1 (.rcMap 3)) 2) LruClient.exec
    (fun s _ op => op.Allowed s)
    (Machine.boot (fun _ => 0) fun t => 2 ^ 20 * (t + 1))
    [.put 0 [10], .put 1 [11], .put 2 [12], .touch 0, .touch 1]
    (fun x => decide (2 ≤ x.1.lru.size ∧ (LruOp.touch 0).Allowed x.1
      ∧ (LruOp.touch 2).Allowed x.1)
      && ((x.1.touchTwice 0 2).run x.2).value.any
        fun s' : LruClient _ => decide (0 ∉ s'.lru.cells))
    (by decide +kernel)
  rw [Bool.and_eq_true] at htest
  obtain ⟨hallowed, hgone⟩ := htest
  obtain ⟨hsize, hk, hk'⟩ := of_decide_eq_true hallowed
  cases htwice : (s.touchTwice 0 2).run m with
  | fault e m' =>
      rw [htwice] at hgone
      cases hgone
  | ok s' m' =>
      rw [htwice] at hgone
      exact ⟨s, m, s', m', hrun, hsize, hk, hk', htwice, of_decide_eq_true hgone⟩

end Cextras.Collection
