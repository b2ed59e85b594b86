/-
The account of an LRU cache over a sound store, in every state of every
run. `callsAt` says what the `i`-th touch asks of the store: the release
of the key entered `size` touches before, then a reference of its own.
-/
import Cextras.Collection.Proofs.LruClient

namespace Cextras.Collection

open Lib

-- ============================================================== schedule

/-- What the `i`-th touch asks of the store. -/
def callsAt (size : Nat) (touches : List LruTouch) (i : Nat) : List LruCall :=
  (if size ≤ i then
    (touches[i - size]?).toList.map fun t => .release t.key else [])
    ++ (touches[i]?).toList.map LruTouch.take

/-- What all touches ask of the store. -/
def schedule (size : Nat) (touches : List LruTouch) : List LruCall :=
  (List.range touches.length).flatMap (callsAt size touches)

/-- The releases of the entries a cache of `size` has left. -/
def leftovers (size : Nat) (touches : List LruTouch) : List LruCall :=
  (touches.drop (touches.length - size)).map fun t => .release t.key

/-- The keys ever in the ring: empty entries, then those touched. -/
def history (size : Nat) (touches : List LruTouch) : List UInt64 :=
  List.replicate size emptyMarker ++ touches.map LruTouch.key

section Schedule

variable {size : Nat} {ts : List LruTouch} {t : LruTouch} {old : UInt64}
  {w : List UInt64}

/-- Later touches do not change what earlier ones asked for. -/
theorem callsAt_concat {i : Nat} (h : i < ts.length) :
    callsAt size (ts ++ [t]) i = callsAt size ts i := by
  unfold callsAt
  have hsub : i - size < ts.length := by omega
  rw [List.getElem?_append_left h, List.getElem?_append_left hsub]

/-- A key that leaves the queue has been in it for `size` touches. -/
theorem evictCalls_eq (hkeys : ∀ t ∈ ts, t.key ≠ emptyMarker)
    (hw : (history size ts).drop ts.length = old :: w) :
    evictCalls old = if size ≤ ts.length then
      (ts[ts.length - size]?).toList.map fun t => .release t.key else [] := by
  have hold : (history size ts)[ts.length]? = some old := by
    rw [← List.head?_drop, hw]
    rfl
  unfold history at hold
  unfold evictCalls
  by_cases hlt : ts.length < size
  · rw [List.getElem?_append_left (by simpa using hlt),
      List.getElem?_replicate_of_lt hlt, Option.some.injEq] at hold
    rw [if_pos hold.symm, if_neg (Nat.not_le.mpr hlt)]
  · rw [List.getElem?_append_right (by simpa using hlt), List.length_replicate,
      List.getElem?_map] at hold
    rw [if_pos (Nat.not_lt.mp hlt)]
    cases hget : ts[ts.length - size]? with
    | none =>
        rw [hget] at hold
        cases hold
    | some t =>
        rw [hget, Option.map_some, Option.some.injEq] at hold
        have hne := hkeys t (List.mem_of_getElem? hget)
        rw [← hold, if_neg hne]
        rfl

/-- The calls of one more touch. -/
theorem schedule_concat (hkeys : ∀ t ∈ ts, t.key ≠ emptyMarker)
    (hw : (history size ts).drop ts.length = old :: w) :
    schedule size (ts ++ [t])
      = schedule size ts ++ (evictCalls old ++ [t.take]) := by
  have hsize : 0 < size := by
    have hlen := congrArg List.length hw
    simp only [history, List.length_drop, List.length_append, List.length_replicate,
      List.length_map, List.length_cons] at hlen
    omega
  have hsub : ts.length - size < ts.length ∨ ¬ size ≤ ts.length := by omega
  unfold schedule
  rw [List.length_append, List.length_singleton, List.range_succ,
    List.flatMap_append, List.flatMap_singleton]
  congr 1
  · refine List.flatMap_congr fun i hi => ?_
    exact callsAt_concat (List.mem_range.mp hi)
  · rw [evictCalls_eq hkeys hw]
    unfold callsAt
    rw [List.getElem?_concat_length]
    congr 1
    rcases hsub with hlt | hle
    · rw [List.getElem?_append_left hlt]
    · rw [if_neg hle, if_neg hle]

/-- The queue after one more touch. -/
theorem history_concat (hw : (history size ts).drop ts.length = old :: w) :
    (history size (ts ++ [t])).drop (ts ++ [t]).length = w ++ [t.key] := by
  have hlt : ts.length < (history size ts).length := by
    have hlen := congrArg List.length hw
    simp only [List.length_drop, List.length_cons] at hlen
    omega
  have hstep := drop_succ_concat (a := t.key) hlt
  rw [hw, List.tail_cons] at hstep
  rw [← hstep, List.length_append, List.length_singleton]
  unfold history
  rw [List.map_append, List.append_assoc]
  rfl

/-- What a cleanup releases. -/
theorem flatMap_evictCalls (hkeys : ∀ t ∈ ts, t.key ≠ emptyMarker) :
    ((history size ts).drop ts.length).flatMap evictCalls
      = leftovers size ts := by
  have hmarks : ∀ n, (List.replicate n emptyMarker).flatMap evictCalls = [] := by
    intro n
    induction n with
    | zero => rfl
    | succ n ih => rw [List.replicate_succ, List.flatMap_cons, ih]; rfl
  have htouched : ∀ us : List LruTouch, (∀ t ∈ us, t.key ≠ emptyMarker) →
      (us.map LruTouch.key).flatMap evictCalls
        = us.map fun t => LruCall.release t.key := by
    intro us hus
    induction us with
    | nil => rfl
    | cons u us ih =>
        rw [List.map_cons, List.flatMap_cons, evictCalls,
          if_neg (hus u List.mem_cons_self),
          ih fun t ht => hus t (List.mem_cons_of_mem _ ht)]
        rfl
  unfold history leftovers
  rw [List.drop_append, List.length_replicate, List.drop_replicate,
    List.flatMap_append, hmarks, List.nil_append, ← List.map_drop]
  exact htouched _ fun t ht => hkeys t (List.mem_of_mem_drop ht)

end Schedule

-- ============================================================= invariant

variable {S : LruStore} {Keeps : Machine → S.Backend → RcBook → Prop}
  {size : Nat} {s : LruClient S} {m : Machine} {w : List UInt64}

/-- The cache's queue and log, while it is in use and after its
cleanup. -/
inductive Recorded (size : Nat) (s : LruClient S) : List UInt64 → Prop where
  | used : s.calls = schedule size s.touches →
      Recorded size s ((history size s.touches).drop s.touches.length)
  | cleaned (rest : List LruCall) : s.calls = schedule size s.touches ++ rest →
      rest.Perm (leftovers size s.touches) → Recorded size s []

structure LruInv (Keeps : Machine → S.Backend → RcBook → Prop) (size : Nat)
    (s : LruClient S) (m : Machine) (w : List UInt64) : Prop where
  queue : Queue s.lru w
  impl : s.lru.impl = S.impl.logged
  account : Accounted Keeps m s.backend s.book s.held w
  keys : ∀ t ∈ s.touches, t.key ≠ emptyMarker
  recorded : Recorded size s w

/-- Users change the store, its book and what they hold. -/
theorem LruInv.users (h : LruInv Keeps size s m w) {m' : Machine}
    {s' : LruClient S} (hlru : s'.lru = s.lru) (htouches : s'.touches = s.touches)
    (hcalls : s'.calls = s.calls)
    (haccount : Accounted Keeps m' s'.backend s'.book s'.held w) :
    LruInv Keeps size s' m' w := by
  refine ⟨hlru ▸ h.queue, hlru ▸ h.impl, haccount, htouches ▸ h.keys, ?_⟩
  cases h.recorded with
  | used hc =>
      rw [← htouches]
      exact .used (by rw [hcalls, hc, htouches])
  | cleaned rest hc hperm =>
      exact .cleaned rest (by rw [hcalls, hc, htouches]) (by rwa [htouches])

/-- A user takes a reference. -/
theorem Accounted.take {b b' : S.Backend} {bk bk' : RcBook}
    {held : UInt64 → Nat} {k : UInt64} {m' : Machine}
    (h : Accounted Keeps m b bk held w) (hk : Keeps m' b' bk')
    (hrefs : ∀ k', bk'.ledger.refs k'
      = if k' = k then bk.ledger.refs k + 1 else bk.ledger.refs k') :
    Accounted Keeps m' b' bk' (Function.update held k (held k + 1)) w := by
  refine ⟨hk, ?_⟩
  intro k'
  rw [hrefs, Function.update_apply]
  have hk := h.refs k
  have hk' := h.refs k'
  split
  case isTrue heq => rw [heq]; omega
  case isFalse => exact hk'

/-- A touch enters its effect into the record. -/
theorem LruInv.touched (h : LruInv Keeps size s m w) {m' : Machine}
    {t : LruTouch} {lru' : CxLru (S.Backend × List LruCall)} {w' : List UInt64}
    {calls : List LruCall} {b' : S.Backend} (hkey : t.key ≠ emptyMarker)
    (heffect : TouchEffect s.lru w t lru' w' calls)
    (haccount : Accounted Keeps m' b' (s.book.entered t.key calls) s.held w') :
    LruInv Keeps size (s.touched t lru' b' (s.calls ++ calls)) m' w' := by
  have hdrop : (s.calls ++ calls).drop s.calls.length = calls := List.drop_left ..
  cases heffect with
  | idle =>
      have htouches : (s.touched t s.lru b' (s.calls ++ [])).touches = s.touches :=
        if_pos rfl
      refine ⟨h.queue, h.impl, ?_, ?_, ?_⟩
      · simp only [LruClient.touched, LruClient.entered, hdrop]
        exact haccount
      · rw [htouches]
        exact h.keys
      · have hcalls : (s.touched t s.lru b' (s.calls ++ [])).calls = s.calls :=
          List.append_nil _
        cases h.recorded with
        | used hc =>
            rw [← htouches]
            exact .used (by rw [hcalls, htouches, hc])
        | cleaned rest hc hperm =>
            exact .cleaned rest (by rw [hcalls, htouches, hc]) (by rwa [htouches])
  | entered old rest hw hidle =>
      have hnot : ¬ Idle s.lru.queue t.key := by
        rwa [show s.lru.queue = w from h.queue.window]
      have htouches := ((TouchEffect.entered old rest hw hidle).enters h.queue b'
        (s.calls ++ (evictCalls old ++ [t.take])) hnot).2
      subst hw
      refine ⟨h.queue.next_queue, h.impl, ?_, ?_, ?_⟩
      · simp only [LruClient.touched, LruClient.entered, hdrop]
        exact haccount
      · rw [htouches]
        intro u hu
        rcases List.mem_append.mp hu with hu | hu
        · exact h.keys u hu
        · rw [List.mem_singleton.mp hu]
          exact hkey
      · have hrec := h.recorded
        generalize hq : old :: rest = q at hrec
        cases hrec with
        | cleaned => cases hq
        | used hc =>
            rw [← history_concat (t := t) hq.symm, ← htouches]
            refine .used ?_
            rw [htouches, schedule_concat h.keys hq.symm, ← hc]
            rfl

/-- The cleanup empties the cache. -/
theorem LruInv.cleanedUp (h : LruInv Keeps size s m w) {m' : Machine}
    {b' : S.Backend}
    (haccount : Accounted Keeps m' b'
      (s.book.entered 0 (s.lru.cells.flatMap evictCalls)) s.held []) :
    LruInv Keeps size (s.entered 0 { s.lru with size := 0, items := none } b'
      (s.calls ++ s.lru.cells.flatMap evictCalls)) m' [] := by
  have hdrop : (s.calls ++ s.lru.cells.flatMap evictCalls).drop s.calls.length
      = s.lru.cells.flatMap evictCalls := List.drop_left ..
  refine ⟨⟨rfl, fun h0 => absurd rfl h0, ?_⟩, h.impl, ?_, h.keys, ?_⟩
  · exact List.rotate_nil _
  · simp only [LruClient.entered, hdrop]
    exact haccount
  · have hperm := h.queue.perm
    cases h.recorded with
    | used hc =>
        refine .cleaned _ (congrArg (· ++ _) hc) ?_
        show (s.lru.cells.flatMap evictCalls).Perm (leftovers size s.touches)
        rw [← flatMap_evictCalls h.keys]
        exact (hperm.flatMap_right _).symm
    | cleaned rest hc hrest =>
        refine .cleaned rest ?_ hrest
        show s.calls ++ s.lru.cells.flatMap evictCalls = _
        rw [List.nil_perm.mp hperm, List.flatMap_nil, List.append_nil]
        exact hc

/-- A touch, given what it does to the cache and the store. -/
theorem LruInv.touch_granted (h : LruInv Keeps size s m w) {t : LruTouch}
    (hkey : t.key ≠ emptyMarker)
    {x : C (Int × CxLru (S.Backend × List LruCall) × S.Backend × List LruCall)}
    (hx : x.Granted m fun r m' => ∃ lru' w' calls b',
      TouchEffect s.lru w t lru' w' calls ∧ r = (0, lru', b', s.calls ++ calls)
        ∧ Accounted Keeps m' b' (s.book.entered t.key calls) s.held w') :
    (do
      let (_, lru, backend, calls) ← x
      pure (s.touched t lru backend calls)).Granted m fun s' m' =>
        (∃ w', LruInv Keeps size s' m' w') ∧ Enters s t s' := by
  refine granted_bind hx ?_
  rintro _ m' ⟨lru', w', calls, b', heffect, rfl, haccount⟩
  exact granted_pure ⟨⟨w', h.touched hkey heffect haccount⟩,
    heffect.enters h.queue b' _⟩

theorem touch_exec (hS : S.Sound Keeps) (h : LruInv Keeps size s m w)
    {k : UInt64} (hop : (LruOp.touch k).Allowed s) :
    (LruClient.exec (.touch k) s).Granted m fun s' m' =>
      (∃ w', LruInv Keeps size s' m' w') ∧ Enters s ⟨k, .retain k⟩ s' := by
  obtain ⟨hlive, hkey, hlt⟩ := hop
  exact h.touch_granted hkey
    (cxLruTouch_granted hS h.impl h.queue h.account hlive hkey hlt)

theorem touchValue_exec (hS : S.Sound Keeps) (h : LruInv Keeps size s m w)
    {k : UInt64} (hop : (LruOp.touchValue k).Allowed s) :
    (LruClient.exec (.touchValue k) s).Granted m fun s' m' =>
      (∃ w', LruInv Keeps size s' m' w')
        ∧ Enters s ⟨k, .retainValue (s.book.element k)⟩ s' := by
  obtain ⟨hlive, hkey, hlt⟩ := hop
  exact h.touch_granted hkey
    (cxLruTouchValue_granted hS h.impl h.queue h.account hlive hkey hlt)

/-- Every allowed operation keeps the account. -/
theorem lruInv_exec (hS : S.Sound Keeps) (h : LruInv Keeps size s m w)
    {op : LruOp} (hop : op.Allowed s) :
    (LruClient.exec op s).Granted m fun s' m' =>
      ∃ w', LruInv Keeps size s' m' w' := by
  cases op with
  | put k v =>
      obtain ⟨hin, hv, hlt⟩ := hop
      refine granted_bind (hS.put h.account.keeps hin hv hlt) ?_
      rintro ⟨p, b'⟩ m' hk
      refine granted_pure ⟨w, h.users rfl rfl rfl (h.account.take hk ?_)⟩
      exact fun k' => Ledger.refs_put ..
  | retain k =>
      obtain ⟨hin, hlt⟩ := hop
      by_cases hdead : s.book.ledger.refs k = 0
      · refine granted_bind_run (hS.retain_absent h.account.keeps hin hdead) ?_
        exact granted_pure ⟨w, h⟩
      · refine granted_bind (hS.retain h.account.keeps hdead hlt) ?_
        rintro ⟨p, b'⟩ m' ⟨hp, hk⟩
        dsimp only
        rw [if_neg hp]
        refine granted_pure ⟨w, h.users rfl rfl rfl (h.account.take hk ?_)⟩
        exact fun k' => Ledger.refs_retain hdead
  | release k =>
      have hheld : s.held k ≠ 0 := hop
      have hlive : s.book.ledger.refs k ≠ 0 := by
        rw [h.account.refs]
        omega
      refine granted_bind (hS.release h.account.keeps hlive) ?_
      rintro ⟨rv, b'⟩ m' hk
      refine granted_pure ⟨w, h.users rfl rfl rfl ⟨hk, ?_⟩⟩
      intro k'
      have hrefs := h.account.refs k'
      show (s.book.ledger.release k).refs k'
        = Function.update s.held k (s.held k - 1) k' + occurrences w k'
      rw [Ledger.refs_release hlive, Function.update_apply]
      split
      case isTrue heq => rw [heq] at hrefs ⊢; omega
      case isFalse => exact hrefs
  | touch k => exact (touch_exec hS h hop).imp fun _ _ hstep => hstep.1
  | touchValue k => exact (touchValue_exec hS h hop).imp fun _ _ hstep => hstep.1
  | cleanup =>
      have hacc : Accounted Keeps m s.backend s.book s.held s.lru.cells := by
        refine ⟨h.account.keeps, ?_⟩
        intro k
        rw [h.account.refs, occurrences_perm h.queue.perm]
      have hrun : (cxLruCleanup s.lru (s.backend, s.calls)).Granted m
          fun r m' => ∃ b', r = (0, { s.lru with size := 0, items := none }, b',
              s.calls ++ s.lru.cells.flatMap evictCalls)
            ∧ Accounted Keeps m' b'
              (s.book.entered 0 (s.lru.cells.flatMap evictCalls)) s.held [] := by
        refine C.Granted.of_run_eq ?_ (run_cxLruCleanup h.queue)
        refine granted_bind (releaseAll_granted hS h.impl 0 s.lru.cells hacc) ?_
        rintro _ m₁ ⟨b₁, rfl, h₁⟩
        refine granted_bind_run rfl (granted_pure ⟨b₁, rfl, ?_, h₁.refs⟩)
        exact hS.transfer h₁.keeps rfl rfl rfl
      refine granted_bind hrun ?_
      rintro _ m' ⟨b', rfl, haccount⟩
      exact granted_pure ⟨[], h.cleanedUp haccount⟩

theorem lruInv_start (hS : S.Sound Keeps) {mem : Mem} {oracle : Nat → Nat}
    (hrun : (LruClient.start S size).run (Machine.boot mem oracle) = .ok s m)
    (hu : m.refused = false) : ∃ w, LruInv Keeps size s m w := by
  unfold LruClient.start at hrun
  rw [C.run_bind] at hrun
  cases hstart : S.start.run (Machine.boot mem oracle) with
  | fault e m₁ =>
      rw [hstart] at hrun
      cases hrun
  | ok b m₁ =>
      rw [hstart, C.chain_ok] at hrun
      have hkeeps := hS.start mem oracle b m₁ hstart (unrefused_of_run hrun hu)
      refine C.Granted.of_run (Q := fun s m => ∃ w, LruInv Keeps size s m w)
        (granted_bind (cxLruInit_granted m₁ size S.impl.logged) ?_) hrun hu
      rintro ⟨rv, lru⟩ m₂ ⟨hrv, himpl, hqueue, hmem, harena, hcalls⟩
      refine granted_bind_run (run_assert hrv) (granted_pure
        ⟨history size [], ?_, himpl, ⟨?_, ?_⟩, ?_, .used rfl⟩)
      · rw [history, List.map_nil, List.append_nil]
        exact hqueue
      · exact hS.transfer hkeeps hmem harena hcalls
      · intro k
        rw [history, List.map_nil, List.append_nil, occurrences_replicate]
        rfl
      · intro t ht
        cases ht

theorem lruInv_run (hS : S.Sound Keeps) {mem : Mem} {oracle : Nat → Nat}
    (h : LruClient.Run S size mem oracle s m) : ∃ w, LruInv Keeps size s m w := by
  apply h.invariant fun s m => ∃ w, LruInv Keeps size s m w
  · intro s m hrun hu
    exact lruInv_start hS hrun hu
  · intro s m op hinv hop
    obtain ⟨w, hinv⟩ := hinv
    exact lruInv_exec hS hinv hop

-- ============================================================ the account

end Cextras.Collection
