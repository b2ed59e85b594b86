/-
Runs over the reference-counted radix tree in which any live key is
touched, the one that equals `EMPTY_MARKER` among them. The tree takes
it, but an entry of it looks empty to the cache, which then never
releases what it retained.

Such a reference is like one a user keeps. `stranded` adds the cache's
retains of them to a client, `lend` adds them to what its users hold, and
both commute with every operation. So the account for other keys
(LruTally.lean), which holds of the lent client, says what the stranded
one releases: all it retained, unless a touch of the marker entered the
ring.
-/
import Cextras.Collection.Proofs.LruTally

namespace Cextras.Collection

open Lib

-- ================================================================== client

/-- Users release what they hold and touch live keys; counters do not
wrap. -/
def LruTallyOp.Live (s : LruTallyClient) : LruTallyOp → Prop
  | .touch k => s.tally.book.ledger.refs k ≠ 0
      ∧ s.tally.book.ledger.refs k + 1 < 2 ^ 64
  | op => op.Allowed s

instance LruTallyOp.decidableLive (s : LruTallyClient) :
    (op : LruTallyOp) → Decidable (op.Live s)
  | .touch _ => inferInstanceAs (Decidable (_ ≠ 0 ∧ _ < _))
  | .put k v => inferInstanceAs (Decidable ((LruTallyOp.put k v).Allowed s))
  | .retain k => inferInstanceAs (Decidable ((LruTallyOp.retain k).Allowed s))
  | .release k => inferInstanceAs (Decidable ((LruTallyOp.release k).Allowed s))
  | .cleanup => inferInstanceAs (Decidable True)

/-- A touch that writes the marker over the oldest entry. -/
def LruTallyOp.EntersMarker (s : LruTallyClient) : LruTallyOp → Prop
  | .touch k => k = emptyMarker ∧ ¬ Idle (window s.lru.cells s.lru.ringIndex) k
  | _ => False

instance LruTallyOp.decidableEntersMarker (s : LruTallyClient) :
    (op : LruTallyOp) → Decidable (op.EntersMarker s)
  | .touch k => inferInstanceAs (Decidable (k = emptyMarker ∧ ¬ Idle _ k))
  | .put _ _ | .retain _ | .release _ | .cleanup =>
      inferInstanceAs (Decidable False)

/-- A client, and how many of its touches entered the marker. -/
structure LruMarkerClient where
  client : LruTallyClient
  entered : Nat

def LruMarkerClient.start (elementSize lruSize : Nat) : C LruMarkerClient := do
  let client ← LruTallyClient.start elementSize lruSize
  pure ⟨client, 0⟩

def LruMarkerClient.exec (op : LruTallyOp) (s : LruMarkerClient) :
    C LruMarkerClient := do
  let client ← LruTallyClient.exec op s.client
  pure ⟨client, s.entered + if op.EntersMarker s.client then 1 else 0⟩

/-- The states of runs with a cache of `lruSize` entries. -/
abbrev LruMarkerClient.Run (elementSize lruSize : Nat) (mem : Mem)
    (oracle : Nat → Nat) : LruMarkerClient → Machine → Prop :=
  Reached (LruMarkerClient.start elementSize lruSize) LruMarkerClient.exec
    (fun s _ op => op.Live s.client) (Machine.boot mem oracle)

-- ================================================================ stranding

/-- The tally with `n` more retains of the marker. -/
def LruTally.stranded (t : LruTally) (n : Nat) : LruTally :=
  { t with
    retains := Function.update t.retains emptyMarker (t.retains emptyMarker + n) }

/-- The client whose cache made `n` more retains of the marker. -/
def LruTallyClient.stranded (s : LruTallyClient) (n : Nat) : LruTallyClient :=
  { s with tally := s.tally.stranded n }

/-- The client whose users hold `n` more references on the marker. -/
def LruTallyClient.lend (s : LruTallyClient) (n : Nat) : LruTallyClient :=
  { s with held := fun k => s.held k + if k = emptyMarker then n else 0 }

section Stranded

variable {elementSize size n : Nat} {m : Machine} {tree : CxRcRadixTree}
  {t : LruTally} {w : List UInt64} {k old : UInt64}
  {lru : CxLru (CxRcRadixTree × LruTally)} {s : LruTallyClient}

theorem LruTally.stranded_stranded {n' : Nat} :
    (t.stranded n).stranded n' = t.stranded (n + n') := by
  unfold stranded
  simp [Nat.add_assoc]

theorem LruTally.stranded_retained {p : Nat} :
    (t.stranded n).retained k p = (t.retained k p).stranded n := by
  unfold retained
  split
  case isTrue => rfl
  case isFalse =>
    unfold stranded
    simp only [LruTally.mk.injEq, true_and, and_true]
    funext k'
    simp only [Function.update_apply]
    by_cases hk : k = emptyMarker
    · subst hk
      by_cases hk' : k' = emptyMarker <;> simp [hk', Nat.add_right_comm]
    · by_cases hk' : k' = k <;> simp [hk, hk', Ne.symm hk]

/-- A release does not read the tally. -/
theorem run_releaseItem_stranded (himpl : lru.impl = cxLruRcRadixTreeTallied) :
    (releaseItem lru (tree, t.stranded n) old).run m = (do
      let (tree, t) ← releaseItem lru (tree, t) old
      pure (tree, t.stranded n)).run m := by
  unfold releaseItem
  rw [himpl]
  by_cases ho : old = emptyMarker
  · simp [ho]
  · rw [if_pos ho, if_pos ho]
    simp only [C.run_bind, cxLruRcRadixTreeTallied]
    cases (cxLruRcRadixTree.release tree old).run m with
    | ok r m' => rfl
    | fault e m' => rfl

theorem run_releaseAll_stranded (himpl : lru.impl = cxLruRcRadixTreeTallied)
    (keys : List UInt64) : ∀ {tree t} {m : Machine},
      (releaseAll lru keys (tree, t.stranded n)).run m = (do
        let (tree, t) ← releaseAll lru keys (tree, t)
        pure (tree, t.stranded n)).run m := by
  induction keys with
  | nil => intro tree t m; rfl
  | cons old keys ih =>
      intro tree t m
      rw [releaseAll, releaseAll, C.run_bind, run_releaseItem_stranded himpl,
        C.run_bind, C.run_bind, C.run_bind]
      cases (releaseItem lru (tree, t) old).run m with
      | ok backend m' => exact ih
      | fault e m' => rfl

theorem run_cleanup_stranded (himpl : lru.impl = cxLruRcRadixTreeTallied)
    (hq : Queue lru w) :
    (cxLruCleanup lru (tree, t.stranded n)).run m = (do
      let (rv, lru, tree, t) ← cxLruCleanup lru (tree, t)
      pure (rv, lru, tree, t.stranded n)).run m := by
  rw [run_cxLruCleanup hq, C.run_bind, run_releaseAll_stranded himpl,
    C.run_bind, C.run_bind, run_cxLruCleanup hq, C.run_bind]
  cases (releaseAll lru lru.cells (tree, t)).run m with
  | ok backend m' => rfl
  | fault e m' => rfl

/-- A touch does not read it either. -/
theorem run_touch_stranded (himpl : lru.impl = cxLruRcRadixTreeTallied)
    (hq : Queue lru w) :
    (cxLruTouch lru (tree, t.stranded n) k).run m = (do
      let (rv, lru, tree, t) ← cxLruTouch lru (tree, t) k
      pure (rv, lru, tree, t.stranded n)).run m := by
  by_cases hidle : Idle w k
  · rw [hq.run_cxLruTouch_idle hidle, C.run_bind, hq.run_cxLruTouch_idle hidle]
    rfl
  obtain ⟨old, rest, rfl, -⟩ := cons_of_not_idle hidle
  rw [hq.run_cxLruTouch hidle, C.run_bind, run_releaseItem_stranded himpl,
    C.run_bind, C.run_bind, hq.run_cxLruTouch hidle, C.run_bind]
  cases (releaseItem lru (tree, t) old).run m with
  | fault e m' => rfl
  | ok backend m' =>
      obtain ⟨tree', t'⟩ := backend
      simp only [C.chain_ok, C.run_pure, C.run_bind, himpl,
        cxLruRcRadixTreeTallied, LruTally.stranded_retained]
      cases (cxLruRcRadixTree.retain tree' k).run m' with
      | ok r m'' => rfl
      | fault e m'' => rfl

/-- No operation reads the cache's retains. -/
theorem run_exec_stranded (himpl : s.lru.impl = cxLruRcRadixTreeTallied)
    (hq : Queue s.lru w) (op : LruTallyOp) :
    (LruTallyClient.exec op (s.stranded n)).run m = (do
      let s ← LruTallyClient.exec op s
      pure (s.stranded n)).run m := by
  cases op with
  | put k v =>
      show C.chain ((cxRcRadixTreePut s.tree k v).run m) _
        = C.chain (C.chain ((cxRcRadixTreePut s.tree k v).run m) _) _
      cases (cxRcRadixTreePut s.tree k v).run m <;> rfl
  | retain k =>
      show C.chain ((cxRcRadixTreeRetain s.tree k).run m) _
        = C.chain (C.chain ((cxRcRadixTreeRetain s.tree k).run m) _) _
      cases (cxRcRadixTreeRetain s.tree k).run m with
      | fault e m' => rfl
      | ok p m' =>
          simp only [C.chain_ok, C.run_ite]
          split <;> rfl
  | release k =>
      show C.chain ((cxRcRadixTreeRelease s.tree k).run m) _
        = C.chain (C.chain ((cxRcRadixTreeRelease s.tree k).run m) _) _
      cases (cxRcRadixTreeRelease s.tree k).run m <;> rfl
  | touch k =>
      show C.chain ((cxLruTouch s.lru (s.tree, s.tally.stranded n) k).run m) _
        = C.chain (C.chain ((cxLruTouch s.lru (s.tree, s.tally) k).run m) _) _
      rw [run_touch_stranded himpl hq, C.run_bind]
      cases (cxLruTouch s.lru (s.tree, s.tally) k).run m <;> rfl
  | cleanup =>
      show C.chain ((cxLruCleanup s.lru (s.tree, s.tally.stranded n)).run m) _
        = C.chain (C.chain ((cxLruCleanup s.lru (s.tree, s.tally)).run m) _) _
      rw [run_cleanup_stranded himpl hq, C.run_bind]
      cases (cxLruCleanup s.lru (s.tree, s.tally)).run m <;> rfl

/-- What users hold more does not matter, as long as they release no more
than the rest. -/
theorem run_exec_lend {op : LruTallyOp} (hop : op.Live s) :
    (LruTallyClient.exec op (s.lend n)).run m = (do
      let s ← LruTallyClient.exec op s
      pure (s.lend n)).run m := by
  have hused : ∀ {tree book k i}, (s.lend n).used tree book k
      (i + if k = emptyMarker then n else 0) = (s.used tree book k i).lend n := by
    intro tree book k i
    unfold LruTallyClient.lend LruTallyClient.used
    simp only [LruTallyClient.mk.injEq, true_and]
    funext k'
    simp only [Function.update_apply]
    split
    case isTrue heq => rw [heq]
    case isFalse => rfl
  cases op with
  | put k v =>
      show C.chain ((cxRcRadixTreePut s.tree k v).run m) _
        = C.chain (C.chain ((cxRcRadixTreePut s.tree k v).run m) _) _
      cases (cxRcRadixTreePut s.tree k v).run m with
      | fault e m' => rfl
      | ok r m' =>
          simp only [C.chain_ok, C.run_pure]
          rw [← hused, Nat.add_right_comm]
          rfl
  | retain k =>
      show C.chain ((cxRcRadixTreeRetain s.tree k).run m) _
        = C.chain (C.chain ((cxRcRadixTreeRetain s.tree k).run m) _) _
      cases (cxRcRadixTreeRetain s.tree k).run m with
      | fault e m' => rfl
      | ok p m' =>
          simp only [C.chain_ok, C.run_ite, C.run_pure]
          split
          case isTrue => rfl
          case isFalse =>
            simp only [C.chain_ok, C.run_pure]
            rw [← hused, Nat.add_right_comm]
            rfl
  | release k =>
      have hheld : s.held k ≠ 0 := hop
      show C.chain ((cxRcRadixTreeRelease s.tree k).run m) _
        = C.chain (C.chain ((cxRcRadixTreeRelease s.tree k).run m) _) _
      cases (cxRcRadixTreeRelease s.tree k).run m with
      | fault e m' => rfl
      | ok r m' =>
          simp only [C.chain_ok, C.run_pure]
          rw [← hused, ← Nat.sub_add_comm (Nat.pos_of_ne_zero hheld)]
          rfl
  | touch k =>
      show C.chain ((cxLruTouch s.lru (s.tree, s.tally) k).run m) _
        = C.chain (C.chain ((cxLruTouch s.lru (s.tree, s.tally) k).run m) _) _
      cases (cxLruTouch s.lru (s.tree, s.tally) k).run m <;> rfl
  | cleanup =>
      show C.chain ((cxLruCleanup s.lru (s.tree, s.tally)).run m) _
        = C.chain (C.chain ((cxLruCleanup s.lru (s.tree, s.tally)).run m) _) _
      cases (cxLruCleanup s.lru (s.tree, s.tally)).run m <;> rfl

end Stranded

-- ==================================================================== runs

section Runs

variable {elementSize size n : Nat} {m : Machine} {tree : CxRcRadixTree}
  {t : LruTally} {held : UInt64 → Nat} {w : List UInt64}
  {s : LruTallyClient}

/-- The retain of a live marker, which its new entry does not hold. -/
theorem Tallied.retain_marker
    (h : Tallied elementSize m tree t held (fun _ => 0) w)
    (hlive : t.book.ledger.refs emptyMarker ≠ 0)
    (hlt : t.book.ledger.refs emptyMarker + 1 < 2 ^ 64) :
    ∃ p t' m', (cxLruRcRadixTreeTallied.retain (tree, t) emptyMarker).run m
        = .ok (p, tree, t'.stranded 1) m'
      ∧ Tallied elementSize m' tree t'
        (fun k => held k + if k = emptyMarker then 1 else 0) (fun _ => 0)
        (w ++ [emptyMarker]) := by
  obtain ⟨g, hg⟩ := h.holds
  obtain ⟨m', hrun, hg'⟩ := hg.run_retain hlive hlt
  have hsame : ∀ k, occurrences (w ++ [emptyMarker]) k = occurrences w k := by
    intro k
    rw [occurrences_concat, if_neg fun hk => hk.2 rfl, Nat.add_zero]
  refine ⟨t.book.element emptyMarker,
    { t with book := { t.book with ledger := t.book.ledger.retain emptyMarker } },
    m', ?_, ⟨g, hg'⟩, fun k _ => ?_, fun k hk => absurd rfl hk, fun k => ?_⟩
  · show ((cxRcRadixTreeRetain tree emptyMarker >>= _) >>= _).run m = _
    rw [C.run_bind, C.run_bind, hrun, C.chain_ok, C.run_pure, C.chain_ok,
      C.run_pure, LruTally.retained, if_neg (hg.element_ne hlive)]
    rfl
  · rw [hsame]
    show (t.book.ledger.retain emptyMarker).refs k = _
    rw [Ledger.refs_retain hlive]
    have hbacked := h.backed k rfl
    split
    case isTrue heq => rw [← heq, hbacked, Nat.add_right_comm]
    case isFalse => exact hbacked
  · rw [hsame]
    exact h.balance k

/-- The client of a run in which `n` touches entered the marker. -/
def LruMarked (elementSize n : Nat) (s : LruTallyClient) (m : Machine) : Prop :=
  ∃ (r : LruTallyClient) (w : List UInt64),
    s = r.stranded n ∧ LruTallyInv elementSize (r.lend n) m w

/-- A touch that enters the marker strands one more reference. -/
theorem LruMarked.enter (h : LruMarked elementSize n s m)
    (hop : (LruTallyOp.touch emptyMarker).Live s)
    (henter : (LruTallyOp.touch emptyMarker).EntersMarker s) :
    (LruTallyClient.exec (.touch emptyMarker) s).Granted m fun s' m' =>
      LruMarked elementSize (n + 1) s' m' := by
  obtain ⟨r, w, rfl, h⟩ := h
  have himpl : r.lru.impl = cxLruRcRadixTreeTallied := h.impl
  have hq : Queue r.lru w := h.queue
  obtain ⟨hlive, hlt⟩ := hop
  have hidle : ¬ Idle w emptyMarker := by
    rw [← hq.window]
    exact henter.2
  have htouch : (LruTallyClient.exec (.touch emptyMarker) r).Granted m
      fun r' m' => ∃ r₁ : LruTallyClient, r' = r₁.stranded 1
        ∧ LruTallyInv elementSize (r₁.lend (n + 1)) m'
          (w.tail ++ [emptyMarker]) := by
    refine granted_bind (h.account.touch_enters h.impl hq hidle
      (Q := fun m' tree' t₂ => ∃ t', t₂ = t'.stranded 1
        ∧ Tallied elementSize m' tree' t'
          (fun k => (r.lend n).held k + if k = emptyMarker then 1 else 0)
          (fun _ => 0) (w.tail ++ [emptyMarker]))
      fun m₁ tree₁ t₁ h₁ hsame => ?_) ?_
    · obtain ⟨p, t', m', hrun, h'⟩ := h₁.retain_marker (by rw [hsame]; exact hlive)
        (by rw [hsame]; exact hlt)
      exact ⟨p, _, m', hrun, t', rfl, h'⟩
    · rintro ⟨rv, lru, tree, t₂⟩ m' ⟨himpl, hq', t', rfl, haccount⟩
      refine granted_pure ⟨{ r with lru := lru, tree := tree, tally := t' }, rfl,
        himpl, hq', ?_⟩
      have hheld : (fun k => (r.lend n).held k + if k = emptyMarker then 1 else 0)
          = (r.lend (n + 1)).held := by
        funext k
        show _ = r.held k + _
        rw [show (r.lend n).held k = r.held k + _ from rfl]
        split <;> omega
      rw [hheld] at haccount
      exact haccount
  refine C.Granted.of_run_eq ?_ (run_exec_stranded himpl hq _)
  refine granted_bind htouch ?_
  rintro _ m' ⟨r₁, rfl, h₁⟩
  refine granted_pure ⟨r₁, _, ?_, h₁⟩
  unfold LruTallyClient.stranded
  simp only [LruTally.stranded_stranded, Nat.add_comm]

/-- Every operation on live keys keeps the account. -/
theorem lruMarked_exec (hsize : 16 * (rcSize + elementSize) < 2 ^ 64)
    (h : LruMarked elementSize n s m) {op : LruTallyOp} (hop : op.Live s) :
    (LruTallyClient.exec op s).Granted m fun s' m' =>
      LruMarked elementSize (n + if op.EntersMarker s then 1 else 0) s' m' := by
  by_cases henter : op.EntersMarker s
  · rw [if_pos henter]
    cases op with
    | touch k =>
        obtain ⟨rfl, -⟩ := id henter
        exact h.enter hop henter
    | put | retain | release | cleanup => exact henter.elim
  rw [if_neg henter, Nat.add_zero]
  obtain ⟨r, w, rfl, h⟩ := h
  have himpl : r.lru.impl = cxLruRcRadixTreeTallied := h.impl
  have hq : Queue r.lru w := h.queue
  by_cases hidle : op = .touch emptyMarker
  · -- the marker is at one of the ends
    subst hidle
    have hw : Idle w emptyMarker := by
      rw [← hq.window]
      exact not_not.mp fun hnot => henter ⟨rfl, hnot⟩
    refine granted_bind_run (Tallied.touch_idle hq hw) ?_
    exact granted_pure ⟨r, w, rfl, h⟩
  -- the account for keys other than the marker holds of the lent client
  have hallowed : op.Allowed (r.lend n) ∧ op.Backed (r.lend n) := by
    cases op with
    | put | retain | cleanup => exact ⟨hop, trivial⟩
    | release k =>
        have hheld : r.held k ≠ 0 := hop
        refine ⟨?_, trivial⟩
        show r.held k + _ ≠ 0
        omega
    | touch k =>
        exact ⟨⟨fun heq => hidle (heq ▸ rfl), hop.2⟩, Or.inr hop.1⟩
  have hlive : op.Live r := by cases op <;> exact hop
  have hexec := tallyInv_exec hsize h hallowed.1 hallowed.2
  have hlent := granted_of_map (hexec.of_run_eq (run_exec_lend hlive).symm)
  refine C.Granted.of_run_eq ?_ (run_exec_stranded himpl hq op)
  refine granted_bind hlent ?_
  rintro r' m' ⟨w', h'⟩
  exact granted_pure ⟨r', w', rfl, h'⟩

theorem lruMarked_start (hsize : 16 * (rcSize + elementSize) < 2 ^ 64) {mem : Mem}
    {oracle : Nat → Nat} {s : LruMarkerClient}
    (hrun : (LruMarkerClient.start elementSize size).run (Machine.boot mem oracle)
      = .ok s m) (hu : m.refused = false) :
    LruMarked elementSize s.entered s.client m := by
  obtain ⟨client, m₁, hstart, hpure⟩ := bind_cases hrun
  cases hpure
  obtain ⟨w, h⟩ := tallyInv_start hsize hstart hu
  exact ⟨client, w, by simp [LruTallyClient.stranded, LruTally.stranded],
    by simpa [LruTallyClient.lend] using h⟩

/-- In a cache without entries, only retains of the marker are open. -/
theorem LruMarked.open_retains (h : LruMarked elementSize n s m)
    (hempty : s.lru.size = 0) (k : UInt64) :
    s.tally.retains k = s.tally.releases k + if k = emptyMarker then n else 0 := by
  obtain ⟨r, w, rfl, h⟩ := h
  have hw : w = [] := by
    have hlength := h.queue.length
    exact List.length_eq_zero_iff.mp (hlength.symm.trans hempty)
  have hbalance := h.account.balance k
  have hnil : occurrences [] k = 0 := by
    unfold occurrences
    split <;> rfl
  rw [hw, hnil] at hbalance
  change r.tally.releases k + 0 = r.tally.retains k + 0 at hbalance
  show Function.update r.tally.retains emptyMarker _ k = r.tally.releases k + _
  rw [Function.update_apply]
  split
  case isTrue heq => subst heq; omega
  case isFalse => omega

/-- The cache gave back what it took when no touch entered the marker. -/
theorem LruMarked.balanced_iff (h : LruMarked elementSize n s m)
    (hempty : s.lru.size = 0) :
    (∀ k, s.tally.releases k = s.tally.retains k) ↔ n = 0 := by
  constructor
  · intro hall
    have hopen := h.open_retains hempty emptyMarker
    rw [hall, if_pos rfl] at hopen
    omega
  · intro hn k
    have hopen := h.open_retains hempty k
    subst hn
    rw [ite_self] at hopen
    exact hopen.symm

/-- A cleanup leaves no entries. -/
theorem cleanup_empty (s : LruTallyClient) {s' : LruTallyClient} {m' : Machine}
    (hrun : (LruTallyClient.exec .cleanup s).run m = .ok s' m') :
    s'.lru.size = 0 := by
  obtain ⟨r, m₁, hcleanup, hpure⟩ := bind_cases hrun
  obtain ⟨backend, m₂, -, hrest⟩ := bind_cases hcleanup
  obtain ⟨_, m₃, -, hr⟩ := bind_cases hrest
  cases hr
  cases hpure
  rfl

-- ============================================================ the account

/-- What holds in a state of a run that touches live keys. -/
structure LruBalance (s : LruMarkerClient) (m : Machine) : Prop where
  /-- the cleanup of the cache gives back what it took, unless a touch
  entered the marker -/
  cleanup : (LruTallyClient.exec .cleanup s.client).Granted m fun s' _ =>
    s'.lru.size = 0
      ∧ ((∀ k, s'.tally.releases k = s'.tally.retains k) ↔ s.entered = 0)
  /-- and so it stays once the cache was cleaned up -/
  cleaned : s.client.lru.size = 0 →
    ((∀ k, s.client.tally.releases k = s.client.tally.retains k)
      ↔ s.entered = 0)
  progress : ∀ op : LruTallyOp, op.Live s.client →
    (LruMarkerClient.exec op s).Granted m fun _ _ => True

/-- Over all runs that touch live keys, the marker among them, the cache
gives back what it took if and only if no touch entered the marker. -/
theorem cxLruRcRadixTree_balanced_iff {mem : Mem} {oracle : Nat → Nat}
    {s : LruMarkerClient} (hsize : 16 * (rcSize + elementSize) < 2 ^ 64)
    (h : LruMarkerClient.Run elementSize size mem oracle s m) :
    LruBalance s m := by
  have hstep : ∀ {s : LruMarkerClient} {m : Machine} {op : LruTallyOp},
      LruMarked elementSize s.entered s.client m → op.Live s.client →
      (LruMarkerClient.exec op s).Granted m fun s' m' =>
        LruMarked elementSize s'.entered s'.client m' := by
    intro s m op hinv hop
    refine granted_bind (lruMarked_exec hsize hinv hop) ?_
    intro client m' hclient
    exact granted_pure hclient
  have hinv : LruMarked elementSize s.entered s.client m := by
    apply h.invariant fun s m => LruMarked elementSize s.entered s.client m
    · intro s m hrun hu
      exact lruMarked_start hsize hrun hu
    · intro s m op hinv hop
      exact hstep hinv hop
  refine ⟨?_, hinv.balanced_iff,
    fun op hop => (hstep hinv hop).imp fun _ _ _ => trivial⟩
  have hlive : LruTallyOp.Live s.client .cleanup := trivial
  have hcleanup := lruMarked_exec hsize hinv hlive
  unfold C.Granted at hcleanup ⊢
  cases hrun : (LruTallyClient.exec .cleanup s.client).run m with
  | fault e m' => rwa [hrun] at hcleanup
  | ok s' m' =>
      rw [hrun] at hcleanup
      intro hu
      have hempty := cleanup_empty s.client hrun
      exact ⟨hempty, (hcleanup hu).balanced_iff hempty⟩

/-- A cache of one entry: the touch of key 6 evicts key 5, and the touch
of the marker does not enter it, since there is no entry yet. -/
theorem cxLruRcRadixTree_balanced_evicts : ∃ s m,
    LruMarkerClient.Run 1 1 (fun _ => 0) (fun t => 2 ^ 20 * (t + 1)) s m
      ∧ s.client.tally.retains 5 = 1 ∧ s.client.tally.retains 6 = 1
      ∧ ∀ k, s.client.tally.releases k = s.client.tally.retains k := by
  obtain ⟨s, m, hrun, htest⟩ := reached_of_replayFrom
    (LruMarkerClient.start 1 1) LruMarkerClient.exec
    (fun s _ op => op.Live s.client)
    (Machine.boot (fun _ => 0) fun t => 2 ^ 20 * (t + 1))
    [.put 5 [50], .put 6 [60], .put emptyMarker [70], .touch emptyMarker,
      .touch 5, .touch 6, .cleanup]
    (fun x => decide (x.1.client.tally.retains 5 = 1
      ∧ x.1.client.tally.retains 6 = 1 ∧ x.1.client.lru.size = 0
      ∧ x.1.entered = 0))
    (by decide +kernel)
  obtain ⟨hfive, hsix, hempty, hentered⟩ := of_decide_eq_true htest
  have hbalance := cxLruRcRadixTree_balanced_iff (by decide) hrun
  exact ⟨s, m, hrun, hfive, hsix, (hbalance.cleaned hempty).mpr hentered⟩

/-- The touch of the marker evicts key 5, and its own reference is never
given back. -/
theorem cxLruRcRadixTree_stranded : ∃ s m,
    LruMarkerClient.Run 1 1 (fun _ => 0) (fun t => 2 ^ 20 * (t + 1)) s m
      ∧ s.client.lru.size = 0 ∧ s.client.tally.retains emptyMarker = 1
      ∧ s.client.tally.releases emptyMarker = 0 := by
  obtain ⟨s, m, hrun, htest⟩ := reached_of_replayFrom
    (LruMarkerClient.start 1 1) LruMarkerClient.exec
    (fun s _ op => op.Live s.client)
    (Machine.boot (fun _ => 0) fun t => 2 ^ 20 * (t + 1))
    [.put 5 [50], .put emptyMarker [70], .touch 5, .touch emptyMarker, .cleanup]
    (fun x => decide (x.1.client.lru.size = 0
      ∧ x.1.client.tally.retains emptyMarker = 1
      ∧ x.1.client.tally.releases emptyMarker = 0))
    (by decide +kernel)
  exact ⟨s, m, hrun, of_decide_eq_true htest⟩

end Runs

end Cextras.Collection
