/-
Runs over the reference-counted radix tree in which the cache is touched
with keys that need not have an element. `cx_lru_touch` enters the key
whatever the tree answers to the retain, so the release of the entry may
give back a reference the cache never got. `LruTally` counts the retains
that returned an element and the releases; `Tallied` is the account, where
`extra` entries of a key hold nothing.

`cxLruRcRadixTree_covered` says when that does not happen: as long as
every touch that enters its key finds an element, the cache releases no
more than it retained, and no other touch is as good.
-/
import Cextras.Collection.Proofs.LruStores

namespace Cextras.Collection

open Lib

-- ================================================================= backend

/-- What is held in a tree, and what the cache did about it. -/
structure LruTally where
  /-- all references, the users' and the cache's -/
  book : RcBook
  /-- the cache's retains that returned an element -/
  retains : UInt64 → Nat
  /-- the cache's releases -/
  releases : UInt64 → Nat

/-- The tally after a retain that returned `p`. -/
def LruTally.retained (t : LruTally) (k : UInt64) (p : Nat) : LruTally :=
  if p = 0 then t
  else { t with
    book := { t.book with ledger := t.book.ledger.retain k }
    retains := Function.update t.retains k (t.retains k + 1) }

/-- The tally after a release, of an element or of none. -/
def LruTally.released (t : LruTally) (k : UInt64) : LruTally :=
  { t with
    book := { t.book with ledger := t.book.ledger.release k }
    releases := Function.update t.releases k (t.releases k + 1) }

/-- `cx_lru_rc_radix_tree`, with its calls entered into the tally. -/
def cxLruRcRadixTreeTallied : CxLruBackendImpl (CxRcRadixTree × LruTally) where
  retain := fun backend k => do
    let (p, tree) ← cxLruRcRadixTree.retain backend.1 k
    pure (p, tree, backend.2.retained k p)
  retainValue := cxLruRcRadixTree.retainValue.map fun f backend value => do
    let tree ← f backend.1 value
    pure (tree, backend.2)
  release := fun backend k => do
    let (rv, tree) ← cxLruRcRadixTree.release backend.1 k
    pure (rv, tree, backend.2.released k)

-- ================================================================== client

structure LruTallyClient where
  lru : CxLru (CxRcRadixTree × LruTally)
  tree : CxRcRadixTree
  tally : LruTally
  /-- the users' references -/
  held : UInt64 → Nat

inductive LruTallyOp where
  | put (key : UInt64) (value : List Byte)
  | retain (key : UInt64)
  | release (key : UInt64)
  | touch (key : UInt64)
  | cleanup

/-- Users release what they hold and touch any keys; counters do not
wrap. -/
def LruTallyOp.Allowed (s : LruTallyClient) : LruTallyOp → Prop
  | .put k v => v.length = s.tree.elementSize
      ∧ s.tally.book.ledger.refs k + 1 < 2 ^ 64
  | .retain k => s.tally.book.ledger.refs k + 1 < 2 ^ 64
  | .release k => s.held k ≠ 0
  | .touch k => k ≠ emptyMarker ∧ s.tally.book.ledger.refs k + 1 < 2 ^ 64
  | .cleanup => True

instance LruTallyOp.decidableAllowed (s : LruTallyClient) :
    (op : LruTallyOp) → Decidable (op.Allowed s)
  | .put _ _ => inferInstanceAs (Decidable (_ = _ ∧ _ < _))
  | .retain _ => inferInstanceAs (Decidable (_ < _))
  | .release k => inferInstanceAs (Decidable (s.held k ≠ 0))
  | .touch k => inferInstanceAs (Decidable (k ≠ emptyMarker ∧ _ < _))
  | .cleanup => inferInstanceAs (Decidable True)

/-- A touch that enters its key finds an element. -/
def LruTallyOp.Backed (s : LruTallyClient) : LruTallyOp → Prop
  | .touch k => Idle (window s.lru.cells s.lru.ringIndex) k
      ∨ s.tally.book.ledger.refs k ≠ 0
  | _ => True

instance LruTallyOp.decidableBacked (s : LruTallyClient) :
    (op : LruTallyOp) → Decidable (op.Backed s)
  | .touch k => inferInstanceAs (Decidable (Idle _ k ∨ _ ≠ 0))
  | .put _ _ | .retain _ | .release _ | .cleanup =>
      inferInstanceAs (Decidable True)

def LruTallyClient.start (elementSize lruSize : Nat) : C LruTallyClient := do
  let tree ← cxRcRadixTreeInit elementSize
  let (rv, lru) ← cxLruInit lruSize cxLruRcRadixTreeTallied
  C.assert (rv = 0)
  pure ⟨lru, tree, ⟨⟨.empty, fun _ => 0⟩, fun _ => 0, fun _ => 0⟩, fun _ => 0⟩

/-- The client after users changed the tree and what they hold of a key. -/
def LruTallyClient.used (s : LruTallyClient) (tree : CxRcRadixTree)
    (book : RcBook) (k : UInt64) (n : Nat) : LruTallyClient :=
  { s with
    tree := tree
    tally := { s.tally with book := book }
    held := Function.update s.held k n }

def LruTallyClient.exec : LruTallyOp → LruTallyClient → C LruTallyClient
  | .put k v, s => do
      let (p, tree) ← cxRcRadixTreePut s.tree k v
      pure (s.used tree ⟨s.tally.book.ledger.put k v,
        Function.update s.tally.book.element k p⟩ k (s.held k + 1))
  | .retain k, s => do
      let p ← cxRcRadixTreeRetain s.tree k
      if p = 0 then
        pure s
      else
        pure (s.used s.tree { s.tally.book with
          ledger := s.tally.book.ledger.retain k } k (s.held k + 1))
  | .release k, s => do
      let (_, tree) ← cxRcRadixTreeRelease s.tree k
      pure (s.used tree { s.tally.book with
        ledger := s.tally.book.ledger.release k } k (s.held k - 1))
  | .touch k, s => do
      let (_, lru, tree, tally) ← cxLruTouch s.lru (s.tree, s.tally) k
      pure { s with lru := lru, tree := tree, tally := tally }
  | .cleanup, s => do
      let (_, lru, tree, tally) ← cxLruCleanup s.lru (s.tree, s.tally)
      pure { s with lru := lru, tree := tree, tally := tally }

/-- The states of runs with a cache of `lruSize` entries. -/
abbrev LruTallyClient.Run (elementSize lruSize : Nat) (mem : Mem)
    (oracle : Nat → Nat) : LruTallyClient → Machine → Prop :=
  Reached (LruTallyClient.start elementSize lruSize) LruTallyClient.exec
    (fun s _ op => op.Allowed s) (Machine.boot mem oracle)

-- ================================================================= account

/-- The tree holds the book. A key all of whose entries hold a reference
has what the users hold plus its entries; a key with `extra` ones has no
element. What was released is what was retained, but for the entries that
are left and the extra ones. -/
structure Tallied (elementSize : Nat) (m : Machine) (tree : CxRcRadixTree)
    (t : LruTally) (held extra : UInt64 → Nat) (w : List UInt64) : Prop where
  holds : RcTreeHolds elementSize m tree t.book
  backed : ∀ k, extra k = 0 → t.book.ledger.refs k = held k + occurrences w k
  absent : ∀ k, extra k ≠ 0 → t.book.ledger.refs k = 0
  balance : ∀ k, t.releases k + occurrences w k = t.retains k + extra k

variable {elementSize size : Nat} {m : Machine} {tree : CxRcRadixTree}
  {t : LruTally} {held extra : UInt64 → Nat} {w w' : List UInt64}
  {k old : UInt64} {lru : CxLru (CxRcRadixTree × LruTally)}

namespace Tallied

/-- The order of the entries does not count. -/
theorem perm (h : Tallied elementSize m tree t held extra w) (hw : w.Perm w') :
    Tallied elementSize m tree t held extra w' := by
  refine ⟨h.holds, fun k hk => ?_, h.absent, fun k => ?_⟩
  · rw [← occurrences_perm hw]
    exact h.backed k hk
  · rw [← occurrences_perm hw]
    exact h.balance k

/-- The tree after a release by the cache. -/
theorem run_release (h : Tallied elementSize m tree t held extra w) (k : UInt64) :
    ∃ rv tree' m', (cxLruRcRadixTreeTallied.release (tree, t) k).run m
        = .ok (rv, tree', t.released k) m'
      ∧ RcTreeHolds elementSize m' tree' (t.released k).book := by
  obtain ⟨g, hg⟩ := h.holds
  by_cases hlive : t.book.ledger.refs k = 0
  · refine ⟨-1, tree, m, ?_, g, ?_⟩
    · show (cxRcRadixTreeRelease tree k >>= _).run m = _
      rw [C.run_bind, hg.run_release_absent hlive, C.chain_ok, C.run_pure]
    · show RcTree elementSize m tree { t.book with
        ledger := t.book.ledger.release k } g
      rw [Ledger.release_dead hlive]
      exact hg
  · obtain ⟨tree', m', g', hrun, -, hg'⟩ := hg.run_release hlive
    refine ⟨0, tree', m', ?_, g', hg'⟩
    show (cxRcRadixTreeRelease tree k >>= _).run m = _
    rw [C.run_bind, hrun, C.chain_ok, C.run_pure]

/-- The references after a release. -/
theorem refs_released (t : LruTally) (k k' : UInt64) :
    (t.released k).book.ledger.refs k'
      = if k' = k then t.book.ledger.refs k - 1 else t.book.ledger.refs k' := by
  show (t.book.ledger.release k).refs k' = _
  by_cases hlive : t.book.ledger.refs k = 0
  · rw [Ledger.release_dead hlive]
    split
    case isTrue heq => rw [heq, hlive]
    case isFalse => rfl
  · exact Ledger.refs_release hlive

/-- The oldest entry goes, whether it holds a reference or not. -/
theorem releaseItem_granted (himpl : lru.impl = cxLruRcRadixTreeTallied)
    (h : Tallied elementSize m tree t held extra (old :: w)) :
    (releaseItem lru (tree, t) old).Granted m fun r m' => ∃ tree' t',
      r = (tree', t') ∧ Tallied elementSize m' tree' t' held extra w := by
  unfold releaseItem
  by_cases ho : old = emptyMarker
  · have hsame : ∀ k, occurrences (old :: w) k = occurrences w k := by
      intro k
      rw [occurrences_cons, if_neg (fun hk => hk.2 ho), Nat.add_zero]
    rw [if_neg (not_not.mpr ho)]
    refine granted_pure ⟨tree, t, rfl, h.holds, fun k hk => ?_, h.absent,
      fun k => ?_⟩
    · rw [← hsame]
      exact h.backed k hk
    · rw [← hsame]
      exact h.balance k
  · obtain ⟨rv, tree', m', hrun, hholds⟩ := h.run_release old
    rw [if_pos ho, himpl]
    refine granted_bind_run hrun (granted_pure ⟨_, _, rfl, hholds, ?_, ?_, ?_⟩)
    · intro k hk
      have hbacked := h.backed k hk
      rw [occurrences_cons] at hbacked
      rw [refs_released]
      by_cases hko : k = old
      · rw [if_pos ⟨hko, ho⟩] at hbacked
        rw [if_pos hko, ← hko, hbacked]
        omega
      · rw [if_neg fun hk => hko hk.1] at hbacked
        rw [if_neg hko, hbacked, Nat.add_zero]
    · intro k hk
      rw [refs_released, h.absent k hk]
      split
      case isTrue heq => rw [← heq, h.absent k hk]
      case isFalse => rfl
    · intro k
      have hbalance := h.balance k
      rw [occurrences_cons] at hbalance
      show Function.update t.releases old (t.releases old + 1) k
        + occurrences w k = t.retains k + extra k
      rw [Function.update_apply]
      by_cases hko : k = old
      · rw [if_pos ⟨hko, ho⟩] at hbalance
        rw [if_pos hko, ← hko]
        omega
      · rw [if_neg fun hk => hko hk.1] at hbalance
        rw [if_neg hko, ← hbalance, Nat.add_zero]

/-- All entries go. -/
theorem releaseAll_granted (himpl : lru.impl = cxLruRcRadixTreeTallied)
    (keys : List UInt64) :
    ∀ {m tree t}, Tallied elementSize m tree t held extra keys →
      (releaseAll lru keys (tree, t)).Granted m fun r m' => ∃ tree' t',
        r = (tree', t') ∧ Tallied elementSize m' tree' t' held extra [] := by
  induction keys with
  | nil =>
      intro m tree t h
      exact granted_pure ⟨tree, t, rfl, h⟩
  | cons old keys ih =>
      intro m tree t h
      rw [releaseAll]
      refine granted_bind (h.releaseItem_granted himpl) ?_
      intro r m₁ hr
      obtain ⟨tree₁, t₁, rfl, h₁⟩ := hr
      exact ih h₁

/-- The cleanup of the cache. -/
theorem cleanup_granted (himpl : lru.impl = cxLruRcRadixTreeTallied)
    (hq : Queue lru w) (h : Tallied elementSize m tree t held extra w) :
    (cxLruCleanup lru (tree, t)).Granted m fun r m' => ∃ lru' tree' t',
      r = (0, lru', tree', t') ∧ lru'.impl = cxLruRcRadixTreeTallied
        ∧ Queue lru' [] ∧ Tallied elementSize m' tree' t' held extra [] := by
  refine C.Granted.of_run_eq ?_ (run_cxLruCleanup hq)
  refine granted_bind ((h.perm hq.perm).releaseAll_granted himpl lru.cells) ?_
  intro r m₁ hr
  obtain ⟨tree₁, t₁, rfl, h₁⟩ := hr
  obtain ⟨g, hg⟩ := h₁.holds
  refine granted_bind_run rfl (granted_pure ⟨_, tree₁, t₁, rfl, himpl, ?_,
    ⟨g, hg.transfer rfl rfl rfl⟩, h₁.backed, h₁.absent, h₁.balance⟩)
  exact ⟨rfl, fun h0 => absurd rfl h0, List.rotate_nil _⟩

/-- Releases of other keys do not change a key's references. -/
theorem refs_tail (h : Tallied elementSize m tree t held extra (old :: w))
    {m' : Machine} {tree' : CxRcRadixTree} {t' : LruTally}
    (h' : Tallied elementSize m' tree' t' held extra w) (hne : k ≠ old) :
    t'.book.ledger.refs k = t.book.ledger.refs k := by
  by_cases hk : extra k = 0
  · rw [h'.backed k hk, h.backed k hk, occurrences_cons,
      if_neg fun heq => hne heq.1, Nat.add_zero]
  · rw [h'.absent k hk, h.absent k hk]

/-- The retain of a key that has an element, which the key's new entry
holds. -/
theorem retain_live (h : Tallied elementSize m tree t held extra w)
    (hkey : k ≠ emptyMarker) (hlive : t.book.ledger.refs k ≠ 0)
    (hlt : t.book.ledger.refs k + 1 < 2 ^ 64) :
    ∃ p t' m', (cxLruRcRadixTreeTallied.retain (tree, t) k).run m
        = .ok (p, tree, t') m'
      ∧ Tallied elementSize m' tree t' held extra (w ++ [k]) := by
  obtain ⟨g, hg⟩ := h.holds
  obtain ⟨m', hrun, hg'⟩ := hg.run_retain hlive hlt
  have hextra : extra k = 0 := by
    by_contra hne
    exact hlive (h.absent k hne)
  refine ⟨t.book.element k, t.retained k (t.book.element k), m', ?_, ?_⟩
  · show ((cxRcRadixTreeRetain tree k >>= _) >>= _).run m = _
    rw [C.run_bind, C.run_bind, hrun, C.chain_ok, C.run_pure, C.chain_ok,
      C.run_pure]
  · unfold LruTally.retained
    rw [if_neg (hg.element_ne hlive)]
    refine ⟨⟨g, hg'⟩, fun k' hk' => ?_, fun k' hk' => ?_, fun k' => ?_⟩
    · have hbacked := h.backed k' hk'
      rw [occurrences_concat]
      show (t.book.ledger.retain k).refs k' = _
      rw [Ledger.refs_retain hlive]
      by_cases heq : k' = k
      · rw [if_pos heq, if_pos ⟨heq, hkey⟩, ← heq, hbacked, Nat.add_assoc]
      · rw [if_neg heq, if_neg fun h => heq h.1, Nat.add_zero, hbacked]
    · have hne : k' ≠ k := fun heq => hk' (heq ▸ hextra)
      show (t.book.ledger.retain k).refs k' = 0
      rw [Ledger.refs_retain hlive, if_neg hne]
      exact h.absent k' hk'
    · have hbalance := h.balance k'
      rw [occurrences_concat]
      show _ = Function.update t.retains k (t.retains k + 1) k' + extra k'
      rw [Function.update_apply]
      by_cases heq : k' = k
      · rw [if_pos heq, if_pos ⟨heq, hkey⟩, ← heq]
        show t.releases k' + _ = _
        omega
      · rw [if_neg heq, if_neg fun h => heq h.1]
        exact hbalance

/-- The retain of a key that has none; the key's new entry is an extra
one. -/
theorem retain_absent (h : Tallied elementSize m tree t held extra w)
    (hkey : k ≠ emptyMarker) (hdead : t.book.ledger.refs k = 0) :
    ∃ p t' m', (cxLruRcRadixTreeTallied.retain (tree, t) k).run m
        = .ok (p, tree, t') m'
      ∧ Tallied elementSize m' tree t' held
        (Function.update extra k (extra k + 1)) (w ++ [k]) := by
  obtain ⟨g, hg⟩ := h.holds
  refine ⟨0, t, m, ?_, ?_⟩
  · show ((cxRcRadixTreeRetain tree k >>= _) >>= _).run m = _
    rw [C.run_bind, C.run_bind, hg.run_retain_absent hdead, C.chain_ok,
      C.run_pure, C.chain_ok, C.run_pure]
    rfl
  · refine ⟨h.holds, fun k' hk' => ?_, fun k' hk' => ?_, fun k' => ?_⟩
    · rw [Function.update_apply] at hk'
      by_cases heq : k' = k
      · rw [if_pos heq] at hk'
        cases hk'
      · rw [if_neg heq] at hk'
        rw [occurrences_concat, if_neg fun h => heq h.1, Nat.add_zero]
        exact h.backed k' hk'
    · rw [Function.update_apply] at hk'
      by_cases heq : k' = k
      · rw [heq]
        exact hdead
      · rw [if_neg heq] at hk'
        exact h.absent k' hk'
    · have hbalance := h.balance k'
      rw [occurrences_concat, Function.update_apply]
      by_cases heq : k' = k
      · rw [if_pos heq, if_pos ⟨heq, hkey⟩, ← heq]
        omega
      · rw [if_neg heq, if_neg fun h => heq h.1]
        exact hbalance

/-- A touch that changes nothing. -/
theorem touch_idle (hq : Queue lru w) (hidle : Idle w k) :
    (cxLruTouch lru (tree, t) k).run m = .ok (0, lru, tree, t) m :=
  hq.run_cxLruTouch_idle hidle

/-- A touch that enters its key, given what the retain does. -/
theorem touch_enters {Q : Machine → CxRcRadixTree → LruTally → Prop}
    (himpl : lru.impl = cxLruRcRadixTreeTallied) (hq : Queue lru w)
    (h : Tallied elementSize m tree t held extra w) (hidle : ¬ Idle w k)
    (hretain : ∀ m₁ tree₁ t₁, Tallied elementSize m₁ tree₁ t₁ held extra w.tail →
      t₁.book.ledger.refs k = t.book.ledger.refs k →
      ∃ p t₂ m₂, (cxLruRcRadixTreeTallied.retain (tree₁, t₁) k).run m₁
          = .ok (p, tree₁, t₂) m₂ ∧ Q m₂ tree₁ t₂) :
    (cxLruTouch lru (tree, t) k).Granted m fun r m' =>
      r.2.1.impl = cxLruRcRadixTreeTallied ∧ Queue r.2.1 (w.tail ++ [k])
        ∧ Q m' r.2.2.1 r.2.2.2 := by
  obtain ⟨old, rest, rfl, hne⟩ := cons_of_not_idle hidle
  refine C.Granted.of_run_eq ?_ (hq.run_cxLruTouch hidle)
  refine granted_bind (h.releaseItem_granted himpl) ?_
  intro r m₁ hr
  obtain ⟨tree₁, t₁, rfl, h₁⟩ := hr
  obtain ⟨p, t₂, m₂, hrun, h₂⟩ :=
    hretain m₁ tree₁ t₁ h₁ (h.refs_tail h₁ hne)
  rw [himpl]
  exact granted_bind_run hrun (granted_pure ⟨himpl, hq.next_queue, h₂⟩)

/-- Users changed the tree and what they hold. -/
theorem users (h : Tallied elementSize m tree t held (fun _ => 0) w)
    {m' : Machine} {tree' : CxRcRadixTree} {book : RcBook}
    {held' : UInt64 → Nat} (hholds : RcTreeHolds elementSize m' tree' book)
    (hrefs : ∀ k, book.ledger.refs k = held' k + occurrences w k) :
    Tallied elementSize m' tree' { t with book := book } held' (fun _ => 0) w :=
  ⟨hholds, fun k _ => hrefs k, fun _ hk => absurd rfl hk, h.balance⟩

end Tallied

-- ==================================================================== runs

variable {s : LruTallyClient}

/-- No entry is an extra one. -/
structure LruTallyInv (elementSize : Nat) (s : LruTallyClient) (m : Machine)
    (w : List UInt64) : Prop where
  impl : s.lru.impl = cxLruRcRadixTreeTallied
  queue : Queue s.lru w
  account : Tallied elementSize m s.tree s.tally s.held (fun _ => 0) w

theorem LruTallyInv.refs (h : LruTallyInv elementSize s m w) (k : UInt64) :
    s.tally.book.ledger.refs k = s.held k + occurrences w k :=
  h.account.backed k rfl

/-- A user takes a reference. -/
theorem LruTallyInv.take (h : LruTallyInv elementSize s m w) {m' : Machine}
    {tree : CxRcRadixTree} {book : RcBook}
    (hholds : RcTreeHolds elementSize m' tree book)
    (hrefs : ∀ k', book.ledger.refs k' = if k' = k
      then s.tally.book.ledger.refs k + 1 else s.tally.book.ledger.refs k') :
    LruTallyInv elementSize (s.used tree book k (s.held k + 1)) m' w := by
  refine ⟨h.impl, h.queue, h.account.users hholds fun k' => ?_⟩
  rw [hrefs]
  show _ = Function.update s.held k (s.held k + 1) k' + occurrences w k'
  rw [Function.update_apply]
  split
  case isTrue heq => rw [heq, h.refs, Nat.add_right_comm]
  case isFalse => exact h.refs k'

/-- Every allowed operation whose touch is backed keeps the account. -/
theorem tallyInv_exec (hsize : 16 * (rcSize + elementSize) < 2 ^ 64)
    (h : LruTallyInv elementSize s m w) {op : LruTallyOp} (hop : op.Allowed s)
    (hbacked : op.Backed s) :
    (LruTallyClient.exec op s).Granted m fun s' m' =>
      ∃ w', LruTallyInv elementSize s' m' w' := by
  have hS := rcRadixTreeStore_sound hsize
  obtain ⟨g, hg⟩ := h.account.holds
  cases op with
  | put k v =>
      obtain ⟨hv, hlt⟩ := hop
      refine granted_bind (hS.put h.account.holds rfl (hv.trans hg.elementSize)
        hlt) ?_
      intro r m' hk
      exact granted_pure ⟨w, h.take hk fun k' => Ledger.refs_put ..⟩
  | retain k =>
      by_cases hdead : s.tally.book.ledger.refs k = 0
      · refine granted_bind_run (hg.run_retain_absent hdead) ?_
        exact granted_pure ⟨w, h⟩
      · obtain ⟨m', hrun, hg'⟩ := hg.run_retain hdead hop
        refine granted_bind_run hrun ?_
        rw [if_neg (hg.element_ne hdead)]
        exact granted_pure ⟨w, h.take ⟨g, hg'⟩ fun k' => Ledger.refs_retain hdead⟩
  | release k =>
      have hheld : s.held k ≠ 0 := hop
      have hlive : s.tally.book.ledger.refs k ≠ 0 := by
        rw [h.refs]
        omega
      obtain ⟨tree', m', g', hrun, -, hg'⟩ := hg.run_release hlive
      refine granted_bind_run hrun (granted_pure ⟨w, h.impl, h.queue,
        h.account.users ⟨g', hg'⟩ fun k' => ?_⟩)
      have hrefs := h.refs k'
      rw [Ledger.refs_release hlive]
      show _ = Function.update s.held k (s.held k - 1) k' + occurrences w k'
      rw [Function.update_apply]
      split
      case isTrue heq => rw [heq] at hrefs ⊢; omega
      case isFalse => exact hrefs
  | touch k =>
      obtain ⟨hkey, hlt⟩ := hop
      by_cases hidle : Idle w k
      · refine granted_bind_run (Tallied.touch_idle h.queue hidle) ?_
        exact granted_pure ⟨w, h⟩
      · have hlive : s.tally.book.ledger.refs k ≠ 0 := by
          refine hbacked.resolve_left ?_
          rwa [h.queue.window]
        refine granted_bind (h.account.touch_enters h.impl h.queue hidle
          fun m₁ tree₁ t₁ h₁ hsame => h₁.retain_live hkey ?_ ?_) ?_
        · rwa [hsame]
        · rwa [hsame]
        intro r m' hr
        obtain ⟨himpl, hq, haccount⟩ := hr
        exact granted_pure ⟨_, himpl, hq, haccount⟩
  | cleanup =>
      refine granted_bind (h.account.cleanup_granted h.impl h.queue) ?_
      intro r m' hr
      obtain ⟨lru', tree', t', rfl, himpl, hq, haccount⟩ := hr
      exact granted_pure ⟨[], himpl, hq, haccount⟩

theorem tallyInv_start (hsize : 16 * (rcSize + elementSize) < 2 ^ 64) {mem : Mem}
    {oracle : Nat → Nat}
    (hrun : (LruTallyClient.start elementSize size).run (Machine.boot mem oracle)
      = .ok s m) (hu : m.refused = false) :
    ∃ w, LruTallyInv elementSize s m w := by
  have hS := rcRadixTreeStore_sound hsize
  unfold LruTallyClient.start at hrun
  rw [C.run_bind] at hrun
  cases hinit : (cxRcRadixTreeInit elementSize).run (Machine.boot mem oracle) with
  | fault e m₁ =>
      rw [hinit] at hrun
      cases hrun
  | ok tree m₁ =>
      rw [hinit, C.chain_ok] at hrun
      have hholds := hS.start mem oracle tree m₁ hinit (unrefused_of_run hrun hu)
      refine C.Granted.of_run
        (Q := fun s m => ∃ w, LruTallyInv elementSize s m w) ?_ hrun hu
      refine granted_bind (cxLruInit_granted m₁ size cxLruRcRadixTreeTallied) ?_
      intro r m₂ hr
      obtain ⟨hrv, himpl, hqueue, hmem, harena, hcalls⟩ := hr
      refine granted_bind_run (run_assert hrv) (granted_pure
        ⟨_, himpl, hqueue, hS.transfer hholds hmem harena hcalls, ?_, ?_, ?_⟩)
      · intro k _
        rw [occurrences_replicate]
        rfl
      · exact fun k hk => absurd rfl hk
      · intro k
        rw [occurrences_replicate]

/-- A touch, and the cleanup of the cache. -/
def LruTallyClient.touchAndCleanUp (s : LruTallyClient) (k : UInt64) :
    C LruTallyClient := do
  let s ← LruTallyClient.exec (.touch k) s
  LruTallyClient.exec .cleanup s

/-- A touch that is not backed makes a release without a retain. -/
theorem LruTallyInv.uncovered (h : LruTallyInv elementSize s m w)
    (hop : (LruTallyOp.touch k).Allowed s)
    (hnot : ¬ (LruTallyOp.touch k).Backed s) :
    (s.touchAndCleanUp k).Granted m fun s' _ =>
      s'.tally.retains k < s'.tally.releases k := by
  obtain ⟨hkey, -⟩ := hop
  unfold LruTallyOp.Backed at hnot
  rw [h.queue.window, not_or, not_not] at hnot
  obtain ⟨hidle, hdead⟩ := hnot
  have htouch : (LruTallyClient.exec (.touch k) s).Granted m fun s' m' =>
      ∃ w', s'.lru.impl = cxLruRcRadixTreeTallied ∧ Queue s'.lru w'
        ∧ Tallied elementSize m' s'.tree s'.tally s.held
          (Function.update (fun _ => 0) k 1) w' := by
    refine granted_bind (h.account.touch_enters h.impl h.queue hidle
      fun m₁ tree₁ t₁ h₁ hsame => h₁.retain_absent hkey ?_) ?_
    · rwa [hsame]
    · intro r m' hr
      obtain ⟨himpl, hq, haccount⟩ := hr
      exact granted_pure ⟨_, himpl, hq, haccount⟩
  refine granted_bind htouch ?_
  intro s' m' hs'
  obtain ⟨w', himpl, hq, haccount⟩ := hs'
  refine granted_bind (haccount.cleanup_granted himpl hq) ?_
  intro r m'' hr
  obtain ⟨lru'', tree'', t'', rfl, -, -, haccount''⟩ := hr
  refine granted_pure ?_
  have hbalance := haccount''.balance k
  rw [Function.update_self] at hbalance
  have hnil : occurrences [] k = 0 := by
    unfold occurrences
    split <;> rfl
  show t''.retains k < t''.releases k
  omega

-- ============================================================ the account

/-- What holds in a state of a run whose touches are backed. -/
structure LruCovered (elementSize : Nat) (s : LruTallyClient) (m : Machine) :
    Prop where
  covered : ∀ k, s.tally.releases k ≤ s.tally.retains k
  /-- the users' references are there -/
  counters : ∀ k, ∃ count : Nat, s.held k ≤ count
    ∧ ((rcRadixTreeStore elementSize).refCount s.tree k).run m = .ok (count : Int) m
  kept : ∀ k, s.held k ≠ 0 →
    s.tally.book.ledger.origin k ∉ s.tally.book.ledger.cleaned
  calls : m.calls = s.tally.book.ledger.log
  progress : ∀ op : LruTallyOp, op.Allowed s → op.Backed s →
    (LruTallyClient.exec op s).Granted m fun _ _ => True
  /-- after any other touch, a cleanup releases what was not retained -/
  uncovered : ∀ k, (LruTallyOp.touch k).Allowed s →
    ¬ (LruTallyOp.touch k).Backed s →
    (s.touchAndCleanUp k).Granted m fun s' _ =>
      s'.tally.retains k < s'.tally.releases k

/-- In every state of every run whose touches are backed, the cache has
released no more than it retained, and no user's reference is gone. -/
theorem cxLruRcRadixTree_covered {mem : Mem} {oracle : Nat → Nat}
    (hsize : 16 * (rcSize + elementSize) < 2 ^ 64)
    (h : Reached (LruTallyClient.start elementSize size) LruTallyClient.exec
      (fun s _ op => op.Allowed s ∧ op.Backed s) (Machine.boot mem oracle)
      s m) : LruCovered elementSize s m := by
  have hS := rcRadixTreeStore_sound hsize
  have hinv : ∃ w, LruTallyInv elementSize s m w := by
    apply h.invariant fun s m => ∃ w, LruTallyInv elementSize s m w
    · intro s m hrun hu
      exact tallyInv_start hsize hrun hu
    · intro s m op hinv hop
      obtain ⟨w, hinv⟩ := hinv
      exact tallyInv_exec hsize hinv hop.1 hop.2
  obtain ⟨w, hinv⟩ := hinv
  refine ⟨fun k => ?_, fun k => ?_, fun k hk => ?_, hS.calls hinv.account.holds,
    fun op hop hbacked => ?_, fun k hop hnot => hinv.uncovered hop hnot⟩
  · have hbalance := hinv.account.balance k
    omega
  · refine ⟨s.tally.book.ledger.refs k, ?_, hS.refCount hinv.account.holds rfl⟩
    rw [hinv.refs]
    exact Nat.le_add_right _ _
  · refine Ledger.origin_not_cleaned ?_
    rw [hinv.refs]
    omega
  · exact (tallyInv_exec hsize hinv hop hbacked).imp fun _ _ _ => trivial

/-- A cache of one entry: the touch of key 6 evicts key 5, which its user
still holds. -/
theorem cxLruRcRadixTree_covered_evicts : ∃ s m,
    Reached (LruTallyClient.start 1 1) LruTallyClient.exec
      (fun s _ op => op.Allowed s ∧ op.Backed s)
      (Machine.boot (fun _ => 0) fun t => 2 ^ 20 * (t + 1)) s m
      ∧ s.tally.releases 5 = 1 ∧ s.held 5 = 1 ∧ LruCovered 1 s m := by
  obtain ⟨s, m, hrun, htest⟩ := reached_of_replayFrom
    (LruTallyClient.start 1 1) LruTallyClient.exec
    (fun s _ op => op.Allowed s ∧ op.Backed s)
    (Machine.boot (fun _ => 0) fun t => 2 ^ 20 * (t + 1))
    [.put 5 [50], .touch 5, .put 6 [60], .touch 6]
    (fun x => decide (x.1.tally.releases 5 = 1 ∧ x.1.held 5 = 1))
    (by decide +kernel)
  obtain ⟨hreleases, hheld⟩ := of_decide_eq_true htest
  exact ⟨s, m, hrun, hreleases, hheld, cxLruRcRadixTree_covered (by decide) hrun⟩

/-- Key 5 is touched before it is put. The touch of key 6 then releases
what the user holds, and the value is cleaned up. -/
theorem cxLruRcRadixTree_overdrawn : ∃ s m,
    LruTallyClient.Run 1 1 (fun _ => 0) (fun t => 2 ^ 20 * (t + 1)) s m
      ∧ s.tally.retains 5 < s.tally.releases 5 ∧ s.held 5 = 1
      ∧ m.calls = [[50]] := by
  obtain ⟨s, m, hrun, htest⟩ := reached_of_replayFrom
    (LruTallyClient.start 1 1) LruTallyClient.exec
    (fun s _ op => op.Allowed s)
    (Machine.boot (fun _ => 0) fun t => 2 ^ 20 * (t + 1))
    [.touch 5, .put 5 [50], .put 6 [60], .touch 6]
    (fun x => decide (x.1.tally.retains 5 < x.1.tally.releases 5
      ∧ x.1.held 5 = 1 ∧ x.2.calls = [[50]]))
    (by decide +kernel)
  exact ⟨s, m, hrun, of_decide_eq_true htest⟩

end Cextras.Collection
