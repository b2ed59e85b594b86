/-
What a radix tree owns: its two pools. No operation hands a block to its
caller for keeps, so the cleanup of the pools gives back everything the
tree took since it was set up, after any run of operations, those that put
a key twice or delete a missing one included (`cxRadixTree_teardown`).

The reference-counted tree is torn down the same way, without a look at the
counters: the values under keys that are still held go with their leaves and
are never cleaned up (`cxRcRadixTree_teardown`).
-/
import Cextras.Memory.Proofs.PoolFootprint
import Cextras.Collection.Proofs.RadixRuns
import Cextras.Collection.Proofs.RcRadix

namespace Cextras.Collection

open Lib Memory

variable {m : Machine} {t : CxRadixTree} {f : Footprint}

def TreeOwns (t : CxRadixTree) (f : Footprint) : Prop :=
  ∃ fb fl, PoolOwns t.branchPool fb ∧ PoolOwns t.leafPool fl ∧ f = fb + fl

-- ============================================================ operations

theorem getBranch_turns (h : TreeOwns t f) :
    (cxPreallocPoolGet t.branchPool).Turns True f fun r g =>
      TreeOwns { t with branchPool := r.2 } g := by
  obtain ⟨fb, fl, hb, hl, rfl⟩ := h
  rw [add_comm]
  refine turns_part fl (cxPreallocPoolGet_turns hb) ?_
  intro r g hr
  exact ⟨g, fl, hr, hl, add_comm _ _⟩

theorem getLeaf_turns (h : TreeOwns t f) :
    (cxPreallocPoolGet t.leafPool).Turns True f fun r g =>
      TreeOwns { t with leafPool := r.2 } g := by
  obtain ⟨fb, fl, hb, hl, rfl⟩ := h
  refine turns_part fb (cxPreallocPoolGet_turns hl) ?_
  intro r g hr
  exact ⟨fb, g, hb, hr, rfl⟩

theorem cxRadixTreeInit_turns {elementSize : Nat}
    (hsize : 16 * elementSize < 2 ^ 64) :
    (cxRadixTreeInit elementSize).Turns True 0 TreeOwns := by
  unfold cxRadixTreeInit cxPreallocPoolInit
  refine turns_bind (cxPreallocPoolInit2_turns (by decide)) ?_
  intro branchPool fb hb
  have hleaf : (cxPreallocPoolInit2 8 elementSize).Turns True (fb + 0)
      fun leafPool g => ∃ fl, PoolOwns leafPool fl ∧ g = fb + fl := by
    refine turns_part fb (cxPreallocPoolInit2_turns (by omega)) ?_
    intro leafPool fl hl
    exact ⟨fl, hl, rfl⟩
  rw [add_zero] at hleaf
  refine turns_bind hleaf ?_
  intro leafPool g hr
  obtain ⟨fl, hl, rfl⟩ := hr
  exact turns_pure ⟨fb, fl, hb, hl, rfl⟩

theorem resizeLoop_turns (key : UInt64) (turns : Nat) :
    ∀ (t : CxRadixTree) (f : Footprint), TreeOwns t f →
      (resizeLoop turns t key).Turns True f fun r g => TreeOwns r.2 g := by
  induction turns with
  | zero => exact fun t f h => turns_pure h
  | succ turns ih =>
      intro t f h
      unfold resizeLoop
      refine turns_ite (fun _ => ?_) fun _ => turns_pure h
      have hcap : TreeOwns { t with capacity := growCapacity t.capacity } f := h
      refine turns_bind (getBranch_turns hcap) ?_
      intro r g hr
      refine turns_ite (fun _ => turns_pure hr) fun _ => ?_
      refine turns_after (.store64 _ _) fun _ _ => ?_
      exact ih _ g hr

theorem fillChild_turns (h : TreeOwns t f) (branch index : Nat)
    (last occupied : Bool) :
    (fillChild t branch index last occupied).Turns True f TreeOwns := by
  unfold fillChild
  refine turns_ite (fun _ => ?_) fun _ => turns_ite (fun _ => ?_)
    fun _ => turns_pure h
  · refine turns_bind (getLeaf_turns h) ?_
    intro r g hr
    exact turns_after (.store64 _ _) fun _ _ => turns_pure hr
  · refine turns_bind (getBranch_turns h) ?_
    intro r g hr
    exact turns_after (.store64 _ _) fun _ _ => turns_pure hr

theorem newLeafLoop_turns (t : CxRadixTree) (node : Nat)
    (capacity key : UInt64) (occupied : Bool) (f : Footprint)
    (h : TreeOwns t f) :
    (newLeafLoop t node capacity key occupied).Turns True f
      fun r g => TreeOwns r.2.2 g := by
  rw [newLeafLoop]
  split
  · refine turns_after (.nonNull _) fun _ _ => ?_
    refine turns_after (.load64 _) fun child _ => ?_
    refine turns_bind (fillChild_turns h _ _ _ _) ?_
    intro t' g ht'
    refine turns_after (.load64 _) fun next _ => ?_
    exact newLeafLoop_turns t' next (capacity >>> 8) (key >>> 8) _ g ht'
  · exact turns_pure h
termination_by capacity.toNat
decreasing_by exact shift_lt ‹_›

theorem cxRadixTreeNewLeaf_turns (h : TreeOwns t f) (key : UInt64) :
    (cxRadixTreeNewLeaf t key).Turns True f fun r g => TreeOwns r.2 g := by
  unfold cxRadixTreeNewLeaf resize
  refine turns_bind (resizeLoop_turns key 8 t f h) ?_
  intro r g hr
  refine turns_ite (fun _ => turns_pure hr) fun _ => ?_
  refine turns_ite (fun _ => ?_) fun _ => ?_
  · refine turns_bind (getLeaf_turns hr) ?_
    intro r' g' hr'
    exact turns_pure hr'
  · refine turns_bind (newLeafLoop_turns _ _ _ _ _ g hr) ?_
    intro r' g' hr'
    exact turns_ite (fun _ => turns_pure hr') fun _ => turns_pure hr'

theorem cxRadixTreePut_turns (h : TreeOwns t f) (key : UInt64)
    (value : List Byte) :
    (cxRadixTreePut t key value).Turns True f fun r g => TreeOwns r.2 g := by
  unfold cxRadixTreePut
  refine turns_bind (cxRadixTreeNewLeaf_turns h key) ?_
  intro r g hr
  refine turns_ite (fun _ => ?_) fun _ => turns_pure hr
  exact turns_after (.writeBytes _ _) fun _ _ => turns_pure hr

/-- The descents only look. -/
theorem getLoop_still (node : Nat) (capacity key : UInt64) :
    (getLoop node capacity key).Still := by
  rw [getLoop]
  split
  · exact .bind (.load64 _) fun child _ => getLoop_still child _ _
  · exact .pure trivial
termination_by capacity.toNat
decreasing_by exact shift_lt (And.left ‹_›)

theorem cxRadixTreeGet_still (t : CxRadixTree) (key : UInt64) :
    (cxRadixTreeGet t key).Still := by
  unfold cxRadixTreeGet
  exact .ite (fun _ => .pure trivial) fun _ => getLoop_still _ _ _

theorem readRef_still (t : CxRadixTree) (ref : NodeRef) :
    (readRef t ref).Still := by
  cases ref with
  | none => exact .pure trivial
  | some a => exact .load64 a

theorem writeRef_turns (h : TreeOwns t f) (v : Nat) (ref : NodeRef) :
    (writeRef t v ref).Turns True f TreeOwns := by
  cases ref with
  | none => exact turns_pure h
  | some a => exact turns_after (.store64 a v) fun _ _ => turns_pure h

theorem deleteLoop_still (t : CxRadixTree) (ref : NodeRef)
    (capacity key : UInt64) : (deleteLoop t ref capacity key).Still := by
  rw [deleteLoop]
  split
  · refine .bind (readRef_still t ref) fun node _ => ?_
    exact .ite (fun _ => deleteLoop_still t _ _ _) fun _ => .pure trivial
  · exact .pure trivial
termination_by capacity.toNat
decreasing_by exact shift_lt ‹_›

theorem cxRadixTreeDelete_turns (h : TreeOwns t f) (key : UInt64) :
    (cxRadixTreeDelete t key).Turns True f fun r g => TreeOwns r.2 g := by
  unfold cxRadixTreeDelete
  refine turns_after (deleteLoop_still _ _ _ _) fun found _ => ?_
  refine turns_ite (fun _ => ?_) fun _ => turns_pure h
  refine turns_after (readRef_still _ _) fun node _ => ?_
  obtain ⟨fb, fl, hb, hl, rfl⟩ := h
  refine turns_bind (turns_part fb (cxPreallocPoolRecycle_turns hl node)
    (S := fun leafPool g => TreeOwns { t with leafPool := leafPool } g)
    fun leafPool g hg => ⟨fb, g, hb, hg, rfl⟩) ?_
  intro leafPool g hg
  refine turns_bind (writeRef_turns hg 0 found.1) ?_
  intro t' g' hg'
  exact turns_pure hg'

-- =============================================================== teardown

theorem TreeOp.exec_turns (h : TreeOwns t f) (op : TreeOp) :
    (op.exec t).Turns True f TreeOwns := by
  cases op with
  | put key value =>
      refine turns_bind (cxRadixTreePut_turns h key value) ?_
      exact fun r g hr => turns_pure hr
  | newLeaf key =>
      refine turns_bind (cxRadixTreeNewLeaf_turns h key) ?_
      exact fun r g hr => turns_pure hr
  | write key i value =>
      refine turns_after (cxRadixTreeGet_still t key) fun leaf _ => ?_
      refine turns_ite (fun _ => ?_) fun _ => turns_pure h
      exact turns_after (.writeBytes _ _) fun _ _ => turns_pure h
  | delete key =>
      refine turns_bind (cxRadixTreeDelete_turns h key) ?_
      exact fun r g hr => turns_pure hr
  | get key =>
      exact turns_after (cxRadixTreeGet_still t key) fun _ _ => turns_pure h

theorem cxRadixTreeCleanup_frees (h : TreeOwns t f) :
    (cxRadixTreeCleanup t).Frees f := by
  obtain ⟨fb, fl, hb, hl, rfl⟩ := h
  rw [add_comm]
  exact frees_bind (cxPreallocPoolCleanup_frees hb)
    fun _ => cxPreallocPoolCleanup_frees hl

/-- After any run of operations, on a machine that may hold other things,
the cleanup ends and what is allocated is what was before the tree was set
up. -/
theorem cxRadixTree_teardown {elementSize : Nat} {m₀ : Machine}
    (hsize : 16 * elementSize < 2 ^ 64) (htidy : m₀.Tidy)
    (h : Reached (cxRadixTreeInit elementSize) TreeOp.exec
      (fun t _ op => op.Allowed t) m₀ t m) :
    ∃ m', (cxRadixTreeCleanup t).run m = .ok () m'
      ∧ m'.arena.blocks.Perm m₀.arena.blocks ∧ m'.arrays.Perm m₀.arrays
      ∧ m'.calls = m.calls := by
  obtain ⟨ht, f, hown, hheld⟩ := h.held TreeOwns htidy (cxRadixTreeInit_turns hsize)
    fun t m op f hown _ => TreeOp.exec_turns hown op
  obtain ⟨_, m', hrun, hdone, hcalls⟩ :=
    (cxRadixTreeCleanup_frees hown).run ht hheld
  obtain ⟨hblocks, harrays⟩ := Prod.ext_iff.mp hdone
  exact ⟨m', hrun, Multiset.coe_eq_coe.mp hblocks,
    Multiset.coe_eq_coe.mp harrays, hcalls⟩

/-- Beside a block of someone else's: a key is put twice and another one
deleted that takes a leaf along, and only that block is left. -/
theorem cxRadixTree_teardown_beside : ∃ m₀ t m m',
    m₀.arena.blocks = [⟨4096, 16⟩]
      ∧ Reached (cxRadixTreeInit 8) TreeOp.exec (fun t _ op => op.Allowed t)
          m₀ t m
      ∧ m.arena.blocks.length = 3
      ∧ (cxRadixTreeCleanup t).run m = .ok () m'
      ∧ m'.arena.blocks = [⟨4096, 16⟩] := by
  let arena : Arena := ⟨[⟨4096, 16⟩], by simp, by simp⟩
  let m₀ : Machine :=
    ⟨fun _ => 0, arena, [], fun t => 2 ^ 20 * (t + 1), 0, false, []⟩
  have htidy : m₀.Tidy :=
    ⟨by simp [m₀, arena, Arena.Solid], by simp [m₀], by simp [m₀]⟩
  obtain ⟨t, m, hrun, htest⟩ := reached_of_replayFrom
    (cxRadixTreeInit 8) TreeOp.exec (fun t _ op => op.Allowed t) m₀
    [.put 300 [1, 2, 3, 4, 5, 6, 7, 8], .put 300 [8, 7, 6, 5, 4, 3, 2, 1],
      .put 1 [1, 1, 1, 1, 1, 1, 1, 1], .delete 2]
    (fun x => decide (x.2.arena.blocks.length = 3))
    (by decide +kernel)
  obtain ⟨m', hclean, hblocks, -⟩ :=
    cxRadixTree_teardown (by decide) htidy hrun
  exact ⟨m₀, t, m, m', rfl, hrun, of_decide_eq_true htest, hclean,
    List.perm_singleton.mp hblocks⟩

-- ======================================================= reference counted

section Counted

variable {r : CxRcRadixTree}

def RcTreeOwns (r : CxRcRadixTree) (f : Footprint) : Prop :=
  TreeOwns r.values f

theorem cxRcRadixTreeInit_turns {elementSize : Nat}
    (hsize : 16 * (rcSize + elementSize) < 2 ^ 64) :
    (cxRcRadixTreeInit elementSize).Turns True 0 RcTreeOwns := by
  unfold cxRcRadixTreeInit
  refine turns_bind (cxRadixTreeInit_turns hsize) ?_
  exact fun values g hg => turns_pure hg

theorem incrementRc_still (obj : Nat) : (incrementRc obj).Still :=
  .bind (.load64 _) fun _ _ => .store64 _ _

theorem radixTreeRetain_still (r : CxRcRadixTree) (key : UInt64) :
    (radixTreeRetain r key).Still := by
  unfold radixTreeRetain
  refine .bind (cxRadixTreeGet_still _ _) fun obj _ => ?_
  refine .ite (fun _ => .pure trivial) fun _ => ?_
  refine .bind (.load64 _) fun rc _ => .bind (.assert _) fun _ _ => ?_
  exact .bind (incrementRc_still _) fun _ _ => .pure trivial

theorem cxRcRadixTreePut_turns (h : RcTreeOwns r f) (key : UInt64)
    (value : List Byte) :
    (cxRcRadixTreePut r key value).Turns True f
      fun res g => RcTreeOwns res.2 g := by
  unfold cxRcRadixTreePut
  refine turns_after (radixTreeRetain_still _ _) fun obj _ => ?_
  refine turns_ite (fun _ => ?_) fun _ =>
    turns_after (.callback _) fun _ _ => turns_pure h
  refine turns_bind (cxRadixTreeNewLeaf_turns h key) ?_
  intro leaf g hg
  refine turns_after (.assert _) fun _ _ => ?_
  refine turns_after (.writeBytes _ _) fun _ _ => ?_
  exact turns_after (.store64 _ _) fun _ _ => turns_pure hg

theorem cxRcRadixTreeRelease_turns (h : RcTreeOwns r f) (key : UInt64) :
    (cxRcRadixTreeRelease r key).Turns True f
      fun res g => RcTreeOwns res.2 g := by
  unfold cxRcRadixTreeRelease
  refine turns_after (cxRadixTreeGet_still _ _) fun obj _ => ?_
  refine turns_ite (fun _ => turns_pure h) fun _ => ?_
  refine turns_after (.load64 _) fun rc _ => ?_
  refine turns_after (.assert _) fun _ _ => ?_
  refine turns_ite (fun _ => ?_) fun _ =>
    turns_after (.store64 _ _) fun _ _ => turns_pure h
  refine turns_after (.readBytes _ _) fun value _ => ?_
  refine turns_after (.callback _) fun _ _ => ?_
  refine turns_bind (cxRadixTreeDelete_turns h key) ?_
  exact fun res g hg => turns_pure hg

theorem cxRcRadixTreeRetain_still (r : CxRcRadixTree) (key : UInt64) :
    (cxRcRadixTreeRetain r key).Still := by
  unfold cxRcRadixTreeRetain
  refine .bind (radixTreeRetain_still _ _) fun obj _ => ?_
  exact .ite (fun _ => .pure trivial) fun _ => .pure trivial

theorem cxRcRadixTreeCleanup_frees (h : RcTreeOwns r f) :
    (cxRcRadixTreeCleanup r).Frees f := by
  have hfrees := frees_bind (cxRadixTreeCleanup_frees h)
    fun _ => frees_pure (0 : Int)
  rwa [zero_add] at hfrees

theorem cxRcRadixTreeCleanup_zero :
    (cxRcRadixTreeCleanup r).Ensures fun rv => rv = 0 :=
  .after fun _ => .pure rfl

theorem RcClient.exec_turns {s : RcClient} (h : RcTreeOwns s.tree f)
    (op : RcOp) :
    (RcClient.exec op s).Turns True f fun s g => RcTreeOwns s.tree g := by
  cases op with
  | put k v =>
      refine turns_bind (cxRcRadixTreePut_turns h k v) ?_
      exact fun res g hg => turns_pure hg
  | retain k =>
      refine turns_after (cxRcRadixTreeRetain_still _ _) fun p _ => ?_
      exact turns_ite (fun _ => turns_pure h) fun _ => turns_pure h
  | retainValue k =>
      exact turns_after (incrementRc_still _) fun _ _ => turns_pure h
  | release k =>
      refine turns_bind (cxRcRadixTreeRelease_turns h k) ?_
      intro res g hg
      exact turns_ite (fun _ => turns_pure hg) fun _ => turns_pure hg

/-- After any run the cleanup ends, whatever is still held, with all memory
back and no value cleaned up on the way: those that live keys keep never
are. -/
theorem cxRcRadixTree_teardown {mem : Mem} {oracle : Nat → Nat}
    {elementSize : Nat} {s : RcClient}
    (hsize : 16 * (rcSize + elementSize) < 2 ^ 64)
    (h : RcClient.Run elementSize mem oracle s m) :
    ∃ m', (cxRcRadixTreeCleanup s.tree).run m = .ok 0 m'
      ∧ m'.arena.blocks = [] ∧ m'.arrays = []
      ∧ m'.calls = s.book.ledger.log
      ∧ ∀ i < s.book.ledger.values.length, s.book.ledger.cleaned.count i
          = if i ∈ s.book.ledger.live.map s.book.ledger.origin then 0 else 1 := by
  obtain ⟨g, htree⟩ := rcTree_run hsize h
  obtain ⟨ht, f, hown, hheld⟩ := h.held (fun s g => RcTreeOwns s.tree g)
    (Machine.tidy_boot _ _)
    (turns_bind (cxRcRadixTreeInit_turns hsize) fun _ _ hg => turns_pure hg)
    fun s m op f hown _ => RcClient.exec_turns hown op
  rw [Machine.held_boot] at hheld
  obtain ⟨rv, m', hrun, hdone, hcalls⟩ :=
    (cxRcRadixTreeCleanup_frees hown).run ht hheld
  obtain ⟨hblocks, harrays⟩ := Machine.held_eq_zero hdone
  obtain rfl : rv = 0 := cxRcRadixTreeCleanup_zero.result m rv m' hrun
  refine ⟨m', hrun, hblocks, harrays, hcalls.trans htree.calls, ?_⟩
  intro i hi
  have hcount := s.book.ledger.cleaned_count hi
  split
  · next hkept =>
      have hpos := List.count_pos_iff.mpr hkept
      omega
  · next hgone =>
      have hzero := List.count_eq_zero.mpr hgone
      omega

/-- One of two values is still held at the end, and never cleaned up. -/
theorem cxRcRadixTree_teardown_held : ∃ s m m',
    RcClient.Run 8 (fun _ => 0) (fun t => 2 ^ 20 * (t + 1)) s m
      ∧ s.book.ledger.refs 5 = 1
      ∧ (cxRcRadixTreeCleanup s.tree).run m = .ok 0 m'
      ∧ m'.arena.blocks = [] ∧ m'.calls = [[8, 7, 6, 5, 4, 3, 2, 1]] := by
  obtain ⟨s, m, hrun, htest⟩ := reached_of_replayFrom
    (RcClient.start 8) RcClient.exec
    (fun s _ op => op.Allowed s)
    (Machine.boot (fun _ => 0) fun t => 2 ^ 20 * (t + 1))
    [.put 5 [1, 2, 3, 4, 5, 6, 7, 8], .put 700 [8, 7, 6, 5, 4, 3, 2, 1],
      .release 700]
    (fun x => decide (x.1.book.ledger.refs 5 = 1
      ∧ x.1.book.ledger.log = [[8, 7, 6, 5, 4, 3, 2, 1]]))
    (by decide +kernel)
  obtain ⟨hrefs, hlog⟩ := of_decide_eq_true htest
  obtain ⟨m', hclean, hblocks, -, hcalls, -⟩ :=
    cxRcRadixTree_teardown (by decide) hrun
  exact ⟨s, m, m', hrun, hrefs, hclean, hblocks, hcalls.trans hlog⟩

end Counted

end Cextras.Collection
