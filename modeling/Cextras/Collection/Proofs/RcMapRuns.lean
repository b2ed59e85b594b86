/-
The ownership law of the reference-counted array. Users name an element by
its index or by its address, and `ArrayClient` enters both into one book,
under the index. In every state of every run the counters are the references
the book counts, the callback ran on exactly the values the book says were
cleaned up, and the array may be taken down if and only if no reference is
out (`cxRcMap_ownership`).
-/
import Cextras.Lib.Run
import Cextras.Collection.Proofs.RcMapBook

namespace Cextras.Collection

open Lib

-- ================================================================ client

/-- The users of one array, and their book. -/
structure ArrayClient where
  array : CxRcMap
  book : RcBook

/-- The address of an element. -/
def CxRcMap.address (array : CxRcMap) (index : UInt64) : Nat :=
  array.data + index.toNat * array.elementSize

inductive ArrayOp where
  | set (index : UInt64) (value : List Byte)
  | retain (index : UInt64)
  /-- by the address of the element, live or not -/
  | retainValue (index : UInt64)
  /-- by the address of the element -/
  | release (index : UInt64)
  | releaseIndex (index : UInt64)

/-- Indices are in range, counters stay below 2^31, and only references that
are held are released. -/
def ArrayOp.Allowed (s : ArrayClient) : ArrayOp → Prop
  | .set i v => i.toNat < s.array.size ∧ v.length = s.array.elementSize
      ∧ s.book.ledger.refs i + 1 < 2 ^ 31
  | .retain i => i.toNat < s.array.size ∧ s.book.ledger.refs i + 1 < 2 ^ 31
  | .retainValue i => i.toNat < s.array.size ∧ s.book.ledger.refs i + 1 < 2 ^ 31
  | .release i => s.book.ledger.refs i ≠ 0
  | .releaseIndex i => s.book.ledger.refs i ≠ 0

instance ArrayOp.decidableAllowed (s : ArrayClient) :
    (op : ArrayOp) → Decidable (op.Allowed s)
  | .set i v => inferInstanceAs (Decidable (i.toNat < _ ∧ v.length = _ ∧ _))
  | .retain i => inferInstanceAs (Decidable (i.toNat < _ ∧ _))
  | .retainValue i => inferInstanceAs (Decidable (i.toNat < _ ∧ _))
  | .release i => inferInstanceAs (Decidable (s.book.ledger.refs i ≠ 0))
  | .releaseIndex i => inferInstanceAs (Decidable (s.book.ledger.refs i ≠ 0))

def ArrayClient.start (size elementSize : Nat) : C ArrayClient := do
  let array ← newRcMap size elementSize
  pure ⟨array, .empty, fun _ => 0⟩

/-- One operation, entered into the book under the index. -/
def ArrayClient.exec : ArrayOp → ArrayClient → C ArrayClient
  | .set i v, s => do
      let (p, array) ← cxRcMapSet s.array i.toNat v
      pure ⟨array, s.book.ledger.put i v, Function.update s.book.element i p⟩
  | .retain i, s => do
      let (_, array) ← cxRcMapRetain s.array i.toNat
      pure ⟨array, { s.book with ledger := s.book.ledger.retain i }⟩
  | .retainValue i, s => do
      let array ← cxRcMapRetainValue s.array (s.array.address i)
      pure ⟨array, { s.book with ledger := s.book.ledger.retain i }⟩
  | .release i, s => do
      let (_, array) ← cxRcMapRelease s.array (s.array.address i)
      pure ⟨array, { s.book with ledger := s.book.ledger.release i }⟩
  | .releaseIndex i, s => do
      let (_, array) ← cxRcMapReleaseIndex s.array i.toNat
      pure ⟨array, { s.book with ledger := s.book.ledger.release i }⟩

/-- The states of runs over an array of `size` elements. -/
abbrev ArrayClient.Run (size elementSize : Nat) (mem : Mem)
    (oracle : Nat → Nat) : ArrayClient → Machine → Prop :=
  Reached (ArrayClient.start size elementSize) ArrayClient.exec
    (fun s _ op => op.Allowed s) (Machine.boot mem oracle)

-- ============================================================= operations

section Operations

variable {size elementSize : Nat} {m m' : Machine} {array : CxRcMap}
  {b : RcBook} {k : UInt64}

theorem RcMapKeeps.holds (storage : Nat) {data : Nat}
    (h : RcMapKeeps size elementSize data m b) :
    RcMapHolds size elementSize m
      (tallied size elementSize data storage b.ledger) b :=
  ⟨data, storage, rfl, h⟩

theorem RcMapHolds.range (h : RcMapHolds size elementSize m array b)
    (hk : b.ledger.refs k ≠ 0) : k.toNat < size := by
  obtain ⟨data, storage, -, h⟩ := h
  exact h.range k hk

theorem RcMapHolds.size_eq (h : RcMapHolds size elementSize m array b) :
    array.size = size := by
  obtain ⟨data, storage, rfl, -⟩ := h
  rfl

theorem RcMapHolds.elementSize_eq (h : RcMapHolds size elementSize m array b) :
    array.elementSize = elementSize := by
  obtain ⟨data, storage, rfl, -⟩ := h
  rfl

/-- Releasing by address is releasing by index. -/
theorem RcMapHolds.run_release_address
    (h : RcMapHolds size elementSize m array b) (hk : k.toNat < size)
    (m₁ : Machine) :
    (cxRcMapRelease array (array.address k)).run m₁
      = (cxRcMapReleaseIndex array k.toNat).run m₁ := by
  obtain ⟨data, storage, rfl, h⟩ := h
  exact run_cxRcMapRelease h.laid hk

/-- Retaining by address is retaining by index. -/
theorem RcMapHolds.run_retain_address
    (h : RcMapHolds size elementSize m array b) (hk : k.toNat < size)
    (m₁ : Machine) :
    (cxRcMapRetainValue array (array.address k)).run m₁
      = (cxRcMapRetain array k.toNat >>= fun out => pure out.2).run m₁ := by
  obtain ⟨data, storage, rfl, h⟩ := h
  have hindex : (elementIndex (tallied size elementSize data storage b.ledger)
      ((tallied size elementSize data storage b.ledger).address k)).run m₁
      = .ok k.toNat m₁ := run_elementIndex h.laid hk
  unfold cxRcMapRetainValue
  rw [if_neg (show CxRcMap.address _ k ≠ 0 from getElement_ne_zero h.laid),
    C.run_bind, hindex, C.chain_ok]

/-- Taking down an array whose counters are all zero. -/
theorem run_cxRcMapCleanup {counts : CArray Int}
    (hcounts : array.refCount = some counts)
    (hzero : ∀ count ∈ counts.cells.take array.size, count = 0)
    (hbase : array.data ≠ 0)
    (hblock : ∃ c ∈ m.arena.blocks, c.base = array.data) :
    ∃ array' m', (cxRcMapCleanup array).run m = .ok (0, array') m' := by
  have hfree : (C.free array.data).run m
      = .ok () { m with arena := m.arena.remove array.data } := by
    simp only [C.free]
    rw [if_neg hbase, if_pos hblock]
  unfold cxRcMapCleanup
  rw [hcounts]
  simp only [C.run_bind, run_assert hzero, C.chain_ok, hfree]
  exact ⟨_, _, rfl⟩

/-- A counter that is not zero stops it. -/
theorem run_cxRcMapCleanup_held {counts : CArray Int}
    (hcounts : array.refCount = some counts)
    (hheld : ¬ ∀ count ∈ counts.cells.take array.size, count = 0) :
    (cxRcMapCleanup array).run m = .fault .assertion m := by
  unfold cxRcMapCleanup
  rw [hcounts]
  simp only [C.run_bind, run_assert_false hheld, C.chain_fault]

/-- The array may be taken down if and only if no reference is out. -/
theorem RcMapHolds.run_cleanup (h : RcMapHolds size elementSize m array b) :
    ((∀ k, b.ledger.refs k = 0) →
      ∃ array' m', (cxRcMapCleanup array).run m = .ok (0, array') m')
    ∧ ((∃ k, b.ledger.refs k ≠ 0) →
      (cxRcMapCleanup array).run m = .fault .assertion m) := by
  obtain ⟨data, storage, rfl, h⟩ := h
  have hcells : ∀ count, count ∈ ((List.range size).map fun i =>
      (b.ledger.refs (UInt64.ofNat i) : Int)).take size
      ↔ ∃ i < size, (b.ledger.refs (UInt64.ofNat i) : Int) = count := by
    intro count
    rw [List.take_of_length_le (by simp), List.mem_map]
    simp only [List.mem_range]
  have hbase := h.laid.base
  constructor
  · intro hall
    refine run_cxRcMapCleanup rfl (fun count hcount => ?_)
      (show data ≠ 0 by omega) ⟨_, h.block, rfl⟩
    obtain ⟨i, -, rfl⟩ := (hcells count).mp hcount
    simp [hall]
  · intro hlive
    obtain ⟨k, hk⟩ := hlive
    refine run_cxRcMapCleanup_held rfl fun hall => ?_
    have hzero := hall _ ((hcells _).mpr ⟨k.toNat, h.range k hk, rfl⟩)
    rw [UInt64.ofNat_toNat] at hzero
    omega

end Operations

-- ============================================================= invariant

/-- Where a key is live before and after an operation, its pointer and its
bytes stay. -/
def Stays (size : Nat) (s : ArrayClient) (m : Machine) (s' : ArrayClient)
    (m' : Machine) : Prop :=
  ∀ k, s.book.ledger.refs k ≠ 0 → s'.book.ledger.refs k ≠ 0 →
    s'.book.element k = s.book.element k
      ∧ m'.mem.read (s.book.element k) size = m.mem.read (s.book.element k) size

variable {size elementSize : Nat} {m m' : Machine} {s s' : ArrayClient}

/-- Bytes stay that the book says stay. -/
theorem RcMapHolds.stays (h : RcMapHolds size elementSize m s.array s.book)
    (h' : RcMapHolds size elementSize m' s'.array s'.book)
    (helement : ∀ k, s.book.ledger.refs k ≠ 0 →
      s'.book.element k = s.book.element k)
    (hstored : ∀ k, s.book.ledger.refs k ≠ 0 →
      s'.book.ledger.stored k = s.book.ledger.stored k) :
    Stays elementSize s m s' m' := by
  obtain ⟨data, storage, -, h⟩ := h
  obtain ⟨data', storage', -, h'⟩ := h'
  intro k hk hk'
  refine ⟨helement k hk, ?_⟩
  have hbytes := h'.bytes k hk'
  rw [hstored k hk, h.bytes k hk, Option.some.injEq, ← h.element k hk,
    ← h'.element k hk', helement k hk] at hbytes
  exact hbytes.symm

theorem rcMapHolds_retain (h : RcMapHolds size elementSize m s.array s.book)
    {i : UInt64} (hop : (ArrayOp.retain i).Allowed s) :
    (ArrayClient.exec (.retain i) s).Granted m fun s' m' =>
      RcMapHolds size elementSize m' s'.array s'.book
        ∧ Stays elementSize s m s' m' := by
  obtain ⟨array, b⟩ := s
  obtain ⟨hi, hlt⟩ := hop
  dsimp only at h hi hlt
  rw [h.size_eq] at hi
  have hh := h
  obtain ⟨data, storage, rfl, hkeeps⟩ := h
  by_cases hdead : b.ledger.refs i = 0
  · refine granted_bind_run (RcMapKeeps.run_retain_absent hi hdead) ?_
    dsimp only
    rw [Ledger.retain_dead hdead]
    exact granted_pure ⟨hh, fun _ _ _ => ⟨rfl, rfl⟩⟩
  · obtain ⟨hrun, hkeeps'⟩ := hkeeps.run_retain hdead hlt
    have h' := RcMapKeeps.holds storage hkeeps'
    refine granted_bind_run hrun (granted_pure ⟨h', ?_⟩)
    exact hh.stays h' (fun _ _ => rfl) fun _ _ => Ledger.stored_retain

theorem rcMapHolds_release (h : RcMapHolds size elementSize m s.array s.book)
    {i : UInt64} (hlive : (ArrayOp.releaseIndex i).Allowed s) :
    (ArrayClient.exec (.releaseIndex i) s).Granted m fun s' m' =>
      RcMapHolds size elementSize m' s'.array s'.book
        ∧ Stays elementSize s m s' m' := by
  obtain ⟨array, b⟩ := s
  dsimp only at h
  have hh := h
  obtain ⟨data, storage, rfl, hkeeps⟩ := h
  obtain ⟨m', hrun, hkeeps'⟩ := hkeeps.run_release hlive
  have h' := RcMapKeeps.holds storage hkeeps'
  refine granted_bind_run hrun (granted_pure ⟨h', ?_⟩)
  exact hh.stays h' (fun _ _ => rfl) fun _ _ => Ledger.stored_release

/-- Every operation does to the array what it does to the book. -/
theorem rcMapHolds_exec (h : RcMapHolds size elementSize m s.array s.book)
    {op : ArrayOp} (hop : op.Allowed s) :
    (ArrayClient.exec op s).Granted m fun s' m' =>
      RcMapHolds size elementSize m' s'.array s'.book
        ∧ Stays elementSize s m s' m' := by
  cases op with
  | set i v =>
      obtain ⟨array, b⟩ := s
      obtain ⟨hi, hv, hlt⟩ := hop
      dsimp only at h hi hv hlt
      rw [h.size_eq] at hi
      rw [h.elementSize_eq] at hv
      have hh := h
      obtain ⟨data, storage, rfl, hkeeps⟩ := h
      by_cases hdead : b.ledger.refs i = 0
      · obtain ⟨hrun, hkeeps'⟩ :=
          hkeeps.run_set_empty hi hdead hv
        have h' := RcMapKeeps.holds storage hkeeps'
        refine granted_bind_run hrun (granted_pure ⟨h', ?_⟩)
        refine hh.stays h' (fun k hk => ?_) fun k hk => Ledger.stored_put hk
        refine Function.update_of_ne ?_ _ _
        intro heq
        rw [heq] at hk
        exact hk hdead
      · obtain ⟨hrun, hkeeps'⟩ :=
          hkeeps.run_set_live (v := v) hdead hlt
        have h' := RcMapKeeps.holds storage hkeeps'
        refine granted_bind_run hrun ?_
        dsimp only
        rw [Function.update_eq_self]
        refine granted_pure ⟨h', ?_⟩
        exact hh.stays h' (fun _ _ => rfl) fun k hk => Ledger.stored_put hk
  | retain i => exact rcMapHolds_retain h hop
  | retainValue i =>
      have hi : i.toNat < size := h.size_eq ▸ hop.1
      refine (rcMapHolds_retain h hop).of_run_eq ?_
      unfold ArrayClient.exec
      rw [C.run_bind, h.run_retain_address hi, C.run_bind, C.run_bind]
      cases (cxRcMapRetain s.array i.toNat).run m with
      | ok out m₁ => rfl
      | fault e m₁ => rfl
  | release i =>
      refine (rcMapHolds_release h hop).of_run_eq ?_
      unfold ArrayClient.exec
      rw [C.run_bind, h.run_release_address (h.range hop), C.run_bind]
  | releaseIndex i => exact rcMapHolds_release h hop

-- ============================================================== ownership

/-- The ownership law in one state: what each operation does there, by the
references the book counts on its index. -/
structure ArrayOwnership (size elementSize : Nat) (s : ArrayClient)
    (m : Machine) : Prop where
  counter : ∀ k : UInt64, k.toNat < size →
    (refCountAt s.array k.toNat).run m = .ok (s.book.ledger.refs k : Int) m
  /-- a reference is out on nothing but an element of the array -/
  range : ∀ k, s.book.ledger.refs k ≠ 0 → k.toNat < size
  element : ∀ k, s.book.ledger.refs k ≠ 0 →
    s.book.element k = s.array.address k ∧ s.array.address k ≠ 0
  value : ∀ k, s.book.ledger.refs k ≠ 0 → s.book.ledger.stored k
    = some (m.mem.read (s.array.address k) elementSize)
  set_empty : ∀ k v, k.toNat < size → v.length = elementSize →
    s.book.ledger.refs k = 0 →
    ∃ array' m', (cxRcMapSet s.array k.toNat v).run m
        = .ok (s.array.address k, array') m'
      ∧ (refCountAt array' k.toNat).run m' = .ok 1 m'
      ∧ m'.mem.read (s.array.address k) elementSize = v
      ∧ m'.calls = m.calls
  set_live : ∀ k v, s.book.ledger.refs k ≠ 0 →
    s.book.ledger.refs k + 1 < 2 ^ 31 →
    ∃ array', (cxRcMapSet s.array k.toNat v).run m
        = .ok (s.array.address k, array') (called m v)
      ∧ (refCountAt array' k.toNat).run (called m v)
        = .ok ((s.book.ledger.refs k + 1 : Nat) : Int) (called m v)
  retain_live : ∀ k, s.book.ledger.refs k ≠ 0 →
    s.book.ledger.refs k + 1 < 2 ^ 31 →
    ∃ array', (cxRcMapRetain s.array k.toNat).run m
        = .ok (s.array.address k, array') m
      ∧ (refCountAt array' k.toNat).run m
        = .ok ((s.book.ledger.refs k + 1 : Nat) : Int) m
  retain_empty : ∀ k : UInt64, k.toNat < size → s.book.ledger.refs k = 0 →
    (cxRcMapRetain s.array k.toNat).run m = .ok (0, s.array) m
  release_more : ∀ k, s.book.ledger.refs k ≠ 0 → s.book.ledger.refs k ≠ 1 →
    ∃ array' m', (cxRcMapReleaseIndex s.array k.toNat).run m
        = .ok (0, array') m'
      ∧ (refCountAt array' k.toNat).run m'
        = .ok ((s.book.ledger.refs k - 1 : Nat) : Int) m'
      ∧ m'.calls = m.calls
  release_last : ∀ k v, s.book.ledger.refs k = 1 →
    s.book.ledger.stored k = some v →
    ∃ array' m', (cxRcMapReleaseIndex s.array k.toNat).run m
        = .ok (0, array') m'
      ∧ (refCountAt array' k.toNat).run m' = .ok 0 m'
      ∧ m'.calls = m.calls ++ [v]
  release_address : ∀ k : UInt64, k.toNat < size →
    (cxRcMapRelease s.array (s.array.address k)).run m
      = (cxRcMapReleaseIndex s.array k.toNat).run m
  retain_address : ∀ k : UInt64, k.toNat < size →
    (cxRcMapRetainValue s.array (s.array.address k)).run m
      = (cxRcMapRetain s.array k.toNat >>= fun out => pure out.2).run m
  /-- no operation changes the bytes of an element that is live before and
  after it -/
  progress : ∀ op : ArrayOp, op.Allowed s →
    (ArrayClient.exec op s).Granted m fun s' m' => Stays elementSize s m s' m'
  calls : m.calls = s.book.ledger.log
  once : ∀ i < s.book.ledger.values.length, s.book.ledger.cleaned.count i
    + (s.book.ledger.live.map s.book.ledger.origin).count i = 1
  cleanup : (∀ k, s.book.ledger.refs k = 0) →
    ∃ array' m', (cxRcMapCleanup s.array).run m = .ok (0, array') m'
  cleanup_held : (∃ k, s.book.ledger.refs k ≠ 0) →
    (cxRcMapCleanup s.array).run m = .fault .assertion m

theorem rcMapHolds_run {mem : Mem} {oracle : Nat → Nat}
    (helem : 0 < elementSize)
    (h : ArrayClient.Run size elementSize mem oracle s m) :
    RcMapHolds size elementSize m s.array s.book := by
  refine h.invariant_granted
    (fun s m => RcMapHolds size elementSize m s.array s.book) ?_ ?_
  · refine granted_bind (newRcMap_granted helem) fun array m hholds => ?_
    exact granted_pure hholds
  · intro s m op hholds hop
    exact (rcMapHolds_exec hholds hop).imp fun _ _ hstep => hstep.1

/-- The ownership law holds in every state of every run. -/
theorem cxRcMap_ownership {mem : Mem} {oracle : Nat → Nat}
    (helem : 0 < elementSize)
    (h : ArrayClient.Run size elementSize mem oracle s m) :
    ArrayOwnership size elementSize s m := by
  have hholds := rcMapHolds_run helem h
  have hprogress : ∀ op : ArrayOp, op.Allowed s →
      (ArrayClient.exec op s).Granted m fun s' m' =>
        Stays elementSize s m s' m' := fun op hop =>
    (rcMapHolds_exec hholds hop).imp fun _ _ hstep => hstep.2
  have hrelease := fun k hk => hholds.run_release_address (k := k) hk m
  have hretain := fun k hk => hholds.run_retain_address (k := k) hk m
  have hcleanup := hholds.run_cleanup
  obtain ⟨array, b⟩ := s
  dsimp only at hholds hrelease hretain hcleanup
  obtain ⟨data, storage, rfl, hkeeps⟩ := hholds
  exact {
    counter := fun k hk => hkeeps.run_refCount hk
    range := hkeeps.range
    element := fun k hk => ⟨hkeeps.element k hk, getElement_ne_zero hkeeps.laid⟩
    value := hkeeps.bytes
    set_empty := by
      intro k v hk hv hdead
      obtain ⟨hrun, hkeeps'⟩ := hkeeps.run_set_empty hk hdead hv
      refine ⟨_, _, hrun, ?_, ?_, rfl⟩
      · rw [hkeeps'.run_refCount hk, Ledger.refs_put, if_pos rfl, hdead]
        rfl
      · rw [← hv]
        exact read_write_self m.mem _ v
    set_live := by
      intro k v hk hlt
      obtain ⟨hrun, hkeeps'⟩ := hkeeps.run_set_live (v := v) hk hlt
      rw [hkeeps.element k hk] at hrun
      refine ⟨_, hrun, ?_⟩
      rw [hkeeps'.run_refCount (hkeeps.range k hk), Ledger.refs_put, if_pos rfl]
    retain_live := by
      intro k hk hlt
      obtain ⟨hrun, hkeeps'⟩ := hkeeps.run_retain hk hlt
      rw [hkeeps.element k hk] at hrun
      refine ⟨_, hrun, ?_⟩
      rw [hkeeps'.run_refCount (hkeeps.range k hk), Ledger.refs_retain hk,
        if_pos rfl]
    retain_empty := fun k hk => RcMapKeeps.run_retain_absent hk
    release_more := by
      intro k hk hmore
      obtain ⟨m', hrun, hkeeps'⟩ := hkeeps.run_release hk
      refine ⟨_, m', hrun, ?_, ?_⟩
      · rw [hkeeps'.run_refCount (hkeeps.range k hk), Ledger.refs_release hk,
          if_pos rfl]
      · rw [hkeeps'.calls, Ledger.log_release_more hmore, hkeeps.calls]
    release_last := by
      intro k v hlast hv
      have hk : b.ledger.refs k ≠ 0 := by
        dsimp only at hlast
        omega
      obtain ⟨m', hrun, hkeeps'⟩ := hkeeps.run_release hk
      refine ⟨_, m', hrun, ?_, ?_⟩
      · rw [hkeeps'.run_refCount (hkeeps.range k hk), Ledger.refs_release hk,
          if_pos rfl, hlast]
        rfl
      · rw [hkeeps'.calls, Ledger.log_release_last hlast hv, hkeeps.calls]
    release_address := hrelease
    retain_address := hretain
    progress := hprogress
    calls := hkeeps.calls
    once := fun i => Ledger.cleaned_count _
    cleanup := hcleanup.1
    cleanup_held := hcleanup.2 }

/-- A value is turned away and references go by index and by address: the
array ends with one. -/
theorem cxRcMap_ownership_shared : ∃ s m,
    ArrayClient.Run 4 2 (fun _ => 0) (fun t => 2 ^ 20 * (t + 1)) s m
      ∧ s.book.ledger.refs 3 = 1 ∧ ArrayOwnership 4 2 s m := by
  obtain ⟨s, m, hrun, htest⟩ := reached_of_replayFrom
    (ArrayClient.start 4 2) ArrayClient.exec
    (fun s _ op => op.Allowed s)
    (Machine.boot (fun _ => 0) (fun t => 2 ^ 20 * (t + 1)))
    [.set 3 [1, 2], .set 3 [2, 1], .retainValue 3, .release 3, .set 0 [5, 6],
      .releaseIndex 0, .retainValue 0, .releaseIndex 3]
    (fun x => decide (x.1.book.ledger.refs 3 = 1))
    (by decide +kernel)
  exact ⟨s, m, hrun, of_decide_eq_true htest, cxRcMap_ownership (by decide) hrun⟩

end Cextras.Collection
