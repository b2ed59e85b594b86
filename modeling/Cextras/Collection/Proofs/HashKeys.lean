/-
Users of a hash map who release by key as well. `cx_rc_hash_map_release_key`
probes every index, and stops at the first slot that has the key word,
live or not; the users make sure that it is live.
-/
import Cextras.Collection.Proofs.HashClient
import Cextras.Collection.Proofs.HashFirst

namespace Cextras.Collection

open Lib

-- ================================================================== users

/-- An operation of HashClient.lean, or a release by key. -/
inductive HashKeyOp where
  | call (op : HashOp)
  | releaseKey (key : UInt64)

/-- A release by key goes to an element that is held, or to none. -/
def HashKeyOp.Allowed (s : HashClient) : HashKeyOp → Prop
  | .call op => op.Allowed s
  | .releaseKey k => ∀ t ∈ s.map.releaseSlot k, s.map.Live t

instance HashKeyOp.decidableAllowed (s : HashClient) :
    (op : HashKeyOp) → Decidable (op.Allowed s)
  | .call op => inferInstanceAs (Decidable (op.Allowed s))
  | .releaseKey k =>
      inferInstanceAs (Decidable (∀ t ∈ s.map.releaseSlot k, s.map.Live t))

/-- The book after a release by key. -/
def HashBook.releasedKey (b : HashBook) (map : CxRcHashMap) (k : UInt64) :
    HashBook :=
  match (map.releaseSlot k).bind map.element with
  | some p => { b with ledger := b.ledger.release p }
  | none => b

def HashKeyOp.exec : HashKeyOp → HashClient → C HashClient
  | .call op, s => HashClient.exec op s
  | .releaseKey k, s => do
      let (_, map) ← cxRcHashMapReleaseKey s.map k
      pure ⟨map, s.book.releasedKey s.map k⟩

/-- The states of runs over a map of `size` slots an inner map. -/
abbrev HashKeyOp.Run (size elementSize : Nat) (mem : Mem)
    (oracle : Nat → Nat) : HashClient → Machine → Prop :=
  Reached (HashClient.start size elementSize) HashKeyOp.exec
    (fun s _ op => op.Allowed s) (Machine.boot mem oracle)

-- ================================================================== steps

variable {m m' : Machine} {T T' : Table} {b : HashBook} {s : HashClient}
  {k : UInt64} {t : Place} {size elementSize : Nat}

/-- What an operation does to the table. -/
def KeyOpEffect (m : Machine) (T T' : Table) : HashKeyOp → Prop
  | .call op => OpEffect m T T' op
  | .releaseKey _ => T' = T ∨ ∃ t, T.In t ∧ T.refs t ≠ 0
      ∧ T' = T.setRefs t (T.refs t - 1)

/-- A release by key whose first slot is live. -/
theorem Keeps.run_releaseKey (h : Keeps m T b)
    (hslot : T.toMap.releaseSlot k = some t) (hlive : T.refs t ≠ 0) :
    T.In t ∧ (cxRcHashMapReleaseKey T.toMap k).run m
        = .ok (0, (T.setRefs t (T.refs t - 1)).toMap)
            (TableInv.releasedMachine m T t)
      ∧ Keeps (TableInv.releasedMachine m T t) (T.setRefs t (T.refs t - 1))
        (b.releasedKey T.toMap k) := by
  have hfind := hslot
  rw [Table.releaseSlot_toMap h.inv.size_pos] at hfind
  obtain ⟨-, hin⟩ := Table.probes_find h.inv.size_pos hfind
  refine ⟨hin, h.inv.run_hashMapReleaseKey h.count_pos hfind hlive, ?_⟩
  have hbook : b.releasedKey T.toMap k
      = { b with ledger := b.ledger.release (T.address t) } := by
    unfold HashBook.releasedKey
    rw [hslot, Option.bind_some, h.inv.element_toMap hin]
  rw [hbook]
  exact h.released hin hlive

/-- A release by a key that no slot has. -/
theorem Keeps.run_releaseKey_none (h : Keeps m T b)
    (hslot : T.toMap.releaseSlot k = none) :
    (cxRcHashMapReleaseKey T.toMap k).run m = .ok (0, T.toMap) m
      ∧ b.releasedKey T.toMap k = b := by
  constructor
  · rw [Table.releaseSlot_toMap h.inv.size_pos] at hslot
    exact h.inv.run_hashMapReleaseKey_none h.count_pos hslot
  · unfold HashBook.releasedKey
    rw [hslot, Option.bind_none]

/-- Every allowed operation keeps map and book in agreement. -/
theorem keyExec_effect (h : Agrees s m T) {op : HashKeyOp}
    (hop : op.Allowed s) :
    (op.exec s).Granted m fun s' m' =>
      ∃ T', Agrees s' m' T' ∧ KeyOpEffect m T T' op := by
  cases op with
  | call op => exact exec_effect h hop
  | releaseKey k =>
      obtain ⟨map, book⟩ := s
      obtain ⟨hmap, hkeeps⟩ := h
      change map = T.toMap at hmap
      subst hmap
      change Keeps m T book at hkeeps
      cases hslot : T.toMap.releaseSlot k with
      | none =>
          obtain ⟨hrun, hbook⟩ := hkeeps.run_releaseKey_none hslot
          refine granted_bind_run hrun ?_
          dsimp only
          rw [hbook]
          exact granted_pure ⟨T, ⟨rfl, hkeeps⟩, Or.inl rfl⟩
      | some t =>
          obtain ⟨-, hlive⟩ := Table.live_iff.mp (hop t hslot)
          obtain ⟨hin, hrun, hk⟩ := hkeeps.run_releaseKey hslot hlive
          refine granted_bind_run hrun ?_
          exact granted_pure ⟨_, ⟨rfl, hk⟩, Or.inr ⟨t, hin, hlive, rfl⟩⟩

/-- Map and book agree in every state of every run. -/
theorem keyAgrees_run {mem : Mem} {oracle : Nat → Nat} (hsize : 0 < size)
    (helem : 0 < elementSize)
    (h : HashKeyOp.Run size elementSize mem oracle s m) :
    ∃ T, Agrees s m T := by
  refine h.invariant_granted (fun s m => ∃ T, Agrees s m T) ?_ ?_
  · refine (agrees_start hsize helem).imp ?_
    intro s m hstart
    obtain ⟨T, hagrees, -⟩ := hstart
    exact ⟨T, hagrees⟩
  · intro s m op hagrees hop
    obtain ⟨T, hagrees⟩ := hagrees
    refine (keyExec_effect hagrees hop).imp ?_
    intro s' m' heffect
    obtain ⟨T', hagrees', -⟩ := heffect
    exact ⟨T', hagrees'⟩

end Cextras.Collection
