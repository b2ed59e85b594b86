/-
Runs of the user of any number of buffers, in which every reallocation
may be refused. The record says what each buffer should hold: `contents`
is what was appended since the buffer was last empty, a byte being
unknown if it was reserved and counted in without having been written,
and `reserved` is what the user wrote behind it.

`cxBuffer_byteList` is the result: buffers hold their contents, a call
that fails changes nothing, and none fails that is granted its request
and asks for a size there can be.
-/
import Mathlib.Logic.Equiv.Basic
import Cextras.Lib.Run
import Cextras.Collection.Proofs.BufferOps

namespace Cextras.Collection

open Lib

-- ================================================================= client

structure BufferClient where
  buffers : Nat → CxBuffer
  /-- what was appended to a buffer, where it is known -/
  contents : Nat → List (Option Byte)
  /-- what was written behind it, by offset from the data -/
  reserved : Nat → Nat → Option Byte

inductive BufferOp where
  | append (i : Nat) (source : List Byte)
  | addCapacity (i additionalSize : Nat)
  | addCapacityExact (i additionalSize : Nat)
  | write (i offset : Nat) (bytes : List Byte)
  | addSize (i additionalSize : Nat)
  | drain (i : Nat)
  | move (i source : Nat)
  | unwrap (i : Nat)
  | cleanup (i : Nat)

/-- Users write into the space they reserved, and count in no more. -/
def BufferOp.Allowed (s : BufferClient) : BufferOp → Prop
  | .append _ bs => bs.length < 2 ^ 64
  | .addCapacity _ n => n < 2 ^ 64
  | .addCapacityExact _ n => n < 2 ^ 64
  | .write i off bs => bs ≠ [] ∧ (s.buffers i).size ≤ off
      ∧ off + bs.length ≤ (s.buffers i).capacity
  | .addSize i n => (s.buffers i).size + n ≤ (s.buffers i).capacity
  | .drain _ => True
  | .move i j => i ≠ j
  | .unwrap _ => True
  | .cleanup _ => True

instance BufferOp.decidableAllowed (s : BufferClient) :
    (op : BufferOp) → Decidable (op.Allowed s)
  | .append _ bs => inferInstanceAs (Decidable (bs.length < 2 ^ 64))
  | .addCapacity _ n => inferInstanceAs (Decidable (n < 2 ^ 64))
  | .addCapacityExact _ n => inferInstanceAs (Decidable (n < 2 ^ 64))
  | .write _ _ bs => inferInstanceAs (Decidable (bs ≠ [] ∧ _ ≤ _ ∧ _ ≤ _))
  | .addSize _ _ => inferInstanceAs (Decidable (_ ≤ _))
  | .drain _ => inferInstanceAs (Decidable True)
  | .move i j => inferInstanceAs (Decidable (i ≠ j))
  | .unwrap _ => inferInstanceAs (Decidable True)
  | .cleanup _ => inferInstanceAs (Decidable True)

def BufferClient.start : C BufferClient :=
  pure ⟨fun _ => cxBufferInit.2, fun _ => [], fun _ _ => none⟩

def BufferClient.set (s : BufferClient) (i : Nat) (b : CxBuffer)
    (contents : List (Option Byte)) (reserved : Nat → Option Byte) :
    BufferClient where
  buffers := Function.update s.buffers i b
  contents := Function.update s.contents i contents
  reserved := Function.update s.reserved i reserved

/-- What a call that returned `rv` added. -/
def added (rv : Int) (bytes : List (Option Byte)) : List (Option Byte) :=
  if rv < 0 then [] else bytes

/-- What is known after a write. -/
def overlay (reserved : Nat → Option Byte) (off : Nat) (bs : List Byte) :
    Nat → Option Byte :=
  fun x => if off ≤ x ∧ x < off + bs.length then bs[x - off]? else reserved x

/-- A call: the return code, the pointer it gives, and the record. -/
def BufferClient.call : BufferOp → BufferClient →
    C (Int × Option Nat × BufferClient)
  | .append i bs, s => do
      let (rv, b) ← cxBufferAppend (s.buffers i) bs
      pure (rv, none,
        s.set i b (s.contents i ++ added rv (bs.map some)) (s.reserved i))
  | .addCapacity i n, s => do
      let (rv, p, b) ← cxBufferAddCapacity (s.buffers i) n
      pure (rv, p, s.set i b (s.contents i) (s.reserved i))
  | .addCapacityExact i n, s => do
      let (rv, p, b) ← cxBufferAddCapacityExact (s.buffers i) n
      pure (rv, p, s.set i b (s.contents i) (s.reserved i))
  | .write i off bs, s => do
      C.writeBytes ((s.buffers i).data + off) bs
      pure (0, none,
        s.set i (s.buffers i) (s.contents i) (overlay (s.reserved i) off bs))
  | .addSize i n, s => do
      let (rv, b) := cxBufferAddSize (s.buffers i) n
      let bytes := (List.range n).map fun k =>
        s.reserved i ((s.buffers i).size + k)
      pure (rv, none, s.set i b (s.contents i ++ added rv bytes) (s.reserved i))
  | .drain i, s =>
      pure (0, none, s.set i (cxBufferDrain (s.buffers i)) [] fun _ => none)
  | .move i j, s => do
      let (rv, b, source) ← cxBufferMove (s.buffers i) (s.buffers j)
      pure (rv, none, (s.set i b (s.contents j) (s.reserved j)).set j source []
        fun _ => none)
  | .unwrap i, s => do
      let (data, b) ← cxBufferUnwrap (s.buffers i)
      pure (0, some data, s.set i b [] fun _ => none)
  | .cleanup i, s => do
      let (rv, b) ← cxBufferCleanup (s.buffers i)
      pure (rv, none, s.set i b [] fun _ => none)

def BufferClient.exec (op : BufferOp) (s : BufferClient) : C BufferClient := do
  let (_, _, s) ← BufferClient.call op s
  pure s

/-- The states of runs, whatever is refused. -/
abbrev BufferClient.Run (mem : Mem) (oracle : Nat → Nat) :
    BufferClient → Machine → Prop :=
  Steps BufferClient.start BufferClient.exec (fun s _ op => op.Allowed s)
    (Machine.boot mem oracle)

-- ============================================================= invariant

variable {m m' : Machine} {s : BufferClient} {b b' : CxBuffer}
  {contents : List (Option Byte)} {reserved : Nat → Option Byte}

/-- The block holds what is known of it. -/
structure Known (m : Machine) (b : CxBuffer) (contents : List (Option Byte))
    (reserved : Nat → Option Byte) : Prop where
  length : contents.length = b.size
  used : ∀ i c, contents[i]? = some (some c) → m.mem (b.data + i) = c
  spare : ∀ i c, b.size ≤ i → i < b.capacity → reserved i = some c →
    m.mem (b.data + i) = c

theorem Known.index (h : Known m b contents reserved) {i : Nat} {o : Option Byte}
    (hi : contents[i]? = some o) : i < b.size := by
  rw [← h.length]
  exact (List.getElem?_eq_some_iff.mp hi).1

/-- Nothing is known of an empty buffer. -/
theorem Known.empty (m : Machine) {b : CxBuffer} (hsize : b.size = 0) :
    Known m b [] fun _ => none := by
  refine ⟨hsize.symm, ?_, ?_⟩
  · intro i c hi
    cases hi
  · intro i c _ _ hi
    cases hi

theorem Known.congr (h : Known m b contents reserved) (hown : Owned m b)
    (hsize : b'.size = b.size) (hcapacity : ∀ i c, b.capacity ≤ i →
      i < b'.capacity → reserved i = some c → m'.mem (b'.data + i) = c)
    (hbytes : ∀ i < b.capacity, m'.mem (b'.data + i) = m.mem (b.data + i)) :
    Known m' b' contents reserved := by
  have hle := hown.size_le
  refine ⟨h.length.trans hsize.symm, ?_, ?_⟩
  · intro i c hi
    have hlt := h.index hi
    rw [hbytes i (by omega)]
    exact h.used i c hi
  · intro i c hlo hhi hr
    by_cases hlt : i < b.capacity
    · rw [hbytes i hlt]
      exact h.spare i c (by omega) hlt hr
    · exact hcapacity i c (by omega) hhi hr

structure BufferInv (s : BufferClient) (m : Machine) : Prop where
  owned : ∀ i, Owned m (s.buffers i)
  /-- no two buffers share a block -/
  apart : ∀ i j, i ≠ j → (s.buffers i).data ≠ 0 →
    (s.buffers i).data ≠ (s.buffers j).data
  known : ∀ i, Known m (s.buffers i) (s.contents i) (s.reserved i)
  /-- nothing is known beyond the capacity -/
  within : ∀ i x c, s.reserved i x = some c → x < (s.buffers i).capacity

/-- A step on the buffer at `a`, which is then at `a'`, spares the others'
blocks. -/
def Spares (m : Machine) (a : Nat) (m' : Machine) (a' : Nat) : Prop :=
  ∀ c ∈ m.arena.blocks, c.base ≠ a → c ∈ m'.arena.blocks ∧ c.base ≠ a'
    ∧ ∀ x, c.Has x 1 → m'.mem x = m.mem x

theorem spares_of_beside {a a' : Nat} (h : Beside m a m' a') :
    Spares m a m' a' := by
  intro c hc hne
  obtain ⟨hc', hne'⟩ := (h.blocks c).mpr ⟨hc, hne⟩
  exact ⟨hc', hne', h.mem c hc hne⟩

/-- A block may be given away. -/
theorem spares_null (m : Machine) (a : Nat) : Spares m a m 0 :=
  fun _ hc _ => ⟨hc, m.arena.base_ne_zero hc, fun _ _ => rfl⟩

/-- A step on one buffer. -/
theorem BufferInv.set (h : BufferInv s m) {i : Nat}
    (hspares : Spares m (s.buffers i).data m' b'.data) (howned : Owned m' b')
    (hknown : Known m' b' contents reserved)
    (hwithin : ∀ x c, reserved x = some c → x < b'.capacity) :
    BufferInv (s.set i b' contents reserved) m' := by
  -- the other buffers' blocks are where they were
  have hother : ∀ j, j ≠ i → (s.buffers j).data ≠ 0 →
      (⟨(s.buffers j).data, (s.buffers j).capacity⟩ : Block) ∈ m'.arena.blocks
        ∧ (s.buffers j).data ≠ b'.data
        ∧ ∀ x < (s.buffers j).capacity,
          m'.mem ((s.buffers j).data + x) = m.mem ((s.buffers j).data + x) := by
    intro j hj hne
    have hblock := ((h.owned j).block.resolve_left fun hnull => hne hnull.1).2
    obtain ⟨hkept, hbase, hbytes⟩ := hspares _ hblock (h.apart j i hj hne)
    refine ⟨hkept, hbase, fun x hx => hbytes _ ⟨Nat.le_add_right _ _, ?_⟩⟩
    simp only
    omega
  refine ⟨?_, ?_, ?_, ?_⟩
  · intro j
    show Owned m' (Function.update s.buffers i b' j)
    rw [Function.update_apply]
    split
    · exact howned
    · next hj =>
        refine ⟨howned.solid, ?_, (h.owned j).size_le⟩
        rcases (h.owned j).block with hnull | hsome
        · exact Or.inl hnull
        · exact Or.inr ⟨hsome.1, (hother j hj hsome.1).1⟩
  · intro j k hjk
    show (Function.update s.buffers i b' j).data ≠ 0 →
      (Function.update s.buffers i b' j).data
        ≠ (Function.update s.buffers i b' k).data
    by_cases hj : j = i
    · have hk : k ≠ i := fun hk => hjk (hj.trans hk.symm)
      rw [hj, Function.update_self, Function.update_of_ne hk]
      intro hne heq
      exact (hother k hk (heq ▸ hne)).2.1 heq.symm
    · rw [Function.update_of_ne hj]
      intro hne
      by_cases hk : k = i
      · rw [hk, Function.update_self]
        exact (hother j hj hne).2.1
      · rw [Function.update_of_ne hk]
        exact h.apart j k hjk hne
  · intro j
    show Known m' (Function.update s.buffers i b' j)
      (Function.update s.contents i contents j)
      (Function.update s.reserved i reserved j)
    by_cases hj : j = i
    · rw [hj, Function.update_self, Function.update_self, Function.update_self]
      exact hknown
    · rw [Function.update_of_ne hj, Function.update_of_ne hj,
        Function.update_of_ne hj]
      refine (h.known j).congr (h.owned j) rfl (fun x c hlo hhi _ => by omega) ?_
      intro x hx
      rcases (h.owned j).block with hnull | hsome
      · omega
      · exact (hother j hj hsome.1).2.2 x hx
  · intro j
    show ∀ x c, Function.update s.reserved i reserved j x = some c →
      x < (Function.update s.buffers i b' j).capacity
    by_cases hj : j = i
    · rw [hj, Function.update_self, Function.update_self]
      exact hwithin
    · rw [Function.update_of_ne hj, Function.update_of_ne hj]
      exact h.within j

/-- The machine moved on without touching memory. -/
theorem BufferInv.quiet (h : BufferInv s m) (hq : Quiet m m') :
    BufferInv s m' := by
  refine ⟨fun i => (h.owned i).quiet hq, h.apart, ?_, h.within⟩
  intro i
  refine (h.known i).congr (h.owned i) rfl (fun x c hlo hhi _ => by omega) ?_
  intro x _
  rw [hq.mem]

/-- Two buffers change places. -/
theorem BufferInv.swap (h : BufferInv s m) (i j : Nat) :
    BufferInv ⟨s.buffers ∘ Equiv.swap i j, s.contents ∘ Equiv.swap i j,
      s.reserved ∘ Equiv.swap i j⟩ m := by
  refine ⟨fun k => h.owned _, ?_, fun k => h.known _, fun k => h.within _⟩
  intro k l hkl
  exact h.apart _ _ fun heq => hkl ((Equiv.swap i j).injective heq)

theorem BufferClient.set_self (s : BufferClient) (i : Nat) :
    s.set i (s.buffers i) (s.contents i) (s.reserved i) = s := by
  unfold BufferClient.set
  rw [Function.update_eq_self, Function.update_eq_self, Function.update_eq_self]

-- ================================================================== calls

/-- What a successful call gives. -/
def BufferOp.Gives (s : BufferClient) (p : Option Nat) (s' : BufferClient) :
    BufferOp → Prop
  | .addCapacity i n | .addCapacityExact i n =>
      (s.buffers i).size + n ≤ (s'.buffers i).capacity
        ∧ (s'.buffers i).size = (s.buffers i).size
        ∧ p = some ((s'.buffers i).data + (s.buffers i).size)
  | _ => True

/-- The new size is one that the call can make room for. -/
def BufferOp.Fits (s : BufferClient) : BufferOp → Prop
  | .append i bs => (s.buffers i).size + bs.length ≤ (s.buffers i).capacity
      ∨ (s.buffers i).size + bs.length ≤ 2 ^ 63
  | .addCapacity i n => (s.buffers i).size + n ≤ (s.buffers i).capacity
      ∨ (s.buffers i).size + n ≤ 2 ^ 63
  | .addCapacityExact i n => (s.buffers i).size + n < 2 ^ 64
  | _ => True

/-- A call that fails leaves record and memory as they were. If what it
asked for fits, it made one request, which was refused. -/
structure Unchanged (s : BufferClient) (m : Machine) (op : BufferOp)
    (s' : BufferClient) (m' : Machine) : Prop where
  record : s' = s
  quiet : Quiet m m'
  refused : op.Fits s → m' = { m with tick := m.tick + 1, refused := true }

/-- What every call does: it ends, and keeps the invariant; a failing one
changes nothing. -/
def CallDoes (s : BufferClient) (m : Machine) (op : BufferOp) : Prop :=
  ∃ rv p s' m', (BufferClient.call op s).run m = .ok (rv, p, s') m'
    ∧ BufferInv s' m' ∧ (rv < 0 → Unchanged s m op s' m')
    ∧ (0 ≤ rv → op.Gives s p s')

theorem BufferInv.addCapacityWith (h : BufferInv s m) (i n : Nat)
    {round : Nat → Int × Nat} (hround : Rounds round) {op : BufferOp}
    (hfits : op.Fits s → Fits round (s.buffers i) n) :
    ∃ rv p s' m', (addCapacityWith round (s.buffers i) n >>= fun r =>
        pure (r.1, r.2.1, s.set i r.2.2 (s.contents i) (s.reserved i))).run m
          = .ok (rv, p, s') m'
      ∧ BufferInv s' m' ∧ (rv < 0 → Unchanged s m op s' m')
      ∧ (0 ≤ rv → (BufferOp.addCapacity i n).Gives s p s') := by
  rcases addCapacityWith_cases hround (h.owned i) n with hfail | hok
  · obtain ⟨rv, m', hdenied, hrun, hq, hrefused⟩ := hfail
    have hneg := hdenied.neg
    refine ⟨rv, none, s, m', ?_, h.quiet hq,
      fun _ => ⟨rfl, hq, fun hop => hrefused (hfits hop)⟩, fun hpos => by omega⟩
    rw [C.run_bind, hrun, C.chain_ok, C.run_pure, BufferClient.set_self]
  · obtain ⟨b', m', hrun, hre, hcap, -⟩ := hok
    refine ⟨0, some (b'.data + (s.buffers i).size),
      s.set i b' (s.contents i) (s.reserved i), m', ?_, ?_,
      fun hneg => absurd hneg (by decide), fun _ => ?_⟩
    · rw [C.run_bind, hrun, C.chain_ok, C.run_pure]
    · refine h.set (spares_of_beside hre.beside) hre.owned ?_ ?_
      · refine (h.known i).congr (h.owned i) hre.size ?_ hre.bytes
        intro x c hlo _ hr
        have := h.within i x c hr
        omega
      · intro x c hr
        have := h.within i x c hr
        have := hre.capacity
        omega
    · show _ ≤ (Function.update s.buffers i b' i).capacity
        ∧ (Function.update s.buffers i b' i).size = _
        ∧ _ = some ((Function.update s.buffers i b' i).data + _)
      rw [Function.update_self]
      exact ⟨hcap, hre.size, rfl⟩

theorem BufferInv.append (h : BufferInv s m) (i : Nat) (bs : List Byte) :
    CallDoes s m (.append i bs) := by
  unfold CallDoes BufferClient.call
  rcases cxBufferAppend_cases (h.owned i) bs with hfail | hok
  · obtain ⟨rv, m', hdenied, hrun, hq, hrefused⟩ := hfail
    refine ⟨rv, none, s, m', ?_, h.quiet hq,
      fun _ => ⟨rfl, hq, fun hop => hrefused (fits_pow2 hop)⟩, fun _ => trivial⟩
    rw [C.run_bind, hrun, C.chain_ok]
    dsimp only
    rw [C.run_pure, added, if_pos hdenied.neg, List.append_nil,
      BufferClient.set_self]
  · obtain ⟨b', m', hrun, happ, -⟩ := hok
    refine ⟨0, none, s.set i b' (s.contents i ++ bs.map some) (s.reserved i), m',
      ?_, h.set (spares_of_beside happ.beside) happ.owned ⟨?_, ?_, ?_⟩ ?_,
      fun hneg => absurd hneg (by decide), fun _ => trivial⟩
    · rw [C.run_bind, hrun, C.chain_ok]
      rfl
    · rw [List.length_append, List.length_map, (h.known i).length, happ.size]
    · intro x c hx
      have hlen := (h.known i).length
      by_cases hlt : x < (s.contents i).length
      · rw [List.getElem?_append_left hlt] at hx
        have hle := (h.owned i).size_le
        rw [happ.old x (by omega) (Or.inl (by omega))]
        exact (h.known i).used x c hx
      · rw [List.getElem?_append_right (Nat.not_lt.mp hlt), List.getElem?_map] at hx
        obtain ⟨c', hc', heq⟩ := Option.map_eq_some_iff.mp hx
        obtain ⟨hi, hget⟩ := List.getElem?_eq_some_iff.mp hc'
        have hx' : (s.buffers i).size + (x - (s.contents i).length) = x := by
          omega
        have hnew := happ.new _ hi
        rw [hx', hget] at hnew
        rw [hnew, Option.some.inj heq]
    · intro x c hlo hhi hr
      rw [happ.size] at hlo
      have hlt := h.within i x c hr
      rw [happ.old x hlt (Or.inr hlo)]
      exact (h.known i).spare x c (by omega) hlt hr
    · intro x c hr
      have := h.within i x c hr
      have := happ.capacity
      omega

theorem BufferInv.write (h : BufferInv s m) {i off : Nat} {bs : List Byte}
    (hop : (BufferOp.write i off bs).Allowed s) :
    CallDoes s m (.write i off bs) := by
  obtain ⟨hne, hlo, hhi⟩ := hop
  obtain ⟨hrun, hbeside⟩ := (h.owned i).write (i := off) hhi hne
  unfold CallDoes BufferClient.call
  refine ⟨0, none, s.set i (s.buffers i) (s.contents i)
    (overlay (s.reserved i) off bs), _, ?_,
    h.set (spares_of_beside hbeside)
      ⟨(h.owned i).solid, (h.owned i).block, (h.owned i).size_le⟩
      ⟨(h.known i).length, ?_, ?_⟩ ?_,
    fun hneg => absurd hneg (by decide), fun _ => trivial⟩
  · rw [C.run_bind, hrun, C.chain_ok, C.run_pure]
  · intro x c hx
    have hlt := (h.known i).index hx
    rw [← (h.known i).used x c hx]
    exact write_apply_outside (by omega)
  · intro x c hxlo hxhi hr
    unfold overlay at hr
    split at hr
    · next hin =>
        obtain ⟨hi, hget⟩ := List.getElem?_eq_some_iff.mp hr
        have hwrite := write_apply_inside (m := m.mem)
          (a := (s.buffers i).data + off) hi
        rw [hget, Nat.add_assoc, Nat.add_sub_cancel' hin.1] at hwrite
        exact hwrite
    · next hout =>
        rw [← (h.known i).spare x c hxlo hxhi hr]
        exact write_apply_outside (by omega)
  · intro x c hr
    unfold overlay at hr
    split at hr
    · next hin => omega
    · exact h.within i x c hr

theorem BufferInv.addSize (h : BufferInv s m) {i n : Nat}
    (hop : (BufferOp.addSize i n).Allowed s) : CallDoes s m (.addSize i n) := by
  have hle : (s.buffers i).size + n ≤ (s.buffers i).capacity := hop
  have hlt := (h.owned i).capacity_lt
  have hadd : cxBufferAddSize (s.buffers i) n
      = (0, { s.buffers i with size := (s.buffers i).size + n }) := by
    unfold cxBufferAddSize
    rw [if_neg (by omega)]
  unfold CallDoes
  simp only [BufferClient.call, hadd]
  refine ⟨0, none, s.set i { s.buffers i with size := (s.buffers i).size + n }
    (s.contents i ++ (List.range n).map fun k =>
      s.reserved i ((s.buffers i).size + k)) (s.reserved i), m, ?_,
    h.set (spares_of_beside ((Quiet.refl m).beside _))
      ⟨(h.owned i).solid, (h.owned i).block, hle⟩
      ⟨?_, ?_, ?_⟩ (h.within i),
    fun hneg => absurd hneg (by decide), fun _ => trivial⟩
  · rfl
  · show (s.contents i ++ _).length = _
    rw [List.length_append, List.length_map, List.length_range, (h.known i).length]
  · intro x c hx
    have hlen := (h.known i).length
    by_cases hold : x < (s.contents i).length
    · rw [List.getElem?_append_left hold] at hx
      exact (h.known i).used x c hx
    · rw [List.getElem?_append_right (Nat.not_lt.mp hold)] at hx
      have hk : x - (s.contents i).length < n := by
        have := (List.getElem?_eq_some_iff.mp hx).1
        rwa [List.length_map, List.length_range] at this
      rw [List.getElem?_map, List.getElem?_range hk, Option.map_some,
        Option.some.injEq, hlen, Nat.add_sub_cancel' (by omega)] at hx
      exact (h.known i).spare x c (by omega) (by omega) hx
  · intro x c hlo hhi hr
    have hlo' : (s.buffers i).size + n ≤ x := hlo
    exact (h.known i).spare x c (by omega) hhi hr

/-- The buffer is emptied and its block freed. -/
theorem BufferInv.cleanup (h : BufferInv s m) (i : Nat) :
    ∃ m', (cxBufferCleanup (s.buffers i)).run m = .ok (0, ⟨0, 0, 0⟩) m'
      ∧ BufferInv (s.set i ⟨0, 0, 0⟩ [] fun _ => none) m' := by
  obtain ⟨m', hrun, hbeside, -, hsolid, -⟩ := run_cxBufferCleanup (h.owned i)
  exact ⟨m', hrun, h.set (spares_of_beside hbeside) (Owned.empty hsolid)
    (Known.empty m' rfl) (fun _ _ hr => nomatch hr)⟩

theorem BufferInv.move (h : BufferInv s m) {i j : Nat} (hij : i ≠ j) :
    CallDoes s m (.move i j) := by
  obtain ⟨m', hrun, hinv⟩ := h.cleanup i
  have hswap := hinv.swap i j
  unfold CallDoes BufferClient.call
  refine ⟨0, none, _, m', ?_, hswap, fun hneg => absurd hneg (by decide),
    fun _ => trivial⟩
  rw [C.run_bind, cxBufferMove, C.run_bind, hrun, C.chain_ok, C.run_pure,
    C.chain_ok]
  simp only [C.run_pure]
  -- both records have the source's entry at `i` and an empty one at `j`
  have hupdate : ∀ {α : Type} (f : Nat → α) (a : α),
      Function.update (Function.update f i (f j)) j a
        = Function.update f i a ∘ Equiv.swap i j := by
    intro α f a
    funext k
    by_cases hk : k = j
    · rw [hk, Function.update_self, Function.comp_apply, Equiv.swap_apply_right,
        Function.update_self]
    · rw [Function.update_of_ne hk, Function.comp_apply]
      by_cases hki : k = i
      · rw [hki, Function.update_self, Equiv.swap_apply_left,
          Function.update_of_ne hij.symm]
      · rw [Equiv.swap_apply_of_ne_of_ne hki hk, Function.update_of_ne hki,
          Function.update_of_ne hki]
  unfold BufferClient.set
  rw [hupdate, hupdate, hupdate]

/-- Every allowed call does what it should. -/
theorem BufferInv.call (h : BufferInv s m) {op : BufferOp} (hop : op.Allowed s) :
    CallDoes s m op := by
  cases op with
  | append i bs => exact h.append i bs
  | addCapacity i n =>
      exact h.addCapacityWith i n roundToNextPow2_rounds fun hop => fits_pow2 hop
  | addCapacityExact i n =>
      exact h.addCapacityWith i n exact_rounds fun hop => Or.inr ⟨hop, rfl⟩
  | write i off bs => exact h.write hop
  | addSize i n => exact h.addSize hop
  | drain i =>
      have hset : BufferInv (s.set i (cxBufferDrain (s.buffers i)) []
          fun _ => none) m := by
        have hspares : Spares m (s.buffers i).data m
            (cxBufferDrain (s.buffers i)).data :=
          spares_of_beside ((Quiet.refl m).beside _)
        apply h.set hspares
        · exact ⟨(h.owned i).solid, (h.owned i).block, Nat.zero_le _⟩
        · exact Known.empty m rfl
        · intro _ _ hr
          cases hr
      exact ⟨0, none, _, m, rfl, hset, fun hneg => absurd hneg (by decide),
        fun _ => trivial⟩
  | move i j => exact h.move hop
  | unwrap i =>
      have hset : BufferInv (s.set i ⟨0, 0, 0⟩ [] fun _ => none) m := by
        apply h.set (spares_null m _)
        · exact Owned.empty (h.owned i).solid
        · exact Known.empty m rfl
        · intro _ _ hr
          cases hr
      exact ⟨0, _, _, m, rfl, hset, fun hneg => absurd hneg (by decide),
        fun _ => trivial⟩
  | cleanup i =>
      obtain ⟨m', hrun, hinv⟩ := h.cleanup i
      refine ⟨0, none, _, m', ?_, hinv, fun hneg => absurd hneg (by decide),
        fun _ => trivial⟩
      unfold BufferClient.call
      rw [C.run_bind, hrun, C.chain_ok]
      rfl

-- ================================================================== runs

/-- What holds of buffers at any time. -/
structure ByteList (s : BufferClient) (m : Machine) : Prop where
  /-- as many bytes are in use as were appended -/
  length : ∀ i, (s.contents i).length = (s.buffers i).size
  /-- each one that is known is the one in memory -/
  bytes : ∀ (i k : Nat) (c : Byte), (s.contents i)[k]? = some (some c) →
    (m.mem.read (s.buffers i).data (s.buffers i).size)[k]? = some c
  size_le : ∀ i, (s.buffers i).size ≤ (s.buffers i).capacity
  /-- a call ends; if it fails it changes nothing, and fails on a refusal
  where what it asked for fits; else it gives what it should -/
  calls : ∀ op : BufferOp, op.Allowed s →
    ∃ rv p s' m', (BufferClient.call op s).run m = .ok (rv, p, s') m'
      ∧ (rv < 0 → Unchanged s m op s' m') ∧ (0 ≤ rv → op.Gives s p s')

/-- If all of it is known, the bytes in use are what was appended. -/
theorem ByteList.read (h : ByteList s m) {i : Nat} {bs : List Byte}
    (hbs : s.contents i = bs.map some) :
    m.mem.read (s.buffers i).data (s.buffers i).size = bs := by
  have hlen := h.length i
  rw [hbs, List.length_map] at hlen
  apply List.ext_getElem?
  intro k
  by_cases hk : k < bs.length
  · have hget : (s.contents i)[k]? = some (some bs[k]) := by
      rw [hbs, List.getElem?_map, List.getElem?_eq_getElem hk, Option.map_some]
    rw [h.bytes i k _ hget, List.getElem?_eq_getElem hk]
  · rw [List.getElem?_eq_none (by rw [read_length]; omega),
      List.getElem?_eq_none (by omega)]

theorem BufferInv.byteList (h : BufferInv s m) : ByteList s m := by
  refine ⟨fun i => (h.known i).length, ?_, fun i => (h.owned i).size_le, ?_⟩
  · intro i k c hk
    rw [getElem?_read _ _ ((h.known i).index hk), (h.known i).used k c hk]
  · intro op hop
    obtain ⟨rv, p, s', m', hrun, -, hfail, hok⟩ := h.call hop
    exact ⟨rv, p, s', m', hrun, hfail, hok⟩

theorem BufferInv.start (mem : Mem) (oracle : Nat → Nat) :
    BufferInv ⟨fun _ => cxBufferInit.2, fun _ => [], fun _ _ => none⟩
      (Machine.boot mem oracle) := by
  have hsolid := Machine.boot_solid mem oracle
  refine ⟨fun i => Owned.empty hsolid, ?_, fun i => Known.empty _ rfl, ?_⟩
  · intro i j _ hne
    exact absurd rfl hne
  · intro i x c hc
    cases hc

/-- One operation of a run. -/
theorem BufferInv.exec (h : BufferInv s m) {op : BufferOp} (hop : op.Allowed s)
    {s' : BufferClient} (hrun : (BufferClient.exec op s).run m = .ok s' m') :
    BufferInv s' m' := by
  obtain ⟨rv, p, s₁, m₁, hcall, hinv, -, -⟩ := h.call hop
  rw [BufferClient.exec, C.run_bind, hcall, C.chain_ok] at hrun
  cases hrun
  exact hinv

theorem BufferClient.Run.inv {mem : Mem} {oracle : Nat → Nat}
    (h : BufferClient.Run mem oracle s m) : BufferInv s m := by
  apply h.invariant BufferInv
  · intro s m hrun
    cases hrun
    exact BufferInv.start mem oracle
  · intro s m op s' m' hinv hop hrun
    exact hinv.exec hop hrun

/-- Buffers are byte lists, whatever the allocator refuses. -/
theorem cxBuffer_byteList (mem : Mem) (oracle : Nat → Nat)
    (h : BufferClient.Run mem oracle s m) : ByteList s m :=
  h.inv.byteList

/-- Three bytes are appended, a reservation is refused, then one is
granted, partly written and counted in. -/
theorem cxBuffer_byteList_refused :
    ∃ s m, ByteList s m ∧ m.refused = true
      ∧ s.contents 0 = [1, 2, 3, 9].map some := by
  have hrun := steps_of_tryFrom BufferClient.start BufferClient.exec
    (fun s _ op => op.Allowed s)
    (Machine.boot (fun _ => 0) fun t => if t = 1 then 0 else 64 * (t + 1))
    [.append 0 [1, 2, 3], .addCapacity 0 5, .addCapacityExact 0 3,
      .write 0 3 [9], .addSize 0 1]
    (fun r => r.2.refused && r.1.contents 0 == [1, 2, 3, 9].map some)
    (by decide +kernel)
  obtain ⟨s, m, hsteps, htest⟩ := hrun
  obtain ⟨hrefused, hcontents⟩ := (Bool.and_eq_true _ _).mp htest
  exact ⟨s, m, cxBuffer_byteList _ _ hsteps, hrefused, eq_of_beq hcontents⟩

end Cextras.Collection
