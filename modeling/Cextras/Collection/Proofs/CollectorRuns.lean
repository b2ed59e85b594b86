/-
`cx_collect` builds the sequence its iterator yields. While it runs, one
buffer holds the offsets of the values so far and the other the values
(`Filling`); when the buffers are joined, each offset becomes the address
of its value (`Collected`). `cxCollect_sequence` is the result.
-/
import Cextras.Collection.Collector
import Cextras.Collection.Proofs.BufferOps
import Mathlib.Data.List.Induction

namespace Cextras.Collection

open Lib

variable {m m' : Machine} {b : CxBuffer} {l w : CxBuffer} {a a' n i j : Nat}
  {vs us : List (List Byte)} {v xs ys table bytes : List Byte}
  {next : Nat → NextResult} {target : Nat}

-- ================================================================= contents

/-- The values, each with a zero byte after it. -/
def valueBytes (vs : List (List Byte)) : List Byte :=
  vs.flatMap fun v => v ++ [0]

/-- Where value `i` starts among them. -/
def valueOffset (vs : List (List Byte)) (i : Nat) : Nat :=
  (valueBytes (vs.take i)).length

/-- The table of offsets. -/
def tableBytes (vs : List (List Byte)) : List Byte :=
  (List.range vs.length).flatMap fun i => leBytes 8 (valueOffset vs i)

/-- The size of the block in the end. -/
def blockSize (vs : List (List Byte)) : Nat :=
  8 * (vs.length + 1) + (valueBytes vs).length

theorem valueBytes_append (us vs : List (List Byte)) :
    valueBytes (us ++ vs) = valueBytes us ++ valueBytes vs :=
  List.flatMap_append

theorem valueBytes_snoc (vs : List (List Byte)) (v : List Byte) :
    valueBytes (vs ++ [v]) = valueBytes vs ++ v ++ [0] := by
  rw [valueBytes_append, List.append_assoc]
  congr 1
  exact List.append_nil _

theorem valueBytes_split (vs : List (List Byte)) (hi : i < vs.length) :
    valueBytes vs = valueBytes (vs.take i) ++ (vs[i] ++ [0])
      ++ valueBytes (vs.drop (i + 1)) := by
  conv_lhs => rw [← List.take_append_drop i vs, List.drop_eq_getElem_cons hi]
  rw [valueBytes_append, List.append_assoc]
  rfl

theorem valueOffset_length (vs : List (List Byte)) :
    valueOffset vs vs.length = (valueBytes vs).length := by
  unfold valueOffset
  rw [List.take_length]

theorem valueOffset_append (hi : i ≤ vs.length) (us : List (List Byte)) :
    valueOffset (vs ++ us) i = valueOffset vs i := by
  unfold valueOffset
  rw [List.take_append_of_le_length hi]

/-- A value and its zero byte come before the next value. -/
theorem valueOffset_lt (hi : i < vs.length) (hij : i < j) :
    valueOffset vs i + vs[i].length + 1 ≤ valueOffset vs j := by
  have hi' : i < (vs.take j).length := by
    rw [List.length_take]
    omega
  have hsplit := congrArg List.length (valueBytes_split (vs.take j) hi')
  rw [List.take_take, Nat.min_eq_left (Nat.le_of_lt hij)] at hsplit
  simp only [List.length_append, List.length_singleton, List.getElem_take]
    at hsplit
  unfold valueOffset
  omega

theorem tableBytes_snoc (vs : List (List Byte)) (v : List Byte) :
    tableBytes (vs ++ [v])
      = tableBytes vs ++ leBytes 8 (valueBytes vs).length := by
  unfold tableBytes
  rw [List.length_append, List.length_singleton, List.range_succ,
    List.flatMap_append]
  congr 1
  · apply List.flatMap_congr
    intro i hi
    rw [valueOffset_append (Nat.le_of_lt (List.mem_range.mp hi))]
  · rw [List.flatMap_singleton, valueOffset_append (Nat.le_refl _),
      valueOffset_length]

theorem tableBytes_length (vs : List (List Byte)) :
    (tableBytes vs).length = 8 * vs.length := by
  induction vs using List.reverseRecOn with
  | nil => rfl
  | append_singleton vs v ih =>
      rw [tableBytes_snoc, List.length_append, ih, leBytes_length,
        List.length_append, List.length_singleton]
      omega

/-- The entry of value `i`. -/
theorem tableBytes_split (hi : i < vs.length) : ∃ zs,
    tableBytes vs = tableBytes (vs.take i) ++ leBytes 8 (valueOffset vs i)
      ++ zs := by
  induction vs using List.reverseRecOn with
  | nil => cases hi
  | append_singleton vs v ih =>
      rw [List.length_append, List.length_singleton] at hi
      by_cases hlt : i < vs.length
      · obtain ⟨zs, hzs⟩ := ih hlt
        refine ⟨zs ++ leBytes 8 (valueBytes vs).length, ?_⟩
        rw [tableBytes_snoc, hzs, valueOffset_append (Nat.le_of_lt hlt),
          List.take_append_of_le_length (Nat.le_of_lt hlt), List.append_assoc]
      · have heq : i = vs.length := by omega
        subst heq
        refine ⟨[], ?_⟩
        rw [tableBytes_snoc, valueOffset_append (Nat.le_refl _),
          valueOffset_length, List.take_append_of_le_length (Nat.le_refl _),
          List.take_length, List.append_nil]

-- ============================================================== two buffers

/-- A buffer beside the one that was worked on. -/
theorem Owned.beside (h : Owned m b) (hb : Beside m a m' a')
    (hsolid : m'.arena.Solid) (hne : b.data = 0 ∨ b.data ≠ a) :
    Owned m' b ∧ (b.data = 0 ∨ b.data ≠ a')
      ∧ m'.mem.read b.data b.size = m.mem.read b.data b.size := by
  have hle := h.size_le
  rcases h.block with ⟨hnull, hcap⟩ | ⟨hdata, hin⟩
  · refine ⟨⟨hsolid, Or.inl ⟨hnull, hcap⟩, hle⟩, Or.inl hnull, ?_⟩
    have hsize : b.size = 0 := by omega
    rw [hsize]
    rfl
  · have hne' := hne.resolve_left hdata
    obtain ⟨hin', hbase⟩ := (hb.blocks _).mpr ⟨hin, hne'⟩
    refine ⟨⟨hsolid, Or.inr ⟨hdata, hin'⟩, hle⟩, Or.inr hbase, ?_⟩
    apply read_congr
    intro x hlo hhi
    refine hb.mem _ hin hne' x ⟨hlo, ?_⟩
    show x + 1 ≤ b.data + b.capacity
    omega

/-- The list buffer holds `table`, the other one `bytes`. -/
structure Filling (m : Machine) (l w : CxBuffer) (table bytes : List Byte) :
    Prop where
  list : Owned m l
  values : Owned m w
  apart : w.data = 0 ∨ w.data ≠ l.data
  table : m.mem.read l.data l.size = table
  bytes : m.mem.read w.data w.size = bytes
  listFits : l.capacity ≤ 2 ^ 63
  valuesFit : w.capacity ≤ 2 ^ 63

theorem Filling.table_length (h : Filling m l w table bytes) :
    table.length = l.size := by
  rw [← h.table, read_length]

theorem Filling.bytes_length (h : Filling m l w table bytes) :
    bytes.length = w.size := by
  rw [← h.bytes, read_length]

/-- What was filled in did fit. -/
theorem Filling.fits (h : Filling m l w table bytes) :
    table.length ≤ 2 ^ 63 ∧ bytes.length ≤ 2 ^ 63 := by
  rw [h.table_length, h.bytes_length]
  exact ⟨h.list.size_le.trans h.listFits, h.values.size_le.trans h.valuesFit⟩

/-- Neither buffer comes first. -/
theorem Filling.swap (h : Filling m l w table bytes) :
    Filling m w l bytes table := by
  refine ⟨h.values, h.list, ?_, h.bytes, h.table, h.valuesFit, h.listFits⟩
  rcases h.apart with hnull | hne
  · by_cases hl : l.data = 0
    · exact Or.inl hl
    · exact Or.inr fun heq => hl (heq.trans hnull)
  · exact Or.inr hne.symm

theorem Filling.quiet (h : Filling m l w table bytes) (hq : Quiet m m') :
    Filling m' l w table bytes := by
  refine ⟨h.list.quiet hq, h.values.quiet hq, h.apart, ?_, ?_, h.listFits,
    h.valuesFit⟩
  · rw [hq.mem]
    exact h.table
  · rw [hq.mem]
    exact h.bytes

theorem Filling.empty (hsolid : m.arena.Solid) :
    Filling m ⟨0, 0, 0⟩ ⟨0, 0, 0⟩ [] [] :=
  ⟨Owned.empty hsolid, Owned.empty hsolid, Or.inl rfl, rfl, rfl,
    Nat.zero_le _, Nat.zero_le _⟩

theorem Filling.appendList (h : Filling m l w table bytes) (xs : List Byte) :
    (∃ rv m', Denied m rv m' (table.length + xs.length)
        ∧ (cxBufferAppend l xs).run m = .ok (rv, l) m'
        ∧ Filling m' l w table bytes)
      ∨ ∃ l' m', (cxBufferAppend l xs).run m = .ok (0, l') m'
        ∧ Filling m' l' w (table ++ xs) bytes ∧ m'.refused = m.refused := by
  rcases cxBufferAppend_cases h.list xs with ⟨rv, m', hdenied, hrun, hq, -⟩ | hok
  · left
    rw [h.table_length]
    exact ⟨rv, m', hdenied, hrun, h.quiet hq⟩
  · right
    obtain ⟨l', m', hrun, happ, hcap⟩ := hok
    obtain ⟨hvalues, hapart, hbytes⟩ :=
      h.values.beside happ.beside happ.owned.solid h.apart
    have hfits := h.listFits
    refine ⟨l', m', hrun, ⟨happ.owned, hvalues, hapart, ?_, ?_, ?_,
      h.valuesFit⟩, happ.refused⟩
    · rw [happ.read h.list, h.table]
    · rw [hbytes]
      exact h.bytes
    · rcases hcap with hkept | hle
      · rw [hkept]
        exact hfits
      · exact hle

theorem Filling.appendValues (h : Filling m l w table bytes) (xs : List Byte) :
    (∃ rv m', Denied m rv m' (bytes.length + xs.length)
        ∧ (cxBufferAppend w xs).run m = .ok (rv, w) m'
        ∧ Filling m' l w table bytes)
      ∨ ∃ w' m', (cxBufferAppend w xs).run m = .ok (0, w') m'
        ∧ Filling m' l w' table (bytes ++ xs) ∧ m'.refused = m.refused := by
  rcases h.swap.appendList xs with ⟨rv, m', hdenied, hrun, h'⟩ | hok
  · exact Or.inl ⟨rv, m', hdenied, hrun, h'.swap⟩
  · obtain ⟨w', m', hrun, h', hrefused⟩ := hok
    exact Or.inr ⟨w', m', hrun, h'.swap, hrefused⟩

-- ============================================================= the iterator

/-- The values of the iterator's first calls. -/
def Yields (next : Nat → NextResult) (vs : List (List Byte)) : Prop :=
  ∀ i (h : i < vs.length), 0 ≤ (next i).rv ∧ (next i).value = some vs[i]

/-- A call that returns no error and leaves the value NULL. -/
def NextResult.Ends (r : NextResult) : Prop := 0 ≤ r.rv ∧ r.value = none

/-- A call that returns an error. -/
def NextResult.Fails (r : NextResult) : Prop := r.rv < 0

theorem Yields.nil : Yields next [] := fun i hi => absurd hi (Nat.not_lt_zero i)

theorem Yields.snoc (h : Yields next vs) (hrv : 0 ≤ (next vs.length).rv)
    (hv : (next vs.length).value = some v) : Yields next (vs ++ [v]) := by
  intro i hi
  rw [List.length_append, List.length_singleton] at hi
  by_cases hlt : i < vs.length
  · rw [List.getElem_append_left hlt]
    exact h i hlt
  · have heq : i = vs.length := by omega
    subst heq
    rw [List.getElem_append_right (Nat.le_refl _)]
    refine ⟨hrv, hv.trans ?_⟩
    simp

/-- What the shorter of two runs of the iterator yields comes first in the
other. -/
theorem Yields.isPrefix (hu : Yields next us) (hv : Yields next vs)
    (hle : us.length ≤ vs.length) : us <+: vs := by
  rw [List.prefix_iff_eq_take]
  apply List.ext_getElem
  · rw [List.length_take, Nat.min_eq_left hle]
  · intro i hi hi'
    have hvalue := (hu i hi).2.symm.trans (hv i (by omega)).2
    rw [List.getElem_take, Option.some.inj hvalue]

/-- The iterator yields nothing at the call it ends or fails at, nor after
it. -/
theorem Yields.length_le (hu : Yields next us)
    (hstop : (next vs.length).Ends ∨ (next vs.length).Fails) :
    us.length ≤ vs.length := by
  by_contra hlt
  obtain ⟨hpos, hsome⟩ := hu vs.length (by omega)
  rcases hstop with ⟨-, hnone⟩ | hneg
  · rw [hnone] at hsome
    cases hsome
  · exact absurd hneg (Int.not_lt.mpr hpos)

/-- An iterator stops once. -/
theorem Yields.unique (hu : Yields next us) (hv : Yields next vs)
    (hustop : (next us.length).Ends ∨ (next us.length).Fails)
    (hvstop : (next vs.length).Ends ∨ (next vs.length).Fails) : us = vs := by
  have huv := hu.length_le hvstop
  have hvu := hv.length_le hustop
  exact (hu.isPrefix hv huv).eq_of_length (Nat.le_antisymm huv hvu)

theorem NextResult.Ends.not_fails {r : NextResult} (h : r.Ends) : ¬ r.Fails :=
  Int.not_lt.mpr h.1

-- =============================================================== the loop

/-- The larger of the two buffers. -/
def fillSize (vs : List (List Byte)) : Nat :=
  max (8 * vs.length) (valueBytes vs).length

theorem fillSize_mono (h : us <+: vs) : fillSize us ≤ fillSize vs := by
  obtain ⟨xs, rfl⟩ := h
  unfold fillSize
  rw [valueBytes_append, List.length_append, List.length_append]
  omega

theorem fillSize_le (vs : List (List Byte)) : fillSize vs ≤ blockSize vs := by
  unfold fillSize blockSize
  omega

theorem Filling.fillSize_le
    (h : Filling m l w (tableBytes vs) (valueBytes vs)) :
    fillSize vs ≤ 2 ^ 63 := by
  obtain ⟨htable, hbytes⟩ := h.fits
  rw [tableBytes_length] at htable
  exact Nat.max_le.mpr ⟨htable, hbytes⟩

/-- What a round ends in. -/
inductive RoundResult (next : NextResult) (vs : List (List Byte)) (l w : CxBuffer)
    (m m' : Machine) : Int × CxBuffer × CxBuffer → Prop where
  | stopped : next.Fails → m' = m → RoundResult next vs l w m m' (next.rv, l, w)
  | ended : next.Ends → m' = m → RoundResult next vs l w m m' (0, l, w)
  | added {v : List Byte} {l' w' : CxBuffer} : 0 ≤ next.rv →
      next.value = some v → m'.refused = m.refused →
      Filling m' l' w' (tableBytes (vs ++ [v])) (valueBytes (vs ++ [v])) →
      RoundResult next vs l w m m' (1, l', w')
  | denied {v table bytes : List Byte} {rv : Int} {l' w' : CxBuffer} :
      0 ≤ next.rv → next.value = some v →
      Denied m rv m' (fillSize (vs ++ [v])) → Filling m' l' w' table bytes →
      RoundResult next vs l w m m' (rv, l', w')

theorem handleNext_result (r : NextResult)
    (h : Filling m l w (tableBytes vs) (valueBytes vs)) :
    ∃ x m', (handleNext r l w).run m = .ok x m' ∧ RoundResult r vs l w m m' x := by
  unfold handleNext
  by_cases hneg : r.rv < 0
  · rw [if_pos hneg]
    exact ⟨_, m, rfl, .stopped hneg rfl⟩
  · rw [if_neg hneg]
    have hpos : 0 ≤ r.rv := Int.not_lt.mp hneg
    cases hv : r.value with
    | none => exact ⟨_, m, rfl, .ended ⟨hpos, hv⟩ rfl⟩
    | some v =>
        have htable := tableBytes_length vs
        have hsize : fillSize (vs ++ [v])
            = max (8 * (vs.length + 1))
              ((valueBytes vs).length + v.length + 1) := by
          unfold fillSize
          rw [valueBytes_snoc, List.length_append, List.length_append,
            List.length_append]
          rfl
        have hoffset : cxBufferSize w = (valueBytes vs).length :=
          h.bytes_length.symm
        simp only [hoffset, C.run_bind]
        rcases h.appendList (leBytes 8 (valueBytes vs).length) with hfail | hok
        · obtain ⟨rv, m₁, hdenied, hrun, hfill⟩ := hfail
          refine ⟨(rv, l, w), m₁, ?_, .denied hpos hv (hdenied.mono ?_) hfill⟩
          · rw [hrun, C.chain_ok]
            simp only [if_pos hdenied.neg, C.run_pure]
          · rw [leBytes_length]
            omega
        · obtain ⟨l₁, m₁, hrun₁, h₁, href₁⟩ := hok
          simp only [hrun₁, C.chain_ok, if_neg (Int.lt_irrefl 0), C.run_bind]
          rcases h₁.appendValues v with hfail | hok
          · obtain ⟨rv, m₂, hdenied, hrun, hfill⟩ := hfail
            refine ⟨(rv, l₁, w), m₂, ?_,
              .denied hpos hv ((hdenied.after href₁).mono ?_) hfill⟩
            · rw [hrun, C.chain_ok]
              simp only [if_pos hdenied.neg, C.run_pure]
            · omega
          · obtain ⟨w₂, m₂, hrun₂, h₂, href₂⟩ := hok
            have href := href₂.trans href₁
            simp only [hrun₂, C.chain_ok, if_neg (Int.lt_irrefl 0), C.run_bind]
            rcases h₂.appendValues [0] with hfail | hok
            · obtain ⟨rv, m₃, hdenied, hrun, hfill⟩ := hfail
              refine ⟨(rv, l₁, w₂), m₃, ?_,
                .denied hpos hv ((hdenied.after href).mono ?_) hfill⟩
              · rw [hrun, C.chain_ok]
                simp only [if_pos hdenied.neg, C.run_pure]
              · rw [List.length_append, List.length_singleton]
                omega
            · obtain ⟨w₃, m₃, hrun₃, h₃, href₃⟩ := hok
              refine ⟨(1, l₁, w₃), m₃, ?_,
                .added hpos hv (href₃.trans href) ?_⟩
              · rw [hrun₃, C.chain_ok]
                rfl
              · rw [tableBytes_snoc, valueBytes_snoc]
                exact h₃

/-- What the loop ends in, `limit` being the most values it can have taken. -/
inductive LoopResult (next : Nat → NextResult) (limit : Nat) (m m' : Machine) :
    Option (Int × Nat × CxBuffer × CxBuffer) → Prop where
  | ended {vs : List (List Byte)} {l w : CxBuffer} : Yields next vs →
      (next vs.length).Ends → m'.refused = m.refused →
      Filling m' l w (tableBytes vs) (valueBytes vs) →
      LoopResult next limit m m' (some (0, vs.length, l, w))
  | stopped {vs : List (List Byte)} {l w : CxBuffer} : Yields next vs →
      (next vs.length).Fails → m'.refused = m.refused →
      Filling m' l w (tableBytes vs) (valueBytes vs) →
      LoopResult next limit m m' (some ((next vs.length).rv, vs.length, l, w))
  | denied {vs : List (List Byte)} {l w : CxBuffer} {table bytes : List Byte}
      {k : Nat} {rv : Int} : Yields next vs → Denied m rv m' (fillSize vs) →
      Filling m' l w table bytes →
      LoopResult next limit m m' (some (rv, k, l, w))
  | unfinished {vs : List (List Byte)} {l w : CxBuffer} : Yields next vs →
      vs.length = limit → m'.refused = m.refused →
      Filling m' l w (tableBytes vs) (valueBytes vs) →
      LoopResult next limit m m' none

/-- A round before the others. -/
theorem LoopResult.after {limit : Nat} {m₁ : Machine}
    {r : Option (Int × Nat × CxBuffer × CxBuffer)}
    (h : LoopResult next limit m₁ m' r) (hm : m₁.refused = m.refused) :
    LoopResult next limit m m' r := by
  cases h with
  | ended hy hends href hfill => exact .ended hy hends (href.trans hm) hfill
  | stopped hy hfails href hfill => exact .stopped hy hfails (href.trans hm) hfill
  | denied hy hdenied hfill => exact .denied hy (hdenied.after hm) hfill
  | unfinished hy hlen href hfill => exact .unfinished hy hlen (href.trans hm) hfill

theorem collectLoop_result (rounds : Nat)
    (h : Filling m l w (tableBytes vs) (valueBytes vs)) (hy : Yields next vs) :
    ∃ r m', (collectLoop next rounds vs.length l w).run m = .ok r m'
      ∧ LoopResult next (vs.length + rounds) m m' r := by
  induction rounds generalizing vs l w m with
  | zero => exact ⟨none, m, rfl, .unfinished hy rfl rfl h⟩
  | succ rounds ih =>
      obtain ⟨x, m₁, hrun, hround⟩ := handleNext_result (next vs.length) h
      unfold collectLoop
      rw [C.run_bind, hrun, C.chain_ok]
      cases hround with
      | stopped hfails hm =>
          subst hm
          refine ⟨_, m₁, ?_, .stopped hy hfails rfl h⟩
          have hle := Int.not_lt.mpr (Int.le_of_lt hfails)
          simp only [gt_iff_lt, if_neg hle, C.run_pure]
      | ended hends hm =>
          subst hm
          exact ⟨_, m₁, rfl, .ended hy hends rfl h⟩
      | @added v l' w' hpos hv href hfill =>
          obtain ⟨r, m₂, hrest, hresult⟩ := ih hfill (hy.snoc hpos hv)
          rw [List.length_append, List.length_singleton] at hrest hresult
          refine ⟨r, m₂, hrest, ?_⟩
          rw [Nat.add_assoc, Nat.add_comm 1] at hresult
          exact hresult.after href
      | denied hpos hv hdenied hfill =>
          refine ⟨_, m₁, ?_,
            .denied (k := vs.length) (hy.snoc hpos hv) hdenied hfill⟩
          have hle := Int.not_lt.mpr (Int.le_of_lt hdenied.neg)
          simp only [gt_iff_lt, if_neg hle, C.run_pure]

/-- The list of offsets would not fit in memory. -/
theorem Filling.length_lt (h : Filling m l w (tableBytes vs) bytes) :
    vs.length < 2 ^ 61 := by
  have hlen := h.table_length
  have hle := h.list.size_le
  have hlt := h.list.capacity_lt
  rw [tableBytes_length] at hlen
  omega

-- ============================================================== the addresses

/-- What turning the offsets from entry `i` on into addresses does. -/
theorem run_rebase (result baseSize : Nat)
    (hvalid : ∀ j < n, m.Valid (result + 8 * j) 8) (i : Nat) :
    ∃ mem', (rebase result baseSize n i).run m = .ok () { m with mem := mem' }
      ∧ (∀ j, i ≤ j → j < n → mem'.load64 (result + 8 * j)
        = (m.mem.load64 (result + 8 * j) + (baseSize + result)) % 2 ^ 64)
      ∧ ∀ x, x < result + 8 * i ∨ result + 8 * n ≤ x → mem' x = m.mem x := by
  induction hk : n - i generalizing i m with
  | zero =>
      refine ⟨m.mem, ?_, ?_, fun _ _ => rfl⟩
      · rw [rebase, dif_neg (by omega), C.run_pure]
      · intro j hij hjn
        omega
  | succ k ih =>
      have hi : i < n := by omega
      have hv := hvalid i hi
      obtain ⟨mem', hrun, hwords, hout⟩ := ih (m := { m with
          mem := m.mem.store64 (result + 8 * i)
            ((m.mem.load64 (result + 8 * i) + (baseSize + result)) % 2 ^ 64) })
        hvalid (i + 1) (by omega)
      refine ⟨mem', ?_, ?_, ?_⟩
      · rw [rebase, dif_pos hi, C.run_bind, run_load64 hv, C.chain_ok,
          C.run_bind, run_store64 hv, C.chain_ok]
        exact hrun
      · intro j hij hjn
        by_cases hji : j = i
        · subst hji
          have hagree : Mem.Agree (m.mem.store64 (result + 8 * j)
              ((m.mem.load64 (result + 8 * j) + (baseSize + result)) % 2 ^ 64))
              mem' (result + 8 * j) 8 := by
            intro x _ hx
            exact hout x (Or.inl (by omega))
          rw [load64_congr hagree, load64_store64_self, Nat.mod_mod]
        · rw [hwords j (by omega) hjn]
          dsimp only
          rw [load64_store64_of_disjoint (by omega)]
      · intro x hx
        rw [hout x (by omega)]
        exact agree_store64 (b := x) (n := 1) (by omega) x (Nat.le_refl _)
          (Nat.lt_succ_self _)

-- ================================================================== the block

/-- One block holds the table of pointers, a null pointer, and the values
they point to. -/
structure Collected (m : Machine) (target : Nat) (vs : List (List Byte)) :
    Prop where
  block : ∃ size, (⟨target, size⟩ : Block) ∈ m.arena.blocks
    ∧ 8 * (vs.length + 1) ≤ size
    ∧ ∀ i (h : i < vs.length), m.mem.load64 (target + 8 * i) + vs[i].length + 1
      ≤ target + size
  null : m.mem.load64 (target + 8 * vs.length) = 0
  value : ∀ i (h : i < vs.length),
    target + 8 * (vs.length + 1) ≤ m.mem.load64 (target + 8 * i)
      ∧ m.mem.read (m.mem.load64 (target + 8 * i)) vs[i].length = vs[i]
      ∧ m.mem (m.mem.load64 (target + 8 * i) + vs[i].length) = 0
  apart : ∀ i j (hi : i < vs.length) (_ : j < vs.length), i < j →
    m.mem.load64 (target + 8 * i) + vs[i].length + 1
      ≤ m.mem.load64 (target + 8 * j)

/-- Other blocks do not matter. -/
theorem Collected.beside (h : Collected m target vs) (hb : Beside m a m' a')
    (hne : target ≠ a) : Collected m' target vs := by
  obtain ⟨size, hin, htable, hvalues⟩ := h.block
  have hmem : ∀ x, target ≤ x → x < target + size → m'.mem x = m.mem x :=
    fun x hlo hhi => hb.mem _ hin hne x ⟨hlo, hhi⟩
  have hword : ∀ i, i ≤ vs.length →
      m'.mem.load64 (target + 8 * i) = m.mem.load64 (target + 8 * i) := by
    intro i hi
    apply load64_congr
    intro x hlo hhi
    exact hmem x (by omega) (by omega)
  refine ⟨⟨size, ((hb.blocks _).mpr ⟨hin, hne⟩).1, htable, ?_⟩, ?_, ?_, ?_⟩
  · intro i hi
    rw [hword i (Nat.le_of_lt hi)]
    exact hvalues i hi
  · rw [hword _ (Nat.le_refl _)]
    exact h.null
  · intro i hi
    obtain ⟨hlo, hread, hzero⟩ := h.value i hi
    have hhi := hvalues i hi
    rw [hword i (Nat.le_of_lt hi)]
    refine ⟨hlo, ?_, ?_⟩
    · rw [← hread]
      simp only [read_length]
      apply read_congr
      intro x hx hxn
      exact hmem x (by omega) (by omega)
    · rw [hmem _ (by omega) (by omega)]
      exact hzero
  · intro i j hi hj hij
    rw [hword i (Nat.le_of_lt hi), hword j (Nat.le_of_lt hj)]
    exact h.apart i j hi hj hij

theorem Collected.target_ne (h : Collected m target vs) : target ≠ 0 := by
  obtain ⟨size, hin, -⟩ := h.block
  exact m.arena.base_ne_zero hin

/-- The joined buffer, its offsets turned into addresses. -/
theorem Filling.rebased
    (h : Filling m l w (tableBytes vs ++ leBytes 8 0 ++ valueBytes vs) bytes) :
    ∃ m', (rebase l.data (8 * (vs.length + 1)) vs.length 0).run m = .ok () m'
      ∧ Collected m' l.data vs ∧ Owned m' w
      ∧ (w.data = 0 ∨ w.data ≠ l.data) ∧ m'.refused = m.refused := by
  have hsize : l.size = 8 * (vs.length + 1) + (valueBytes vs).length := by
    rw [← h.table_length, List.length_append, List.length_append,
      tableBytes_length, leBytes_length]
    omega
  have hle := h.list.size_le
  have hblock := h.list.mem_block (by omega)
  have hbound := (m.arena.bounded _ hblock).2
  simp only at hbound
  obtain ⟨mem', hrun, hwords, hout⟩ := run_rebase (m := m) (n := vs.length)
    l.data (8 * (vs.length + 1))
    (fun j hj => h.list.valid (by omega) (by decide)) 0
  have hbeside : Beside m l.data { m with mem := mem' } l.data := by
    refine ⟨fun c => Iff.rfl, ?_, rfl, rfl⟩
    intro c hc hne x hx
    apply hout
    rcases m.arena.eq_or_disjoint hc hblock with heq | hdis
    · exact absurd (congrArg Block.base heq) hne
    · simp only [Block.Disjoint, Block.Has] at hdis hx
      omega
  -- the bytes behind the table
  have hread : ∀ (xs : List Byte) {ys zs : List Byte}, tableBytes vs ++ leBytes 8 0
      ++ valueBytes vs = xs ++ ys ++ zs → 8 * vs.length ≤ xs.length →
      mem'.read (l.data + xs.length) ys.length = ys := by
    intro xs ys zs heq hlo
    have hslice := read_slice (h.table.trans heq)
    have hagree : m.mem.Agree mem' (l.data + xs.length) ys.length :=
      fun x hx _ => hout x (Or.inr (by omega))
    rw [read_congr hagree]
    exact hslice
  have hnull : mem'.load64 (l.data + 8 * vs.length) = 0 := by
    have hzero := hread (tableBytes vs) rfl
      (Nat.le_of_eq (tableBytes_length vs).symm)
    rw [tableBytes_length, leBytes_length] at hzero
    exact load64_of_read hzero
  have hpointer : ∀ i (hi : i < vs.length), mem'.load64 (l.data + 8 * i)
      = l.data + 8 * (vs.length + 1) + valueOffset vs i := by
    intro i hi
    have hoffset : m.mem.load64 (l.data + 8 * i)
        = valueOffset vs i % 2 ^ 64 := by
      obtain ⟨zs, hzs⟩ := tableBytes_split hi
      have hread := h.table
      rw [hzs, List.append_assoc (_ ++ _), List.append_assoc (_ ++ _)] at hread
      have hslice := read_slice hread
      rw [tableBytes_length, List.length_take, Nat.min_eq_left
        (Nat.le_of_lt hi), leBytes_length] at hslice
      exact load64_of_read hslice
    have hend := valueOffset_lt hi hi
    rw [valueOffset_length] at hend
    rw [hwords i (Nat.zero_le i) hi, hoffset, Nat.mod_eq_of_lt (by omega),
      Nat.mod_eq_of_lt (by omega)]
    omega
  refine ⟨{ m with mem := mem' }, hrun, ?_, ?_, h.apart, rfl⟩
  · refine ⟨⟨l.capacity, hblock, by omega, ?_⟩, hnull, ?_, ?_⟩
    · intro i hi
      have hend := valueOffset_lt hi hi
      rw [valueOffset_length] at hend
      dsimp only
      rw [hpointer i hi]
      omega
    · intro i hi
      dsimp only
      rw [hpointer i hi]
      have hsplit : tableBytes vs ++ leBytes 8 0 ++ valueBytes vs
          = (tableBytes vs ++ leBytes 8 0 ++ valueBytes (vs.take i))
            ++ (vs[i] ++ [0]) ++ valueBytes (vs.drop (i + 1)) := by
        conv_lhs => rw [valueBytes_split vs hi]
        simp only [List.append_assoc]
      have hlen : (tableBytes vs ++ leBytes 8 0
          ++ valueBytes (vs.take i)).length
          = 8 * (vs.length + 1) + valueOffset vs i := by
        rw [List.length_append, List.length_append, tableBytes_length,
          leBytes_length]
        rfl
      have hslice := hread _ hsplit (by rw [hlen]; omega)
      rw [hlen, ← Nat.add_assoc, List.length_append, List.length_singleton,
        read_append] at hslice
      obtain ⟨hvalue, hzero⟩ := List.append_inj hslice (read_length ..)
      refine ⟨by omega, hvalue, ?_⟩
      have hget := congrArg (fun bs => bs[0]?) hzero
      simpa [Mem.read] using hget
    · intro i j hi hj hij
      dsimp only
      rw [hpointer i hi, hpointer j hj]
      have := valueOffset_lt hi hij
      omega
  · exact (h.values.beside hbeside h.list.solid h.apart).1

theorem run_cxBufferBytes (h : Owned m b) :
    (cxBufferBytes b).run m = .ok (m.mem.read b.data b.size) m := by
  unfold cxBufferBytes cxBufferSize cxBufferData
  have hle := h.size_le
  by_cases hzero : b.size = 0
  · rw [if_pos hzero, C.run_pure, hzero]
    rfl
  · rw [if_neg hzero]
    exact run_readBytes (h.valid (i := 0) (by omega) (by omega))

/-- Joining the buffers fails and keeps `*target`, or sets it to the
block. -/
theorem joinBuffers_cases (target : Nat)
    (h : Filling m l w (tableBytes vs) (valueBytes vs)) :
    (∃ rv l' table m', Denied m rv m' (blockSize vs)
        ∧ (joinBuffers target vs.length l w).run m = .ok (rv, target, l', w) m'
        ∧ Filling m' l' w table (valueBytes vs))
      ∨ ∃ result m', (joinBuffers target vs.length l w).run m
          = .ok (0, result, ⟨0, 0, 0⟩, w) m'
        ∧ Collected m' result vs ∧ Owned m' w ∧ (w.data = 0 ∨ w.data ≠ result)
        ∧ m'.refused = m.refused ∧ blockSize vs ≤ 2 ^ 63 := by
  have htable := tableBytes_length vs
  have hsize : blockSize vs = 8 * (vs.length + 1) + (valueBytes vs).length := rfl
  unfold joinBuffers
  rw [C.run_bind]
  rcases h.appendList (leBytes 8 0) with hfail | hok
  · left
    obtain ⟨rv, m₁, hdenied, hrun, hfill⟩ := hfail
    refine ⟨rv, l, _, m₁, hdenied.mono ?_, ?_, hfill⟩
    · rw [leBytes_length]
      omega
    · rw [hrun, C.chain_ok]
      simp only [if_pos hdenied.neg, C.run_pure]
  · obtain ⟨l₁, m₁, hrun₁, h₁, href₁⟩ := hok
    have hbase : cxBufferSize l₁ = 8 * (vs.length + 1) := by
      have hlen := h₁.table_length
      rw [List.length_append, leBytes_length, htable] at hlen
      unfold cxBufferSize
      omega
    simp only [hrun₁, C.chain_ok, if_neg (Int.lt_irrefl 0), C.run_bind, hbase,
      run_cxBufferBytes h₁.values, h₁.bytes]
    rcases h₁.appendList (valueBytes vs) with hfail | hok
    · left
      obtain ⟨rv, m₂, hdenied, hrun, hfill⟩ := hfail
      refine ⟨rv, l₁, _, m₂, (hdenied.after href₁).mono ?_, ?_, hfill⟩
      · rw [List.length_append, leBytes_length]
        omega
      · rw [hrun, C.chain_ok]
        simp only [if_pos hdenied.neg, C.run_pure]
    · right
      obtain ⟨l₂, m₂, hrun₂, h₂, href₂⟩ := hok
      obtain ⟨m₃, hrun₃, hcollected, howned, hapart, href₃⟩ := h₂.rebased
      refine ⟨l₂.data, m₃, ?_, hcollected, howned, hapart,
        href₃.trans (href₂.trans href₁), ?_⟩
      · rw [hrun₂, C.chain_ok]
        simp only [if_neg (Int.lt_irrefl 0), C.run_bind, run_cxBufferUnwrap,
          C.chain_ok, hrun₃, C.run_pure]
      · have hfits := h₂.fits.1
        rw [List.length_append, List.length_append, leBytes_length] at hfits
        omega

-- ==================================================================== out

/-- At `out` both buffers are freed; other blocks stay. -/
theorem run_collectOut (rv : Int) (target : Nat) (hl : Owned m l)
    (hw : Owned m w) (hapart : w.data = 0 ∨ w.data ≠ l.data) :
    ∃ m₁ m', (collectOut rv target l w).run m = .ok (some (rv, target)) m'
      ∧ Beside m l.data m₁ 0 ∧ Beside m₁ w.data m' 0
      ∧ m'.refused = m.refused := by
  obtain ⟨m₁, hrun₁, hbeside₁, -, hsolid₁, href₁⟩ := run_cxBufferCleanup hl
  have hw₁ := (hw.beside hbeside₁ hsolid₁ hapart).1
  obtain ⟨m₂, hrun₂, hbeside₂, -, -, href₂⟩ := run_cxBufferCleanup hw₁
  refine ⟨m₁, m₂, ?_, hbeside₁, hbeside₂, href₂.trans href₁⟩
  rw [collectOut, C.run_bind, hrun₁, C.chain_ok, C.run_bind, hrun₂, C.chain_ok,
    C.run_pure]

theorem Filling.out (h : Filling m l w table bytes) (rv : Int) (target : Nat) :
    ∃ m', (collectOut rv target l w).run m = .ok (some (rv, target)) m'
      ∧ m'.refused = m.refused := by
  obtain ⟨-, m', hrun, -, -, href⟩ :=
    run_collectOut rv target h.list h.values h.apart
  exact ⟨m', hrun, href⟩

/-- What `cx_collect` ends in. -/
inductive CollectResult (next : Nat → NextResult) (rounds target : Nat)
    (m m' : Machine) : Option (Int × Nat) → Prop where
  | collected {vs : List (List Byte)} {result : Nat} : Yields next vs →
      (next vs.length).Ends → m'.refused = m.refused →
      blockSize vs ≤ 2 ^ 63 → Collected m' result vs →
      CollectResult next rounds target m m' (some (0, result))
  | stopped {vs : List (List Byte)} : Yields next vs →
      (next vs.length).Fails → m'.refused = m.refused → fillSize vs ≤ 2 ^ 63 →
      CollectResult next rounds target m m' (some ((next vs.length).rv, target))
  | unfilled {vs : List (List Byte)} {rv : Int} : Yields next vs →
      Denied m rv m' (fillSize vs) →
      CollectResult next rounds target m m' (some (rv, target))
  | unjoined {vs : List (List Byte)} {rv : Int} : Yields next vs →
      (next vs.length).Ends → fillSize vs ≤ 2 ^ 63 →
      Denied m rv m' (blockSize vs) →
      CollectResult next rounds target m m' (some (rv, target))
  | unfinished {vs : List (List Byte)} : Yields next vs → vs.length = rounds →
      vs.length < 2 ^ 61 → m'.refused = m.refused → fillSize vs ≤ 2 ^ 63 →
      CollectResult next rounds target m m' none

theorem Denied.keep {rv : Int} {m₁ : Machine} (h : Denied m rv m₁ n)
    (hm : m'.refused = m₁.refused) : Denied m rv m' n := by
  unfold Denied at h ⊢
  rw [hm]
  exact h

theorem cxCollect_result (hsolid : m.arena.Solid) (target : Nat)
    (next : Nat → NextResult) (rounds : Nat) :
    ∃ r m', (cxCollect target next rounds).run m = .ok r m'
      ∧ CollectResult next rounds target m m' r := by
  have hempty : Filling m ⟨0, 0, 0⟩ ⟨0, 0, 0⟩ (tableBytes []) (valueBytes []) :=
    Filling.empty hsolid
  have hnone : Yields next [] := Yields.nil
  obtain ⟨r, m₁, hrun, hloop⟩ := collectLoop_result rounds hempty hnone
  rw [List.length_nil, Nat.zero_add] at hloop
  unfold cxCollect cxBufferInit
  simp only [if_neg (Int.lt_irrefl 0), C.run_bind]
  rw [List.length_nil] at hrun
  rw [hrun, C.chain_ok]
  cases hloop with
  | @ended vs l w hy hends href hfill =>
      simp only [if_neg (Int.lt_irrefl 0), C.run_bind]
      rcases joinBuffers_cases target hfill with hfail | hok
      · obtain ⟨rv, l', table, m₂, hdenied, hrun₂, hfill₂⟩ := hfail
        obtain ⟨m₃, hrun₃, href₃⟩ := hfill₂.out rv target
        refine ⟨_, m₃, ?_, .unjoined hy hends hfill.fillSize_le
          ((hdenied.after href).keep href₃)⟩
        rw [hrun₂, C.chain_ok]
        exact hrun₃
      · obtain ⟨result, m₂, hrun₂, hcollected, hw, hapart, href₂, hsize⟩ := hok
        obtain ⟨m₃, m₄, hrun₄, hbeside, hbeside', href₄⟩ :=
          run_collectOut 0 result (Owned.empty hw.solid) hw
            (Decidable.em (w.data = 0))
        have hne := hcollected.target_ne
        have hne' : result ≠ w.data := by
          intro heq
          rcases hapart with hnull | hdata
          · exact hne (heq.trans hnull)
          · exact hdata heq.symm
        refine ⟨some (0, result), m₄, ?_, .collected hy hends
          (href₄.trans (href₂.trans href)) hsize
          ((hcollected.beside hbeside hne).beside hbeside' hne')⟩
        rw [hrun₂, C.chain_ok]
        exact hrun₄
  | stopped hy hfails href hfill =>
      obtain ⟨m₂, hrun₂, href₂⟩ := hfill.out _ target
      refine ⟨_, m₂, ?_, .stopped hy hfails (href₂.trans href)
        hfill.fillSize_le⟩
      have hneg : (next _).rv < 0 := hfails
      simp only [if_pos hneg]
      exact hrun₂
  | denied hy hdenied hfill =>
      obtain ⟨m₂, hrun₂, href₂⟩ := hfill.out _ target
      refine ⟨_, m₂, ?_, .unfilled hy (hdenied.keep href₂)⟩
      simp only [if_pos hdenied.neg]
      exact hrun₂
  | unfinished hy hlen href hfill =>
      exact ⟨none, m₁, rfl, .unfinished hy hlen hfill.length_lt href
        hfill.fillSize_le⟩

-- =================================================================== claim

/-- What is promised of a call: the iterator ended and the block is there; or
it failed, or a buffer did, and `*target` is as it was. -/
structure Collects (next : Nat → NextResult) (rounds target : Nat)
    (m m' : Machine) (r : Option (Int × Nat)) : Prop where
  /-- a sequence, nothing being refused -/
  ended : ∀ vs, Yields next vs → (next vs.length).Ends → vs.length < rounds →
    m'.refused = false → blockSize vs ≤ 2 ^ 63 →
    ∃ result, r = some (0, result) ∧ Collected m' result vs
  /-- an error of the iterator -/
  stopped : ∀ vs, Yields next vs → (next vs.length).Fails →
    vs.length < rounds → m'.refused = false → fillSize vs ≤ 2 ^ 63 →
    r = some ((next vs.length).rv, target)
  /-- a request that was refused -/
  refused : m.refused = false → m'.refused = true →
    r = some (-cxErrAlloc, target)
  /-- a buffer that cannot be as large -/
  overflow : ∀ vs, Yields next vs → vs.length ≤ rounds →
    2 ^ 63 < fillSize vs → m'.refused = false →
    r = some (-cxErrIntegerOverflow, target)
  unjoined : ∀ vs, Yields next vs → (next vs.length).Ends →
    vs.length < rounds → 2 ^ 63 < blockSize vs → m'.refused = false →
    r = some (-cxErrIntegerOverflow, target)
  /-- an iterator that goes on must run into one of these -/
  unfinished : r = none → rounds < 2 ^ 61 ∧
    ∃ vs, Yields next vs ∧ vs.length = rounds

theorem Denied.overflow {rv : Int} (h : Denied m rv m' n)
    (hrefused : m'.refused = false) : rv = -cxErrIntegerOverflow ∧ 2 ^ 63 < n := by
  rcases h with ⟨-, htrue⟩ | ⟨hrv, -, hlt⟩
  · rw [hrefused] at htrue
    cases htrue
  · exact ⟨hrv, hlt⟩

theorem Denied.alloc {rv : Int} (h : Denied m rv m' n)
    (hm : m.refused = false) (hrefused : m'.refused = true) :
    rv = -cxErrAlloc := by
  rcases h with ⟨hrv, -⟩ | ⟨-, heq, -⟩
  · exact hrv
  · rw [hm, hrefused] at heq
    cases heq

section CollectResult

variable {rounds : Nat} {r : Option (Int × Nat)}

theorem CollectResult.ended (h : CollectResult next rounds target m m' r)
    (hy : Yields next vs) (hends : (next vs.length).Ends)
    (hlt : vs.length < rounds) (href : m'.refused = false) :
    (∃ result, r = some (0, result) ∧ Collected m' result vs
        ∧ blockSize vs ≤ 2 ^ 63)
      ∨ r = some (-cxErrIntegerOverflow, target) ∧ 2 ^ 63 < blockSize vs := by
  cases h with
  | @collected us result hu huends _ hsize hcollected =>
      have heq := hu.unique hy (Or.inl huends) (Or.inl hends)
      subst heq
      exact Or.inl ⟨result, rfl, hcollected, hsize⟩
  | @stopped us hu hufails =>
      have heq := hu.unique hy (Or.inr hufails) (Or.inl hends)
      subst heq
      exact absurd hufails hends.not_fails
  | @unfilled us rv hu hdenied =>
      obtain ⟨hrv, hbig⟩ := hdenied.overflow href
      have hprefix := hu.isPrefix hy (hu.length_le (Or.inl hends))
      have hmono := (fillSize_mono hprefix).trans (fillSize_le vs)
      exact Or.inr ⟨by rw [hrv], by omega⟩
  | @unjoined us rv hu huends _ hdenied =>
      have heq := hu.unique hy (Or.inl huends) (Or.inl hends)
      subst heq
      obtain ⟨hrv, hbig⟩ := hdenied.overflow href
      exact Or.inr ⟨by rw [hrv], hbig⟩
  | @unfinished us hu hlen =>
      have hle := hu.length_le (Or.inl hends)
      omega

theorem CollectResult.stopped_rv
    (h : CollectResult next rounds target m m' r)
    (hy : Yields next vs) (hfails : (next vs.length).Fails)
    (hlt : vs.length < rounds) (href : m'.refused = false)
    (hsize : fillSize vs ≤ 2 ^ 63) : r = some ((next vs.length).rv, target) := by
  cases h with
  | @collected us result hu huends =>
      have heq := hu.unique hy (Or.inl huends) (Or.inr hfails)
      subst heq
      exact absurd hfails huends.not_fails
  | @stopped us hu hufails =>
      have heq := hu.unique hy (Or.inr hufails) (Or.inr hfails)
      rw [heq]
  | @unfilled us rv hu hdenied =>
      obtain ⟨-, hbig⟩ := hdenied.overflow href
      have hmono := fillSize_mono
        (hu.isPrefix hy (hu.length_le (Or.inr hfails)))
      omega
  | @unjoined us rv hu huends =>
      have heq := hu.unique hy (Or.inl huends) (Or.inr hfails)
      subst heq
      exact absurd hfails huends.not_fails
  | @unfinished us hu hlen =>
      have hle := hu.length_le (Or.inr hfails)
      omega

theorem CollectResult.refused_rv
    (h : CollectResult next rounds target m m' r)
    (hm : m.refused = false) (href : m'.refused = true) :
    r = some (-cxErrAlloc, target) := by
  have hne : m'.refused ≠ m.refused := by
    rw [hm, href]
    exact Bool.noConfusion
  cases h with
  | collected _ _ heq => exact absurd heq hne
  | stopped _ _ heq => exact absurd heq hne
  | unfilled _ hdenied => rw [hdenied.alloc hm href]
  | unjoined _ _ _ hdenied => rw [hdenied.alloc hm href]
  | unfinished _ _ _ heq => exact absurd heq hne

theorem CollectResult.overflow_rv
    (h : CollectResult next rounds target m m' r)
    (hy : Yields next vs) (hle : vs.length ≤ rounds)
    (hbig : 2 ^ 63 < fillSize vs) (href : m'.refused = false) :
    r = some (-cxErrIntegerOverflow, target) := by
  -- nothing that holds `vs` can have been filled in
  have hnot : ∀ us, Yields next us → vs.length ≤ us.length →
      fillSize us ≤ 2 ^ 63 → False := by
    intro us hu hlen hsize
    have hmono := fillSize_mono (hy.isPrefix hu hlen)
    omega
  cases h with
  | @collected us result hu huends _ hsize =>
      have hfill := (fillSize_le us).trans hsize
      exact absurd hfill (hnot us hu (hy.length_le (Or.inl huends)))
  | @stopped us hu hufails _ hsize =>
      exact absurd hsize (hnot us hu (hy.length_le (Or.inr hufails)))
  | unfilled _ hdenied => rw [(hdenied.overflow href).1]
  | unjoined _ _ _ hdenied => rw [(hdenied.overflow href).1]
  | @unfinished us hu hlen _ _ hsize =>
      exact absurd hsize (hnot us hu (hlen ▸ hle))

theorem CollectResult.collects
    (h : CollectResult next rounds target m m' r) :
    Collects next rounds target m m' r where
  ended := by
    intro vs hy hends hlt href hsize
    rcases h.ended hy hends hlt href with ⟨result, hr, hblock, -⟩ | ⟨-, hbig⟩
    · exact ⟨result, hr, hblock⟩
    · omega
  stopped _ hy hfails hlt href hsize := h.stopped_rv hy hfails hlt href hsize
  refused hm href := h.refused_rv hm href
  overflow _ hy hle hbig href := h.overflow_rv hy hle hbig href
  unjoined := by
    intro vs hy hends hlt hbig href
    rcases h.ended hy hends hlt href with ⟨_, -, -, hsize⟩ | ⟨hr, -⟩
    · omega
    · exact hr
  unfinished := by
    intro hr
    subst hr
    cases h with
    | @unfinished us hu hlen hlt =>
        exact ⟨hlen ▸ hlt, us, hu, hlen⟩

end CollectResult

/-- `cx_collect` builds the sequence its iterator yields, or reports what
went wrong and keeps `*target`. -/
theorem cxCollect_sequence (hsolid : m.arena.Solid) (next : Nat → NextResult)
    (rounds target : Nat) :
    ∃ r m', (cxCollect target next rounds).run m = .ok r m'
      ∧ Collects next rounds target m m' r := by
  obtain ⟨r, m', hrun, hresult⟩ := cxCollect_result hsolid target next rounds
  exact ⟨r, m', hrun, hresult.collects⟩

/-- Three values, one of them empty and one with a zero byte in it. -/
theorem cxCollect_sequence_three :
    ∃ result m', (cxCollect 0 (fun i => ⟨0, [[97], [], [0, 1]][i]?⟩) 4).run
        (Machine.boot (fun _ => 0) fun t => 64 * (t + 1))
          = .ok (some (0, result)) m'
      ∧ Collected m' result [[97], [], [0, 1]] := by
  obtain ⟨r, m', hrun, hcollects⟩ := cxCollect_sequence
    (m := Machine.boot (fun _ => 0) fun t => 64 * (t + 1)) (Machine.boot_solid _ _)
    (fun i => ⟨0, [[97], [], [0, 1]][i]?⟩) 4 0
  have hrefused := congrArg (fun o => o.machine.refused) hrun
  have hgranted : ((cxCollect 0 (fun i => ⟨0, [[97], [], [0, 1]][i]?⟩) 4).run
      (Machine.boot (fun _ => 0) fun t => 64 * (t + 1))).machine.refused
        = false := by
    decide +kernel
  obtain ⟨result, hr, hblock⟩ := hcollects.ended [[97], [], [0, 1]]
    (by unfold Yields; decide) ⟨Int.le_refl 0, rfl⟩ (by decide)
    (hrefused.symm.trans hgranted) (by decide)
  rw [hr] at hrun
  exact ⟨result, m', hrun, hblock⟩

end Cextras.Collection
