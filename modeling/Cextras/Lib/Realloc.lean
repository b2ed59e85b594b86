/-
Reallocation. Blocks of some size have different addresses (`Solid`), so
an address names the block that starts there, and `realloc` replaces just
that block (`realloc_cases`). `Beside` says that all other blocks are as
they were; it composes, so that a sequence of steps on one block is
another such step.
-/
import Cextras.Lib.Machine

namespace Cextras.Lib

variable {ar : Arena} {m m₁ m₂ : Machine} {b : Block} {a a₁ a₂ old n : Nat}

-- ================================================================ blocks

/-- No block is empty. -/
def Arena.Solid (ar : Arena) : Prop := ∀ b ∈ ar.blocks, 0 < b.size

/-- Blocks that share no byte and are not empty start at different
addresses. -/
theorem Block.Disjoint.base_ne {b c : Block} (h : b.Disjoint c)
    (hb : 0 < b.size) (hc : 0 < c.size) : b.base ≠ c.base := by
  unfold Block.Disjoint at h
  omega

theorem Machine.boot_solid (mem : Mem) (oracle : Nat → Nat) :
    (Machine.boot mem oracle).arena.Solid := by
  intro b hb
  cases hb

theorem Arena.Solid.base_injective (h : ar.Solid) {b c : Block}
    (hb : b ∈ ar.blocks) (hc : c ∈ ar.blocks) (heq : b.base = c.base) :
    b = c := by
  rcases ar.eq_or_disjoint hb hc with hbc | hdis
  · exact hbc
  · exact absurd heq (hdis.base_ne (h b hb) (h c hc))

theorem Arena.Solid.blockAt (h : ar.Solid) (hb : b ∈ ar.blocks) :
    ar.blockAt b.base = some b := by
  unfold Arena.blockAt
  cases hfind : ar.blocks.find? fun c => c.base = b.base with
  | none =>
      have hnone := List.find?_eq_none.mp hfind b hb
      simp at hnone
  | some c =>
      have hbase : c.base = b.base := of_decide_eq_true (List.find?_some hfind :)
      rw [h.base_injective (List.mem_of_find?_eq_some hfind) hb hbase]

/-- The first entry with the key goes, the others stay. -/
theorem mem_eraseP_base (l : List Block)
    (h : l.Pairwise fun b c => b.base ≠ c.base) :
    b ∈ l.eraseP (fun c => c.base = a) ↔ b ∈ l ∧ b.base ≠ a := by
  induction l with
  | nil => simp
  | cons c l ih =>
      rw [List.pairwise_cons] at h
      obtain ⟨hc, hl⟩ := h
      by_cases hca : c.base = a
      · rw [List.eraseP_cons_of_pos (by simpa using hca), List.mem_cons]
        constructor
        · intro hb
          exact ⟨Or.inr hb, fun hba => hc b hb (hca.trans hba.symm)⟩
        · intro hb
          obtain ⟨hb | hb, hne⟩ := hb
          · exact absurd (hb ▸ hca) hne
          · exact hb
      · rw [List.eraseP_cons_of_neg (by simpa using hca), List.mem_cons,
          List.mem_cons, ih hl]
        constructor
        · intro hb
          rcases hb with hb | hb
          · exact ⟨Or.inl hb, hb ▸ hca⟩
          · exact ⟨Or.inr hb.1, hb.2⟩
        · intro hb
          obtain ⟨hb | hb, hne⟩ := hb
          · exact Or.inl hb
          · exact Or.inr ⟨hb, hne⟩

theorem Arena.Solid.mem_remove (h : ar.Solid) :
    b ∈ (ar.remove a).blocks ↔ b ∈ ar.blocks ∧ b.base ≠ a := by
  refine mem_eraseP_base ar.blocks ?_
  refine List.Pairwise.imp_of_mem ?_ ar.disjoint
  intro c d hc hd hdis
  exact hdis.base_ne (h c hc) (h d hd)

theorem Arena.base_ne_zero (hb : b ∈ ar.blocks) : b.base ≠ 0 :=
  Nat.pos_iff_ne_zero.mp (ar.bounded b hb).1

-- ================================================================= frame

/-- All blocks but the one at `a`, which is now at `a'`, are as they
were. -/
structure Beside (m : Machine) (a : Nat) (m' : Machine) (a' : Nat) : Prop where
  blocks : ∀ c, c ∈ m'.arena.blocks ∧ c.base ≠ a'
    ↔ c ∈ m.arena.blocks ∧ c.base ≠ a
  mem : ∀ c ∈ m.arena.blocks, c.base ≠ a →
    ∀ x, c.Has x 1 → m'.mem x = m.mem x
  arrays : m'.arrays = m.arrays
  calls : m'.calls = m.calls

/-- At most a request was refused. -/
structure Quiet (m m' : Machine) : Prop where
  mem : m'.mem = m.mem
  arena : m'.arena = m.arena
  arrays : m'.arrays = m.arrays
  calls : m'.calls = m.calls

theorem Quiet.refl (m : Machine) : Quiet m m := ⟨rfl, rfl, rfl, rfl⟩

theorem Quiet.beside (h : Quiet m m₁) (a : Nat) : Beside m a m₁ a := by
  refine ⟨fun c => ?_, fun c _ _ x _ => ?_, h.arrays, h.calls⟩
  · rw [h.arena]
  · rw [h.mem]

theorem Beside.trans (h₁ : Beside m a m₁ a₁) (h₂ : Beside m₁ a₁ m₂ a₂) :
    Beside m a m₂ a₂ := by
  refine ⟨fun c => (h₂.blocks c).trans (h₁.blocks c), ?_,
    h₂.arrays.trans h₁.arrays, h₂.calls.trans h₁.calls⟩
  intro c hc hne x hx
  obtain ⟨hc₁, hne₁⟩ := (h₁.blocks c).mpr ⟨hc, hne⟩
  rw [h₂.mem c hc₁ hne₁ x hx, h₁.mem c hc hne x hx]

/-- Writing inside the block at `a`. -/
theorem Beside.write {bs : List Byte} {i : Nat} (hb : b ∈ m.arena.blocks)
    (hfit : i + bs.length ≤ b.size) :
    Beside m b.base { m with mem := m.mem.write (b.base + i) bs } b.base := by
  refine ⟨fun c => Iff.rfl, ?_, rfl, rfl⟩
  intro c hc hne x hx
  rcases m.arena.eq_or_disjoint hc hb with heq | hdis
  · exact absurd (congrArg Block.base heq) hne
  · refine write_apply_outside ?_
    simp only [Block.Disjoint, Block.Has] at hdis hx
    omega

-- =============================================================== realloc

/-- The block at `a` of `old` bytes became the one at `a'` of `n`. -/
structure Moved (m : Machine) (a old : Nat) (m' : Machine) (a' n : Nat) :
    Prop where
  block : (⟨a', n⟩ : Block) ∈ m'.arena.blocks
  bytes : ∀ i < old, m'.mem (a' + i) = m.mem (a + i)
  beside : Beside m a m' a'
  solid : m'.arena.Solid
  refused : m'.refused = m.refused

/-- Blocks after one was put in the place of another. -/
theorem mem_add_remove (hsolid : ar.Solid) (hn : 0 < n)
    (hf : (ar.remove a).Fits ⟨a₁, n⟩) :
    (∀ c, c ∈ ((ar.remove a).add ⟨a₁, n⟩ hf).blocks ∧ c.base ≠ a₁
      ↔ c ∈ ar.blocks ∧ c.base ≠ a)
      ∧ ((ar.remove a).add ⟨a₁, n⟩ hf).Solid := by
  have hne : ∀ c ∈ (ar.remove a).blocks, c.base ≠ a₁ := by
    intro c hc heq
    have hpos := hsolid c (hsolid.mem_remove.mp hc).1
    exact (hf.2 c hc).base_ne hn hpos heq.symm
  constructor
  · intro c
    show c ∈ _ :: _ ∧ _ ↔ _
    rw [List.mem_cons]
    constructor
    · intro hc
      obtain ⟨hc | hc, hca⟩ := hc
      · exact absurd (congrArg Block.base hc) hca
      · exact hsolid.mem_remove.mp hc
    · intro hc
      have hc' := hsolid.mem_remove.mpr hc
      exact ⟨Or.inr hc', hne c hc'⟩
  · intro c hc
    rcases List.mem_cons.mp hc with hc | hc
    · rw [hc]
      exact hn
    · exact hsolid c (hsolid.mem_remove.mp hc).1

/-- There is no block at null to be removed. -/
theorem Arena.remove_zero : (ar.remove 0).blocks = ar.blocks := by
  refine List.eraseP_of_forall_not ?_
  intro b hb
  simpa using ar.base_ne_zero hb

/-- A request that is refused changes nothing; one that is granted moves
the block, or makes one. -/
theorem realloc_cases (hsolid : m.arena.Solid) (hn : 0 < n) (hle : old ≤ n)
    (ha : a = 0 ∧ old = 0 ∨ a ≠ 0 ∧ (⟨a, old⟩ : Block) ∈ m.arena.blocks) :
    (C.realloc a n).run m = .ok 0 { m with tick := m.tick + 1, refused := true }
      ∨ ∃ a' m', (C.realloc a n).run m = .ok a' m' ∧ a' ≠ 0
        ∧ Moved m a old m' a' n := by
  unfold C.realloc
  rcases ha with ⟨rfl, rfl⟩ | ⟨hne, hb⟩
  · rw [if_pos rfl]
    unfold C.malloc
    by_cases hf : m.arena.Fits ⟨m.oracle m.tick, n⟩
    · right
      refine ⟨m.oracle m.tick, _, dif_pos hf, Nat.pos_iff_ne_zero.mp hf.1.1, ?_⟩
      have hf' : (m.arena.remove 0).Fits ⟨m.oracle m.tick, n⟩ := by
        refine ⟨hf.1, ?_⟩
        rw [Arena.remove_zero]
        exact hf.2
      have hblocks := mem_add_remove hsolid hn hf'
      simp only [Arena.add, Arena.remove_zero, Arena.Solid] at hblocks
      refine ⟨List.mem_cons_self .., fun i hi => absurd hi (Nat.not_lt_zero i),
        ⟨hblocks.1, fun _ _ _ _ _ => rfl, rfl, rfl⟩, hblocks.2, rfl⟩
    · left
      exact dif_neg hf
  · rw [if_neg hne]
    unfold C.reallocBlock
    have hat : m.arena.blockAt a = some ⟨a, old⟩ := hsolid.blockAt hb
    have hmin : min old n = old := Nat.min_eq_left hle
    by_cases hf : (m.arena.remove a).Fits ⟨m.oracle m.tick, n⟩
    · right
      refine ⟨m.oracle m.tick, { m with
          mem := m.mem.write (m.oracle m.tick) (m.mem.read a (min old n))
          arena := (m.arena.remove a).add _ hf
          tick := m.tick + 1 }, ?_, Nat.pos_iff_ne_zero.mp hf.1.1, ?_⟩
      · simp only [hat, dif_pos hf]
      · have hblocks := mem_add_remove hsolid hn hf
        refine ⟨List.mem_cons_self .., ?_, ⟨hblocks.1, ?_, rfl, rfl⟩, hblocks.2,
          rfl⟩
        · intro i hi
          show m.mem.write _ (m.mem.read a (min old n)) _ = _
          have hlt : i < (m.mem.read a (min old n)).length := by
            rw [read_length, hmin]
            exact hi
          have hget := getElem?_read m.mem a (n := min old n) (i := i) (by omega)
          rw [List.getElem?_eq_getElem hlt, Option.some.injEq] at hget
          rw [write_apply_inside hlt, hget]
        · intro c hc hca x hx
          have hdis := hf.2 c (hsolid.mem_remove.mpr ⟨hc, hca⟩)
          refine write_apply_outside ?_
          rw [read_length, hmin]
          simp only [Block.Disjoint, Block.Has] at hdis hx
          omega
    · left
      simp only [hat, dif_neg hf]

/-- Freeing a block. -/
theorem run_free (hsolid : m.arena.Solid)
    (ha : a = 0 ∨ ∃ b ∈ m.arena.blocks, b.base = a) :
    ∃ m', (C.free a).run m = .ok () m' ∧ Beside m a m' 0
      ∧ (∀ c ∈ m'.arena.blocks, c ∈ m.arena.blocks ∧ c.base ≠ a)
      ∧ m'.arena.Solid ∧ m'.refused = m.refused := by
  by_cases h0 : a = 0
  · refine ⟨m, if_pos h0, ?_, ?_, hsolid, rfl⟩
    · rw [h0]
      exact (Quiet.refl m).beside 0
    · intro c hc
      rw [h0]
      exact ⟨hc, m.arena.base_ne_zero hc⟩
  · have hb := ha.resolve_left h0
    refine ⟨{ m with arena := m.arena.remove a }, ?_, ⟨?_, fun _ _ _ _ _ => rfl,
      rfl, rfl⟩, fun c hc => hsolid.mem_remove.mp hc, ?_, rfl⟩
    · show (if a = 0 then _ else if _ then _ else _) = _
      rw [if_neg h0, if_pos hb]
    · intro c
      show c ∈ (m.arena.remove a).blocks ∧ _ ↔ _
      rw [hsolid.mem_remove]
      constructor
      · exact fun hc => hc.1
      · exact fun hc => ⟨hc, m.arena.base_ne_zero hc.1⟩
    · intro c hc
      exact hsolid c (hsolid.mem_remove.mp hc).1

end Cextras.Lib
