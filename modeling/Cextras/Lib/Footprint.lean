/-
Accounts of memory. The `Footprint` of a data structure is what it has
allocated: flat blocks, and the storage of list-held arrays. What a machine
holds altogether (`Machine.held`) is one, and so is what any part of it
owns, so that footprints add up.

# Two judgements

`C.Turns G x f Q`: run where `f` is owned among whatever else is allocated,
`x` leaves the rest alone and something that satisfies `Q` instead of `f`.
The rest is in the definition, so the rule for parts (`turns_part`) holds
of every computation. Only normal ends count, and only those refused
nothing where `G` says so.

`C.Frees x f`: `x` ends normally, with `f` given back and nothing else
changed. A cleanup is shown to free what its structure owns, and runs keep
track of what that is (`Reached.held`), so that a cleanup at the end of any
run is one that leaves no leak and frees nothing twice.
-/
import Mathlib.Algebra.Group.Prod
import Mathlib.Algebra.Order.Group.Multiset
import Mathlib.Data.Multiset.Filter
import Cextras.Lib.Inert
import Cextras.Lib.Realloc
import Cextras.Lib.Run

namespace Cextras.Lib

-- ============================================================ footprints

/-- Flat blocks, and storage by the number of the request it answered. -/
abbrev Footprint := Multiset Block × Multiset Nat

namespace Footprint

def block (b : Block) : Footprint := ({b}, 0)

def blocks (bs : List Block) : Footprint := (↑bs, 0)

/-- The storage of an array, if it has any. -/
def storage (s : Option Nat) : Footprint := (0, ↑s.toList)

@[simp] theorem storage_none : storage none = 0 := rfl

@[simp] theorem blocks_nil : blocks [] = 0 := rfl

theorem blocks_cons (b : Block) (bs : List Block) :
    blocks (b :: bs) = blocks bs + block b := by
  refine Prod.ext ?_ rfl
  show (↑(b :: bs) : Multiset Block) = ↑bs + {b}
  rw [← Multiset.cons_coe, ← Multiset.singleton_add, add_comm]

theorem blocks_reverse (bs : List Block) : blocks bs.reverse = blocks bs :=
  congrArg (·, 0) (Multiset.coe_reverse bs)

end Footprint

/-- Everything that is allocated. -/
def Machine.held (m : Machine) : Footprint := (↑m.arena.blocks, ↑m.arrays)

/-- No block is empty, so that its address names it, and storage numbers are
those of requests, each held once. -/
structure Machine.Tidy (m : Machine) : Prop where
  solid : m.arena.Solid
  numbered : ∀ i ∈ m.arrays, i < m.tick
  nodup : m.arrays.Nodup

theorem Machine.tidy_boot (mem : Mem) (oracle : Nat → Nat) :
    (Machine.boot mem oracle).Tidy :=
  ⟨Machine.boot_solid mem oracle, by simp [Machine.boot], by simp [Machine.boot]⟩

@[simp] theorem Machine.held_boot (mem : Mem) (oracle : Nat → Nat) :
    (Machine.boot mem oracle).held = 0 := rfl

variable {α β : Type} {m m' : Machine} {f g h rest : Footprint} {G : Prop}

/-- A machine that holds nothing. -/
theorem Machine.held_eq_zero (h : m.held = 0) :
    m.arena.blocks = [] ∧ m.arrays = [] := by
  rw [Machine.held, Prod.mk_eq_zero] at h
  exact ⟨Multiset.coe_eq_zero _ |>.mp h.1, Multiset.coe_eq_zero _ |>.mp h.2⟩

theorem Machine.mem_blocks {b : Block} (h : m.held = rest + (f + .block b)) :
    b ∈ m.arena.blocks := by
  have hb : b ∈ m.held.1 := by
    rw [h]
    simp [Footprint.block]
  exact hb

theorem Machine.mem_arrays {i : Nat}
    (h : m.held = rest + (f + .storage (some i))) : i ∈ m.arrays := by
  have hi : i ∈ m.held.2 := by
    rw [h]
    simp [Footprint.storage]
  exact hi

/-- Removing a block by its address. -/
theorem Machine.Tidy.perm_remove (ht : m.Tidy) {b : Block}
    (hb : b ∈ m.arena.blocks) :
    m.arena.blocks.Perm (b :: (m.arena.remove b.base).blocks) := by
  obtain ⟨c, l₁, l₂, -, hc, hblocks, herase⟩ :=
    List.exists_of_eraseP (p := fun c : Block => decide (c.base = b.base)) hb
      (by simp)
  have hcb : c = b :=
    ht.solid.base_injective (by rw [hblocks]; simp) hb (of_decide_eq_true hc)
  subst hcb
  show m.arena.blocks.Perm (c :: m.arena.blocks.eraseP _)
  rw [herase, hblocks]
  exact List.perm_middle

/-- Storage that is held is held once. -/
theorem Machine.Tidy.perm_filter (ht : m.Tidy) {i : Nat} (hi : i ∈ m.arrays) :
    m.arrays.Perm (i :: m.arrays.filter fun j => some j ≠ some i) := by
  have heq : m.arrays.filter (fun j => decide (some j ≠ some i))
      = m.arrays.erase i := by
    rw [ht.nodup.erase_eq_filter]
    congr 1
    funext j
    by_cases hji : j = i <;> simp [hji]
  rw [heq]
  exact List.perm_cons_erase hi

-- ============================================================== ownership

/-- Where `f` is owned beside the rest, a normal end has left the rest alone
and owns what `Q` says. -/
def C.Turns (G : Prop) (x : C α) (f : Footprint)
    (Q : α → Footprint → Prop) : Prop :=
  ∀ rest m a m', m.Tidy → m.held = rest + f → x.run m = .ok a m' →
    (G → m'.refused = false) →
    m'.Tidy ∧ ∃ g, Q a g ∧ m'.held = rest + g

/-- Allocates nothing and frees nothing, and returns what satisfies `P`. -/
def C.Stays (x : C α) (P : α → Prop) : Prop :=
  ∀ m a m', x.run m = .ok a m' →
    (m'.arena = m.arena ∧ m'.arrays = m.arrays ∧ m'.tick = m.tick) ∧ P a

/-- The same, whatever it returns. -/
abbrev C.Still (x : C α) : Prop := x.Stays fun _ => True

section Rules

variable {x : C α} {k : α → C β} {Q S : α → Footprint → Prop}
  {R : β → Footprint → Prop} {P : α → Prop}

theorem turns_pure {a : α} (hq : Q a f) : (pure a : C α).Turns G f Q := by
  intro rest m a m' ht hheld hrun _
  cases hrun
  exact ⟨ht, f, hq, hheld⟩

theorem turns_fail (e : Fault) : (C.fail e : C α).Turns G f Q := by
  intro rest m a m' _ _ hrun
  cases hrun

theorem turns_bind (hx : x.Turns G f Q)
    (hk : ∀ a g, Q a g → (k a).Turns G g R) : (x >>= k).Turns G f R := by
  intro rest m b m' ht hheld hrun hu
  obtain ⟨a, m₁, hfirst, hsecond⟩ := bind_cases hrun
  obtain ⟨ht₁, g, hq, hheld₁⟩ := hx rest m a m₁ ht hheld hfirst
    fun hG => unrefused_of_run hsecond (hu hG)
  exact hk a g hq rest m₁ b m' ht₁ hheld₁ hsecond hu

theorem C.Turns.imp (hx : x.Turns G f Q) (himp : ∀ a g, Q a g → S a g) :
    x.Turns G f S := by
  intro rest m a m' ht hheld hrun hu
  obtain ⟨ht', g, hq, hheld'⟩ := hx rest m a m' ht hheld hrun hu
  exact ⟨ht', g, himp a g hq, hheld'⟩

/-- What else is owned stays. -/
theorem turns_part (h : Footprint) (hx : x.Turns G f Q)
    (himp : ∀ a g, Q a g → S a (h + g)) : x.Turns G (h + f) S := by
  intro rest m a m' ht hheld hrun hu
  rw [← add_assoc] at hheld
  obtain ⟨ht', g, hq, hheld'⟩ := hx (rest + h) m a m' ht hheld hrun hu
  exact ⟨ht', h + g, himp a g hq, by rw [hheld', add_assoc]⟩

theorem turns_ite {p : Prop} [Decidable p] {y : C α}
    (hx : p → x.Turns G f Q) (hy : ¬ p → y.Turns G f Q) :
    (if p then x else y).Turns G f Q := by
  split
  · next hp => exact hx hp
  · next hp => exact hy hp

theorem C.Stays.turns (hx : x.Stays P) (hq : ∀ a, P a → Q a f) :
    x.Turns G f Q := by
  intro rest m a m' ht hheld hrun _
  obtain ⟨⟨harena, harrays, htick⟩, hp⟩ := hx m a m' hrun
  refine ⟨⟨?_, ?_, ?_⟩, f, hq a hp, ?_⟩
  · rw [harena]
    exact ht.solid
  · rw [harrays, htick]
    exact ht.numbered
  · rw [harrays]
    exact ht.nodup
  · rw [Machine.held, harena, harrays]
    exact hheld

/-- A first step that allocates and frees nothing. -/
theorem turns_after (hx : x.Stays P) (hk : ∀ a, P a → (k a).Turns G f R) :
    (x >>= k).Turns G f R :=
  turns_bind (hx.turns (Q := fun a g => P a ∧ g = f) fun _ hp => ⟨hp, rfl⟩)
    fun a _ hg => hg.2 ▸ hk a hg.1

end Rules

-- ========================================================= no allocation

namespace C.Stays

variable {x : C α} {k : α → C β} {P P' : α → Prop} {Q : β → Prop}

theorem pure {a : α} (hp : P a) : (Pure.pure a : C α).Stays P := by
  intro m a m' hrun
  cases hrun
  exact ⟨⟨rfl, rfl, rfl⟩, hp⟩

theorem fail (e : Fault) : (C.fail e : C α).Stays P := by
  intro m a m' hrun
  cases hrun

theorem bind (hx : x.Stays P) (hk : ∀ a, P a → (k a).Stays Q) :
    (x >>= k).Stays Q := by
  intro m b m' hrun
  obtain ⟨a, m₁, hfirst, hsecond⟩ := bind_cases hrun
  obtain ⟨⟨h1, h2, h3⟩, hp⟩ := hx m a m₁ hfirst
  obtain ⟨⟨h4, h5, h6⟩, hq⟩ := hk a hp m₁ b m' hsecond
  exact ⟨⟨h4.trans h1, h5.trans h2, h6.trans h3⟩, hq⟩

theorem ite {p : Prop} [Decidable p] {y : C α} (hx : p → x.Stays P)
    (hy : ¬ p → y.Stays P) : (if p then x else y).Stays P := by
  split
  · next h => exact hx h
  · next h => exact hy h

theorem imp (hx : x.Stays P) (himp : ∀ a, P a → P' a) : x.Stays P' := by
  intro m a m' hrun
  obtain ⟨hsame, hp⟩ := hx m a m' hrun
  exact ⟨hsame, himp a hp⟩

theorem still (hx : x.Stays P) : x.Still := hx.imp fun _ _ => trivial

/-- One guarded change that is none of the allocator's. -/
private theorem of_guard {p : Machine → Prop} [DecidablePred p]
    {v : Machine → α} {next : Machine → Machine} {e : Fault}
    (hrun : ∀ m, x.run m = if p m then .ok (v m) (next m) else .fault e m)
    (hnext : ∀ m, (next m).arena = m.arena ∧ (next m).arrays = m.arrays
      ∧ (next m).tick = m.tick) : x.Still := by
  intro m a m' h
  rw [hrun] at h
  split at h
  · cases h
    exact ⟨hnext m, trivial⟩
  · cases h

theorem load64 (a : Nat) : (C.load64 a).Still :=
  of_guard (fun _ => rfl) fun _ => ⟨rfl, rfl, rfl⟩

theorem store64 (a v : Nat) : (C.store64 a v).Still :=
  of_guard (fun _ => rfl) fun _ => ⟨rfl, rfl, rfl⟩

theorem readBytes (a n : Nat) : (C.readBytes a n).Still :=
  of_guard (fun _ => rfl) fun _ => ⟨rfl, rfl, rfl⟩

theorem writeBytes (a : Nat) (bs : List Byte) : (C.writeBytes a bs).Still :=
  of_guard (fun _ => rfl) fun _ => ⟨rfl, rfl, rfl⟩

theorem zeroBytes (a n : Nat) : (C.zeroBytes a n).Still :=
  of_guard (fun _ => rfl) fun _ => ⟨rfl, rfl, rfl⟩

theorem callback (v : List Byte) : (C.callback v).Still := by
  intro m a m' hrun
  cases hrun
  exact ⟨⟨rfl, rfl, rfl⟩, trivial⟩

theorem cell (xs : List α) (i : Nat) :
    (C.cell xs i).Stays fun x => xs[i]? = some x := by
  unfold C.cell
  cases h : xs[i]? with
  | none => exact fail _
  | some x => exact pure rfl

theorem assert (p : Prop) [Decidable p] : (C.assert p).Stays fun _ => p := by
  unfold C.assert
  exact ite (fun h => pure h) fun _ => fail _

theorem nonNull (a : Nat) : (C.nonNull a).Stays fun _ => a ≠ 0 := by
  unfold C.nonNull
  exact ite (fun _ => fail _) fun h => pure h

end C.Stays

-- ============================================================= allocation

section Allocation

variable {n a : Nat}

/-- A granted block, beside what there was. -/
theorem Machine.Tidy.add (ht : m.Tidy) (hn : 0 < n)
    (hfits : m.arena.Fits ⟨m.oracle m.tick, n⟩) (mem : Mem) :
    ({ m with mem := mem, arena := m.arena.add _ hfits, tick := m.tick + 1 }
      : Machine).Tidy := by
  refine ⟨?_, fun i hi => Nat.lt_succ_of_lt (ht.numbered i hi), ht.nodup⟩
  intro b hb
  rcases List.mem_cons.mp hb with rfl | hb
  · exact hn
  · exact ht.solid b hb

theorem Machine.held_add (hheld : m.held = rest + f)
    (hfits : m.arena.Fits ⟨m.oracle m.tick, n⟩) (mem : Mem) :
    ({ m with mem := mem, arena := m.arena.add _ hfits, tick := m.tick + 1 }
      : Machine).held = rest + (f + .block ⟨m.oracle m.tick, n⟩) := by
  rw [← add_assoc, ← hheld]
  refine Prod.ext ?_ ?_
  · show (↑(_ :: m.arena.blocks) : Multiset Block) = ↑m.arena.blocks + {_}
    rw [← Multiset.cons_coe, ← Multiset.singleton_add, add_comm]
  · show (↑m.arrays : Multiset Nat) = ↑m.arrays + 0
    rw [add_zero]

/-- A refused request changes no holding. -/
theorem Machine.Tidy.refuse (ht : m.Tidy) :
    ({ m with tick := m.tick + 1, refused := true } : Machine).Tidy :=
  ⟨ht.solid, fun i hi => Nat.lt_succ_of_lt (ht.numbered i hi), ht.nodup⟩

/-- What a request for `n` bytes, on top of `f`, may leave. -/
def Allocated (G : Prop) (f : Footprint) (n a : Nat) (g : Footprint) : Prop :=
  (¬ G ∧ a = 0 ∧ g = f) ∨ (a ≠ 0 ∧ n < 2 ^ 63 ∧ g = f + .block ⟨a, n⟩)

theorem turns_calloc (hn : 0 < n) :
    (C.calloc n).Turns G f (Allocated G f n) := by
  intro rest m a m' ht hheld hrun hu
  unfold C.calloc at hrun
  dsimp only at hrun
  split at hrun
  · next hfits =>
      cases hrun
      exact ⟨ht.add hn hfits _, _,
        Or.inr ⟨Nat.pos_iff_ne_zero.mp hfits.1.1, hfits.1.2.2, rfl⟩,
        Machine.held_add hheld hfits _⟩
  · cases hrun
    exact ⟨ht.refuse, f, Or.inl ⟨fun hG => absurd (hu hG) (by simp), rfl, rfl⟩,
      hheld⟩

theorem turns_malloc (hn : 0 < n) :
    (C.malloc n).Turns G f (Allocated G f n) := by
  intro rest m a m' ht hheld hrun hu
  unfold C.malloc at hrun
  dsimp only at hrun
  split at hrun
  · next hfits =>
      cases hrun
      exact ⟨ht.add hn hfits _, _,
        Or.inr ⟨Nat.pos_iff_ne_zero.mp hfits.1.1, hfits.1.2.2, rfl⟩,
        Machine.held_add hheld hfits _⟩
  · cases hrun
    exact ⟨ht.refuse, f, Or.inl ⟨fun hG => absurd (hu hG) (by simp), rfl, rfl⟩,
      hheld⟩

/-- Giving a block back. -/
theorem Machine.Tidy.free (ht : m.Tidy) {b : Block}
    (hheld : m.held = rest + (f + .block b)) :
    ({ m with arena := m.arena.remove b.base } : Machine).Tidy
      ∧ ({ m with arena := m.arena.remove b.base } : Machine).held
        = rest + f := by
  have hb := Machine.mem_blocks hheld
  refine ⟨⟨fun c hc => ht.solid c (List.mem_of_mem_eraseP hc), ht.numbered,
    ht.nodup⟩, ?_⟩
  have hperm := ht.perm_remove hb
  rw [← add_assoc] at hheld
  have hblocks : (↑m.arena.blocks : Multiset Block) = (rest + f).1 + {b} :=
    congrArg Prod.fst hheld
  have harrays : (↑m.arrays : Multiset Nat) = (rest + f).2 + 0 :=
    congrArg Prod.snd hheld
  refine Prod.ext ?_ (by rw [← add_zero (rest + f).2]; exact harrays)
  have hcons : (↑m.arena.blocks : Multiset Block)
      = ↑(m.arena.remove b.base).blocks + {b} := by
    rw [Multiset.coe_eq_coe.mpr hperm, ← Multiset.cons_coe,
      ← Multiset.singleton_add, add_comm]
  exact add_right_cancel (hcons.symm.trans hblocks)

/-- The block is there to be freed. -/
theorem run_free_held {b : Block} (hheld : m.held = rest + (f + .block b)) :
    (C.free b.base).run m
      = .ok () { m with arena := m.arena.remove b.base } := by
  have hb := Machine.mem_blocks hheld
  have hpos := m.arena.base_ne_zero hb
  show (if b.base = 0 then _ else if _ then _ else _) = _
  rw [if_neg hpos, if_pos ⟨b, hb, rfl⟩]

theorem turns_free : (C.free a).Turns G (f + .block ⟨a, n⟩)
    fun _ g => g = f := by
  intro rest m u m' ht hheld hrun _
  rw [run_free_held hheld] at hrun
  cases hrun
  obtain ⟨ht', hheld'⟩ := ht.free hheld
  exact ⟨ht', f, rfl, hheld'⟩

/-- Freeing null. -/
theorem still_free_null : (C.free 0).Still := by
  intro m a m' hrun
  cases hrun
  exact ⟨⟨rfl, rfl, rfl⟩, trivial⟩

/-- A block moves, or stays as it is when the request is refused. -/
theorem turns_reallocBlock (hn : 0 < n) {old : Nat} :
    (C.reallocBlock a n).Turns G (f + .block ⟨a, old⟩) fun a' g =>
      (¬ G ∧ a' = 0 ∧ g = f + .block ⟨a, old⟩)
        ∨ (a' ≠ 0 ∧ n < 2 ^ 63 ∧ g = f + .block ⟨a', n⟩) := by
  intro rest m a' m' ht hheld hrun hu
  have hat := ht.solid.blockAt (Machine.mem_blocks hheld)
  unfold C.reallocBlock at hrun
  dsimp only at hat hrun
  rw [hat] at hrun
  dsimp only at hrun
  obtain ⟨ht', hheld'⟩ := ht.free hheld
  split at hrun
  · next hfits =>
      cases hrun
      exact ⟨ht'.add hn hfits _, _,
        Or.inr ⟨Nat.pos_iff_ne_zero.mp hfits.1.1, hfits.1.2.2, rfl⟩,
        Machine.held_add hheld' hfits _⟩
  · cases hrun
    exact ⟨ht.refuse, _,
      Or.inl ⟨fun hG => absurd (hu hG) (by simp), rfl, rfl⟩, hheld⟩

-- ======================================================= list-held storage

/-- Fresh storage, beside what there was. -/
theorem Machine.Tidy.addArray (ht : m.Tidy) :
    ({ m with tick := m.tick + 1, arrays := m.tick :: m.arrays }
      : Machine).Tidy := by
  refine ⟨ht.solid, ?_, ?_⟩
  · intro i hi
    rcases List.mem_cons.mp hi with rfl | hi
    · exact Nat.lt_succ_self _
    · exact Nat.lt_succ_of_lt (ht.numbered i hi)
  · exact List.nodup_cons.mpr
      ⟨fun hmem => absurd (ht.numbered _ hmem) (lt_irrefl _), ht.nodup⟩

theorem Machine.held_addArray (hheld : m.held = rest + f) :
    ({ m with tick := m.tick + 1, arrays := m.tick :: m.arrays }
      : Machine).held = rest + (f + .storage (some m.tick)) := by
  rw [← add_assoc, ← hheld]
  refine Prod.ext ?_ ?_
  · show (↑m.arena.blocks : Multiset Block) = ↑m.arena.blocks + 0
    rw [add_zero]
  · show (↑(_ :: m.arrays) : Multiset Nat) = ↑m.arrays + {_}
    rw [← Multiset.cons_coe, ← Multiset.singleton_add, add_comm]

/-- Giving storage back. -/
theorem Machine.Tidy.freeArray (ht : m.Tidy) {old : Option Nat}
    (hheld : m.held = rest + (f + .storage old)) :
    ({ m with arrays := m.arrays.filter fun i => some i ≠ old } : Machine).Tidy
      ∧ ({ m with arrays := m.arrays.filter fun i => some i ≠ old }
        : Machine).held = rest + f := by
  refine ⟨⟨ht.solid, fun i hi => ht.numbered i (List.mem_of_mem_filter hi),
    ht.nodup.filter _⟩, ?_⟩
  cases old with
  | none =>
      rw [Footprint.storage_none, add_zero] at hheld
      rw [← hheld]
      simp [Machine.held]
  | some i =>
      have hperm := ht.perm_filter (Machine.mem_arrays hheld)
      rw [← add_assoc] at hheld
      have hblocks : (↑m.arena.blocks : Multiset Block) = (rest + f).1 + 0 :=
        congrArg Prod.fst hheld
      have harrays : (↑m.arrays : Multiset Nat) = (rest + f).2 + {i} :=
        congrArg Prod.snd hheld
      refine Prod.ext (by rw [← add_zero (rest + f).1]; exact hblocks) ?_
      have hcons : (↑m.arrays : Multiset Nat)
          = ↑(m.arrays.filter fun j => some j ≠ some i) + {i} := by
        rw [Multiset.coe_eq_coe.mpr hperm, ← Multiset.cons_coe,
          ← Multiset.singleton_add, add_comm]
      exact add_right_cancel (hcons.symm.trans harrays)

/-- What a request for storage, on top of `f`, may leave. -/
def AllocatedArray (G : Prop) (f : Footprint) (old : Option Nat)
    (s : Option Nat) (g : Footprint) : Prop :=
  (¬ G ∧ s = none ∧ g = f + .storage old)
    ∨ ∃ i, s = some i ∧ g = f + .storage (some i)

theorem turns_allocArray :
    C.allocArray.Turns G f (AllocatedArray G f none) := by
  intro rest m s m' ht hheld hrun hu
  unfold C.allocArray at hrun
  dsimp only at hrun
  split at hrun
  · cases hrun
    refine ⟨ht.refuse, f, Or.inl ⟨fun hG => absurd (hu hG) (by simp), rfl, ?_⟩,
      hheld⟩
    rw [Footprint.storage_none, add_zero]
  · cases hrun
    exact ⟨ht.addArray, _, Or.inr ⟨_, rfl, rfl⟩, Machine.held_addArray hheld⟩

theorem turns_reallocArray {old : Option Nat} :
    (C.reallocArray old).Turns G (f + .storage old)
      (AllocatedArray G f old) := by
  intro rest m s m' ht hheld hrun hu
  unfold C.reallocArray at hrun
  dsimp only at hrun
  split at hrun
  · cases hrun
    exact ⟨ht.refuse, _,
      Or.inl ⟨fun hG => absurd (hu hG) (by simp), rfl, rfl⟩, hheld⟩
  · cases hrun
    obtain ⟨ht', hheld'⟩ := ht.freeArray hheld
    exact ⟨ht'.addArray, _, Or.inr ⟨_, rfl, rfl⟩, Machine.held_addArray hheld'⟩

theorem turns_freeArray {old : Option Nat} :
    (C.freeArray old).Turns G (f + .storage old) fun _ g => g = f := by
  intro rest m u m' ht hheld hrun _
  cases hrun
  obtain ⟨ht', hheld'⟩ := ht.freeArray hheld
  exact ⟨ht', f, rfl, hheld'⟩

end Allocation

-- =============================================================== cleaning up

/-- Ends normally with `f` given back, and touches nothing else. -/
def C.Frees (x : C α) (f : Footprint) : Prop :=
  ∀ rest m, m.Tidy → m.held = rest + f →
    ∃ a m', x.run m = .ok a m' ∧ m'.Tidy ∧ m'.held = rest
      ∧ m'.mem = m.mem ∧ m'.calls = m.calls ∧ m'.refused = m.refused

section Frees

variable {x : C α} {k : α → C β}

theorem frees_pure (a : α) : (pure a : C α).Frees 0 := by
  intro rest m ht hheld
  rw [add_zero] at hheld
  exact ⟨a, m, rfl, ht, hheld, rfl, rfl, rfl⟩

theorem frees_bind (hx : x.Frees f) (hk : ∀ a, (k a).Frees g) :
    (x >>= k).Frees (g + f) := by
  intro rest m ht hheld
  rw [← add_assoc] at hheld
  obtain ⟨a, m₁, hrun₁, ht₁, hheld₁, hmem₁, hcalls₁, hu₁⟩ :=
    hx (rest + g) m ht hheld
  obtain ⟨b, m₂, hrun₂, ht₂, hheld₂, hmem₂, hcalls₂, hu₂⟩ :=
    hk a rest m₁ ht₁ hheld₁
  refine ⟨b, m₂, ?_, ht₂, hheld₂, hmem₂.trans hmem₁, hcalls₂.trans hcalls₁,
    hu₂.trans hu₁⟩
  rw [C.run_bind, hrun₁, C.chain_ok, hrun₂]

/-- A first step that only looks. -/
theorem frees_after {a : α} (hx : ∀ m, x.run m = .ok a m)
    (hk : (k a).Frees f) : (x >>= k).Frees f := by
  intro rest m ht hheld
  obtain ⟨b, m', hrun, hdone⟩ := hk rest m ht hheld
  refine ⟨b, m', ?_, hdone⟩
  rw [C.run_bind, hx, C.chain_ok, hrun]

theorem frees_free (b : Block) : (C.free b.base).Frees (.block b) := by
  intro rest m ht hheld
  have hheld' : m.held = rest + (0 + .block b) := by rw [hheld, zero_add]
  obtain ⟨ht', hdone⟩ := ht.free hheld'
  rw [add_zero] at hdone
  exact ⟨(), _, run_free_held hheld', ht', hdone, rfl, rfl, rfl⟩

theorem frees_freeArray (old : Option Nat) :
    (C.freeArray old).Frees (.storage old) := by
  intro rest m ht hheld
  have hheld' : m.held = rest + (0 + .storage old) := by rw [hheld, zero_add]
  obtain ⟨ht', hdone⟩ := ht.freeArray hheld'
  rw [add_zero] at hdone
  exact ⟨(), _, rfl, ht', hdone, rfl, rfl, rfl⟩

/-- What a cleanup of something that took a whole footprint leaves. -/
theorem C.Frees.run (hx : x.Frees f) (ht : m.Tidy) (hheld : m.held = rest + f) :
    ∃ a m', x.run m = .ok a m' ∧ m'.held = rest ∧ m'.calls = m.calls := by
  obtain ⟨a, m', hrun, -, hdone, -, hcalls, -⟩ := hx rest m ht hheld
  exact ⟨a, m', hrun, hdone, hcalls⟩

/-- A cleanup that returns zero with all memory back, after the callback was
run on these values. -/
def Returned (x : C Int) (m : Machine) (values : List (List Byte)) : Prop :=
  ∃ m', x.run m = .ok 0 m' ∧ m'.arena.blocks = [] ∧ m'.arrays = []
    ∧ m'.calls.Perm values

theorem C.Frees.returned {x : C Int} {values : List (List Byte)}
    (hx : x.Frees f) (ht : m.Tidy) (hheld : m.held = f)
    (hcalls : m.calls.Perm values)
    (hzero : x.Ensures fun rv => rv = 0) : Returned x m values := by
  obtain ⟨rv, m', hrun, hdone, hkept⟩ :=
    hx.run ht (hheld.trans (zero_add f).symm)
  obtain ⟨hblocks, harrays⟩ := Machine.held_eq_zero hdone
  obtain rfl := hzero.result m rv m' hrun
  exact ⟨m', hrun, hblocks, harrays, hkept ▸ hcalls⟩

end Frees

-- ==================================================================== runs

/-- In every state of a run, beside what was held at first, the record owns
what its operations left it. -/
theorem Reached.held {σ ι : Type} {start : C σ} {exec : ι → σ → C σ}
    {allowed : σ → Machine → ι → Prop} {m₀ : Machine} {s : σ}
    (h : Reached start exec allowed m₀ s m) (own : σ → Footprint → Prop)
    (htidy : m₀.Tidy) (hstart : start.Turns True 0 own)
    (hstep : ∀ s m op f, own s f → allowed s m op →
      (exec op s).Turns True f own) :
    m.Tidy ∧ ∃ f, own s f ∧ m.held = m₀.held + f := by
  induction h with
  | start hrun hu =>
      exact hstart m₀.held m₀ _ _ htidy (add_zero _).symm hrun fun _ => hu
  | step _ hop hrun hu ih =>
      obtain ⟨ht, f, hown, hheld⟩ := ih
      exact hstep _ _ _ f hown hop m₀.held _ _ _ ht hheld hrun fun _ => hu

end Cextras.Lib
