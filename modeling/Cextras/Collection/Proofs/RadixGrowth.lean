/-
Growth of a radix tree in numbers. Trees have the capacities
`2 ^ (8 * n) - 1`. A resize that returns 0 ends at the least of them that
covers the old capacity and the key; one that is refused a branch returns
-1 at one of those it passed through (`ResizeExact`).

Prepared keys are consumed from the low end. Within the capacity the
preparation reverses the bytes of a key, so it undoes itself, and a tree
that has grown reaches an old key through zero bytes first (`PathExact`).
-/
import Mathlib.Order.Bounds.Basic
import Cextras.Collection.Proofs.RadixRefused

namespace Cextras.Collection

open Lib Memory

variable {m m' : Machine} {t t' : CxRadixTree} {n : Nat} {key : UInt64}

-- ============================================================= capacities

/-- The capacities of trees. -/
def Capacity (c : Nat) : Prop := ∃ n ≤ 8, c = 2 ^ (8 * n) - 1

theorem two_pow_eight_mul (n : Nat) : 2 ^ (8 * n) = 256 ^ n := by
  rw [Nat.pow_mul]

theorem eq_fullCapacity {c : UInt64} (hn : n ≤ 8)
    (h : c.toNat = 2 ^ (8 * n) - 1) : c = fullCapacity n := by
  apply UInt64.toNat_inj.mp
  rw [h, fullCapacity_toNat hn, two_pow_eight_mul]

theorem capacity_fullCapacity (hn : n ≤ 8) :
    Capacity (fullCapacity n).toNat := by
  refine ⟨n, hn, ?_⟩
  rw [fullCapacity_toNat hn, two_pow_eight_mul]

theorem fullCapacity_mono {j : Nat} (hj : j ≤ 8) (h : n ≤ j) :
    (fullCapacity n).toNat ≤ (fullCapacity j).toNat := by
  rw [fullCapacity_toNat hj, fullCapacity_toNat (by omega)]
  have hpow : 256 ^ n ≤ 256 ^ j := Nat.pow_le_pow_right (by decide) h
  omega

theorem fullCapacity_lt_fullCapacity {j : Nat} (hj : j ≤ 8) (h : n < j) :
    fullCapacity n < fullCapacity j := by
  rw [fullCapacity_lt_iff (by omega), byteLength_fullCapacity hj]
  exact h

/-- Eight more one bits, and none is shifted out. -/
theorem growCapacity_toNat {c : UInt64} (hc : Capacity c.toNat)
    (h : c < key) : (growCapacity c).toNat = c.toNat * 2 ^ 8 + 255 := by
  obtain ⟨n, hn, hcap⟩ := hc
  have hfull := eq_fullCapacity hn hcap
  subst hfull
  have hlt : n < 8 := by
    have hshort := byteLength_le key
    rw [fullCapacity_lt_iff hn] at h
    omega
  have hgrow : growCapacity (fullCapacity n) = fullCapacity (n + 1) := rfl
  have hpos : 0 < 256 ^ n := Nat.pow_pos (by decide)
  rw [hgrow, fullCapacity_toNat hlt, fullCapacity_toNat hn, Nat.pow_succ]
  omega

/-- The least capacity that covers another one and a key. -/
theorem isLeast_fullCapacity (hn : n ≤ 8) (key : UInt64) :
    IsLeast {c | Capacity c ∧ max (fullCapacity n).toNat key.toNat ≤ c}
      (fullCapacity (max n (byteLength key))).toNat := by
  have hkey := byteLength_le key
  have hmax : max n (byteLength key) ≤ 8 := by omega
  constructor
  · refine ⟨capacity_fullCapacity hmax, Nat.max_le.mpr ⟨?_, ?_⟩⟩
    · exact fullCapacity_mono hmax (Nat.le_max_left ..)
    · have hfit := (le_fullCapacity_iff hmax key).mpr
        (byteLength_le_iff.mp (Nat.le_max_right ..))
      exact UInt64.le_iff_toNat_le.mp hfit
  · intro c hc
    obtain ⟨⟨j, hj, hcap⟩, hle⟩ := hc
    rw [two_pow_eight_mul, ← fullCapacity_toNat hj] at hcap
    rw [hcap] at hle ⊢
    apply fullCapacity_mono hj
    obtain ⟨hold, hnew⟩ := Nat.max_le.mp hle
    refine Nat.max_le.mpr ⟨?_, ?_⟩
    · by_contra hlt
      have := UInt64.lt_iff_toNat_lt.mp
        (fullCapacity_lt_fullCapacity hn (Nat.not_le.mp hlt))
      omega
    · rw [byteLength_le_iff, ← le_fullCapacity_iff hj]
      exact UInt64.le_iff_toNat_le.mpr hnew

-- ================================================================= resize

/-- The ways the loop ends: with room for the key, or turned back one level
above a capacity that had none. -/
theorem resizeLoop_ends (turns : Nat) :
    ∀ {m : Machine} {t : CxRadixTree} {n : Nat} {rv : Int}, n ≤ 8 →
      8 ≤ n + turns → t.capacity = fullCapacity n →
      (resizeLoop turns t key).run m = .ok (rv, t') m' →
      rv = 0 ∧ t'.capacity = fullCapacity (max n (byteLength key))
        ∨ rv = -1 ∧ ∃ j, n < j ∧ j ≤ byteLength key
          ∧ t'.capacity = fullCapacity j := by
  have hkey := byteLength_le key
  induction turns with
  | zero =>
      intro m t n rv hn hturns hcap hrun
      cases hrun
      left
      rw [hcap, Nat.max_eq_left (by omega)]
      exact ⟨rfl, rfl⟩
  | succ turns ih =>
      intro m t n rv hn hturns hcap hrun
      have hlt := fullCapacity_lt_iff hn key
      rw [← hcap] at hlt
      rw [resizeLoop] at hrun
      by_cases hgrow : n < byteLength key
      · rw [if_pos (hlt.mpr hgrow)] at hrun
        obtain ⟨⟨w, pool⟩, m₁, -, hrest⟩ := bind_cases hrun
        have hcap' : growCapacity t.capacity = fullCapacity (n + 1) := by
          rw [hcap]
          rfl
        dsimp only at hrest
        by_cases hw : w = 0
        · rw [if_pos hw] at hrest
          cases hrest
          exact Or.inr ⟨rfl, n + 1, Nat.lt_succ_self n, hgrow, hcap'⟩
        · rw [if_neg hw] at hrest
          obtain ⟨-, m₂, -, hrest⟩ := bind_cases hrest
          rcases ih (by omega) (by omega) hcap' hrest with hdone | hback
          · left
            obtain ⟨hrv, hcapacity⟩ := hdone
            refine ⟨hrv, ?_⟩
            rw [hcapacity]
            congr 1
            omega
          · right
            obtain ⟨hrv, j, hj, hle, hcapacity⟩ := hback
            exact ⟨hrv, j, by omega, hle, hcapacity⟩
      · rw [if_neg fun h => hgrow (hlt.mp h)] at hrun
        cases hrun
        left
        rw [hcap, Nat.max_eq_left (Nat.not_lt.mp hgrow)]
        exact ⟨rfl, rfl⟩

/-- A tree with a sound branch pool grows, unless a branch is refused. -/
theorem resizeLoop_returns (turns : Nat) :
    ∀ {m : Machine} {t : CxRadixTree} {chunks : List Block}
      {free live : List Nat}, PoolInv m t.branchPool chunks free live →
      (resizeLoop turns t key).Granted m fun r _ => r.1 = 0 := by
  induction turns with
  | zero => exact fun _ => granted_pure rfl
  | succ turns ih =>
      intro m t chunks free live h
      rw [resizeLoop]
      split
      · refine granted_bind (cxPreallocPoolGet_handout h) ?_
        intro r m₁ hr
        obtain ⟨chunks', hh⟩ := hr
        have hin : r.1 ∈ free.erase r.1 ++ r.1 :: live := by simp
        have hsize := hh.inv.size_ge
        have hvalid : m₁.Valid (r.1 + 8 * 0) 8 :=
          hh.inv.valid hin (by omega)
        dsimp only
        rw [if_neg (hh.inv.ne_zero hin)]
        -- the link to the old root is in the new branch
        have hframe : PoolInv
            { m₁ with mem := m₁.mem.store64 (r.1 + 8 * 0) t.root } r.2 chunks'
            (free.erase r.1) (r.1 :: live) := by
          refine hh.inv.frame _ hh.inv.owned fun c _ x _ hx => ?_
          have hout := hx r.1 List.mem_cons_self
          exact agree_store64 (b := x) (n := 1) (by omega) x (by omega) (by omega)
        exact granted_bind_run (run_store64 hvalid _) (ih hframe)
      · exact granted_pure rfl

/-- What `resize` does to the capacity. -/
structure ResizeExact (t : CxRadixTree) (key : UInt64) : Prop where
  /-- it returns 0 unless a branch is refused -/
  returns : ∀ m chunks free live, PoolInv m t.branchPool chunks free live →
    (resize t key).Granted m fun r _ => r.1 = 0
  /-- then the capacity is the least that will do -/
  least : ∀ m t' m', (resize t key).run m = .ok (0, t') m' →
    IsLeast {c | Capacity c ∧ max t.capacity.toNat key.toNat ≤ c}
      t'.capacity.toNat
  /-- otherwise it is on the way there -/
  refused : ∀ m rv t' m', (resize t key).run m = .ok (rv, t') m' → rv ≠ 0 →
    rv = -1 ∧ Capacity t'.capacity.toNat ∧ t.capacity < t'.capacity
      ∧ ∀ c, Capacity c → key.toNat ≤ c → t'.capacity.toNat ≤ c
  /-- no turn of the loop shifts a bit out -/
  exact : ∀ c : UInt64, Capacity c.toNat → c < key →
    (growCapacity c).toNat = c.toNat * 2 ^ 8 + 255

theorem resize_exact (hn : n ≤ 8) (hcap : t.capacity = fullCapacity n)
    (key : UInt64) : ResizeExact t key := by
  refine ⟨fun m chunks free live h => resizeLoop_returns 8 h, ?_, ?_,
    fun c hc hlt => growCapacity_toNat hc hlt⟩
  · intro m t' m' hrun
    rcases resizeLoop_ends 8 hn (by omega) hcap hrun with ⟨-, hend⟩ | ⟨hrv, -⟩
    · rw [hcap, hend]
      exact isLeast_fullCapacity hn key
    · cases hrv
  · intro m rv t' m' hrun hne
    rcases resizeLoop_ends 8 hn (by omega) hcap hrun with ⟨hrv, -⟩ | hback
    · exact absurd hrv hne
    · obtain ⟨hrv, j, hj, hle, hend⟩ := hback
      have hkey := byteLength_le key
      have hj8 : j ≤ 8 := by omega
      rw [hcap, hend]
      refine ⟨hrv, capacity_fullCapacity hj8,
        fullCapacity_lt_fullCapacity hj8 hj, ?_⟩
      intro c hc hfit
      have hleast := isLeast_fullCapacity (Nat.zero_le 8) key
      rw [Nat.zero_max] at hleast
      have hreach : (fullCapacity (byteLength key)).toNat ≤ c :=
        hleast.2 ⟨hc, Nat.max_le.mpr ⟨Nat.zero_le c, hfit⟩⟩
      exact Nat.le_trans (fullCapacity_mono hkey hle) hreach

-- ================================================================== paths

/-- From the other end. -/
theorem lowDigits_eq_reverse (n k : Nat) :
    lowDigits n k = (path n k).reverse := by
  induction n generalizing k with
  | zero => rfl
  | succ n ih => simp [lowDigits, path_succ, ih]

theorem lowDigits_injective {k k' : Nat} (hk : k < 256 ^ n) (hk' : k' < 256 ^ n)
    (h : lowDigits n k = lowDigits n k') : k = k' := by
  rw [lowDigits_eq_reverse, lowDigits_eq_reverse, List.reverse_inj] at h
  exact path_injective hk hk' h

/-- Any number of levels higher. -/
theorem path_zeros {k : Nat} (h : k < 256 ^ n) (d : Nat) :
    path (n + d) k = List.replicate d 0 ++ path n k := by
  induction d with
  | zero => simp
  | succ d ih =>
      have hlt : k < 256 ^ (n + d) :=
        Nat.lt_of_lt_of_le h (Nat.pow_le_pow_right (by decide) (by omega))
      rw [← Nat.add_assoc, path_grow hlt, ih, List.replicate_succ,
        List.cons_append]

/-- The reversed bytes have no more levels than the tree. -/
theorem prepareKeyLoop_lt (n : Nat) :
    ∀ (j : Nat) (key result : UInt64), n + j ≤ 8 → result.toNat < 256 ^ j →
      (prepareKeyLoop (fullCapacity n) key result).toNat < 256 ^ (n + j) := by
  induction n with
  | zero =>
      intro j key result _ hr
      rw [prepareKeyLoop, dif_neg (by decide), Nat.zero_add]
      exact hr
  | succ n ih =>
      intro j key result hn hr
      have hr7 : result.toNat < 256 ^ 7 :=
        Nat.lt_of_lt_of_le hr (Nat.pow_le_pow_right (by decide) (by omega))
      have hbyte := Nat.mod_lt key.toNat (show 0 < 256 by decide)
      rw [prepareKeyLoop, dif_pos (fullCapacity_ne_zero (by omega)),
        fullCapacity_shift (by omega), Nat.add_right_comm, Nat.add_assoc]
      refine ih (j + 1) _ _ (by omega) ?_
      rw [toNat_shiftIn key hr7, Nat.pow_succ]
      omega

theorem prepareKey_lt (hn : n ≤ 8) (hcap : t.capacity = fullCapacity n)
    (key : UInt64) : (prepareKey t key).toNat < 256 ^ n := by
  rw [prepareKey, hcap]
  exact prepareKeyLoop_lt n 0 key 0 hn (by decide)

/-- Reversing the bytes twice. -/
theorem prepareKey_prepareKey (hn : n ≤ 8) (hcap : t.capacity = fullCapacity n)
    (hkey : key.toNat < 256 ^ n) : prepareKey t (prepareKey t key) = key := by
  apply UInt64.toNat_inj.mp
  refine lowDigits_injective (prepareKey_lt hn hcap _) hkey ?_
  have hback := lowDigits_eq_reverse n (prepareKey t key).toNat
  rw [lowDigits_prepareKey hn hcap] at hback
  rw [lowDigits_prepareKey hn hcap, lowDigits_eq_reverse, hback,
    List.reverse_reverse]

/-- What the preparation of a key within the capacity gives. -/
structure PathExact (t : CxRadixTree) (n : Nat) (key : UInt64) : Prop where
  /-- from the low byte up, the bytes from the most significant one down -/
  bytes : lowDigits n (prepareKey t key).toNat = path n key.toNat
  within : prepareKey t key ≤ t.capacity
  involution : prepareKey t (prepareKey t key) = key
  injective : ∀ key' ≤ t.capacity, prepareKey t key' = prepareKey t key →
    key' = key
  /-- a higher tree takes zero bytes first -/
  grown : ∀ k ≤ 8, n ≤ k → ∀ t' : CxRadixTree,
    t'.capacity.toNat = 2 ^ (8 * k) - 1 →
    lowDigits k (prepareKey t' key).toNat
      = List.replicate (k - n) 0 ++ lowDigits n (prepareKey t key).toNat

theorem path_exact (hn : n ≤ 8) (hcap : t.capacity = fullCapacity n)
    (hkey : key ≤ t.capacity) : PathExact t n key := by
  have hlt : key.toNat < 256 ^ n := by
    rw [hcap] at hkey
    exact (le_fullCapacity_iff hn key).mp hkey
  have hbytes := lowDigits_prepareKey hn hcap key
  have hback := prepareKey_prepareKey hn hcap hlt
  refine ⟨hbytes, ?_, hback, ?_, ?_⟩
  · rw [hcap, le_fullCapacity_iff hn]
    exact prepareKey_lt hn hcap key
  · intro key' hkey' heq
    rw [hcap, le_fullCapacity_iff hn] at hkey'
    rw [← prepareKey_prepareKey hn hcap hkey', heq, hback]
  · intro k hk hle t' hcap'
    obtain ⟨d, rfl⟩ := Nat.exists_eq_add_of_le hle
    rw [lowDigits_prepareKey hk (eq_fullCapacity hk hcap'), hbytes,
      path_zeros hlt, Nat.add_sub_cancel_left]

/-- A resize ends at the least capacity that will do, if its branches are
granted, and paths survive it. -/
theorem cxRadixTree_pathsGrow (hn : n ≤ 8)
    (hcap : t.capacity.toNat = 2 ^ (8 * n) - 1) (key : UInt64) :
    ResizeExact t key ∧ (key ≤ t.capacity → PathExact t n key) := by
  have hfull := eq_fullCapacity hn hcap
  exact ⟨resize_exact hn hfull key, path_exact hn hfull⟩

/-- An empty tree grows to its full height at once. -/
theorem cxRadixTree_pathsGrow_max : ∃ t m,
    (cxRadixTreeInit 8).run (Machine.boot (fun _ => 0) fun _ => 4096) = .ok t m
      ∧ (((resize t 0xffffffffffffffff).run m).value.map fun r =>
        (r.1, r.2.capacity)) = some (0, 0xffffffffffffffff)
      ∧ ResizeExact t 0xffffffffffffffff
      ∧ PathExact { t with capacity := 0xffffffffffffffff } 8 258 := by
  refine ⟨_, _, rfl, by decide +kernel, ?_, ?_⟩
  · exact (cxRadixTree_pathsGrow (n := 0) (by decide) rfl _).1
  · exact (cxRadixTree_pathsGrow (n := 8) (by decide) (by simp) _).2 (by decide)

/-- The first branch is refused: the capacity has grown, but not enough. -/
theorem cxRadixTree_resize_turnedBack : ∃ t m t' m',
    (cxRadixTreeInit 8).run (Machine.boot (fun _ => 0) fun _ => 0) = .ok t m
      ∧ t.capacity = 0 ∧ (resize t 256).run m = .ok (-1, t') m'
      ∧ ¬ IsLeast {c | Capacity c ∧ max t.capacity.toNat (256 : UInt64).toNat ≤ c}
        t'.capacity.toNat := by
  refine ⟨_, _, _, _, rfl, rfl, rfl, ?_⟩
  intro hleast
  exact absurd hleast.1.2 (by decide)

end Cextras.Collection
