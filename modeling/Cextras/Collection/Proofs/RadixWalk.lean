/-
The tree as a function from paths to nodes. `walk mem root p` follows
the child words along `p`; `Shape` is what makes the resulting graph a
tree: different paths of at most `n` steps never meet in one node, and
the nodes are the branches above level `n` and the leaves on it.

`walk_store` says which paths see a store into a child word, and
`walk_graft` packages the three stores the code makes (a fresh branch, a
fresh leaf, a null) as a one-point update of the path function, which
`Shape.graft` shows to keep the shape. `walk_grow` is the re-rooting.
-/
import Mathlib.Data.List.Induction
import Cextras.Collection.Proofs.RadixKey

namespace Cextras.Collection

open Lib Memory

-- =============================================================== walking

/-- The node reached from `node` along a path; null once it leaves the
tree. -/
def walk (mem : Mem) : Nat → List Nat → Nat
  | node, [] => node
  | node, i :: p => if node = 0 then 0 else walk mem (mem.load64 (node + 8 * i)) p

@[simp] theorem walk_nil (mem : Mem) (node : Nat) : walk mem node [] = node := rfl

@[simp] theorem walk_null (mem : Mem) (p : List Nat) : walk mem 0 p = 0 := by
  cases p with
  | nil => rfl
  | cons i p => exact if_pos rfl

theorem walk_cons {mem : Mem} {node : Nat} (h : node ≠ 0) (i : Nat)
    (p : List Nat) :
    walk mem node (i :: p) = walk mem (mem.load64 (node + 8 * i)) p := if_neg h

theorem walk_append (mem : Mem) (node : Nat) (p q : List Nat) :
    walk mem node (p ++ q) = walk mem (walk mem node p) q := by
  induction p generalizing node with
  | nil => rfl
  | cons i p ih =>
      by_cases h : node = 0
      · subst h
        simp
      · rw [List.cons_append, walk_cons h, walk_cons h, ih]

/-- Below a missing node there is nothing. -/
theorem walk_eq_zero_of_extends {mem : Mem} {node : Nat} {p : List Nat}
    (h : walk mem node p = 0) (q : List Nat) : walk mem node (p ++ q) = 0 := by
  rw [walk_append, h, walk_null]

/-- The nodes above a node that exists do exist. -/
theorem walk_ne_zero_of_append {mem : Mem} {node : Nat} {p q : List Nat}
    (h : walk mem node (p ++ q) ≠ 0) : walk mem node p ≠ 0 :=
  fun h0 => h (walk_eq_zero_of_extends h0 q)

theorem Digits.append {p q : List Nat} :
    Digits (p ++ q) ↔ Digits p ∧ Digits q := by
  simp only [Digits, List.mem_append]
  constructor
  · exact fun h => ⟨fun i hi => h i (Or.inl hi), fun i hi => h i (Or.inr hi)⟩
  · rintro ⟨hp, hq⟩ i (hi | hi)
    · exact hp i hi
    · exact hq i hi

theorem Digits.singleton {i : Nat} : Digits [i] ↔ i < 256 := by
  simp [Digits]

-- ================================================================= shape

/-- The path function of a tree of `n` levels over the given branches and
leaves. -/
structure Shape (n : Nat) (node : List Nat → Nat) (branches leaves : List Nat) :
    Prop where
  branch : ∀ p, Digits p → p.length < n → node p ≠ 0 → node p ∈ branches
  leaf : ∀ p, Digits p → p.length = n → node p ≠ 0 → node p ∈ leaves
  inj : ∀ p q, Digits p → Digits q → p.length ≤ n → q.length ≤ n →
    node p = node q → node p ≠ 0 → p = q

variable {n : Nat} {node node' : List Nat → Nat} {branches branches' leaves
  leaves' : List Nat}

/-- The shape only depends on the paths it is about, and admits more
branches and leaves than it uses. -/
theorem Shape.transfer (h : Shape n node branches leaves)
    (hnode : ∀ q, Digits q → q.length ≤ n → node' q = node q)
    (hbranches : ∀ b ∈ branches, b ∈ branches')
    (hleaves : ∀ a ∈ leaves, a ∈ leaves') :
    Shape n node' branches' leaves' where
  branch := fun p hp hlen hne => by
    rw [hnode p hp (by omega)] at hne ⊢
    exact hbranches _ (h.branch p hp hlen hne)
  leaf := fun p hp hlen hne => by
    rw [hnode p hp (by omega)] at hne ⊢
    exact hleaves _ (h.leaf p hp hlen hne)
  inj := fun p q hp hq hpn hqn heq hne => by
    rw [hnode p hp hpn] at heq hne
    rw [hnode q hq hqn] at heq
    exact h.inj p q hp hq hpn hqn heq hne

/-- A one-point update keeps the shape, if the new node is null or was
not in the tree. -/
theorem Shape.graft (h : Shape n node branches leaves) {t : List Nat} {v : Nat}
    (hupd : ∀ q, Digits q → q.length ≤ n →
      node' q = if q = t then v else node q)
    (hfresh : v ≠ 0 → ∀ q, Digits q → q.length ≤ n → node q ≠ v)
    (hbranch : v ≠ 0 → t.length < n → v ∈ branches')
    (hleaf : v ≠ 0 → t.length = n → v ∈ leaves')
    (hbranches : ∀ b ∈ branches, b ∈ branches')
    (hleaves : ∀ q, Digits q → q.length = n → q ≠ t → node q ≠ 0 →
      node q ∈ leaves') :
    Shape n node' branches' leaves' where
  branch := by
    intro p hp hlen hne
    rw [hupd p hp (by omega)] at hne ⊢
    by_cases hpt : p = t
    · rw [if_pos hpt] at hne ⊢
      exact hbranch hne (hpt ▸ hlen)
    · rw [if_neg hpt] at hne ⊢
      exact hbranches _ (h.branch p hp hlen hne)
  leaf := by
    intro p hp hlen hne
    rw [hupd p hp (by omega)] at hne ⊢
    by_cases hpt : p = t
    · rw [if_pos hpt] at hne ⊢
      exact hleaf hne (hpt ▸ hlen)
    · rw [if_neg hpt] at hne ⊢
      exact hleaves p hp hlen hpt hne
  inj := by
    intro p q hp hq hpn hqn heq hne
    rw [hupd p hp hpn] at heq hne
    rw [hupd q hq hqn] at heq
    by_cases hpt : p = t <;> by_cases hqt : q = t
    · rw [hpt, hqt]
    · rw [if_pos hpt, if_neg hqt] at heq
      rw [if_pos hpt] at hne
      exact absurd heq.symm (hfresh hne q hq hqn)
    · rw [if_neg hpt, if_pos hqt] at heq
      rw [if_neg hpt, heq] at hne
      exact absurd heq (hfresh hne p hp hpn)
    · rw [if_neg hpt, if_neg hqt] at heq
      rw [if_neg hpt] at hne
      exact h.inj p q hp hq hpn hqn heq hne

-- =========================================================== child stores

section Store

variable {mem mem' : Mem} {root : Nat}

/-- The branches' child tables do not overlap. -/
def Apart (branches : List Nat) : Prop :=
  ∀ x ∈ branches, ∀ y ∈ branches, x ≠ y →
    x + radixBranchSize ≤ y ∨ y + radixBranchSize ≤ x

/-- Memory that agrees on every branch walks the same. -/
theorem walk_congr (h : Shape n (walk mem root) branches leaves)
    (hagree : ∀ b ∈ branches, mem.Agree mem' b radixBranchSize) :
    ∀ q, Digits q → q.length ≤ n → walk mem' root q = walk mem root q := by
  intro q
  induction q using List.reverseRecOn with
  | nil => exact fun _ _ => rfl
  | append_singleton s j ih =>
      intro hq hlen
      obtain ⟨hs, hj⟩ := Digits.append.mp hq
      rw [Digits.singleton] at hj
      rw [List.length_append, List.length_singleton] at hlen
      rw [walk_append, walk_append, ih hs (by omega)]
      by_cases hx : walk mem root s = 0
      · rw [hx, walk_null, walk_null]
      · have hmem := h.branch s hs (by omega) hx
        rw [walk_cons hx, walk_cons hx, walk_nil, walk_nil]
        refine load64_congr fun x hlo hhi => hagree _ hmem x (by omega) ?_
        simp only [radixBranchSize, radixSize]
        omega

/-- A store into child `i` of the node at `p` is seen only by the paths
that step through that child. -/
theorem walk_store (h : Shape n (walk mem root) branches leaves)
    (hapart : Apart branches) {p : List Nat} {i v : Nat} (hp : Digits p)
    (hlen : p.length < n) (hi : i < 256) (hb : walk mem root p ≠ 0)
    (hmem' : mem' = mem.store64 (walk mem root p + 8 * i) v) :
    ∀ q, Digits q → q.length ≤ n → ¬ p ++ [i] <+: q →
      walk mem' root q = walk mem root q := by
  intro q
  induction q using List.reverseRecOn with
  | nil => exact fun _ _ _ => rfl
  | append_singleton s j ih =>
      intro hq hqlen hnot
      obtain ⟨hs, hj⟩ := Digits.append.mp hq
      rw [Digits.singleton] at hj
      rw [List.length_append, List.length_singleton] at hqlen
      have hnot' : ¬ p ++ [i] <+: s :=
        fun hpre => hnot (hpre.trans (List.prefix_append _ _))
      rw [walk_append, walk_append, ih hs (by omega) hnot']
      by_cases hx : walk mem root s = 0
      · rw [hx, walk_null, walk_null]
      · rw [walk_cons hx, walk_cons hx, walk_nil, walk_nil, hmem']
        refine load64_store64_of_disjoint ?_
        by_cases heq : walk mem root s = walk mem root p
        · -- the same branch: then another child of it
          have hsp : s = p := h.inj s p hs hp (by omega) (by omega) heq hx
          have hji : j ≠ i := by
            rintro rfl
            exact hnot (hsp ▸ List.prefix_rfl)
          omega
        · have := hapart _ (h.branch s hs (by omega) hx) _
            (h.branch p hp hlen hb) heq
          simp only [radixBranchSize, radixSize] at this
          omega

/-- A store into child `i` of the node at `p`, seen through that child. -/
theorem walk_store_through (h : Shape n (walk mem root) branches leaves)
    (hapart : Apart branches) {p : List Nat} {i v : Nat} (hp : Digits p)
    (hlen : p.length < n) (hi : i < 256) (hb : walk mem root p ≠ 0)
    (hmem' : mem' = mem.store64 (walk mem root p + 8 * i) v)
    (hv : v < 2 ^ 64) (r : List Nat) :
    walk mem' root (p ++ i :: r) = walk mem' v r := by
  have hnot : ¬ p ++ [i] <+: p := fun hpre => by
    have := hpre.length_le
    simp at this
  rw [walk_append, walk_store h hapart hp hlen hi hb hmem' p hp (by omega) hnot,
    walk_cons hb, show mem'.load64 (walk mem root p + 8 * i) = v by
      rw [hmem', load64_store64_self, Nat.mod_eq_of_lt hv]]

/-- The stores the code makes into child words update one path: on the
last level always, above it when a childless node fills an empty
place. -/
theorem walk_graft (h : Shape n (walk mem root) branches leaves)
    (hapart : Apart branches) {p : List Nat} {i v : Nat} (hp : Digits p)
    (hlen : p.length < n) (hi : i < 256) (hb : walk mem root p ≠ 0)
    (hmem' : mem' = mem.store64 (walk mem root p + 8 * i) v)
    (hv : v < 2 ^ 64)
    (hkids : p.length + 1 < n → walk mem root (p ++ [i]) = 0
      ∧ ∀ j < 256, mem'.load64 (v + 8 * j) = 0) :
    ∀ q, Digits q → q.length ≤ n →
      walk mem' root q = if q = p ++ [i] then v else walk mem root q := by
  intro q hq hqlen
  by_cases hpre : p ++ [i] <+: q
  · obtain ⟨r, rfl⟩ := hpre
    rw [List.append_assoc, List.singleton_append,
      walk_store_through h hapart hp hlen hi hb hmem' hv]
    cases r with
    | nil => rw [walk_nil, if_pos rfl]
    | cons j r =>
        simp only [List.length_append, List.length_cons,
          List.length_nil] at hqlen
        obtain ⟨hzero, hchild⟩ := hkids (by omega)
        have hj : j < 256 := hq j (by simp)
        rw [if_neg (by simp), List.append_cons, walk_eq_zero_of_extends hzero]
        by_cases hv0 : v = 0
        · rw [hv0, walk_null]
        · rw [walk_cons hv0, hchild j hj, walk_null]
  · rw [walk_store h hapart hp hlen hi hb hmem' q hq hqlen hpre]
    rw [if_neg]
    rintro rfl
    exact hpre List.prefix_rfl

end Store

-- ================================================================ growth

/-- Re-rooting at a fresh branch whose child 0 is the old root. -/
theorem walk_grow {mem : Mem} {root w : Nat} (hw : w ≠ 0)
    (hzero : mem.load64 (w + 8 * 0) = root)
    (hrest : ∀ j, 0 < j → j < 256 → mem.load64 (w + 8 * j) = 0) :
    walk mem w [] = w
      ∧ (∀ q, walk mem w (0 :: q) = walk mem root q)
      ∧ ∀ j q, 0 < j → j < 256 → walk mem w (j :: q) = 0 := by
  refine ⟨rfl, fun q => ?_, fun j q hj hj' => ?_⟩
  · rw [walk_cons hw, hzero]
  · rw [walk_cons hw, hrest j hj hj', walk_null]

/-- One level more: the old tree hangs below child 0 of a new root. -/
theorem Shape.grow (node : List Nat → Nat) (h : Shape n node branches leaves)
    {w : Nat}
    (hw : w ∈ branches)
    (hfresh : ∀ q, Digits q → q.length ≤ n → node q ≠ w)
    (hroot : node' [] = w)
    (hzero : ∀ q, Digits q → q.length ≤ n → node' (0 :: q) = node q)
    (hrest : ∀ j q, 0 < j → j < 256 → node' (j :: q) = 0) :
    Shape (n + 1) node' branches leaves := by
  -- a path that reaches anything is empty or continues an old path
  have hcases : ∀ p, Digits p → p.length ≤ n + 1 → node' p ≠ 0 →
      p = [] ∨ ∃ q, p = 0 :: q ∧ Digits q ∧ q.length ≤ n ∧ node' p = node q := by
    intro p hp hlen hne
    cases p with
    | nil => exact Or.inl rfl
    | cons j q =>
        right
        have hq : Digits q := fun i hi => hp i (List.mem_cons_of_mem _ hi)
        rw [List.length_cons] at hlen
        rcases Nat.eq_zero_or_pos j with rfl | hj
        · exact ⟨q, rfl, hq, by omega, hzero q hq (by omega)⟩
        · exact absurd (hrest j q hj (hp j (List.mem_cons_self ..))) hne
  constructor
  case branch =>
    intro p hp hlen hne
    rcases hcases p hp (by omega) hne with rfl | ⟨q, rfl, hq, -, hnq⟩
    · rw [hroot]
      exact hw
    · rw [hnq] at hne ⊢
      rw [List.length_cons] at hlen
      exact h.branch q hq (by omega) hne
  case leaf =>
    intro p hp hlen hne
    rcases hcases p hp (by omega) hne with rfl | ⟨q, rfl, hq, -, hnq⟩
    · simp at hlen
    · rw [hnq] at hne ⊢
      rw [List.length_cons] at hlen
      exact h.leaf q hq (by omega) hne
  case inj =>
    intro p q hp hq hpn hqn heq hne
    rcases hcases p hp hpn hne with rfl | ⟨p', rfl, hp', hpl, hnp⟩ <;>
      rcases hcases q hq hqn (heq ▸ hne) with rfl | ⟨q', rfl, hq', hql, hnq⟩
    · rfl
    · rw [hroot, hnq] at heq
      exact absurd heq.symm (hfresh q' hq' hql)
    · rw [hroot, hnp] at heq
      exact absurd heq (hfresh p' hp' hpl)
    · rw [hnp] at heq hne
      rw [hnq] at heq
      rw [h.inj p' q' hp' hq' hpl hql heq hne]

end Cextras.Collection
