/-
Singly linked lists threaded through flat memory: the node at `a` keeps
the address of its successor in the word at `a + off`, and 0 ends the
list. `Linked` ties such a chain to the Lean list of its nodes; because
that list is finite, a `Linked` chain is acyclic.
-/
import Cextras.Lib.Mem

namespace Cextras.Lib

/-- From `a` on, following the link words visits exactly the nodes
`as`, in order, and ends. -/
inductive Linked (mem : Mem) (off : Nat) : Nat → List Nat → Prop where
  | nil : Linked mem off 0 []
  | cons {a : Nat} {as : List Nat} :
      a ≠ 0 → Linked mem off (mem.load64 (a + off)) as →
      Linked mem off a (a :: as)

variable {mem mem' : Mem} {off a : Nat} {as : List Nat}

/-- A chain with a first node starts at it. -/
theorem Linked.uncons {b : Nat} (h : Linked mem off a (b :: as)) :
    a = b ∧ b ≠ 0 ∧ Linked mem off (mem.load64 (b + off)) as := by
  cases h with
  | cons hne h => exact ⟨rfl, hne, h⟩

/-- A chain without nodes starts at null. -/
theorem Linked.head_nil (h : Linked mem off a []) : a = 0 := by
  cases h
  rfl

/-- The head of a chain determines its nodes. -/
theorem Linked.unique {bs : List Nat} (h : Linked mem off a as)
    (h' : Linked mem off a bs) : as = bs := by
  induction h generalizing bs with
  | nil =>
      cases h' with
      | nil => rfl
      | cons hne _ => exact absurd rfl hne
  | cons hne _ ih =>
      cases h' with
      | nil => exact absurd rfl hne
      | cons _ h' => rw [ih h']

/-- A chain whose head is null has no nodes. -/
theorem Linked.eq_nil (h : Linked mem off 0 as) : as = [] :=
  h.unique .nil

/-- The last node has no successor. -/
theorem Linked.last {x : Nat} (h : Linked mem off a as)
    (hx : as.getLast? = some x) : mem.load64 (x + off) = 0 := by
  induction h with
  | nil => cases hx
  | @cons a as _ h ih =>
      cases as with
      | nil =>
          cases hx
          exact h.head_nil
      | cons b bs =>
          rw [List.getLast?_cons_cons] at hx
          exact ih hx

/-- A node that is its own successor starts no chain. -/
theorem Linked.not_self (h : Linked mem off a as) (ha : a ≠ 0) :
    mem.load64 (a + off) ≠ a := by
  intro hself
  cases h with
  | nil => exact ha rfl
  | @cons _ as _ h =>
      rw [hself] at h
      have hloop : a :: as = as := (Linked.cons ha (hself.symm ▸ h)).unique h
      exact List.cons_ne_self a as hloop

/-- A chain survives every change of memory that spares its link
words. -/
theorem Linked.congr (h : Linked mem off a as)
    (hagree : ∀ x ∈ as, mem.Agree mem' (x + off) 8) :
    Linked mem' off a as := by
  induction h with
  | nil => exact .nil
  | cons hne _ ih =>
      refine .cons hne ?_
      rw [load64_congr (hagree _ (List.mem_cons_self ..))]
      exact ih fun x hx => hagree x (List.mem_cons_of_mem _ hx)

/-- A node put behind the last one, which starts the chain if there was
none. -/
theorem Linked.snoc {b : Nat} (h : Linked mem off a as) (hb : b ≠ 0)
    (hend : mem'.load64 (b + off) = 0)
    (hlast : ∀ x, as.getLast? = some x → mem'.load64 (x + off) = b)
    (hagree : ∀ x ∈ as.dropLast, mem.Agree mem' (x + off) 8) :
    Linked mem' off (if as = [] then b else a) (as ++ [b]) := by
  induction h with
  | nil =>
      rw [if_pos rfl]
      refine .cons hb ?_
      rw [hend]
      exact .nil
  | @cons a as hne h ih =>
      rw [if_neg (List.cons_ne_nil a as)]
      refine .cons hne ?_
      cases as with
      | nil =>
          rw [hlast a rfl]
          refine .cons hb ?_
          rw [hend]
          exact .nil
      | cons a' as =>
          have hlast' : ∀ x, (a' :: as).getLast? = some x →
              mem'.load64 (x + off) = b := by
            intro x hx
            apply hlast x
            rw [List.getLast?_cons_cons]
            exact hx
          have hrest := ih hlast' fun x hx =>
            hagree x (List.mem_cons_of_mem _ hx)
          rw [if_neg (List.cons_ne_nil a' as)] at hrest
          rw [load64_congr (hagree a List.mem_cons_self)]
          exact hrest

end Cextras.Lib
