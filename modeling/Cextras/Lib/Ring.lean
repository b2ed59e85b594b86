/-
A list used as a ring: a cursor names the entry written last, and the
next write goes one further on, around the end. The `window` of a ring
is its entries from the oldest to the newest; a write drops the oldest
and appends (`window_set`), so after `n` writes the window is what is
left of everything ever in the ring, the first `n` entries dropped
(`drop_succ_concat`).
-/
import Mathlib.Data.List.Rotate

namespace Cextras.Lib

variable {α : Type} {l : List α} {i : Nat} {a : α}

/-- The entries of a ring, oldest first. -/
def window (l : List α) (i : Nat) : List α := l.rotate (i + 1)

@[simp] theorem window_length : (window l i).length = l.length :=
  List.length_rotate ..

theorem window_perm : (window l i).Perm l := List.rotate_perm ..

/-- The cursor's next place, around the end. -/
theorem window_next (l : List α) (i : Nat) :
    window l i = l.rotate ((i + 1) % l.length) := (List.rotate_mod ..).symm

/-- The next write goes over the oldest entry. -/
theorem window_head (h : l ≠ []) :
    (window l i).head? = l[(i + 1) % l.length]? := by
  have hlt : (i + 1) % l.length < l.length :=
    Nat.mod_lt _ (List.length_pos_of_ne_nil h)
  rw [window_next, List.rotate_eq_drop_append_take hlt.le,
    List.drop_eq_getElem_cons hlt, List.getElem?_eq_getElem hlt]
  rfl

/-- The newest entry is the one at the cursor. -/
theorem window_last (h : i < l.length) : (window l i).getLast? = l[i]? := by
  rw [window, List.rotate_eq_drop_append_take h, List.take_add_one,
    List.getElem?_eq_getElem h, ← List.append_assoc]
  exact List.getLast?_concat

/-- A write drops the oldest entry and appends. -/
theorem window_set (h : l ≠ []) :
    window (l.set ((i + 1) % l.length) a) ((i + 1) % l.length)
      = (window l i).tail ++ [a] := by
  have hlt : (i + 1) % l.length < l.length :=
    Nat.mod_lt _ (List.length_pos_of_ne_nil h)
  generalize hj : (i + 1) % l.length = j at hlt
  have hlen : j + 1 ≤ (l.set j a).length := by
    rw [List.length_set]
    exact hlt
  have htake : (l.set j a).take (j + 1) = l.take j ++ [a] := by
    rw [List.take_add_one, List.take_set_of_le le_rfl, List.getElem?_set_self hlt]
    rfl
  rw [window, List.rotate_eq_drop_append_take hlen, htake,
    List.drop_set_of_lt (Nat.lt_succ_self j), window_next, hj,
    List.rotate_eq_drop_append_take hlt.le, List.drop_eq_getElem_cons hlt,
    List.cons_append, List.tail_cons, List.append_assoc]

/-- One more entry in, one more dropped. -/
theorem drop_succ_concat {n : Nat} (h : n < l.length) :
    (l ++ [a]).drop (n + 1) = (l.drop n).tail ++ [a] := by
  rw [List.drop_append_of_le_length h, List.tail_drop]

end Cextras.Lib
