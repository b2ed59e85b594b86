/-
Flat byte memory: a total map from addresses to bytes, read and written
in runs of bytes, with the 64-bit little-endian word on top. Nothing
here knows who owns which byte; ownership is the arena's business
(Machine.lean). The two facts everything above rests on are that a read
sees exactly the write that covers it (`read_write_self`) and that it
does not see a write beside it (`read_write_of_disjoint`).
-/
import Mathlib.Data.List.Basic
import Mathlib.Tactic.NormNum

namespace Cextras.Lib

abbrev Byte := UInt8

/-- Byte-addressed memory over flat addresses; 0 is the null pointer. -/
abbrev Mem := Nat → Byte

-- ============================================================ byte runs

/-- The `n` bytes from `a` on. -/
def Mem.read (m : Mem) (a : Nat) (n : Nat) : List Byte :=
  (List.range n).map fun i => m (a + i)

/-- Memory after the bytes `bs` are stored from `a` on. -/
def Mem.write (m : Mem) (a : Nat) (bs : List Byte) : Mem := fun x =>
  if a ≤ x then bs.getD (x - a) (m x) else m x

/-- Memory after `n` bytes from `a` on are set to zero. -/
def Mem.zero (m : Mem) (a : Nat) (n : Nat) : Mem := fun x =>
  if a ≤ x ∧ x < a + n then 0 else m x

/-- Two memories hold the same bytes in the `n` cells from `a` on. -/
def Mem.Agree (m m' : Mem) (a : Nat) (n : Nat) : Prop :=
  ∀ x, a ≤ x → x < a + n → m' x = m x

@[simp] theorem read_length (m : Mem) (a : Nat) (n : Nat) :
    (m.read a n).length = n := by simp [Mem.read]

theorem getElem?_read (m : Mem) (a : Nat) {i n : Nat} (h : i < n) :
    (m.read a n)[i]? = some (m (a + i)) := by
  rw [Mem.read, List.getElem?_map, List.getElem?_range h, Option.map_some]

/-- Reads depend on the cells they cover and on nothing else. -/
theorem read_congr {m m' : Mem} {a n : Nat} (h : m.Agree m' a n) :
    m'.read a n = m.read a n := by
  refine List.map_congr_left fun i hi => ?_
  have hi' : i < n := List.mem_range.mp hi
  exact h (a + i) (by omega) (by omega)

theorem write_apply_outside {m : Mem} {a : Nat} {bs : List Byte} {x : Nat}
    (h : x < a ∨ a + bs.length ≤ x) : m.write a bs x = m x := by
  unfold Mem.write
  split
  · next hx =>
    rw [List.getD_eq_getElem?_getD, List.getElem?_eq_none (by omega)]
    rfl
  · rfl

theorem write_apply_inside {m : Mem} {a i : Nat} {bs : List Byte}
    (h : i < bs.length) : m.write a bs (a + i) = bs[i] := by
  unfold Mem.write
  rw [if_pos (Nat.le_add_right a i), Nat.add_sub_cancel_left,
    List.getD_eq_getElem?_getD, List.getElem?_eq_getElem h, Option.getD_some]

theorem zero_apply_outside {m : Mem} {a n : Nat} {x : Nat}
    (h : x < a ∨ a + n ≤ x) : m.zero a n x = m x :=
  if_neg (by omega)

/-- A write leaves every run of cells beside it alone. -/
theorem agree_write {m : Mem} {a : Nat} {bs : List Byte} {b n : Nat}
    (h : b + n ≤ a ∨ a + bs.length ≤ b) : m.Agree (m.write a bs) b n :=
  fun _ hx hxn => write_apply_outside (by omega)

/-- Zeroing leaves every run of cells beside it alone. -/
theorem agree_zero {m : Mem} {a k : Nat} {b n : Nat}
    (h : b + n ≤ a ∨ a + k ≤ b) : m.Agree (m.zero a k) b n :=
  fun _ hx hxn => zero_apply_outside (by omega)

theorem read_write_of_disjoint {m : Mem} {a : Nat} {bs : List Byte}
    {b n : Nat} (h : b + n ≤ a ∨ a + bs.length ≤ b) :
    (m.write a bs).read b n = m.read b n :=
  read_congr (agree_write h)

theorem read_append (m : Mem) (a n k : Nat) :
    m.read a (n + k) = m.read a n ++ m.read (a + n) k := by
  unfold Mem.read
  rw [List.range_add, List.map_append, List.map_map]
  congr 1
  apply List.map_congr_left
  intro i _
  show m (a + (n + i)) = m (a + n + i)
  rw [Nat.add_assoc]

/-- A part of what was read. -/
theorem read_slice {m : Mem} {a n : Nat} {xs ys zs : List Byte}
    (h : m.read a n = xs ++ ys ++ zs) :
    m.read (a + xs.length) ys.length = ys := by
  have hlen := congrArg List.length h
  rw [read_length, List.length_append, List.length_append] at hlen
  rw [hlen, read_append, read_append] at h
  have hxy := (List.append_inj h (by simp)).1
  exact (List.append_inj hxy (by simp)).2

@[simp] theorem read_write_self (m : Mem) (a : Nat) (bs : List Byte) :
    (m.write a bs).read a bs.length = bs := by
  refine List.ext_getElem (by simp) fun i hi _ => ?_
  have hi' : i < bs.length := by simpa using hi
  simp only [Mem.read, Mem.write, List.getElem_map, List.getElem_range]
  rw [if_pos (by omega), Nat.add_sub_cancel_left]
  simp [List.getD, hi']

@[simp] theorem read_zero_self (m : Mem) (a n : Nat) :
    (m.zero a n).read a n = List.replicate n 0 := by
  refine List.ext_getElem (by simp) fun i hi _ => ?_
  have hi' : i < n := by simpa using hi
  simp only [Mem.read, Mem.zero, List.getElem_map, List.getElem_range,
    List.getElem_replicate]
  exact if_pos (by omega)

theorem read_of_zero {m : Mem} {a n : Nat}
    (h : ∀ x, a ≤ x → x < a + n → m x = 0) :
    m.read a n = List.replicate n 0 := by
  rw [← read_zero_self m a n]
  refine read_congr fun x hx hxn => ?_
  rw [h x hx hxn]
  exact (if_pos ⟨hx, hxn⟩).symm

-- ================================================== little-endian words

/-- The `n` low bytes of `v`, least significant first. -/
def leBytes : Nat → Nat → List Byte
  | 0, _ => []
  | n + 1, v => UInt8.ofNat v :: leBytes n (v / 256)

/-- The number whose little-endian bytes are given. -/
def ofLeBytes : List Byte → Nat
  | [] => 0
  | b :: bs => b.toNat + 256 * ofLeBytes bs

@[simp] theorem leBytes_length (n v : Nat) : (leBytes n v).length = n := by
  induction n generalizing v with
  | zero => rfl
  | succ n ih => simp [leBytes, ih]

/-- Splitting a number into `n` bytes and putting it together again
keeps its low `8 * n` bits. -/
theorem ofLeBytes_leBytes (n v : Nat) :
    ofLeBytes (leBytes n v) = v % 256 ^ n := by
  induction n generalizing v with
  | zero => simp [leBytes, ofLeBytes, Nat.mod_one]
  | succ n ih =>
      have hb : (UInt8.ofNat v).toNat = v % 256 := by simp
      rw [leBytes, ofLeBytes, ih, hb, Nat.pow_succ, Nat.mul_comm (256 ^ n),
        Nat.mod_mul]

theorem ofLeBytes_replicate_zero (n : Nat) :
    ofLeBytes (List.replicate n 0) = 0 := by
  induction n with
  | zero => rfl
  | succ n ih => simp [List.replicate_succ, ofLeBytes, ih]

/-- The 64-bit word at `a`. -/
def Mem.load64 (m : Mem) (a : Nat) : Nat := ofLeBytes (m.read a 8)

/-- Memory after the 64-bit word `v` is stored at `a`. -/
def Mem.store64 (m : Mem) (a : Nat) (v : Nat) : Mem :=
  m.write a (leBytes 8 v)

/-- The word whose bytes are those of `v`. -/
theorem load64_of_read {m : Mem} {a v : Nat} (h : m.read a 8 = leBytes 8 v) :
    m.load64 a = v % 2 ^ 64 := by
  rw [Mem.load64, h, ofLeBytes_leBytes]
  norm_num

@[simp] theorem load64_store64_self (m : Mem) (a v : Nat) :
    (m.store64 a v).load64 a = v % 2 ^ 64 := by
  have h := read_write_self m a (leBytes 8 v)
  rw [leBytes_length] at h
  exact load64_of_read h

theorem load64_congr {m m' : Mem} {a : Nat} (h : m.Agree m' a 8) :
    m'.load64 a = m.load64 a := by
  rw [Mem.load64, Mem.load64, read_congr h]

theorem agree_store64 {m : Mem} {a v b n : Nat}
    (h : b + n ≤ a ∨ a + 8 ≤ b) : m.Agree (m.store64 a v) b n :=
  agree_write (by rw [leBytes_length]; exact h)

theorem load64_store64_of_disjoint {m : Mem} {a v b : Nat}
    (h : b + 8 ≤ a ∨ a + 8 ≤ b) :
    (m.store64 a v).load64 b = m.load64 b :=
  load64_congr (agree_store64 h)

/-- A word of zero bytes is zero. -/
theorem load64_of_zero {m : Mem} {a : Nat}
    (h : ∀ x, a ≤ x → x < a + 8 → m x = 0) : m.load64 a = 0 := by
  rw [Mem.load64, read_of_zero h, ofLeBytes_replicate_zero]

end Cextras.Lib
