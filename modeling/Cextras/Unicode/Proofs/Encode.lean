/-
The standard encoding, as the walkers see it. `text` encodes a list of
scalar values one after the other; `Char` is exactly the scalar values
and `String.utf8EncodeChar` their encoding. An encoded character is the
digits of its value (`Encoded`), and the table entry of its lead byte is
its length (`encoded_lead`).
-/
import Mathlib.Tactic.NormNum
import Mathlib.Data.List.Basic
import Cextras.Unicode.Width

namespace Cextras.Unicode

open Lib

/-- The UTF-8 encoding of a list of scalar values. -/
def text (cps : List Char) : List Byte := cps.flatMap String.utf8EncodeChar

@[simp] theorem text_nil : text [] = [] := rfl

@[simp] theorem text_cons (c : Char) (cps : List Char) :
    text (c :: cps) = String.utf8EncodeChar c ++ text cps := by
  simp [text]

-- ============================================================ lead bytes

/-- A one-byte character is its own lead byte. -/
theorem utf8LenMap_one {x : Nat} (h : x < 0x80) :
    utf8LenMap (UInt8.ofNat x) = 1 ∧ utf16LenMap (UInt8.ofNat x) = 1 := by
  have hall : ∀ x < 0x80, utf8LenMap (UInt8.ofNat x) = 1
      ∧ utf16LenMap (UInt8.ofNat x) = 1 := by decide
  exact hall x h

theorem utf8LenMap_two {x : Nat} (h : x < 0x20) :
    utf8LenMap (UInt8.ofNat (x + 0xC0)) = 2
      ∧ utf16LenMap (UInt8.ofNat (x + 0xC0)) = 1
      ∧ (UInt8.ofNat (x + 0xC0)).toNat &&& 0x1F = x := by
  have hall : ∀ x < 0x20, utf8LenMap (UInt8.ofNat (x + 0xC0)) = 2
      ∧ utf16LenMap (UInt8.ofNat (x + 0xC0)) = 1
      ∧ (UInt8.ofNat (x + 0xC0)).toNat &&& 0x1F = x := by decide
  exact hall x h

theorem utf8LenMap_three {x : Nat} (h : x < 0x10) :
    utf8LenMap (UInt8.ofNat (x + 0xE0)) = 3
      ∧ utf16LenMap (UInt8.ofNat (x + 0xE0)) = 2
      ∧ (UInt8.ofNat (x + 0xE0)).toNat &&& 0x0F = x := by
  have hall : ∀ x < 0x10, utf8LenMap (UInt8.ofNat (x + 0xE0)) = 3
      ∧ utf16LenMap (UInt8.ofNat (x + 0xE0)) = 2
      ∧ (UInt8.ofNat (x + 0xE0)).toNat &&& 0x0F = x := by decide
  exact hall x h

theorem utf8LenMap_four {x : Nat} (h : x < 0x08) :
    utf8LenMap (UInt8.ofNat (x + 0xF0)) = 4
      ∧ utf16LenMap (UInt8.ofNat (x + 0xF0)) = 2
      ∧ (UInt8.ofNat (x + 0xF0)).toNat &&& 0x07 = x := by
  have hall : ∀ x < 0x08, utf8LenMap (UInt8.ofNat (x + 0xF0)) = 4
      ∧ utf16LenMap (UInt8.ofNat (x + 0xF0)) = 2
      ∧ (UInt8.ofNat (x + 0xF0)).toNat &&& 0x07 = x := by decide
  exact hall x h

/-- A continuation byte carries its six bits. -/
theorem contBits_ofNat {x : Nat} (h : x < 0x40) :
    contBits (UInt8.ofNat (x + 0x80)) = x := by
  have hall : ∀ x < 0x40, contBits (UInt8.ofNat (x + 0x80)) = x := by decide
  exact hall x h

/-- Six more bits below a shifted value. -/
theorem shift_or {x y k : Nat} (h : y < 2 ^ k) : x <<< k ||| y = 2 ^ k * x + y := by
  rw [Nat.shiftLeft_eq, Nat.mul_comm, ← Nat.two_pow_add_eq_or_of_lt h]

-- ========================================================= one character

/-- The encoding of one character by length class, as digits of its
value. -/
inductive Encoded (v : Nat) : List Byte → Prop where
  | one : v < 0x80 → Encoded v [UInt8.ofNat v]
  | two (x y : Nat) : v = 64 * x + y → x < 0x20 → y < 0x40 → 0x80 ≤ v →
      Encoded v [UInt8.ofNat (x + 0xC0), UInt8.ofNat (y + 0x80)]
  | three (x y z : Nat) : v = 4096 * x + 64 * y + z → x < 0x10 → y < 0x40 →
      z < 0x40 → 0x800 ≤ v →
      Encoded v [UInt8.ofNat (x + 0xE0), UInt8.ofNat (y + 0x80),
        UInt8.ofNat (z + 0x80)]
  | four (x y z w : Nat) : v = 262144 * x + 4096 * y + 64 * z + w → x < 0x08 →
      y < 0x40 → z < 0x40 → w < 0x40 → 0x10000 ≤ v →
      Encoded v [UInt8.ofNat (x + 0xF0), UInt8.ofNat (y + 0x80),
        UInt8.ofNat (z + 0x80), UInt8.ofNat (w + 0x80)]

theorem encoded_char (c : Char) :
    Encoded c.val.toNat (String.utf8EncodeChar c) := by
  have hmax : c.val.toNat < 0x110000 := by
    have hvalid := c.valid
    simp only [UInt32.isValidChar, Nat.isValidChar] at hvalid
    omega
  unfold String.utf8EncodeChar
  generalize c.val.toNat = v at hmax
  dsimp only
  split
  · exact .one (by omega)
  · split
    · exact .two _ _ (by omega) (by omega) (by omega) (by omega)
    · split
      · exact .three _ _ _ (by omega) (by omega) (by omega) (by omega) (by omega)
      · exact .four _ _ _ _ (by omega) (by omega) (by omega) (by omega) (by omega)
          (by omega)

/-- What the walkers read off the lead byte: the character's length, and
the length the generated UTF-16 table gives it. -/
theorem encoded_lead {v : Nat} {bs : List Byte} (h : Encoded v bs) :
    ∃ lead tail, bs = lead :: tail ∧ utf8LenMap lead = bs.length
      ∧ utf16LenMap lead = if v < 0x800 then 1 else 2 := by
  cases h with
  | one hv =>
      obtain ⟨h8, h16⟩ := utf8LenMap_one hv
      exact ⟨_, _, rfl, h8, by rw [h16, if_pos (by omega)]⟩
  | two x y hv hx hy =>
      obtain ⟨h8, h16, -⟩ := utf8LenMap_two hx
      exact ⟨_, _, rfl, h8, by rw [h16, if_pos (by omega)]⟩
  | three x y z hv hx hy hz hge =>
      obtain ⟨h8, h16, -⟩ := utf8LenMap_three hx
      exact ⟨_, _, rfl, h8, by rw [h16, if_neg (by omega)]⟩
  | four x y z w hv hx hy hz hw hge =>
      obtain ⟨h8, h16, -⟩ := utf8LenMap_four hx
      exact ⟨_, _, rfl, h8, by rw [h16, if_neg (by omega)]⟩

end Cextras.Unicode
