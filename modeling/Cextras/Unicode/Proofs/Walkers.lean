/-
The walkers over encoded text. Its characters are the chunks all walkers
advance by (`chunked_text`), so what each walker returns is what it
returns of chunks.

The UTF-16 length is the exception: the generated table counts a
three-byte character as two units, so the result is right exactly on
texts without one (`cxUtf816len_correct_iff`).
-/
import Cextras.Unicode.Proofs.Columns

namespace Cextras.Unicode

open Lib

-- ============================================================ characters

/-- Take the characters off the front of a string, one after the other. -/
def takeChars (str : List Byte) : Except Fault (List Int) :=
  if _h : str = [] then
    pure []
  else
    match cxUtf8Csize str str.length with
    | .error e => .error e
    | .ok size => do
        let cp ← cxUtf8Cp (some str) str.length
        if _hz : size = 0 then
          pure [cp]
        else do
          let cps ← takeChars (str.drop size)
          pure (cp :: cps)
termination_by str.length
decreasing_by
  have := List.length_pos_iff.mpr _h
  rw [List.length_drop]
  omega

theorem takeChars_text (cps : List Char) :
    takeChars (text cps) = .ok (cps.map fun c => (c.val.toNat : Int)) := by
  induction cps with
  | nil =>
      rw [takeChars, dif_pos text_nil]
      rfl
  | cons c cps ih =>
      obtain ⟨hchunk, hpay⟩ := encoded_chunk c
      have hpos := hchunk.length_pos
      have hle : (String.utf8EncodeChar c).length
          ≤ (String.utf8EncodeChar c ++ text cps).length := by
        rw [List.length_append]
        omega
      have hne : String.utf8EncodeChar c ++ text cps ≠ [] := by
        intro hnil
        rw [hnil, List.length_nil] at hle
        omega
      rw [text_cons, takeChars, dif_neg hne]
      simp only [cxUtf8Csize_chunk hchunk (text cps) hle,
        cxUtf8Cp_chunk hchunk (text cps) hle, hpay]
      change (if _ : (String.utf8EncodeChar c).length = 0 then _ else _) = _
      rw [dif_neg (by omega), List.drop_left, ih]
      rfl

theorem widths_text (w : WidthTables) (cps : List Char) :
    widths w (cps.map String.utf8EncodeChar)
      = cps.mapM fun c => cxCpWidth w c.val.toNat := by
  unfold widths
  rw [List.mapM_map]
  congr
  funext c
  exact congrArg (cxCpWidth w) (encoded_chunk c).2

/-- The walkers invert the encoding. -/
theorem cxUtf8_walkers_invert (w : WidthTables) (cps : List Char) :
    takeChars (text cps) = .ok (cps.map fun c => (c.val.toNat : Int))
      ∧ cxUtf8Clen (text cps) (text cps).length = .ok (cps.length : Int)
      ∧ (∀ k ≤ cps.length, cxUtf8Bidx (text cps) (text cps).length k
        = .ok ((text (cps.take k)).length : Int))
      ∧ cxUtf8Cols w (text cps) (text cps).length = (do
        let widths ← cps.mapM fun c => cxCpWidth w c.val.toNat
        pure (widths.sum : Int)) := by
  have hs := chunked_text cps
  refine ⟨takeChars_text cps, ?_, fun k _ => ?_, ?_⟩
  · rw [cxUtf8Clen_chunked hs, List.length_map]
    rfl
  · rw [cxUtf8Bidx_chunked hs, offsetOf, if_pos (Or.inr rfl), ← List.map_take,
      ← List.flatMap_def]
    rfl
  · rw [cxUtf8Cols_chunked hs, widths_text]
    simp only [if_true]

-- ================================================================ utf-16

/-- The number of UTF-16 code units of a text. -/
def utf16Units (cps : List Char) : Nat :=
  (cps.map fun c => if c.val.toNat < 0x10000 then 1 else 2).sum

/-- The number of units the generated table counts. -/
def tableUnits (cps : List Char) : Nat :=
  (cps.map fun c => if c.val.toNat < 0x800 then 1 else 2).sum

theorem tableUnits_cons (c : Char) (cps : List Char) :
    tableUnits (c :: cps)
      = (if c.val.toNat < 0x800 then 1 else 2) + tableUnits cps := by
  rw [tableUnits, List.map_cons, List.sum_cons]
  rfl

theorem utf16Units_cons (c : Char) (cps : List Char) :
    utf16Units (c :: cps)
      = (if c.val.toNat < 0x10000 then 1 else 2) + utf16Units cps := by
  rw [utf16Units, List.map_cons, List.sum_cons]
  rfl

theorem cxUtf816len_text (cps : List Char) :
    cxUtf816len (text cps) (text cps).length = .ok (tableUnits cps : Int) := by
  have hunits : units ∘ String.utf8EncodeChar
      = fun c : Char => if c.val.toNat < 0x800 then 1 else 2 := funext units_char
  rw [cxUtf816len_chunked (chunked_text cps), List.map_map, hunits]
  rfl

/-- The table overcounts, by one unit for each three-byte character. -/
theorem tableUnits_eq (cps : List Char) :
    tableUnits cps = utf16Units cps
      + cps.countP fun c => 0x800 ≤ c.val.toNat ∧ c.val.toNat < 0x10000 := by
  induction cps with
  | nil => rfl
  | cons c cps ih =>
      rw [tableUnits_cons, utf16Units_cons, List.countP_cons, ih]
      simp only [decide_eq_true_eq]
      split_ifs <;> omega

/-- The UTF-16 length is right exactly on texts without three-byte
characters. -/
theorem cxUtf816len_correct_iff (cps : List Char) :
    cxUtf816len (text cps) (text cps).length = .ok (utf16Units cps : Int)
      ↔ ∀ c ∈ cps, ¬ (0x800 ≤ c.val.toNat ∧ c.val.toNat < 0x10000) := by
  rw [cxUtf816len_text, Except.ok.injEq, Int.natCast_inj, tableUnits_eq]
  have hcount := List.countP_eq_zero (l := cps)
    (p := fun c => decide (0x800 ≤ c.val.toNat ∧ c.val.toNat < 0x10000))
  simp only [decide_eq_true_eq] at hcount
  rw [← hcount]
  omega

/-- One euro sign is one UTF-16 unit; the code counts two. -/
theorem cxUtf816len_euro :
    cxUtf816len (text ['€']) (text ['€']).length
      ≠ .ok (utf16Units ['€'] : Int) := by
  rw [cxUtf816len_text, ne_eq, Except.ok.injEq]
  decide

end Cextras.Unicode
