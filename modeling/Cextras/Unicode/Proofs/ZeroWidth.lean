/-
Zero-width characters. The width of a code point is the sum of what two
tables say, and the tables are made of different files: a code point that
UnicodeData.txt makes zero-width and EastAsianWidth.txt makes wide comes
out at one column. Appending a zero-width character leaves the column
count as it is exactly if it is not wide (`cxUtf8Cols_zeroWidth_iff`);
seven are (`zeroWidth_wide_iff`).
-/
import Cextras.Unicode.Proofs.Columns
import Cextras.Unicode.Proofs.WidthData

namespace Cextras.Unicode

open Lib

variable {w : WidthTables} {s : List Byte} {cp : Nat}

/-- The code points of the lines are scalar values. -/
theorem unicodeData_scalar (h : Selected unicodeData cp) : cp.isValidChar := by
  have hall : ∀ line ∈ unicodeDataLines,
      line.2 < 0xD800 ∨ (0xDFFF < line.1 ∧ line.2 < 0x110000) := by
    decide +kernel
  obtain ⟨range, hrange, hstart, hstop⟩ := h
  obtain ⟨heq, first, last, hline, hfirst, hlast⟩ := mem_unicodeData hrange
  have := hall _ hline
  dsimp only at this
  unfold Nat.isValidChar
  omega

/-- The column count of a string with one more character. -/
theorem cols_append_char {columns : Int} {width : Nat} (c : Char)
    (hcols : cxUtf8Cols w s s.length = .ok columns) (hpos : 0 ≤ columns)
    (hwidth : cxCpWidth w c.val.toNat = .ok width) :
    cxUtf8Cols w (s ++ String.utf8EncodeChar c)
        (s ++ String.utf8EncodeChar c).length
      = .ok (columns + width) := by
  obtain ⟨cs, ws, hs, hws, hsum⟩ := cols_whole hcols hpos
  obtain ⟨hchunk, hpay⟩ := encoded_chunk c
  have hc : Chunked utf8LenMap [String.utf8EncodeChar c] .whole []
      (String.utf8EncodeChar c) := by
    have h := (Chunked.of_tail .whole).cons hchunk
    rwa [List.append_nil] at h
  have hone : widths w [String.utf8EncodeChar c] = .ok [width] := by
    rw [widths_cons, hpay, hwidth]
    rfl
  rw [cxUtf8Cols_chunked (hs.append hc), widths_append, hws, hone, hsum]
  change Except.ok (((ws ++ [width]).sum : Nat) : Int) = _
  rw [List.sum_append, List.sum_singleton, Int.natCast_add]

/-- A zero-width character adds no column, if and only if it is not wide
as well. -/
theorem cxUtf8Cols_zeroWidth_iff (cp : Nat) (hcp : Selected unicodeData cp) :
    ∃ c : Char, c.val.toNat = cp ∧ ∃ w, builtTables = some w
      ∧ ∀ (s : List Byte) (columns : Int),
        cxUtf8Cols w s s.length = .ok columns → 0 ≤ columns →
        (cxUtf8Cols w (s ++ String.utf8EncodeChar c)
            (s ++ String.utf8EncodeChar c).length = .ok columns
          ↔ ¬ Selected eastAsianWidth cp) := by
  obtain ⟨w, hbuilt, hwidths⟩ := builtTables_spec
  have hvalid := unicodeData_scalar hcp
  have hlt : cp < 0x110000 := by
    unfold Nat.isValidChar at hvalid
    omega
  have hval : (Char.ofNatAux cp hvalid).val.toNat = cp := rfl
  have hwidth := hwidths cp (by omega)
  refine ⟨Char.ofNatAux cp hvalid, hval, w, hbuilt, ?_⟩
  intro s columns hcols hpos
  have hcols' := cols_append_char (Char.ofNatAux cp hvalid) hcols hpos
    (show cxCpWidth w (Char.ofNatAux cp hvalid).val.toNat
      = .ok (columnsOf cp) from hwidth)
  rw [hcols', Except.ok.injEq, columnsOf, if_pos hcp]
  split
  · next hwide => simp [hwide]
  · next hwide => simp [hwide]

/-- A combining accent adds no column. -/
theorem cxUtf8Cols_accent : ∃ c : Char, c.val.toNat = 0x301
    ∧ ∃ w, builtTables = some w ∧ ∀ (s : List Byte) (columns : Int),
      cxUtf8Cols w s s.length = .ok columns → 0 ≤ columns →
      (cxUtf8Cols w (s ++ String.utf8EncodeChar c)
          (s ++ String.utf8EncodeChar c).length = .ok columns
        ↔ ¬ Selected eastAsianWidth 0x301) :=
  cxUtf8Cols_zeroWidth_iff 0x301 (by decide +kernel)

/-- An ideographic tone mark is zero-width and wide, and takes a column. -/
theorem cxUtf8Cols_toneMark : Selected unicodeData 0x302A
    ∧ ∃ w, builtTables = some w ∧ cxUtf8Cols w [] 0 = .ok 0
      ∧ cxUtf8Cols w (String.utf8EncodeChar '\u302A')
        (String.utf8EncodeChar '\u302A').length = .ok 1 := by
  obtain ⟨w, hbuilt, hwidths⟩ := builtTables_spec
  have hwidth : cxCpWidth w '\u302A'.val.toNat = .ok 1 :=
    (hwidths _ (by decide)).trans (congrArg _ (by decide +kernel))
  have hnil : cxUtf8Cols w [] 0 = .ok 0 :=
    colsLoop_end (by decide)
  refine ⟨by decide +kernel, w, hbuilt, hnil, ?_⟩
  exact cols_append_char (s := []) '\u302A' hnil (by decide) hwidth

/-- The lines have no code point in common, but for three ranges. -/
def apart (line line' : Nat × Nat) : Bool :=
  Nat.blt line'.2 line.1 || Nat.blt line.2 line'.1
    || [(0x302A, 0x302D), (0x3099, 0x309A), (0x16FE4, 0x16FE4)].elem
      (max line.1 line'.1, min line.2 line'.2)

/-- Where the lines of EastAsianWidth.txt are. -/
def wideSpans : List (Nat × Nat) :=
  [(0x1100, 0x115F), (0x231A, 0x2B55), (0x2E80, 0xA4C6), (0xA960, 0xA97C),
  (0xAC00, 0xFAFF), (0xFE10, 0xFE19), (0xFE30, 0xFE6B), (0x16FE0, 0x1B2FB),
  (0x1F004, 0x3FFFD)]

theorem lines_spanned : (eastAsianWidthLines.all fun line =>
    wideSpans.any fun span =>
      Nat.ble span.1 line.1 && Nat.ble line.2 span.2) = true := by
  decide +kernel

theorem lines_apart : (unicodeDataLines.all fun line =>
    wideSpans.all (apart line)) = true := by
  decide +kernel

/-- The characters that are both. -/
theorem zeroWidth_wide_iff (cp : Nat) :
    Selected unicodeData cp ∧ Selected eastAsianWidth cp
      ↔ cp ∈ [0x302A, 0x302B, 0x302C, 0x302D, 0x3099, 0x309A, 0x16FE4] := by
  constructor
  · rintro ⟨⟨range, hrange, hstart, hstop⟩, range', hrange', hstart', hstop'⟩
    obtain ⟨heq, first, last, hline, hfirst, hlast⟩ := mem_unicodeData hrange
    obtain ⟨span, hspan, hin⟩ := List.any_eq_true.mp
      (List.all_eq_true.mp lines_spanned _ (mem_eastAsianWidth hrange'))
    have hapart := List.all_eq_true.mp (List.all_eq_true.mp lines_apart _ hline)
      span hspan
    simp only [apart, Bool.or_eq_true, Bool.and_eq_true, Nat.blt_eq, Nat.ble_eq,
      List.elem_eq_mem, decide_eq_true_eq, List.mem_cons, List.not_mem_nil,
      or_false, Prod.mk.injEq] at hin hapart ⊢
    omega
  · intro h
    simp only [List.mem_cons, List.not_mem_nil, or_false] at h
    rcases h with rfl | rfl | rfl | rfl | rfl | rfl | rfl
    all_goals exact ⟨by decide +kernel, by decide +kernel⟩

end Cextras.Unicode
