/-
What the walkers make of malformed strings. Each result is a function of
the characters of the string and the way it ends (`counted`), so the
walkers are compared by the ends of strings: they part where a character
is cut off (`walkers_agree_iff`), and nowhere else. A string without such
an end can be walked on its own, whatever follows it (`walkers_append`).
-/
import Cextras.Unicode.Proofs.Columns

namespace Cextras.Unicode

open Lib

variable {w : WidthTables} {s t u : List Byte} {cs cs' : List (List Byte)}
  {e : End} {k : Nat}

-- =============================================================== results

theorem counted_eq_neg_one (n last : Nat) :
    counted e n last = -1 ↔ e = .bad := by
  cases e with
  | whole => simp [counted]
  | bad => simp [counted]
  | cut => simp [counted]; omega

-- ============================================================ appending

/-- What a walker over `s ++ t` returns, by what it returns over `t`. -/
def joined (n : Nat) (result : Int) : Int :=
  if result = -1 then -1 else n + result

theorem counted_add (n m last : Nat) :
    counted e (n + m) last = joined n (counted e m last) := by
  cases e with
  | whole =>
      rw [joined, if_neg (by simp [counted])]
      simp [counted]
  | bad => rfl
  | cut =>
      rw [joined, if_neg (by simp [counted]; omega)]
      simp [counted]
      omega

/-- Offsets past the first characters. -/
theorem offsetOf_append (cs cs' : List (List Byte)) (e : End) (k : Nat) :
    offsetOf (cs ++ cs') e (cs.length + k)
      = (offsetOf cs' e k).map (cs.flatten.length + ·) := by
  unfold offsetOf
  simp only [List.length_append, Nat.add_le_add_iff_left,
    List.take_length_add_append, List.flatten_append]
  split
  · rfl
  · rfl

theorem offsetInt_map (n : Nat) (o : Option Nat) :
    offsetInt (o.map (n + ·)) = joined n (offsetInt o) := by
  cases o with
  | none => rfl
  | some m =>
      rw [joined, if_neg (by simp [offsetInt])]
      simp [offsetInt]

/-- A string that has a column count is walked by itself: what follows is
walked as if it stood alone, bad or cut off as it may be. -/
theorem walkers_append (w : WidthTables) (s t : List Byte) {columns : Int}
    (hcols : cxUtf8Cols w s s.length = .ok columns) (hpos : 0 ≤ columns) :
    cxUtf8Cols w (s ++ t) (s.length + t.length)
        = (cxUtf8Cols w t t.length).map (joined columns.toNat)
      ∧ (∃ n : Nat, cxUtf8Clen s s.length = .ok (n : Int)
        ∧ cxUtf8Clen (s ++ t) (s.length + t.length)
          = (cxUtf8Clen t t.length).map (joined n)
        ∧ ∀ k, cxUtf8Bidx (s ++ t) (s.length + t.length) (n + k)
          = (cxUtf8Bidx t t.length k).map (joined s.length))
      ∧ ∃ n : Nat, cxUtf816len s s.length = .ok (n : Int)
        ∧ cxUtf816len (s ++ t) (s.length + t.length)
          = (cxUtf816len t t.length).map (joined n) := by
  obtain ⟨cs, ws, hs, hws, hsum⟩ := cols_whole hcols hpos
  obtain ⟨cs', e, u, ht⟩ := exists_chunked utf8LenMap t
  have hst := hs.append ht
  rw [← List.length_append]
  refine ⟨?_, ⟨cs.length, cxUtf8Clen_chunked hs, ?_, ?_⟩,
    (cs.map units).sum, cxUtf816len_chunked hs, ?_⟩
  · rw [cxUtf8Cols_chunked hst, cxUtf8Cols_chunked ht, widths_append, hws, hsum]
    cases hws' : widths w cs' with
    | error err => rfl
    | ok ws' =>
        change Except.ok (if e = .whole then (((ws ++ ws').sum : Nat) : Int) else -1)
          = Except.ok (joined _ (if e = .whole then ((ws'.sum : Nat) : Int) else -1))
        rw [List.sum_append, Int.toNat_natCast]
        unfold joined
        congr 1
        split_ifs <;> omega
  · rw [cxUtf8Clen_chunked hst, cxUtf8Clen_chunked ht, List.length_append,
      counted_add]
    rfl
  · intro k
    rw [cxUtf8Bidx_chunked hst, cxUtf8Bidx_chunked ht, offsetOf_append,
      offsetInt_map, ← hs.flatten_eq]
    rfl
  · rw [cxUtf816len_chunked hst, cxUtf816len_chunked ht, List.map_append,
      List.sum_append, counted_add]
    rfl

/-- A character, and the first byte of another one after it. -/
theorem walkers_append_cut : ∃ w, builtTables = some w ∧ ∃ columns : Int,
    cxUtf8Cols w [0x61] 1 = .ok columns
      ∧ cxUtf8Cols w ([0x61] ++ [0xE2]) (1 + 1)
        = (cxUtf8Cols w [0xE2] 1).map (joined columns.toNat) := by
  obtain ⟨w, hbuilt, hw⟩ := builtTables_total
  have hs : Chunked utf8LenMap [[0x61]] .whole [] [0x61] :=
    (Chunked.of_tail .whole).cons ⟨_, _, rfl, by decide⟩
  obtain ⟨n, hcols⟩ := hw.cols hs
  exact ⟨w, hbuilt, n, hcols,
    (walkers_append w [0x61] [0xE2] hcols (Int.natCast_nonneg n)).1⟩

-- ============================================================= agreement

/-- The walkers take the same strings, and the offset of the end of a
string is its length. -/
def WalkersAgree (w : WidthTables) (s : List Byte) : Prop :=
  (cxUtf8Clen s s.length = .ok (-1) ↔ cxUtf816len s s.length = .ok (-1))
    ∧ (cxUtf816len s s.length = .ok (-1) ↔ cxUtf8Cols w s s.length = .ok (-1))
    ∧ ∀ n : Nat, cxUtf8Clen s s.length = .ok (n : Int) →
      cxUtf8Bidx s s.length n = .ok (s.length : Int)

/-- The string ends inside a character. -/
def CutOff (s : List Byte) : Prop := ∃ cs t, Chunked utf8LenMap cs .cut t s

/-- The walkers by lead bytes count a character that the end of the string
cuts off; the others turn it down. -/
theorem walkers_agree_iff (s : List Byte) : ∃ w, builtTables = some w
    ∧ (WalkersAgree w s ↔ ¬ CutOff s) := by
  obtain ⟨w, hbuilt, hw⟩ := builtTables_total
  refine ⟨w, hbuilt, ?_⟩
  obtain ⟨cs, e, t, hs⟩ := exists_chunked utf8LenMap s
  have hcut : CutOff s ↔ e = .cut := by
    constructor
    · rintro ⟨cs', t', hs'⟩
      exact (hs.unique hs').2.1
    · rintro rfl
      exact ⟨cs, t, hs⟩
  obtain ⟨n, hcols⟩ := hw.cols hs
  unfold WalkersAgree
  rw [hcut, cxUtf8Clen_chunked hs, cxUtf816len_chunked hs, hcols]
  simp only [Except.ok.injEq, counted_eq_neg_one]
  cases e with
  | whole =>
      have hlen : s.length = cs.flatten.length :=
        congrArg List.length hs.whole.flatten_eq
      refine iff_of_true ⟨by simp, by simp, ?_⟩ (by decide)
      intro k hk
      obtain rfl : cs.length = k := Int.natCast_inj.mp hk
      rw [cxUtf8Bidx_chunked hs, offsetOf, if_pos (Or.inr rfl), List.take_length,
        hlen]
      rfl
  | bad =>
      refine iff_of_true ⟨by simp, by simp, ?_⟩ (by decide)
      intro k hk
      cases hk
  | cut =>
      refine iff_of_false (fun h => ?_) (by decide)
      have hagree := h.2.1.mpr (by simp)
      cases hagree

/-- The first byte of a longer character. -/
theorem walkers_part : ∃ w, builtTables = some w ∧ ¬ WalkersAgree w [0xE2] := by
  obtain ⟨w, hbuilt, hw⟩ := builtTables_total
  refine ⟨w, hbuilt, ?_⟩
  have hs : Chunked utf8LenMap [] .cut [0xE2] [0xE2] :=
    .of_tail (.cut (by decide))
  obtain ⟨n, hcols⟩ := hw.cols hs
  rintro ⟨-, h, -⟩
  rw [cxUtf816len_chunked hs, hcols] at h
  cases h.mpr rfl

-- ================================================================ safety

/-- Whatever the bytes, the column index returns. -/
theorem WidthTables.Total.colidxLoop {str : List Byte} {tabSize : Nat}
    (hw : w.Total) (htab : tabSize ≠ 0) (cs : List (List Byte)) :
    ∀ (i column : Nat), Chunked utf8LenMap cs e t (str.drop i) → i ≤ str.length →
    ∃ n, Unicode.colidxLoop w str str.length column tabSize i = .ok n := by
  induction cs with
  | nil =>
      intro i column h _
      rcases colidxLoop_nil w column tabSize h with hrun | hrun
      · exact ⟨_, hrun⟩
      · exact ⟨_, hrun⟩
  | cons c cs ih =>
      intro i column h hle
      obtain ⟨hfits, hrest, hturn⟩ := colidxLoop_cons w column h htab
      rcases hturn with ⟨column', hturn⟩ | hstop | ⟨err, herr, -⟩
      · obtain ⟨n, hn⟩ := ih _ column' hrest hfits
        exact ⟨n, hturn.trans hn⟩
      · exact ⟨_, hstop⟩
      · obtain ⟨width, hwidth⟩ := hw _ (payload_lt c)
        rw [hwidth] at herr
        cases herr

theorem offsetInt_range (h : Chunked utf8LenMap cs e t s) (k : Nat) :
    offsetInt (offsetOf cs e k) = -1 ∨ (0 ≤ offsetInt (offsetOf cs e k)
      ∧ offsetInt (offsetOf cs e k) ≤ s.length) := by
  have hle := take_flatten_length_le cs k
  have hlen := h.length_eq
  unfold offsetOf
  split
  · refine Or.inr ⟨Int.natCast_nonneg _, ?_⟩
    change ((cs.take k).flatten.length : Int) ≤ _
    omega
  · exact Or.inl rfl

/-- On any bytes the walkers return, and so read nothing outside the
string; an index they return is at most its length. -/
theorem walkers_safe (s : List Byte) (charIndex column tabSize : Nat)
    (htab : 1 ≤ tabSize) : ∃ w, builtTables = some w
    ∧ (∃ n, cxUtf8Clen s s.length = .ok n)
    ∧ (∃ n, cxUtf816len s s.length = .ok n)
    ∧ (∃ n, cxUtf8Cols w s s.length = .ok n)
    ∧ (∃ n, cxUtf8Bidx s s.length charIndex = .ok n
      ∧ (n = -1 ∨ (0 ≤ n ∧ n ≤ s.length)))
    ∧ ∃ n, cxUtf8Colidx w s s.length column tabSize = .ok n
      ∧ (n = -1 ∨ (0 ≤ n ∧ n ≤ s.length)) := by
  obtain ⟨w, hbuilt, hw⟩ := builtTables_total
  obtain ⟨cs, e, t, hs⟩ := exists_chunked utf8LenMap s
  obtain ⟨n, hcols⟩ := hw.cols hs
  have hdrop : Chunked utf8LenMap cs e t (s.drop 0) := by rwa [List.drop_zero]
  obtain ⟨m, hm⟩ := hw.colidxLoop (Nat.ne_of_gt htab) cs 0 column hdrop
    (Nat.zero_le _)
  exact ⟨w, hbuilt, ⟨_, cxUtf8Clen_chunked hs⟩, ⟨_, cxUtf816len_chunked hs⟩,
    ⟨_, hcols⟩, ⟨_, cxUtf8Bidx_chunked hs charIndex, offsetInt_range hs _⟩,
    m, hm, colidxLoop_range (Nat.ne_of_gt htab) cs 0 column hdrop
      (Nat.zero_le _) hm⟩

/-- The first two bytes of a longer character. -/
theorem walkers_safe_cut : ∃ w, builtTables = some w
    ∧ ∃ n, cxUtf8Colidx w [0xF0, 0x9F] 2 1 8 = .ok n
      ∧ (n = -1 ∨ (0 ≤ n ∧ n ≤ 2)) := by
  obtain ⟨w, hbuilt, -, -, -, -, hindex⟩ :=
    walkers_safe [0xF0, 0x9F] 1 1 8 (by decide)
  exact ⟨w, hbuilt, hindex⟩

end Cextras.Unicode
