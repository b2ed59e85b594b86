/-
Columns over arbitrary bytes. The column count and the column index go
through the same characters (`colsLoop_chunked`, `colidxLoop_cons`). With
the tables of the library every string has a count, if it is only -1
(`WidthTables.Total.cols`). On text without tabs the index inverts the
count, for every column (`cxUtf8Colidx_greatest`).
-/
import Mathlib.Order.Bounds.Basic
import Mathlib.Algebra.BigOperators.Group.List.Basic
import Cextras.Unicode.Proofs.Characters
import Cextras.Unicode.Proofs.WidthData

namespace Cextras.Unicode

open Lib

variable {w : WidthTables} {str s : List Byte} {i column tabSize : Nat}
  {c t : List Byte} {e : End} {cs : List (List Byte)}

-- ======================================================== column count

theorem colsLoop_char {columns : Nat} (hs : CharStep str i c) :
    colsLoop w str str.length i columns = (do
      let width ← cxCpWidth w (payload c)
      colsLoop w str str.length (i + c.length) (columns + width)) := by
  rw [colsLoop, dif_pos hs.inside]
  simp only [hs.size]
  split
  · next e he =>
      rw [hs.value] at he
      cases he
  · next cp hcp =>
      rw [hs.value, Except.ok.injEq] at hcp
      subst hcp
      rw [dif_neg (by omega), Int.toNat_natCast]

theorem colsLoop_tail {columns : Nat} (hs : TailStep str i e t) :
    colsLoop w str str.length i columns = .ok (-1) := by
  rw [colsLoop, dif_pos hs.inside]
  simp only [hs.size]
  split
  · next e he =>
      rw [hs.value] at he
      cases he
  · next cp hcp =>
      rw [hs.value, Except.ok.injEq] at hcp
      subst hcp
      rfl

theorem colsLoop_end {columns : Nat} (h : ¬ i < str.length) :
    colsLoop w str str.length i columns = .ok (columns : Int) := by
  rw [colsLoop, dif_neg h]
  rfl

/-- The columns of each character. -/
def widths (w : WidthTables) (cs : List (List Byte)) : Except Fault (List Nat) :=
  cs.mapM fun c => cxCpWidth w (payload c)

theorem widths_cons (c : List Byte) (cs : List (List Byte)) :
    widths w (c :: cs) = (do
      let width ← cxCpWidth w (payload c)
      let ws ← widths w cs
      pure (width :: ws)) := by
  unfold widths
  rw [List.mapM_cons]

/-- Widths of a list, from its head on. -/
theorem widths_cons_ok {ws : List Nat} (h : widths w (c :: cs) = .ok ws) :
    ∃ width ws', cxCpWidth w (payload c) = .ok width ∧ widths w cs = .ok ws'
      ∧ ws = width :: ws' := by
  rw [widths_cons] at h
  cases hw : cxCpWidth w (payload c) with
  | error e =>
      rw [hw] at h
      cases h
  | ok width =>
      rw [hw] at h
      cases hws : widths w cs with
      | error e =>
          rw [hws] at h
          cases h
      | ok ws' =>
          rw [hws] at h
          cases h
          exact ⟨width, ws', rfl, rfl, rfl⟩

theorem widths_append (cs cs' : List (List Byte)) :
    widths w (cs ++ cs') = (do
      let ws ← widths w cs
      let ws' ← widths w cs'
      pure (ws ++ ws')) := by
  unfold widths
  rw [List.mapM_append]

/-- The widths of the first characters. -/
theorem widths_take {ws : List Nat} (h : widths w cs = .ok ws) (m : Nat) :
    widths w (cs.take m) = .ok (ws.take m) := by
  induction cs generalizing ws m with
  | nil =>
      cases h
      rw [List.take_nil]
      exact congrArg Except.ok List.take_nil.symm
  | cons c cs ih =>
      obtain ⟨width, ws', hwidth, hws', rfl⟩ := widths_cons_ok h
      cases m with
      | zero => rfl
      | succ m =>
          rw [List.take_succ_cons, List.take_succ_cons, widths_cons, hwidth,
            ih hws']
          rfl

theorem colsLoop_chunked (cs : List (List Byte)) : ∀ (i columns : Nat),
    Chunked utf8LenMap cs e t (str.drop i) →
    colsLoop w str str.length i columns = (do
      let ws ← widths w cs
      pure (if e = .whole then ((columns + ws.sum : Nat) : Int) else -1)) := by
  induction cs with
  | nil =>
      intro i columns h
      have hdrop : str.drop i = t := h.split
      by_cases he : e = .whole
      · subst he
        rw [colsLoop_end (drop_nil (hdrop.trans h.tail.eq_nil))]
        rfl
      · rw [colsLoop_tail (tail_step h.tail he hdrop)]
        change _ = Except.ok (if e = .whole then _ else _)
        rw [if_neg he]
  | cons c cs ih =>
      intro i columns h
      obtain ⟨hc, s', hdrop, hrest⟩ := h.uncons
      obtain ⟨hs, hnext⟩ := char_step hc hdrop
      rw [← hnext] at hrest
      rw [colsLoop_char hs, widths_cons]
      cases cxCpWidth w (payload c) with
      | error err => rfl
      | ok width =>
          change colsLoop w str str.length (i + c.length) (columns + width) = _
          rw [ih _ _ hrest]
          cases hws : widths w cs with
          | error err => rfl
          | ok ws =>
              change Except.ok _ = Except.ok _
              rw [List.sum_cons, Nat.add_assoc]

/-- The column count of a string. -/
theorem cxUtf8Cols_chunked (h : Chunked utf8LenMap cs e t s) :
    cxUtf8Cols w s s.length = (do
      let ws ← widths w cs
      pure (if e = .whole then (ws.sum : Int) else -1)) := by
  rw [cxUtf8Cols, colsLoop_chunked cs 0 0 (by rwa [List.drop_zero])]
  simp only [Nat.zero_add]

/-- A string with a column count has nothing but whole characters, all of
which have a width. -/
theorem cols_whole {columns : Int} (hcols : cxUtf8Cols w s s.length = .ok columns)
    (hpos : 0 ≤ columns) :
    ∃ cs ws, Chunked utf8LenMap cs .whole [] s ∧ widths w cs = .ok ws
      ∧ columns = ws.sum := by
  obtain ⟨cs, e, t, h⟩ := exists_chunked utf8LenMap s
  rw [cxUtf8Cols_chunked h] at hcols
  cases hws : widths w cs with
  | error err =>
      rw [hws] at hcols
      cases hcols
  | ok ws =>
      rw [hws] at hcols
      change Except.ok (if e = .whole then (ws.sum : Int) else -1) = _ at hcols
      rw [Except.ok.injEq] at hcols
      split at hcols
      · next he =>
          subst he
          exact ⟨cs, ws, h.whole, hws, hcols.symm⟩
      · omega

-- ================================================================= totals

/-- Every code point has a width. -/
def WidthTables.Total (w : WidthTables) : Prop :=
  ∀ cp < 2 ^ 32, ∃ n, cxCpWidth w cp = .ok n

theorem WidthTables.Total.widths (hw : w.Total) (cs : List (List Byte)) :
    ∃ ws, widths w cs = .ok ws := by
  induction cs with
  | nil => exact ⟨[], rfl⟩
  | cons c cs ih =>
      obtain ⟨ws, hws⟩ := ih
      obtain ⟨width, hwidth⟩ := hw _ (payload_lt c)
      refine ⟨width :: ws, ?_⟩
      rw [widths_cons, hwidth, hws]
      rfl

/-- The column count of any string. -/
theorem WidthTables.Total.cols (hw : w.Total) (h : Chunked utf8LenMap cs e t s) :
    ∃ n : Nat, cxUtf8Cols w s s.length
      = .ok (if e = .whole then (n : Int) else -1) := by
  obtain ⟨ws, hws⟩ := hw.widths cs
  refine ⟨ws.sum, ?_⟩
  rw [cxUtf8Cols_chunked h, hws]
  rfl

/-- The tables of the library give every code point a width. -/
theorem builtTables_total : ∃ w, builtTables = some w ∧ w.Total := by
  obtain ⟨w, hbuilt, hwidth⟩ := builtTables_spec
  exact ⟨w, hbuilt, fun cp hcp => ⟨_, hwidth cp hcp⟩⟩

-- ======================================================== column index

theorem colidxLoop_end (h : ¬ i < str.length) :
    colidxLoop w str str.length column tabSize i = .ok (i : Int) := by
  rw [colidxLoop, dif_neg h]
  rfl

/-- A tab is never cut, and never turned down. -/
theorem colidxLoop_tab (h : i < str.length) (hlead : byteAt str i = .ok 0x09)
    (htab : tabSize ≠ 0) :
    colidxLoop w str str.length column tabSize i
      = colidxLoop w str str.length ((column / tabSize + 1) * tabSize % 2 ^ 64)
        tabSize (i + 1) := by
  rw [colidxLoop, dif_pos h, hlead]
  exact if_neg htab

theorem colidxLoop_char (w : WidthTables) (column tabSize : Nat)
    (hs : CharStep str i c) (hc : c.head? ≠ some 0x09) :
    colidxLoop w str str.length column tabSize i = (do
      let charWidth ← cxCpWidth w (payload c)
      if column < charWidth then
        pure (i : Int)
      else
        colidxLoop w str str.length (column - charWidth) tabSize
          (i + c.length)) := by
  obtain ⟨lead, hlead, -, -, hhead⟩ := hs.lead
  have hne : lead ≠ 0x09 := by
    rintro rfl
    exact hc hhead
  rw [colidxLoop, dif_pos hs.inside, hlead]
  change (if lead = 0x09 then _ else _) = _
  rw [if_neg hne]
  simp only [hs.size]
  split
  · next e he =>
      rw [hs.value] at he
      cases he
  · next cp hcp =>
      rw [hs.value, Except.ok.injEq] at hcp
      subst hcp
      rw [dif_neg (by omega), Int.toNat_natCast]

theorem colidxLoop_tail (ht : Tail utf8LenMap e t) (hne : e ≠ .whole)
    (hdrop : str.drop i = t) :
    colidxLoop w str str.length column tabSize i = .ok (-1) := by
  have hs := tail_step ht hne hdrop
  obtain ⟨lead, hlead, -, hbad, hcut⟩ := hs.lead
  have hin := hs.inside
  have htab : lead ≠ 0x09 := by
    rintro rfl
    have hone : utf8LenMap 0x09 = 1 := by decide
    cases e with
    | whole => exact hne rfl
    | bad =>
        have := hbad rfl
        omega
    | cut =>
        have := hcut rfl
        omega
  rw [colidxLoop, dif_pos hin, hlead]
  change (if lead = 0x09 then _ else _) = _
  rw [if_neg htab]
  simp only [hs.size]
  split
  · next e he =>
      rw [hs.value] at he
      cases he
  · next cp hcp =>
      rw [hs.value, Except.ok.injEq] at hcp
      subst hcp
      rfl

/-- The index loop where no character is left. -/
theorem colidxLoop_nil (w : WidthTables) (column tabSize : Nat)
    (h : Chunked utf8LenMap [] e t (str.drop i)) :
    colidxLoop w str str.length column tabSize i = .ok (i : Int)
      ∨ colidxLoop w str str.length column tabSize i = .ok (-1) := by
  have hdrop : str.drop i = t := h.split
  by_cases he : e = .whole
  · subst he
    exact Or.inl (colidxLoop_end (drop_nil (hdrop.trans h.tail.eq_nil)))
  · exact Or.inr (colidxLoop_tail h.tail he hdrop)

/-- One turn of the index loop: on to the next character, whatever the
column is then, or a stop before this one, or no width for it. -/
theorem colidxLoop_cons (w : WidthTables) (column : Nat)
    (h : Chunked utf8LenMap (c :: cs) e t (str.drop i))
    (htab : tabSize ≠ 0) :
    i + c.length ≤ str.length
      ∧ Chunked utf8LenMap cs e t (str.drop (i + c.length))
      ∧ ((∃ column', colidxLoop w str str.length column tabSize i
            = colidxLoop w str str.length column' tabSize (i + c.length))
        ∨ colidxLoop w str str.length column tabSize i = .ok (i : Int)
        ∨ ∃ err, cxCpWidth w (payload c) = .error err
          ∧ colidxLoop w str str.length column tabSize i = .error err) := by
  obtain ⟨hc, s', hdrop, hrest⟩ := h.uncons
  obtain ⟨hs, hnext⟩ := char_step hc hdrop
  refine ⟨hs.fits, hnext ▸ hrest, ?_⟩
  by_cases hhead : c.head? = some 0x09
  · obtain ⟨lead, hlead, -, -, hhead'⟩ := hs.lead
    obtain rfl : lead = 0x09 := Option.some.inj (hhead'.symm.trans hhead)
    rw [tab_chunk hc hhead]
    exact Or.inl ⟨_, colidxLoop_tab hs.inside hlead htab⟩
  · have hturn := colidxLoop_char w column tabSize hs hhead
    cases hwidth : cxCpWidth w (payload c) with
    | error err =>
        rw [hwidth] at hturn
        exact Or.inr (Or.inr ⟨err, rfl, hturn⟩)
    | ok width =>
        rw [hwidth] at hturn
        change _ = (if column < width then Except.ok _ else _) at hturn
        split at hturn
        · exact Or.inr (Or.inl hturn)
        · exact Or.inl ⟨_, hturn⟩

/-- The index does not go back, nor past the end of the string. -/
theorem colidxLoop_range (htab : tabSize ≠ 0) (cs : List (List Byte)) :
    ∀ (i column : Nat) {n : Int}, Chunked utf8LenMap cs e t (str.drop i) →
    i ≤ str.length → colidxLoop w str str.length column tabSize i = .ok n →
    n = -1 ∨ (i ≤ n ∧ n ≤ str.length) := by
  induction cs with
  | nil =>
      intro i column n h hle hrun
      rcases colidxLoop_nil w column tabSize h with hstop | hstop
      · rw [hstop, Except.ok.injEq] at hrun
        omega
      · rw [hstop, Except.ok.injEq] at hrun
        omega
  | cons c cs ih =>
      intro i column n h hle hrun
      obtain ⟨hfits, hrest, hturn⟩ := colidxLoop_cons w column h htab
      rcases hturn with ⟨column', hturn⟩ | hstop | ⟨err, -, herr⟩
      · have := ih _ column' hrest hfits (hturn ▸ hrun)
        omega
      · rw [hstop, Except.ok.injEq] at hrun
        omega
      · rw [herr] at hrun
        cases hrun

/-- Without tabs the index goes past the characters whose columns fit,
and stops before the one that covers the column. -/
theorem colidxLoop_fits (tabSize : Nat) (cs : List (List Byte)) :
    ∀ (i column : Nat) (ws : List Nat),
    Chunked utf8LenMap cs .whole [] (str.drop i) →
    (∀ c ∈ cs, c.head? ≠ some 0x09) → widths w cs = .ok ws →
    ∃ m ≤ cs.length,
      colidxLoop w str str.length column tabSize i
        = .ok ((i + (cs.take m).flatten.length : Nat) : Int)
      ∧ (ws.take m).sum ≤ column
      ∧ (m < cs.length → column < (ws.take (m + 1)).sum) := by
  induction cs with
  | nil =>
      intro i column ws h _ hws
      cases hws
      refine ⟨0, Nat.le_refl _, ?_, Nat.zero_le _, fun hm => absurd hm (by simp)⟩
      exact colidxLoop_end (drop_nil h.split)
  | cons c cs ih =>
      intro i column ws h htab hws
      obtain ⟨hc, s', hdrop, hrest⟩ := h.uncons
      obtain ⟨hs, hnext⟩ := char_step hc hdrop
      rw [← hnext] at hrest
      obtain ⟨width, ws', hwidth, hws', rfl⟩ := widths_cons_ok hws
      have hturn := colidxLoop_char w column tabSize hs
        (htab c (List.mem_cons_self ..))
      rw [hwidth] at hturn
      change _ = (if column < width then Except.ok _ else _) at hturn
      by_cases hcover : column < width
      · rw [if_pos hcover] at hturn
        refine ⟨0, Nat.zero_le _, hturn, Nat.zero_le _, fun _ => ?_⟩
        simpa using hcover
      · rw [if_neg hcover] at hturn
        obtain ⟨m, hm, hrun, hsum, hnextw⟩ := ih (i + c.length) (column - width)
          ws' hrest (fun d hd => htab d (List.mem_cons_of_mem _ hd)) hws'
        refine ⟨m + 1, Nat.succ_le_succ hm, ?_, ?_, ?_⟩
        · rw [hturn, hrun, List.take_succ_cons, List.flatten_cons,
            List.length_append, Nat.add_assoc]
        · rw [List.take_succ_cons, List.sum_cons]
          omega
        · intro hlt
          have := hnextw (Nat.lt_of_succ_lt_succ hlt)
          rw [List.take_succ_cons, List.sum_cons]
          omega

/-- Sums of longer prefixes are larger. -/
theorem take_sum_mono (ws : List Nat) {m n : Nat} (h : m ≤ n) :
    (ws.take m).sum ≤ (ws.take n).sum := by
  rw [show ws.take m = (ws.take n).take m by rw [List.take_take, Nat.min_eq_left h]]
  conv_rhs => rw [← List.take_append_drop m (ws.take n), List.sum_append]
  omega

theorem take_flatten_mono (cs : List (List Byte)) {m n : Nat} (h : m ≤ n) :
    (cs.take m).flatten.length ≤ (cs.take n).flatten.length := by
  rw [show cs.take m = (cs.take n).take m by rw [List.take_take, Nat.min_eq_left h]]
  exact take_flatten_length_le _ _

/-- The columns up to a boundary. -/
theorem cols_take (h : Chunked utf8LenMap cs .whole [] s) {ws : List Nat}
    (hws : widths w cs = .ok ws) (m : Nat) :
    cxUtf8Cols w (s.take (cs.take m).flatten.length) (cs.take m).flatten.length
      = .ok (((ws.take m).sum : Nat) : Int) := by
  have htake := h.take m
  have hlen : (s.take (cs.take m).flatten.length).length
      = (cs.take m).flatten.length := congrArg List.length htake.flatten_eq
  have hcols := cxUtf8Cols_chunked (w := w) htake
  rw [hlen, widths_take hws] at hcols
  exact hcols

/-- The last boundary up to which there are no more columns than `column`;
the characters after it lie beyond that column. -/
def LastWithin (w : WidthTables) (s : List Byte) (column b : Nat) : Prop :=
  IsGreatest {b | Boundary utf8LenMap s b
      ∧ ∃ n : Nat, cxUtf8Cols w (s.take b) b = .ok (n : Int) ∧ n ≤ column} b
    ∧ ∀ b', Boundary utf8LenMap s b' → b < b' →
      ∃ n : Nat, cxUtf8Cols w (s.take b') b' = .ok (n : Int) ∧ column < n

/-- On text without tabs the column index inverts the column count. -/
theorem cxUtf8Colidx_greatest (w : WidthTables) (s : List Byte)
    (column tabSize : Nat) {columns : Int} (htab : 0x09 ∉ s)
    (hcols : cxUtf8Cols w s s.length = .ok columns) (hpos : 0 ≤ columns) :
    ∃ b : Nat, cxUtf8Colidx w s s.length column tabSize = .ok (b : Int)
      ∧ LastWithin w s column b := by
  obtain ⟨cs, ws, hchunked, hws, -⟩ := cols_whole hcols hpos
  have hleads : ∀ c ∈ cs, c.head? ≠ some 0x09 := by
    intro c hc hhead
    apply htab
    rw [hchunked.flatten_eq]
    exact List.mem_flatten.mpr ⟨c, hc, List.mem_of_mem_head? hhead⟩
  have hdrop : Chunked utf8LenMap cs .whole [] (s.drop 0) := by
    rwa [List.drop_zero]
  obtain ⟨m, hm, hrun, hsum, hover⟩ := colidxLoop_fits tabSize cs 0 column ws
    hdrop hleads hws
  rw [Nat.zero_add] at hrun
  -- a boundary beyond that one lies behind the character over the column
  have hbeyond : ∀ b', Boundary utf8LenMap s b' →
      (cs.take m).flatten.length < b' →
      ∃ n : Nat, cxUtf8Cols w (s.take b') b' = .ok (n : Int) ∧ column < n := by
    intro b' hb' hlt
    obtain ⟨m', hm', rfl⟩ := hchunked.exists_take hb'
    refine ⟨_, cols_take hchunked hws m', ?_⟩
    have hmm : m < m' := by
      by_contra hle
      have := take_flatten_mono cs (Nat.not_lt.mp hle)
      omega
    have := hover (by omega)
    have := take_sum_mono ws (show m + 1 ≤ m' from hmm)
    omega
  refine ⟨_, hrun, ⟨⟨hchunked.boundary m, _, cols_take hchunked hws m, hsum⟩, ?_⟩,
    hbeyond⟩
  intro b' hb'
  obtain ⟨hboundary, n, hn, hle⟩ := hb'
  by_contra hlt
  obtain ⟨n', hn', hgt⟩ := hbeyond b' hboundary (Nat.not_le.mp hlt)
  rw [hn, Except.ok.injEq, Int.natCast_inj] at hn'
  omega

/-- A wide character, and a column past it. -/
theorem cxUtf8Colidx_greatest_wide : ∃ w, builtTables = some w
    ∧ ∃ b : Nat, cxUtf8Colidx w (text ['a', '😃']) (text ['a', '😃']).length 3 8
        = .ok (b : Int)
      ∧ LastWithin w (text ['a', '😃']) 3 b := by
  obtain ⟨w, hbuilt, hw⟩ := builtTables_total
  obtain ⟨n, hcols⟩ := hw.cols (chunked_text ['a', '😃'])
  exact ⟨w, hbuilt, cxUtf8Colidx_greatest w _ 3 8 (by decide) hcols
    (Int.natCast_nonneg n)⟩

end Cextras.Unicode
