/-
The column index after tabs. `colidxLoop` keeps the columns that remain
up to the one it looks for, and at a tab puts the tab stop after the
remaining column for it: that number grows where the columns that are
really left become fewer. So from the first tab on the loop is ahead by
two columns or more (`Ahead`), no character is wide enough to stop it at
a column it should stop at, and the index is right exactly where no tab
stands before (`cxUtf8Colidx_display_iff`).
-/
import Cextras.Unicode.Proofs.Columns

namespace Cextras.Unicode

open Lib

variable {w : WidthTables} {str : List Byte} {tabSize column i : Nat}
  {c : Char} {cps before after : List Char}

-- ======================================================= display columns

/-- The next multiple of `tabSize`. -/
def tabStop (tabSize column : Nat) : Nat := (column / tabSize + 1) * tabSize

/-- The column text ends at that starts at `column`. -/
def displayColumn (w : WidthTables) (tabSize : Nat) :
    List Char → Nat → Except Fault Nat
  | [], column => pure column
  | c :: cps, column =>
      if c = '\t' then
        displayColumn w tabSize cps (tabStop tabSize column)
      else do
        let width ← cxCpWidth w c.val.toNat
        displayColumn w tabSize cps (column + width)

/-- No tab stop the index loop comes to on this text is past `SIZE_MAX`. -/
def Unwrapped (w : WidthTables) (tabSize : Nat) : List Char → Nat → Prop
  | [], _ => True
  | c :: cps, column =>
      if c = '\t' then
        tabStop tabSize column < 2 ^ 64
          ∧ Unwrapped w tabSize cps (tabStop tabSize column)
      else
        ∀ width, cxCpWidth w c.val.toNat = .ok width → width ≤ column →
          Unwrapped w tabSize cps (column - width)

theorem lt_tabStop (htab : 1 ≤ tabSize) (column : Nat) :
    column < tabStop tabSize column := by
  have hmod := Nat.mod_lt column htab
  have hdiv := Nat.div_add_mod column tabSize
  rw [Nat.mul_comm] at hdiv
  unfold tabStop
  rw [Nat.succ_mul]
  omega

theorem displayColumn_char (hc : c ≠ '\t') {width : Nat}
    (hwidth : cxCpWidth w c.val.toNat = .ok width) (column : Nat) :
    displayColumn w tabSize (c :: cps) column
      = displayColumn w tabSize cps (column + width) := by
  rw [displayColumn, if_neg hc, hwidth]
  rfl

/-- Columns never go back. -/
theorem le_displayColumn (htab : 1 ≤ tabSize) {column D : Nat}
    (h : displayColumn w tabSize cps column = .ok D) : column ≤ D := by
  induction cps generalizing column with
  | nil =>
      cases h
      exact Nat.le_refl _
  | cons c cps ih =>
      rw [displayColumn] at h
      split at h
      · have := lt_tabStop htab column
        have := ih h
        omega
      · cases hwidth : cxCpWidth w c.val.toNat with
        | error e =>
            rw [hwidth] at h
            cases h
        | ok width =>
            rw [hwidth] at h
            have := ih h
            omega

-- ============================================================ one character

/-- No character is wider than two columns. -/
theorem cxCpWidth_le {cp width : Nat} (h : cxCpWidth w cp = .ok width) :
    width ≤ 2 := by
  unfold cxCpWidth at h
  cases hwide : tableLookup w.doubleWidth cp with
  | error e =>
      rw [hwide] at h
      cases h
  | ok wide =>
      cases hzero : tableLookup w.zeroWidth cp with
      | error e =>
          rw [hwide, hzero] at h
          cases h
      | ok zero =>
          rw [hwide, hzero] at h
          obtain rfl : wide.toNat + (!zero).toNat = width := Except.ok.inj h
          have := Bool.toNat_le wide
          have := Bool.toNat_le !zero
          omega

theorem encoded_head_tab (c : Char) :
    (String.utf8EncodeChar c).head? = some 0x09 ↔ c = '\t' := by
  constructor
  · intro h
    have hpay := (encoded_chunk c).2
    rw [tab_chunk (encoded_chunk c).1 h] at hpay
    exact Char.ext (UInt32.toNat_inj.mp (hpay.symm.trans rfl))
  · rintro rfl
    decide

/-- The index loop at a tab. -/
theorem colidxLoop_text_tab (w : WidthTables) (column : Nat) {tabSize : Nat}
    (htab : 1 ≤ tabSize) (h : str.drop i = text ('\t' :: cps)) :
    colidxLoop w str str.length column tabSize i
        = colidxLoop w str str.length (tabStop tabSize column % 2 ^ 64) tabSize
          (i + 1)
      ∧ str.drop (i + 1) = text cps := by
  rw [text_cons] at h
  obtain ⟨hs, hnext⟩ := char_step (encoded_chunk '\t').1 h
  obtain ⟨lead, hlead, -, -, hhead⟩ := hs.lead
  obtain rfl : lead = 0x09 :=
    Option.some.inj (hhead.symm.trans ((encoded_head_tab '\t').mpr rfl))
  exact ⟨colidxLoop_tab hs.inside hlead (by omega), hnext⟩

/-- The index loop at another character. -/
theorem colidxLoop_text_char (column tabSize : Nat) (hc : c ≠ '\t') {width : Nat}
    (hwidth : cxCpWidth w c.val.toNat = .ok width)
    (h : str.drop i = text (c :: cps)) :
    colidxLoop w str str.length column tabSize i
        = (if column < width then .ok (i : Int)
          else colidxLoop w str str.length (column - width) tabSize
            (i + (String.utf8EncodeChar c).length))
      ∧ str.drop (i + (String.utf8EncodeChar c).length) = text cps := by
  rw [text_cons] at h
  obtain ⟨hchunk, hpay⟩ := encoded_chunk c
  obtain ⟨hs, hnext⟩ := char_step hchunk h
  refine ⟨?_, hnext⟩
  rw [colidxLoop_char w column tabSize hs
    (fun hhead => hc ((encoded_head_tab c).mp hhead)), hpay, hwidth]
  rfl

-- ================================================================== runs

/-- The index loop comes to a boundary with `gap` columns to spare: none
more than it set out with if it met no tab, and two more at least if it
met one. -/
theorem colidxLoop_ahead (htab : 1 ≤ tabSize) {D : Nat} (before : List Char) :
    ∀ (i column gap : Nat), str.drop i = text (before ++ after) →
    displayColumn w tabSize before column = .ok D →
    Unwrapped w tabSize before (D - column + gap) →
    ∃ gap', colidxLoop w str str.length (D - column + gap) tabSize i
        = colidxLoop w str str.length gap' tabSize (i + (text before).length)
      ∧ str.drop (i + (text before).length) = text after
      ∧ ('\t' ∉ before → gap' = gap) ∧ gap ≤ gap'
      ∧ ('\t' ∈ before → gap + 2 ≤ gap') := by
  induction before with
  | nil =>
      intro i column gap h hD _
      obtain rfl : column = D := Except.ok.inj hD
      refine ⟨gap, ?_, h, fun _ => rfl, Nat.le_refl _, fun hmem => ?_⟩
      · rw [Nat.sub_self, Nat.zero_add]
        rfl
      · cases hmem
  | cons c before ih =>
      intro i column gap h hD hun
      rw [List.cons_append] at h
      have hle := le_displayColumn htab hD
      by_cases hc : c = '\t'
      · -- the column to go to comes nearer, the loop's own goes up
        subst hc
        obtain ⟨hturn, hnext⟩ := colidxLoop_text_tab w (D - column + gap)
          htab h
        rw [displayColumn, if_pos rfl] at hD
        rw [Unwrapped, if_pos rfl] at hun
        have hle' := le_displayColumn htab hD
        have hup := lt_tabStop htab column
        have hup' := lt_tabStop htab (D - column + gap)
        obtain ⟨hfits, hun⟩ := hun
        have hgap : tabStop tabSize (D - column + gap)
            = D - tabStop tabSize column
              + (tabStop tabSize (D - column + gap)
                - (D - tabStop tabSize column)) := by
          omega
        rw [hgap] at hun
        obtain ⟨gap', hrun, hdrop, -, hge, -⟩ := ih _ _ _ hnext hD hun
        rw [← hgap] at hrun
        have hlen : i + (text ('\t' :: before)).length
            = i + 1 + (text before).length := by
          rw [text_cons, List.length_append, ← Nat.add_assoc]
          rfl
        rw [hlen]
        refine ⟨gap', ?_, hdrop, ?_, by omega, fun _ => by omega⟩
        · rw [hturn, Nat.mod_eq_of_lt hfits, hrun]
        · exact fun hnot => absurd (List.mem_cons_self ..) hnot
      · cases hwidth : cxCpWidth w c.val.toNat with
        | error e =>
            rw [displayColumn, if_neg hc, hwidth] at hD
            cases hD
        | ok width =>
            obtain ⟨hturn, hnext⟩ := colidxLoop_text_char
              (D - column + gap) tabSize hc hwidth h
            rw [displayColumn_char hc hwidth] at hD
            have hle' := le_displayColumn htab hD
            have hrest : D - column + gap - width
                = D - (column + width) + gap := by
              omega
            rw [Unwrapped, if_neg hc] at hun
            have hun' := hun width hwidth (by omega)
            rw [hrest] at hun'
            obtain ⟨gap', hrun, hdrop, hsame, hge, hmore⟩ := ih _ _ _ hnext hD hun'
            rw [if_neg (by omega), hrest] at hturn
            have hlen : i + (text (c :: before)).length
                = i + (String.utf8EncodeChar c).length
                  + (text before).length := by
              rw [text_cons, List.length_append, Nat.add_assoc]
            rw [hlen]
            refine ⟨gap', hturn.trans hrun, hdrop, ?_, hge, ?_⟩
            · exact fun hnot => hsame fun hmem => hnot (List.mem_cons_of_mem _ hmem)
            · intro hmem
              rcases List.mem_cons.mp hmem with heq | hmem
              · exact absurd heq.symm hc
              · exact hmore hmem

/-- The index of the column a character is displayed at is the character,
if and only if no tab stands before it. -/
theorem cxUtf8Colidx_display_iff (w : WidthTables) (before after : List Char)
    (c : Char) {tabSize D width : Nat} (htab : 1 ≤ tabSize) (hc : c ≠ '\t')
    (hwidth : cxCpWidth w c.val.toNat = .ok width) (hpos : 0 < width)
    (hD : displayColumn w tabSize before 0 = .ok D)
    (hun : Unwrapped w tabSize before D) :
    cxUtf8Colidx w (text (before ++ c :: after))
        (text (before ++ c :: after)).length D tabSize
        = .ok ((text before).length : Int)
      ↔ '\t' ∉ before := by
  obtain ⟨gap, hrun, hdrop, hsame, -, hmore⟩ := colidxLoop_ahead htab before 0 0 0
    (List.drop_zero (l := text (before ++ c :: after))) hD hun
  obtain ⟨hturn, hnext⟩ := colidxLoop_text_char gap tabSize hc hwidth hdrop
  rw [Nat.zero_add] at hrun hturn hnext
  change colidxLoop w _ _ D tabSize 0 = _ at hrun
  unfold cxUtf8Colidx
  rw [hrun, hturn]
  by_cases hmem : '\t' ∈ before
  · -- too far to stop here, and the loop never comes back
    have hgap := hmore hmem
    have hle := cxCpWidth_le hwidth
    rw [if_neg (by omega)]
    refine iff_of_false (fun hstop => ?_) (fun hnot => hnot hmem)
    have hchunked := chunked_text after
    rw [← hnext] at hchunked
    have hsize : 0 < (String.utf8EncodeChar c).length :=
      (encoded_chunk c).1.length_pos
    have hfits := (char_step (encoded_chunk c).1 (text_cons c after ▸ hdrop)).1.fits
    have := colidxLoop_range (Nat.ne_of_gt htab) _ _ _ hchunked (by omega) hstop
    omega
  · rw [hsame hmem, if_pos hpos]
    exact iff_of_true rfl hmem

/-- The column of the character after another one. -/
theorem cxUtf8Colidx_second : ∃ w, builtTables = some w
    ∧ (cxUtf8Colidx w (text ['a', 'b']) (text ['a', 'b']).length 1 8 = .ok 1
      ↔ '\t' ∉ ['a']) := by
  obtain ⟨w, hbuilt, hwidth⟩ := builtTables_spec
  have ha : cxCpWidth w 'a'.val.toNat = .ok 1 :=
    (hwidth _ (by decide)).trans (congrArg _ (by decide +kernel))
  have hb : cxCpWidth w 'b'.val.toNat = .ok 1 :=
    (hwidth _ (by decide)).trans (congrArg _ (by decide +kernel))
  refine ⟨w, hbuilt, cxUtf8Colidx_display_iff w ['a'] [] 'b' (by decide)
    (by decide) hb (by decide) ?_ ?_⟩
  · exact displayColumn_char (by decide) ha 0
  · rw [Unwrapped, if_neg (by decide)]
    exact fun _ _ _ => trivial

/-- With a tab between them the index runs past the second one, which
stands at the first tab stop. -/
theorem cxUtf8Colidx_after_tab : ∃ w, builtTables = some w
    ∧ displayColumn w 8 ['a', '\t'] 0 = .ok 8
    ∧ cxCpWidth w 'b'.val.toNat = .ok 1
    ∧ cxUtf8Colidx w (text ['a', '\t', 'b']) (text ['a', '\t', 'b']).length 8 8
      = .ok 3 := by
  obtain ⟨w, hbuilt, hwidth⟩ := builtTables_spec
  have ha : cxCpWidth w 'a'.val.toNat = .ok 1 :=
    (hwidth _ (by decide)).trans (congrArg _ (by decide +kernel))
  have hb : cxCpWidth w 'b'.val.toNat = .ok 1 :=
    (hwidth _ (by decide)).trans (congrArg _ (by decide +kernel))
  refine ⟨w, hbuilt, displayColumn_char (by decide) ha 0, hb, ?_⟩
  obtain ⟨h1, hdrop⟩ := colidxLoop_text_char 8 8 (by decide) ha
    (List.drop_zero (l := text ['a', '\t', 'b']))
  obtain ⟨h2, hdrop⟩ := colidxLoop_text_tab w 7 (Nat.le_add_left 1 7) hdrop
  obtain ⟨h3, hdrop⟩ := colidxLoop_text_char 8 8 (by decide) hb hdrop
  unfold cxUtf8Colidx
  rw [h1, if_neg (by decide), h2]
  exact h3.trans (colidxLoop_end (by decide))

end Cextras.Unicode
