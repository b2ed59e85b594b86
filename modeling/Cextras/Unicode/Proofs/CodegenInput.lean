/-
From the text of the Unicode character database to the widths. A file of
the database consists of blank lines, comments and entries
(`UcdLine`); what the generator reads from its text are the ranges of
the entries whose field is one of those it looks for (`readRanges_text`).
So the tables the build makes of EastAsianWidth.txt and UnicodeData.txt
answer for every code point what these files say (`cxCpWidth_generated`).
-/
import Cextras.Unicode.CodegenInput
import Cextras.Unicode.Proofs.WidthTables

namespace Cextras.Unicode

open Lib

variable {k : Nat}

-- =================================================================== format

/-- A code point as it is written. -/
structure HexText where
  digits : List Byte
  nonempty : digits ≠ []
  hex : ∀ b ∈ digits, isHexDigit b = true
  small : hexValue digits < 2 ^ 32

def HexText.value (h : HexText) : Nat := hexValue h.digits

/-- A field that is not empty. -/
structure Field where
  text : List Byte
  nonempty : text ≠ []
  /-- no delimiter -/
  plain : ∀ b ∈ text, [59, 35].contains b = false
  whole : 0 ∉ text ∧ 10 ∉ text

/-- An entry, with the fields up to number `k` taken apart. -/
structure UcdEntry (k : Nat) where
  first : HexText
  last : Option HexText
  pad : Nat
  before : List Field
  field : Field
  count : before.length + 1 = k
  /-- the other fields, and a comment -/
  ending : List Byte
  ends : ending.head? = some 59 ∨ ending.head? = some 35
  whole : 10 ∉ ending

inductive UcdLine (k : Nat) where
  | blank (spaces : List Byte) (h : ∀ b ∈ spaces, isSpace b = true ∧ b ≠ 10)
  | comment (text : List Byte) (h : 10 ∉ text)
  | entry (e : UcdEntry k)

namespace UcdEntry

/-- The code points of the entry. -/
def codes (e : UcdEntry k) : List Byte :=
  e.first.digits
    ++ ((e.last.map fun last => 46 :: 46 :: last.digits).getD []
      ++ List.replicate e.pad 32)

/-- The fields. -/
def rest (e : UcdEntry k) : List Byte :=
  e.before.flatMap (fun f => f.text ++ [59]) ++ (e.field.text ++ e.ending)

def range (e : UcdEntry k) : Range :=
  ⟨e.first.value, (e.last.getD e.first).value⟩

/-- The field is one of those looked for. -/
def Picked (e : UcdEntry k) : Prop := selectedFields.contains e.field.text = true

instance (e : UcdEntry k) : Decidable e.Picked :=
  inferInstanceAs (Decidable (_ = _))

end UcdEntry

namespace UcdLine

def text : UcdLine k → List Byte
  | .blank spaces _ => spaces ++ [10]
  | .comment text _ => 35 :: text ++ [10]
  | .entry e => e.codes ++ 59 :: e.rest ++ [10]

/-- The range the line contributes. -/
def selected : UcdLine k → Option Range
  | .entry e => if e.Picked then some e.range else none
  | _ => none

end UcdLine

/-- The text of a file. -/
def ucdText (file : List (UcdLine k)) : List Byte :=
  (file.map UcdLine.text).flatten

/-- The file lists the code point in a field looked for. -/
def Listed (file : List (UcdLine k)) (cp : Nat) : Prop :=
  ∃ e, .entry e ∈ file ∧ e.Picked ∧ e.range.start ≤ cp ∧ cp ≤ e.range.stop

-- =============================================================== code points

theorem assigned_small {values : List Nat} (h : ∀ v ∈ values, v < 2 ^ 32) :
    assigned values = .ok values := by
  unfold assigned
  rw [if_pos]
  · rfl
  · rw [List.all_eq_true]
    exact fun v hv => decide_eq_true (h v hv)

/-- A code point is read up to what is no digit. -/
theorem HexText.scan (h : HexText) {text : List Byte}
    (hstop : ∀ b ∈ text.head?, b = 46 ∨ b = 32) :
    scanHex (h.digits ++ text) = some (h.value, text) := by
  rw [scanHex_digits h.nonempty h.hex, strtoul_digits]
  · rfl
  · exact Nat.lt_trans h.small (by decide)
  · intro b hb
    rcases hstop b hb with rfl | rfl
    · rfl
    · rfl
  · intro b hb
    rcases hstop b hb with rfl | rfl
    · exact ⟨by decide, by decide⟩
    · exact ⟨by decide, by decide⟩

theorem head_spaces {n : Nat} {b : Byte}
    (h : b ∈ (List.replicate n (32 : Byte)).head?) : b = 32 := by
  cases n with
  | zero => cases h
  | succ n =>
      cases h
      rfl

/-- The code points of an entry are read. -/
theorem scanRange_codes (e : UcdEntry k) :
    scanRange e.codes = .ok (some e.range) := by
  have hfirst := e.first.small
  unfold scanRange UcdEntry.codes UcdEntry.range
  cases e.last with
  | none =>
      have hstop : ∀ b ∈ (List.replicate e.pad (32 : Byte)).head?,
          b = 46 ∨ b = 32 := fun b hb => Or.inr (head_spaces hb)
      have hscan := e.first.scan hstop
      have hdot : (List.replicate e.pad (32 : Byte)).head? ≠ some 46 := by
        intro h
        cases head_spaces (b := 46) h
      simp only [Option.map_none, Option.getD_none, List.nil_append]
      rw [sscanf_hex hscan, sscanf_hex hscan, sscanf_stop hdot, sscanf,
        assigned_small]
      · rfl
      · intro v hv
        rw [List.mem_singleton.mp hv]
        exact hfirst
  | some last =>
      have hlast := last.small
      have hstop : ∀ b ∈ (46 :: 46 :: last.digits
          ++ List.replicate e.pad (32 : Byte)).head?, b = 46 ∨ b = 32 := by
        intro b hb
        cases hb
        exact Or.inl rfl
      have hspaces : ∀ b ∈ (List.replicate e.pad (32 : Byte)).head?,
          b = 46 ∨ b = 32 := fun b hb => Or.inr (head_spaces hb)
      simp only [Option.map_some, Option.getD_some]
      rw [sscanf_hex (e.first.scan hstop), List.cons_append, List.cons_append,
        sscanf_literal, sscanf_literal, sscanf_hex (last.scan hspaces), sscanf,
        assigned_small]
      · rfl
      · intro v hv
        rcases List.mem_cons.mp hv with rfl | hv
        · exact hfirst
        · rw [List.mem_singleton.mp hv]
          exact hlast

/-- Nothing is read where there is no number. -/
theorem scanRange_none {line : List Byte} (h : scanHex line = none) :
    scanRange line = .ok none := by
  unfold scanRange
  rw [sscanf_none h, sscanf_none h]
  rfl

-- =================================================================== fields

/-- The field after those before it. -/
theorem nextFields_fields (before : List Field) (field : Field)
    {text : List Byte} (line : Option (List Byte))
    (hstop : Stops (fun b => !([59, 35].contains b)) text) :
    nextFields (before.length + 1) line
        (before.flatMap (fun f => f.text ++ [59]) ++ (field.text ++ text))
      = some field.text := by
  induction before generalizing line with
  | nil =>
      rw [List.flatMap_nil, List.nil_append, List.length_nil, nextFields,
        strtok_span field.nonempty field.plain hstop]
      rfl
  | cons f before ih =>
      rw [List.flatMap_cons, List.append_assoc, List.append_assoc,
        List.singleton_append, List.length_cons, nextFields,
        strtok_token f.nonempty f.plain rfl]
      exact ih _

-- ==================================================================== lines

theorem mem_codes (e : UcdEntry k) {b : Byte} (hb : b ∈ e.codes) :
    isHexDigit b = true ∨ b = 46 ∨ b = 32 := by
  unfold UcdEntry.codes at hb
  rcases List.mem_append.mp hb with hb | hb
  · exact Or.inl (e.first.hex b hb)
  · rcases List.mem_append.mp hb with hb | hb
    · cases hlast : e.last with
      | none =>
          rw [hlast] at hb
          cases hb
      | some last =>
          rw [hlast] at hb
          rcases List.mem_cons.mp hb with rfl | hb
          · exact Or.inr (Or.inl rfl)
          · rcases List.mem_cons.mp hb with rfl | hb
            · exact Or.inr (Or.inl rfl)
            · exact Or.inl (last.hex b hb)
    · exact Or.inr (Or.inr (List.eq_of_mem_replicate hb))

/-- What is no digit, point or space is not among the code points. -/
theorem not_mem_codes (e : UcdEntry k) {b : Byte} (hdigit : isHexDigit b = false)
    (hne : b ≠ 46 ∧ b ≠ 32) : b ∉ e.codes := by
  intro hb
  rcases mem_codes e hb with h | h | h
  · rw [hdigit] at h
    cases h
  · exact hne.1 h
  · exact hne.2 h

theorem codes_ne_nil (e : UcdEntry k) : e.codes ≠ [] := by
  intro h
  exact e.first.nonempty (List.append_eq_nil_iff.mp h).1

theorem parseRange_entry (e : UcdEntry k) :
    parseRange k (UcdLine.entry e).text = .ok (UcdLine.entry e).selected := by
  have hstring : cString (UcdLine.entry e).text
      = e.codes ++ 59 :: cString (e.rest ++ [10]) := by
    show cString (e.codes ++ 59 :: e.rest ++ [10]) = _
    rw [List.append_assoc, cString_append (not_mem_codes e rfl (by decide)),
      List.cons_append, cString_cons (by decide)]
  have htoken : strtok [59] (e.codes ++ 59 :: cString (e.rest ++ [10]))
      = some (e.codes, cString (e.rest ++ [10])) := by
    refine strtok_token (codes_ne_nil e) (fun b hb => ?_) rfl _
    cases h : [(59 : Byte)].contains b with
    | false => rfl
    | true =>
        rw [List.contains_iff_mem, List.mem_singleton] at h
        exact absurd (h ▸ hb) (not_mem_codes e rfl (by decide))
  have hfield : nextFields k (some e.codes) (cString (e.rest ++ [10]))
      = some e.field.text := by
    have hzero : 0 ∉ e.before.flatMap (fun f => f.text ++ [59])
        ++ e.field.text := by
      intro h
      rcases List.mem_append.mp h with h | h
      · obtain ⟨f, -, hf⟩ := List.mem_flatMap.mp h
        rcases List.mem_append.mp hf with hf | hf
        · exact f.whole.1 hf
        · cases List.mem_singleton.mp hf
      · exact e.field.whole.1 h
    obtain ⟨b, ending, hending, hb⟩ : ∃ b ending, e.ending = b :: ending
        ∧ (b = 59 ∨ b = 35) := by
      have hends := e.ends
      cases hending : e.ending with
      | nil =>
          rw [hending] at hends
          rcases hends with h | h
          · cases h
          · cases h
      | cons b ending =>
          rw [hending] at hends
          refine ⟨b, ending, rfl, ?_⟩
          rcases hends with h | h
          · exact Or.inl (Option.some.inj h)
          · exact Or.inr (Option.some.inj h)
    have hb0 : b ≠ 0 := by
      rcases hb with rfl | rfl
      · decide
      · decide
    have hrest : cString (e.rest ++ [10])
        = e.before.flatMap (fun f => f.text ++ [59])
          ++ (e.field.text ++ b :: cString (ending ++ [10])) := by
      unfold UcdEntry.rest
      rw [← List.append_assoc, List.append_assoc, cString_append hzero, hending,
        List.cons_append, cString_cons hb0, List.append_assoc]
    have hstop : Stops (fun b => !([59, 35].contains b))
        (b :: cString (ending ++ [10])) := by
      apply stops_cons
      rcases hb with rfl | rfl
      · rfl
      · rfl
    have hfields := nextFields_fields e.before e.field (some e.codes) hstop
    rw [e.count] at hfields
    rw [hrest]
    exact hfields
  unfold parseRange
  rw [hstring, htoken]
  dsimp only
  rw [scanRange_codes, Int.toNat_natCast, hfield]
  unfold UcdLine.selected UcdEntry.Picked
  rfl

/-- A line that does not begin with a number. -/
theorem parseRange_none {line text : List Byte} {b : Byte}
    (hline : cString line = b :: text) (hb : b ≠ 59)
    (hscan : ∀ token, (∀ c ∈ token, c ∈ text) → scanHex (b :: token) = none) :
    parseRange k line = .ok none := by
  have hdelim : [(59 : Byte)].contains b = false := by
    cases h : [(59 : Byte)].contains b with
    | false => rfl
    | true =>
        rw [List.contains_iff_mem, List.mem_singleton] at h
        exact absurd h hb
  obtain ⟨token, rest, htoken, hsub⟩ := strtok_head hdelim text
  unfold parseRange
  rw [hline, htoken]
  dsimp only
  rw [scanRange_none (hscan token hsub)]
  rfl

theorem isSpace_ne {b : Byte} (h : isSpace b = true) : b ≠ 0 ∧ b ≠ 59 := by
  refine ⟨?_, ?_⟩
  · rintro rfl
    cases h
  · rintro rfl
    cases h

/-- What is made of a line of a file. -/
theorem parseRange_line (line : UcdLine k) :
    parseRange k line.text = .ok line.selected := by
  cases line with
  | entry e => exact parseRange_entry e
  | comment text h =>
      have hline : cString (35 :: text ++ [10]) = 35 :: cString (text ++ [10]) :=
        cString_cons (by decide) _
      refine parseRange_none hline (by decide) fun token _ => ?_
      exact scanHex_none rfl (by decide) rfl token
  | blank spaces h =>
      have hspaces : ∀ b ∈ spaces ++ [10], isSpace b = true := by
        intro b hb
        rcases List.mem_append.mp hb with hb | hb
        · exact (h b hb).1
        · rw [List.mem_singleton.mp hb]
          rfl
      have hline : cString (spaces ++ [10]) = spaces ++ [10] := by
        have hall := takeWhile_span (p := fun b : Byte => b ≠ 0)
          (fun b hb => decide_eq_true (isSpace_ne (hspaces b hb)).1) stops_nil
        rw [List.append_nil] at hall
        exact hall
      obtain ⟨b, text, hcons⟩ : ∃ b text, spaces ++ [10] = b :: text :=
        List.exists_cons_of_ne_nil (by simp)
      rw [hcons] at hspaces hline
      have htext : (UcdLine.blank spaces h : UcdLine k).text = b :: text := hcons
      rw [htext]
      refine parseRange_none hline (isSpace_ne (hspaces b List.mem_cons_self)).2
        fun token htoken => scanHex_spaces fun c hc => ?_
      rcases List.mem_cons.mp hc with rfl | hc
      · exact hspaces c List.mem_cons_self
      · exact hspaces c (List.mem_cons_of_mem _ (htoken c hc))

example : parseRange 1 (chars "1100..115F     ; W  # Lo    [96]\n".toList)
    = .ok (some ⟨0x1100, 0x115F⟩) := by decide +kernel

/-- Every line ends in its only newline. -/
theorem UcdLine.line (line : UcdLine k) : Line line.text := by
  cases line with
  | blank spaces h => exact ⟨spaces, rfl, fun hin => (h 10 hin).2 rfl⟩
  | comment text h =>
      refine ⟨35 :: text, rfl, fun hin => ?_⟩
      rcases List.mem_cons.mp hin with hin | hin
      · cases hin
      · exact h hin
  | entry e =>
      refine ⟨e.codes ++ 59 :: e.rest, rfl, fun hin => ?_⟩
      rcases List.mem_append.mp hin with hin | hin
      · exact not_mem_codes e rfl (by decide) hin
      · rcases List.mem_cons.mp hin with hin | hin
        · cases hin
        · unfold UcdEntry.rest at hin
          rcases List.mem_append.mp hin with hin | hin
          · obtain ⟨f, -, hf⟩ := List.mem_flatMap.mp hin
            rcases List.mem_append.mp hf with hf | hf
            · exact f.whole.2 hf
            · cases List.mem_singleton.mp hf
          · rcases List.mem_append.mp hin with hin | hin
            · exact e.field.whole.2 hin
            · exact e.whole hin

-- ==================================================================== files

/-- What is read is what was written. -/
theorem readRanges_text (file : List (UcdLine k)) :
    readRanges k (ucdText file) = .ok (file.map UcdLine.selected) := by
  have hlines : getlines (ucdText file) = file.map UcdLine.text := by
    refine getlines_flatten fun text htext => ?_
    obtain ⟨line, -, rfl⟩ := List.mem_map.mp htext
    exact line.line
  unfold readRanges
  rw [hlines]
  clear hlines
  induction file with
  | nil => rfl
  | cons line file ih =>
      rw [List.map_cons, List.mapM_cons, parseRange_line, ih]
      rfl

theorem charWidthFile_text (file : List (UcdLine k)) (radix : Nat) :
    charWidthFile (ucdText file) k radix
      = charWidth (file.map UcdLine.selected) radix := by
  have hread : readRanges k (ucdText file)
      = (pure (file.map UcdLine.selected) : Except Fault _) := readRanges_text file
  unfold charWidthFile
  rw [hread, pure_bind]

theorem selected_iff {file : List (UcdLine k)} {cp : Nat} :
    Selected (file.map UcdLine.selected) cp ↔ Listed file cp := by
  constructor
  · intro h
    obtain ⟨range, hrange, hcp⟩ := h
    obtain ⟨line, hline, hselected⟩ := List.mem_map.mp hrange
    cases line with
    | entry e =>
        simp only [UcdLine.selected] at hselected
        split at hselected
        · next hpicked =>
            cases hselected
            exact ⟨e, hline, hpicked, hcp⟩
        · cases hselected
    | _ => cases hselected
  · intro h
    obtain ⟨e, he, hpicked, hcp⟩ := h
    exact ⟨e.range, List.mem_map.mpr ⟨.entry e, he, if_pos hpicked⟩, hcp⟩

/-- The entries looked for can be handed to `find_max`. -/
def Below (file : List (UcdLine k)) : Prop :=
  ∀ e, .entry e ∈ file → e.Picked →
    e.range.start < 2 ^ 31 - 1 ∧ e.range.stop < 2 ^ 31 - 1

theorem Below.bounded {file : List (UcdLine k)} (h : Below file) :
    Bounded (file.map UcdLine.selected) := by
  intro range hrange
  obtain ⟨line, hline, hselected⟩ := List.mem_map.mp hrange
  cases line with
  | entry e =>
      simp only [UcdLine.selected] at hselected
      split at hselected
      · next hpicked =>
          cases hselected
          exact h e hline hpicked
      · cases hselected
  | _ => cases hselected

/-- The table of a file answers what the file says. -/
theorem charWidthFile_spec (file : List (UcdLine k)) (radix : Nat)
    (hfile : Below file) (hradix : 3 ≤ radix ∧ radix ≤ 30) :
    ∃ source, charWidthFile (ucdText file) k radix = .ok source
      ∧ (source.defines.length ≤ 256 →
        ∃ t, source.compile = some t
          ∧ ∀ cp, ∃ b, tableLookup t cp = .ok b ∧ (b = true ↔ Listed file cp)) := by
  obtain ⟨size, hmax, hsize, hstop⟩ := findMax_spec _ hfile.bounded
  obtain ⟨table, hflat, -, hflag⟩ := generateFlatTable_spec _ hstop
  have hcomplete := printBlocks_complete table size (Nat.two_pow_pos radix)
    (Nat.pow_dvd_pow 2 hradix.1)
  refine ⟨sourceOf (printBlocks table size (2 ^ radix)) size radix, ?_, ?_⟩
  · rw [charWidthFile_text]
    unfold charWidth
    rw [hmax]
    dsimp only
    rw [hflat]
    exact printRadixTable_run table size hradix.2
  · intro hblocks
    refine ⟨_, hcomplete.compile, fun cp => ?_⟩
    by_cases hcp : cp < size
    · refine ⟨_, hcomplete.lookup hradix hsize hblocks hcp, ?_⟩
      rw [hflag cp, selected_iff]
    · refine ⟨false, if_pos (Nat.not_lt.mp hcp), ?_⟩
      constructor
      · intro h
        cases h
      · intro h
        obtain ⟨range, hr, -, hle⟩ := selected_iff.mpr h
        have hlt := hstop range hr
        omega

-- =================================================================== widths

/-- What the tables of the two files make of a code point. -/
def WidthsOf (eastAsianWidth : List (UcdLine 1)) (unicodeData : List (UcdLine 2))
    (w : WidthTables) : Prop :=
  ∀ cp, ∃ wide zero : Bool, cxCpWidth w cp = .ok (wide.toNat + (!zero).toNat)
    ∧ (wide = true ↔ Listed eastAsianWidth cp)
    ∧ (zero = true ↔ Listed unicodeData cp)

/-- The build makes tables of the two files, and they say what the files
say: of a code point that is listed as wide and of one that is listed as
zero width, and of all others. -/
theorem cxCpWidth_generated (eastAsianWidth : List (UcdLine 1))
    (unicodeData : List (UcdLine 2)) (hwide : Below eastAsianWidth)
    (hzero : Below unicodeData) :
    ∃ wide zero, charWidthFile (ucdText eastAsianWidth) 1 8 = .ok wide
      ∧ charWidthFile (ucdText unicodeData) 2 9 = .ok zero
      ∧ (wide.defines.length ≤ 256 → zero.defines.length ≤ 256 →
        ∃ t u, wide.compile = some t ∧ zero.compile = some u
          ∧ WidthsOf eastAsianWidth unicodeData ⟨t, u⟩) := by
  obtain ⟨wide, hwiderun, hwidetable⟩ :=
    charWidthFile_spec eastAsianWidth 8 hwide (by decide)
  obtain ⟨zero, hzerorun, hzerotable⟩ :=
    charWidthFile_spec unicodeData 9 hzero (by decide)
  refine ⟨wide, zero, hwiderun, hzerorun, fun hwideblocks hzeroblocks => ?_⟩
  obtain ⟨t, ht, hwidelookup⟩ := hwidetable hwideblocks
  obtain ⟨u, hu, hzerolookup⟩ := hzerotable hzeroblocks
  refine ⟨t, u, ht, hu, fun cp => ?_⟩
  obtain ⟨b, hb, hblisted⟩ := hwidelookup cp
  obtain ⟨z, hz, hzlisted⟩ := hzerolookup cp
  refine ⟨b, z, ?_, hblisted, hzlisted⟩
  unfold cxCpWidth
  dsimp only
  rw [hb, hz]
  rfl

/-- A comment, a blank line, a range and a code point that is not wide. -/
def sampleWidth : List (UcdLine 1) :=
  [.comment (chars [' ', 'w']) (by decide), .blank [] nofun,
    .entry {
      first := ⟨chars ['0', '9'], by decide, by decide +kernel, by decide⟩
      last := some ⟨chars ['0', 'a'], by decide, by decide +kernel, by decide⟩
      pad := 2
      before := []
      field := ⟨chars [' ', 'W', ' ', ' '], by decide, by decide +kernel, by decide⟩
      count := rfl
      ending := chars ['#', ' ', 'C', 'c']
      ends := Or.inr rfl
      whole := by decide },
    .entry {
      first := ⟨chars ['B'], by decide, by decide +kernel, by decide⟩
      last := none
      pad := 1
      before := []
      field := ⟨chars [' ', 'N', 'a'], by decide, by decide +kernel, by decide⟩
      count := rfl
      ending := chars ['#']
      ends := Or.inr rfl
      whole := by decide }]

/-- A control character and a letter. -/
def sampleData : List (UcdLine 2) :=
  [.entry {
      first := ⟨chars ['0'], by decide, by decide +kernel, by decide⟩
      last := none
      pad := 0
      before := [⟨chars ['<', 'c', '>'], by decide, by decide +kernel, by decide⟩]
      field := ⟨chars ['C', 'c'], by decide, by decide +kernel, by decide⟩
      count := rfl
      ending := chars [';', '0', ';', 'B', 'N']
      ends := Or.inl rfl
      whole := by decide },
    .entry {
      first := ⟨chars ['4', '1'], by decide, by decide +kernel, by decide⟩
      last := none
      pad := 0
      before := [⟨chars ['A'], by decide, by decide +kernel, by decide⟩]
      field := ⟨chars ['L', 'u'], by decide, by decide +kernel, by decide⟩
      count := rfl
      ending := chars [';', '0']
      ends := Or.inl rfl
      whole := by decide }]

theorem cxCpWidth_generated_sample : ∃ w, WidthsOf sampleWidth sampleData w
    ∧ ucdText sampleWidth
      = chars "# w\n\n09..0a  ; W  # Cc\nB ; Na#\n".toList
    ∧ ucdText sampleData = chars "0;<c>;Cc;0;BN\n41;A;Lu;0\n".toList := by
  have hwide : Below sampleWidth := by
    intro e he hpicked
    simp only [sampleWidth, List.mem_cons, List.not_mem_nil, or_false,
      reduceCtorEq, false_or, UcdLine.entry.injEq] at he
    rcases he with rfl | rfl
    · decide
    · decide
  have hzero : Below sampleData := by
    intro e he hpicked
    simp only [sampleData, List.mem_cons, List.not_mem_nil, or_false,
      UcdLine.entry.injEq] at he
    rcases he with rfl | rfl
    · decide
    · decide
  obtain ⟨wide, zero, hwiderun, hzerorun, htables⟩ :=
    cxCpWidth_generated sampleWidth sampleData hwide hzero
  have hwideblocks : (charWidthFile (ucdText sampleWidth) 1 8).map
      (fun source => source.defines.length) = .ok 1 := by decide +kernel
  have hzeroblocks : (charWidthFile (ucdText sampleData) 2 9).map
      (fun source => source.defines.length) = .ok 1 := by decide +kernel
  rw [hwiderun] at hwideblocks
  rw [hzerorun] at hzeroblocks
  have hwidecount : wide.defines.length = 1 := Except.ok.inj hwideblocks
  have hzerocount : zero.defines.length = 1 := Except.ok.inj hzeroblocks
  obtain ⟨t, u, -, -, hwidths⟩ := htables (by omega) (by omega)
  exact ⟨⟨t, u⟩, hwidths, by decide +kernel, by decide +kernel⟩

end Cextras.Unicode
