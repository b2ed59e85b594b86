/-
The tables the build makes. A block is printed under a number of its own
only where a range of the file starts or ends in it (`mixed_boundary`),
so the ranges of the two data files leave the numbers within a byte
(`builtTables_spec`): every lookup in the tables of the library stays
inside them and finds what the files say.
-/
import Mathlib.Data.List.Dedup
import Mathlib.Data.List.Perm.Subperm
import Cextras.Unicode.WidthData
import Cextras.Unicode.Proofs.WidthTables

namespace Cextras.Unicode

open Lib

variable {table : List Bool} {codepointSize radix radixNum i n : Nat}
  {file : List (Option Range)}

-- ============================================================ mixed blocks

/-- Entries of both kinds. -/
def mixed (table : List Bool) (codepointSize radixNum i : Nat) : Bool :=
  blockFlags table codepointSize radixNum i = (false, false)

/-- The loop over the first level defines the mixed blocks. -/
theorem printLevel1_defines (table : List Bool) (codepointSize radixNum n : Nat) :
    (printLevel1 table codepointSize radixNum n).defines.length
      = ((List.range n).filter (mixed table codepointSize radixNum)).length := by
  induction n with
  | zero => rfl
  | succ n ih =>
      unfold printLevel1 at ih ⊢
      rw [List.range_succ, List.foldl_append, List.filter_append,
        List.length_append, List.foldl_cons, List.foldl_nil, ← ih]
      generalize List.foldl _ _ _ = st
      have hmixed : ∀ flags, blockFlags table codepointSize radixNum n = flags →
          mixed table codepointSize radixNum n
            = decide (flags = (false, false)) := by
        rintro _ rfl
        rfl
      unfold printLevel1Step
      cases hflags : blockFlags table codepointSize radixNum n with
      | mk allUnset allSet =>
          rw [List.filter_singleton, hmixed _ hflags]
          cases allUnset with
          | true => simp
          | false =>
              cases allSet with
              | true => simp
              | false => simp [Level1.printNumbered]

theorem printShared_defines (need : Bool) (name : TblName) (b : Byte)
    (level2Size : Nat) (st : Level1) :
    (printShared need name b level2Size st).defines.length
      ≤ st.defines.length + 1 := by
  unfold printShared
  split
  · simp [Level1.printNumbered]
  · omega

/-- Where the entries change from one kind to the other, a range starts or
has ended. -/
theorem mixed_boundary (hradix : 0 < radixNum)
    (hflag : ∀ k, flag table k = true ↔ Selected file k)
    (hmixed : mixed table codepointSize radixNum i = true) :
    ∃ range, some range ∈ file
      ∧ (i = range.start / radixNum ∨ i = (range.stop + 1) / radixNum) := by
  have hflags := of_decide_eq_true hmixed
  have hunset : ¬ AllAre table codepointSize radixNum i radixNum false := by
    rw [← allUnset_iff, hflags]
    decide
  have hset : ¬ AllAre table codepointSize radixNum i radixNum true := by
    rw [← allSet_iff, hflags]
    decide
  unfold AllAre at hunset hset
  push Not at hunset hset
  obtain ⟨j, hj, -, hin⟩ := hunset
  obtain ⟨k, hk, -, hout⟩ := hset
  obtain ⟨range, hrange, hstart, hstop⟩ :=
    (hflag _).mp (Bool.eq_true_of_not_eq_false hin)
  have hclear : ¬ (range.start ≤ i * radixNum + k
      ∧ i * radixNum + k ≤ range.stop) :=
    fun hc => hout ((hflag _).mpr ⟨range, hrange, hc⟩)
  have hdiv : ∀ x, i * radixNum ≤ x → x < i * radixNum + radixNum →
      i = x / radixNum := by
    intro x hlo hhi
    symm
    rw [Nat.div_eq_iff hradix]
    omega
  refine ⟨range, hrange, ?_⟩
  by_cases hbefore : i * radixNum + k < range.start
  · exact Or.inl (hdiv _ (by omega) (by omega))
  · exact Or.inr (hdiv _ (by omega) (by omega))

/-- As many blocks as there are places where a range starts or has ended,
and the two shared ones. -/
theorem printBlocks_defines (hradix : 0 < radixNum) {blocks : List Nat}
    (hflag : ∀ k, flag table k = true ↔ Selected file k)
    (hblocks : ∀ range, some range ∈ file →
      range.start / radixNum ∈ blocks ∧ (range.stop + 1) / radixNum ∈ blocks) :
    (printBlocks table codepointSize radixNum).defines.length
      ≤ blocks.length + 2 := by
  have hlevel1 := printLevel1_defines table codepointSize radixNum
    (divideCeil codepointSize radixNum)
  have hnodup : ((List.range (divideCeil codepointSize radixNum)).filter
      (mixed table codepointSize radixNum)).Nodup :=
    List.nodup_range.filter _
  have hsubset : (List.range (divideCeil codepointSize radixNum)).filter
      (mixed table codepointSize radixNum) ⊆ blocks := by
    intro i hi
    obtain ⟨range, hrange, hi⟩ := mixed_boundary hradix hflag
      (List.mem_filter.mp hi).2
    rcases hi with rfl | rfl
    · exact (hblocks range hrange).1
    · exact (hblocks range hrange).2
  have hle := (hnodup.subperm hsubset).length_le
  unfold printBlocks
  generalize printLevel1 table codepointSize radixNum _ = st at hlevel1 ⊢
  dsimp only
  have hfull := printShared_defines st.needFull .full 0xff (radixNum / 8) st
  generalize printShared st.needFull .full 0xff (radixNum / 8) st = st₁
    at hfull ⊢
  have hnull := printShared_defines st₁.needNull .null 0x00 (radixNum / 8) st₁
  omega

/-- The table of a file whose ranges start and end in few blocks. -/
theorem builtTable_spec (file : List (Option Range)) (blocks : List Nat)
    (hfile : Bounded file) (hradix : 3 ≤ radix ∧ radix ≤ 30)
    (hblocks : ∀ range, some range ∈ file →
      range.start / 2 ^ radix ∈ blocks ∧ (range.stop + 1) / 2 ^ radix ∈ blocks)
    (hfew : blocks.length + 2 ≤ 256) :
    ∃ t, builtTable file radix = some t
      ∧ ∀ cp < 2 ^ 32, ∃ b, tableLookup t cp = .ok b
        ∧ (b = true ↔ Selected file cp) := by
  obtain ⟨source, hsource, hall⟩ := charWidth_tableLookup file radix hfile hradix
  have hdefines : source.defines.length ≤ blocks.length + 2 := by
    obtain ⟨size, hmax, hsize, hstop⟩ := findMax_spec file hfile
    obtain ⟨table, hflat, -, hflag⟩ := generateFlatTable_spec file hstop
    have hrun : charWidth file radix
        = .ok (sourceOf (printBlocks table size (2 ^ radix)) size radix) := by
      unfold charWidth
      rw [hmax]
      dsimp only
      rw [hflat]
      exact printRadixTable_run table size hradix.2
    rw [hsource, Except.ok.injEq] at hrun
    rw [hrun]
    exact printBlocks_defines (Nat.two_pow_pos radix) hflag hblocks
  obtain ⟨t, hcompile, hlookup⟩ := hall (by omega)
  refine ⟨t, ?_, hlookup⟩
  unfold builtTable
  rw [hsource]
  exact hcompile

-- ============================================================== the files

theorem findMax_filter (file : List (Option Range)) :
    findMax (file.filter Option.isSome) = findMax file := by
  unfold findMax
  generalize 0 = size
  induction file generalizing size with
  | nil => rfl
  | cons line file ih =>
      cases line with
      | none => exact ih size
      | some range => exact ih _

theorem generateFlatTable_filter (file : List (Option Range)) (size : Int) :
    generateFlatTable (file.filter Option.isSome) size
      = generateFlatTable file size := by
  unfold generateFlatTable
  generalize List.replicate size.toNat false = table
  split
  · rfl
  · induction file generalizing table with
    | nil => rfl
    | cons line file ih =>
        cases line with
        | none => exact ih table
        | some range =>
            show (setRange table range.start range.stop >>= _) = _
            rw [List.foldlM_cons]
            exact bind_congr fun table => ih table

/-- Lines that select nothing change nothing. -/
theorem charWidth_filter (file : List (Option Range)) (radix : Nat) :
    charWidth (file.filter Option.isSome) radix = charWidth file radix := by
  unfold charWidth
  dsimp only
  rw [findMax_filter, generateFlatTable_filter]

/-- Whether a code point is in one of the ranges can be looked up. -/
instance decidableSelected (file : List (Option Range)) (cp : Nat) :
    Decidable (Selected file cp) :=
  decidable_of_iff
    (file.any (fun line => line.any fun range =>
      decide (range.start ≤ cp ∧ cp ≤ range.stop)) = true) <| by
    unfold Selected
    simp only [List.any_eq_true, Option.any_eq_true, decide_eq_true_eq]
    constructor
    · rintro ⟨line, hline, range, hrange, hcp⟩
      exact ⟨range, hrange ▸ hline, hcp⟩
    · rintro ⟨range, hline, hcp⟩
      exact ⟨some range, hline, range, rfl, hcp⟩

theorem mem_eastAsianWidth {range : Range} (h : some range ∈ eastAsianWidth) :
    (range.start, range.stop) ∈ eastAsianWidthLines := by
  obtain ⟨⟨start, stop⟩, hline, heq⟩ := List.mem_map.mp h
  cases heq
  exact hline

theorem mem_unicodeData {range : Range} (h : some range ∈ unicodeData) :
    range.start = range.stop ∧ ∃ first last, (first, last) ∈ unicodeDataLines
      ∧ first ≤ range.start ∧ range.start ≤ last := by
  obtain ⟨⟨first, last⟩, hline, hrange⟩ := List.mem_flatMap.mp h
  obtain ⟨cp, hcp, heq⟩ := List.mem_map.mp hrange
  cases heq
  rw [List.mem_range'_1] at hcp
  exact ⟨rfl, first, last, hline, hcp.1, by dsimp only; omega⟩

/-- The blocks a range of EastAsianWidth.txt starts or has ended in. -/
def eastAsianWidthBlocks : List Nat :=
  (eastAsianWidthLines.flatMap fun (start, stop) =>
    [start / 256, (stop + 1) / 256]).dedup

/-- The blocks with a selected code point of UnicodeData.txt in them, or
right after one. -/
def unicodeDataBlocks : List Nat :=
  (unicodeDataLines.flatMap fun (first, last) =>
    List.range' (first / 512) ((last + 1) / 512 + 1 - first / 512)).dedup

theorem eastAsianWidth_table : ∃ t, builtTable eastAsianWidth 8 = some t
    ∧ ∀ cp < 2 ^ 32, ∃ b, tableLookup t cp = .ok b
      ∧ (b = true ↔ Selected eastAsianWidth cp) := by
  have hbounds : ∀ line ∈ eastAsianWidthLines,
      line.1 < 0x110000 ∧ line.2 < 0x110000 := by
    decide +kernel
  apply builtTable_spec eastAsianWidth eastAsianWidthBlocks
  · intro range hrange
    have := hbounds _ (mem_eastAsianWidth hrange)
    dsimp only at this
    omega
  · decide
  · intro range hrange
    have hline := mem_eastAsianWidth hrange
    unfold eastAsianWidthBlocks
    rw [List.mem_dedup, List.mem_dedup]
    constructor
    · exact List.mem_flatMap.mpr ⟨_, hline, List.mem_cons_self ..⟩
    · exact List.mem_flatMap.mpr ⟨_, hline,
        List.mem_cons_of_mem _ (List.mem_cons_self ..)⟩
  · decide +kernel

theorem unicodeData_table : ∃ t, builtTable unicodeData 9 = some t
    ∧ ∀ cp < 2 ^ 32, ∃ b, tableLookup t cp = .ok b
      ∧ (b = true ↔ Selected unicodeData cp) := by
  have hbounds : ∀ line ∈ unicodeDataLines, line.2 < 0x110000 := by
    decide +kernel
  apply builtTable_spec unicodeData unicodeDataBlocks
  · intro range hrange
    obtain ⟨heq, first, last, hline, hfirst, hlast⟩ := mem_unicodeData hrange
    have := hbounds _ hline
    dsimp only at this
    omega
  · decide
  · intro range hrange
    obtain ⟨heq, first, last, hline, hfirst, hlast⟩ := mem_unicodeData hrange
    have hmem : ∀ block, first / 512 ≤ block → block ≤ (last + 1) / 512 →
        block ∈ unicodeDataBlocks := by
      intro block hlo hhi
      unfold unicodeDataBlocks
      rw [List.mem_dedup]
      refine List.mem_flatMap.mpr ⟨_, hline, ?_⟩
      rw [List.mem_range'_1]
      omega
    rw [← heq]
    constructor
    · exact hmem _ (by omega) (by omega)
    · exact hmem _ (by omega) (by omega)
  · decide +kernel

/-- What the files make of a code point. -/
def columnsOf (cp : Nat) : Nat :=
  (if Selected eastAsianWidth cp then 1 else 0)
    + if Selected unicodeData cp then 0 else 1

/-- The library has its tables, and the width of a code point is what the
files say: every code point has one. -/
theorem builtTables_spec : ∃ w, builtTables = some w
    ∧ ∀ cp < 2 ^ 32, cxCpWidth w cp = .ok (columnsOf cp) := by
  obtain ⟨doubleWidth, hdouble, hd⟩ := eastAsianWidth_table
  obtain ⟨zeroWidth, hzero, hz⟩ := unicodeData_table
  refine ⟨⟨doubleWidth, zeroWidth⟩, ?_, ?_⟩
  · unfold builtTables
    rw [hdouble, hzero]
    rfl
  · intro cp hcp
    obtain ⟨wide, hwide, hwide'⟩ := hd cp hcp
    obtain ⟨zero, hzero, hzero'⟩ := hz cp hcp
    unfold cxCpWidth columnsOf
    simp only [hwide, hzero, ← hwide', ← hzero']
    cases wide <;> cases zero <;> rfl

end Cextras.Unicode
