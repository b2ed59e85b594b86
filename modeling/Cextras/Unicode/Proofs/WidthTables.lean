/-
From the input file of the generator to the answers of the reader: the
flat table marks the code points in the ranges, the printed source is
compiled, and looking a code point up reads the bit of its entry in the
flat table.
-/
import Mathlib.Data.Nat.Bitwise
import Cextras.Unicode.Proofs.RadixTable

namespace Cextras.Unicode

open Lib

variable {table : List Bool} {codepointSize radix cp n : Nat}

-- ============================================================ flat table

/-- The code point is in one of the ranges. -/
def Selected (file : List (Option Range)) (cp : Nat) : Prop :=
  ∃ range, some range ∈ file ∧ range.start ≤ cp ∧ cp ≤ range.stop

/-- The range can be handed to `find_max`: its ends are below
`2 ^ 31 - 1`. -/
def Bounded (file : List (Option Range)) : Prop :=
  ∀ range, some range ∈ file →
    range.start < 2 ^ 31 - 1 ∧ range.stop < 2 ^ 31 - 1

theorem flag_set {i k : Nat} (hi : i < table.length) :
    flag (table.set i true) k = (decide (i = k) || flag table k) := by
  unfold flag
  rw [List.getElem?_set]
  by_cases heq : i = k
  · rw [if_pos heq, if_pos (by omega), decide_eq_true heq, Bool.true_or]
    rfl
  · rw [if_neg heq, decide_eq_false heq, Bool.false_or]

theorem setEntries_spec (table : List Bool) (start n : Nat)
    (h : start + n ≤ table.length) :
    ∃ table', (List.range' start n).foldlM setEntry table = .ok table'
      ∧ table'.length = table.length
      ∧ ∀ k, flag table' k
        = (decide (start ≤ k ∧ k < start + n) || flag table k) := by
  induction n generalizing start table with
  | zero =>
      refine ⟨table, rfl, rfl, ?_⟩
      intro k
      rw [decide_eq_false (by omega), Bool.false_or]
  | succ n ih =>
      have hlt : start < table.length := by omega
      obtain ⟨table', hrun, hlen, hflag⟩ := ih (table.set start true) (start + 1)
        (by rw [List.length_set]; omega)
      rw [List.length_set] at hlen
      refine ⟨table', ?_, hlen, ?_⟩
      · rw [List.range'_succ, List.foldlM_cons]
        unfold setEntry
        rw [if_pos hlt]
        exact hrun
      · intro k
        rw [hflag, flag_set hlt, ← Bool.or_assoc]
        congr 1
        rw [← Bool.decide_or, decide_eq_decide]
        omega

/-- A range within the table is set, and nothing else. -/
theorem setRange_spec (table : List Bool) (start : Nat) {stop : Nat}
    (h : stop < table.length) :
    ∃ table', setRange table start stop = .ok table'
      ∧ table'.length = table.length
      ∧ ∀ k, flag table' k
        = (decide (start ≤ k ∧ k ≤ stop) || flag table k) := by
  by_cases hempty : stop < start
  · refine ⟨table, ?_, rfl, ?_⟩
    · unfold setRange
      rw [Nat.sub_eq_zero_of_le hempty]
      rfl
    · intro k
      rw [decide_eq_false (by omega), Bool.false_or]
  · obtain ⟨table', hrun, hlen, hflag⟩ := setEntries_spec table start
      (stop + 1 - start) (by omega)
    refine ⟨table', hrun, hlen, ?_⟩
    intro k
    rw [hflag]
    congr 1
    rw [decide_eq_decide]
    omega

theorem findMax_step (size : Nat) (line : Option Range) :
    size ≤ findMaxStep size line ∧ (∀ range, line = some range →
      range.stop ≤ findMaxStep size line)
      ∧ (findMaxStep size line = size ∨ ∃ range, line = some range
        ∧ (findMaxStep size line = range.stop
          ∨ findMaxStep size line = range.start)) := by
  cases line with
  | none => exact ⟨Nat.le_refl _, fun _ h => (by cases h), Or.inl rfl⟩
  | some range =>
      unfold findMaxStep
      refine ⟨?_, ?_, ?_⟩
      · dsimp only
        split
        · omega
        · split
          · omega
          · omega
      · intro r hr
        cases hr
        dsimp only
        split
        · omega
        · split
          · omega
          · omega
      · dsimp only
        split
        · exact Or.inr ⟨range, rfl, Or.inl rfl⟩
        · split
          · exact Or.inr ⟨range, rfl, Or.inr rfl⟩
          · exact Or.inl rfl

theorem findMax_foldl (file : List (Option Range)) (size : Nat)
    (hsize : size < 2 ^ 31 - 1) (hfile : Bounded file) :
    size ≤ file.foldl findMaxStep size
      ∧ file.foldl findMaxStep size < 2 ^ 31 - 1
      ∧ ∀ range, some range ∈ file →
        range.stop ≤ file.foldl findMaxStep size := by
  induction file generalizing size with
  | nil => exact ⟨Nat.le_refl _, hsize, fun _ h => (by cases h)⟩
  | cons line file ih =>
      obtain ⟨hle, hstop, hvalue⟩ := findMax_step size line
      have hlt : findMaxStep size line < 2 ^ 31 - 1 := by
        rcases hvalue with heq | ⟨range, hline, heq⟩
        · omega
        · have := hfile range (hline ▸ List.mem_cons_self ..)
          omega
      obtain ⟨hle', hlt', hstop'⟩ := ih _ hlt
        fun range hr => hfile range (List.mem_cons_of_mem _ hr)
      refine ⟨Nat.le_trans hle hle', hlt', ?_⟩
      intro range hr
      rcases List.mem_cons.mp hr with hr | hr
      · exact Nat.le_trans (hstop range hr.symm) hle'
      · exact hstop' range hr

/-- The size of the tables. -/
theorem findMax_spec (file : List (Option Range)) (hfile : Bounded file) :
    ∃ size : Nat, findMax file = size ∧ size < 2 ^ 31
      ∧ ∀ range, some range ∈ file → range.stop < size := by
  obtain ⟨-, hlt, hstop⟩ := findMax_foldl file 0 (by decide) hfile
  refine ⟨file.foldl findMaxStep 0 + 1, ?_, by omega, ?_⟩
  · unfold findMax
    exact Int.bmod_eq_of_le (by omega) (by omega)
  · exact fun range hr => Nat.lt_succ_of_le (hstop range hr)

theorem flatTable_foldlM (file : List (Option Range)) (table : List Bool)
    (hstop : ∀ range, some range ∈ file → range.stop < table.length) :
    ∃ table', file.foldlM (fun table line =>
        match line with
        | none => pure table
        | some range => setRange table range.start range.stop) table
          = (.ok table' : Except Fault (List Bool))
      ∧ table'.length = table.length
      ∧ ∀ k, flag table' k = true ↔ Selected file k ∨ flag table k = true := by
  induction file generalizing table with
  | nil =>
      refine ⟨table, rfl, rfl, ?_⟩
      intro k
      constructor
      · exact Or.inr
      · intro h
        rcases h with ⟨_, hr, _⟩ | h
        · cases hr
        · exact h
  | cons line file ih =>
      have hrest : ∀ range, some range ∈ file → range.stop < table.length :=
        fun range hr => hstop range (List.mem_cons_of_mem _ hr)
      rw [List.foldlM_cons]
      cases line with
      | none =>
          obtain ⟨table', hrun, hlen, hflag⟩ := ih table hrest
          refine ⟨table', hrun, hlen, ?_⟩
          intro k
          rw [hflag, Selected, Selected]
          simp only [List.mem_cons, reduceCtorEq, false_or]
      | some range =>
          obtain ⟨table₁, hrun₁, hlen₁, hflag₁⟩ := setRange_spec table
            range.start (hstop range (List.mem_cons_self ..))
          rw [← hlen₁] at hrest
          obtain ⟨table', hrun, hlen, hflag⟩ := ih table₁ hrest
          refine ⟨table', ?_, hlen.trans hlen₁, ?_⟩
          · dsimp only
            rw [hrun₁]
            exact hrun
          · intro k
            rw [hflag, hflag₁, Bool.or_eq_true, decide_eq_true_iff, Selected,
              Selected]
            constructor
            · intro h
              rcases h with ⟨r, hr, hk⟩ | hk | hk
              · exact Or.inl ⟨r, List.mem_cons_of_mem _ hr, hk⟩
              · exact Or.inl ⟨range, List.mem_cons_self .., hk⟩
              · exact Or.inr hk
            · intro h
              rcases h with ⟨r, hr, hk⟩ | hk
              · rcases List.mem_cons.mp hr with hr | hr
                · cases hr
                  exact Or.inr (Or.inl hk)
                · exact Or.inl ⟨r, hr, hk⟩
              · exact Or.inr (Or.inr hk)

/-- No range is written outside the table. -/
theorem generateFlatTable_spec (file : List (Option Range))
    (hstop : ∀ range, some range ∈ file → range.stop < n) :
    ∃ table, generateFlatTable file n = .ok table ∧ table.length = n
      ∧ ∀ k, flag table k = true ↔ Selected file k := by
  obtain ⟨table, hrun, hlen, hflag⟩ := flatTable_foldlM file
    (List.replicate n false) (by rwa [List.length_replicate])
  rw [List.length_replicate] at hlen
  refine ⟨table, ?_, hlen, ?_⟩
  · unfold generateFlatTable
    rw [if_neg (by omega), Int.toNat_natCast]
    exact hrun
  · intro k
    have hclear : flag (List.replicate n false) k = false := by
      unfold flag
      rw [List.getElem?_replicate]
      split
      · rfl
      · rfl
    rw [hflag, hclear]
    simp

-- ================================================================ reader

theorem and_bit (x k : Nat) : x &&& 1 <<< k ≠ 0 ↔ x.testBit k = true := by
  rw [Nat.one_shiftLeft, Nat.and_two_pow]
  cases x.testBit k with
  | true => simp
  | false => simp

/-- What a lookup reads, when it stays within the arrays. -/
theorem tableLookup_reads {t : CodeTable} {index byte : Byte}
    (hradix : 3 ≤ t.radix ∧ t.radix ≤ 30) (hcp : cp < t.size)
    (hindex : t.lookup[cp / 2 ^ t.radix]? = some index)
    (hfit : index.toNat * 2 ^ t.radix < 2 ^ 31)
    (hbyte : t.tbl[index.toNat * (2 ^ t.radix / 8)
      + cp % 2 ^ t.radix / 8]? = some byte) :
    tableLookup t cp = .ok (byte.toNat.testBit (cp % 8)) := by
  have hdvd : 8 ∣ 2 ^ t.radix := Nat.pow_dvd_pow 2 hradix.1
  unfold tableLookup
  rw [if_neg (by omega), if_neg (by omega), Nat.shiftRight_eq_div_pow]
  simp only [byteAt_ok hindex, Nat.one_shiftLeft, Nat.and_two_pow_sub_one_eq_mod]
  show (if _ then _ else _) = _
  rw [if_neg (by omega), Nat.mul_div_assoc _ hdvd]
  simp only [byteAt_ok hbyte]
  refine congrArg Except.ok ?_
  rw [← Nat.one_shiftLeft, Bool.eq_iff_iff, decide_eq_true_iff]
  exact and_bit _ _

-- ============================================================= agreement

/-- The number of the block entry `i` of the first level names. -/
def blockIndex (st : Level1) (i : Nat) : Nat :=
  (number st.defines (lookupName st i)).getD 0

/-- What is printed once all blocks are. -/
def sourceOf (st : Level1) (codepointSize radix : Nat) : Source where
  defines := st.defines
  tbl := st.tbl
  lookup := (List.range (divideCeil codepointSize (2 ^ radix))).map
    (lookupName st)
  size := codepointSize
  radix := radix

/-- What that compiles to. -/
def tableOf (st : Level1) (codepointSize radix : Nat) : CodeTable where
  lookup := (List.range (divideCeil codepointSize (2 ^ radix))).map
    fun i => UInt8.ofNat (blockIndex st i)
  tbl := st.tbl
  size := codepointSize
  radix := radix

theorem printRadixTable_run (table : List Bool) (codepointSize : Nat)
    (hradix : radix ≤ 30) :
    printRadixTable table codepointSize radix = .ok
      (sourceOf (printBlocks table codepointSize (2 ^ radix)) codepointSize
        radix) := by
  unfold printRadixTable
  rw [if_neg (by omega), Nat.one_shiftLeft]
  rfl

theorem mapM_of_forall {α β : Type} {f : α → Option β} {g : α → β}
    {l : List α} (h : ∀ x ∈ l, f x = some (g x)) :
    l.mapM f = some (l.map g) := by
  induction l with
  | nil => rfl
  | cons x l ih =>
      rw [List.mapM_cons, h x (List.mem_cons_self ..),
        ih fun y hy => h y (List.mem_cons_of_mem _ hy)]
      rfl

/-- Every name in the lookup array is defined. -/
theorem Complete.compile {st : Level1}
    (h : Complete table codepointSize (2 ^ radix) st) :
    (sourceOf st codepointSize radix).compile
      = some (tableOf st codepointSize radix) := by
  unfold Source.compile sourceOf tableOf
  have hnumbers : ((List.range (divideCeil codepointSize (2 ^ radix))).map
      (lookupName st)).mapM (number st.defines)
        = some (((List.range (divideCeil codepointSize (2 ^ radix))).map
          (lookupName st)).map fun name => (number st.defines name).getD 0) := by
    apply mapM_of_forall
    intro name hname
    obtain ⟨i, hi, rfl⟩ := List.mem_map.mp hname
    obtain ⟨f, ⟨p, -, hnumber, -⟩, -⟩ := h.entries i (List.mem_range.mp hi)
    rw [hnumber]
    rfl
  dsimp only
  rw [hnumbers, List.map_map]
  show some _ = some _
  rw [List.map_map]
  rfl

/-- Looking a code point up reads its entry in the flat table. -/
theorem Complete.lookup {st : Level1}
    (h : Complete table codepointSize (2 ^ radix) st)
    (hradix : 3 ≤ radix ∧ radix ≤ 30) (hsize : codepointSize < 2 ^ 31)
    (hblocks : st.defines.length ≤ 256) (hcp : cp < codepointSize) :
    tableLookup (tableOf st codepointSize radix) cp
      = .ok (flag table cp) := by
  have hdvd : 8 ∣ 2 ^ radix := Nat.pow_dvd_pow 2 hradix.1
  have hi := div_lt_divideCeil (y := 2 ^ radix) hcp
  have hj : cp % 2 ^ radix < 2 ^ radix := Nat.mod_lt _ (Nat.two_pow_pos radix)
  have hcp' : cp / 2 ^ radix * 2 ^ radix + cp % 2 ^ radix = cp :=
    Nat.div_add_mod' cp _
  obtain ⟨f, ⟨p, hp, hnumber, hbits⟩, hf⟩ := h.entries _ hi
  obtain ⟨byte, hbyte, hbit⟩ := hbits _ hj
  have hbound := h.bound
  have hcount := h.packed.count
  have hindex : (UInt8.ofNat p).toNat = p := by
    rw [UInt8.toNat_ofNat']
    exact Nat.mod_eq_of_lt (by omega)
  -- the block's number is below the number of entries
  have hfit : p * 2 ^ radix < codepointSize :=
    mul_lt_of_lt_divideCeil (Nat.lt_of_lt_of_le hp hbound)
  have hreads : tableLookup (tableOf st codepointSize radix) cp
      = .ok (byte.toNat.testBit (cp % 8)) := by
    apply tableLookup_reads hradix hcp
    · show ((List.range _).map _)[cp / 2 ^ radix]? = some (UInt8.ofNat p)
      rw [List.getElem?_map, List.getElem?_range hi, Option.map_some]
      unfold blockIndex
      rw [hnumber]
      rfl
    · rw [hindex]
      exact Nat.lt_trans hfit hsize
    · rw [hindex]
      exact hbyte
  have hmod : cp % 8 = cp % 2 ^ radix % 8 := (Nat.mod_mod_of_dvd cp hdvd).symm
  rw [hreads, hmod, hbit, hf _ hj (by omega), hcp']

/-- The generator and the reader agree on what is in the ranges of the
file, and neither leaves its tables. -/
theorem charWidth_tableLookup (file : List (Option Range)) (radix : Nat)
    (hfile : Bounded file) (hradix : 3 ≤ radix ∧ radix ≤ 30) :
    ∃ source, charWidth file radix = .ok source
      ∧ (source.defines.length ≤ 256 →
        ∃ t, source.compile = some t
          ∧ ∀ cp < 2 ^ 32, ∃ b, tableLookup t cp = .ok b
            ∧ (b = true ↔ Selected file cp)) := by
  obtain ⟨size, hmax, hsize, hstop⟩ := findMax_spec file hfile
  obtain ⟨table, hflat, -, hflag⟩ := generateFlatTable_spec file hstop
  have hcomplete := printBlocks_complete table size (Nat.two_pow_pos radix)
    (Nat.pow_dvd_pow 2 hradix.1)
  refine ⟨sourceOf (printBlocks table size (2 ^ radix)) size radix, ?_, ?_⟩
  · unfold charWidth
    rw [hmax]
    dsimp only
    rw [hflat]
    exact printRadixTable_run table size hradix.2
  · intro hblocks
    refine ⟨_, hcomplete.compile, ?_⟩
    intro cp _
    by_cases hcp : cp < size
    · exact ⟨_, hcomplete.lookup hradix hsize hblocks hcp, hflag cp⟩
    · refine ⟨false, if_pos (Nat.not_lt.mp hcp), ?_⟩
      constructor
      · intro h
        cases h
      · intro h
        obtain ⟨range, hr, -, hle⟩ := h
        have := hstop range hr
        omega

/-- Blocks of all three kinds, the last of them partial. -/
theorem charWidth_tableLookup_kinds :
    ∃ source t, charWidth [some ⟨3, 5⟩, none, some ⟨16, 34⟩] 3 = .ok source
      ∧ source.lookup = [.block 0, .null, .full, .full, .full]
      ∧ source.compile = some t
      ∧ ∀ cp < 2 ^ 32, ∃ b, tableLookup t cp = .ok b
        ∧ (b = true ↔ Selected [some ⟨3, 5⟩, none, some ⟨16, 34⟩] cp) := by
  have hfile : Bounded [some ⟨3, 5⟩, none, some ⟨16, 34⟩] := by
    intro range hr
    simp only [List.mem_cons, Option.some.injEq, List.not_mem_nil, or_false,
      reduceCtorEq, false_or] at hr
    rcases hr with rfl | rfl
    · decide
    · decide
  obtain ⟨source, hrun, hagree⟩ := charWidth_tableLookup _ 3 hfile (by decide)
  have hkinds : (charWidth [some ⟨3, 5⟩, none, some ⟨16, 34⟩] 3).map
      (fun source => (source.lookup, source.defines.length))
        = .ok ([.block 0, .null, .full, .full, .full], 3) := by
    decide +kernel
  rw [hrun] at hkinds
  obtain ⟨hlookup, hcount⟩ := Prod.mk.inj (Except.ok.inj hkinds)
  obtain ⟨t, hcompile, hall⟩ := hagree (by omega)
  exact ⟨source, t, hrun, hlookup, hcompile, hall⟩

end Cextras.Unicode
