/-
What collecting leaves allocated. Two buffers grow side by side, any
reallocation of either may be refused, and an iterator may fail at any call;
whichever way `cx_collect` ends, both buffers are gone, and the block it
returns, if it returns one, is the only thing it leaves behind
(`cxCollect_leaks_nothing`).
-/
import Mathlib.Tactic.Abel
import Cextras.Lib.Footprint
import Cextras.Collection.Proofs.CollectorRuns

namespace Cextras.Collection

open Lib

variable {b l v : CxBuffer} {f : Footprint} {G : Prop}

-- ================================================================ buffers

def CxBuffer.footprint (b : CxBuffer) : Footprint :=
  if b.data = 0 then 0 else .block ⟨b.data, b.capacity⟩

theorem CxBuffer.footprint_set (h : b.data ≠ 0) :
    b.footprint = .block ⟨b.data, b.capacity⟩ := if_neg h

/-- Without a block there is no room. -/
def CxBuffer.Regular (b : CxBuffer) : Prop := b.data = 0 → b.capacity = 0

/-- What a step on a buffer leaves, beside `f`. Where it succeeded there is a
block, if there was one or room for something was made. -/
structure BufferStep (f : Footprint) (old : CxBuffer) (n : Nat) (rv : Int)
    (b : CxBuffer) (g : Footprint) : Prop where
  owns : g = f + b.footprint
  regular : b.Regular
  room : 0 ≤ rv → 0 < n ∨ old.data ≠ 0 → b.data ≠ 0

/-- A step that failed, or made no room, left the buffer alone. -/
theorem CxBuffer.Regular.step (h : b.Regular) {n : Nat} {rv : Int}
    (hrv : rv < 0 ∨ n = 0) : BufferStep f b n rv b (f + b.footprint) := by
  refine ⟨rfl, h, fun hpos hn => ?_⟩
  omega

theorem resizeBufferExact_turns (h : b.Regular) {n : Nat} (hn : 0 < n) :
    (resizeBufferExact b n).Turns G (f + b.footprint) fun r g =>
      BufferStep f b n r.1 r.2 g := by
  have hrealloc : (C.realloc b.data n).Turns G (f + b.footprint) fun a g =>
      (a = 0 ∧ g = f + b.footprint) ∨ (a ≠ 0 ∧ g = f + .block ⟨a, n⟩) := by
    unfold C.realloc CxBuffer.footprint
    by_cases hnull : b.data = 0
    · rw [if_pos hnull, if_pos hnull, add_zero]
      refine (turns_malloc hn).imp ?_
      intro a g hr
      rcases hr with ⟨-, ha, hg⟩ | ⟨ha, -, hg⟩
      · exact Or.inl ⟨ha, hg⟩
      · exact Or.inr ⟨ha, hg⟩
    · rw [if_neg hnull, if_neg hnull]
      refine (turns_reallocBlock hn).imp ?_
      intro a g hr
      rcases hr with ⟨-, ha, hg⟩ | ⟨ha, -, hg⟩
      · exact Or.inl ⟨ha, hg⟩
      · exact Or.inr ⟨ha, hg⟩
  unfold resizeBufferExact
  refine turns_bind hrealloc ?_
  intro a g hr
  rcases hr with ⟨rfl, rfl⟩ | ⟨hne, rfl⟩
  · rw [if_pos rfl]
    exact turns_pure (h.step (Or.inl alloc_neg))
  · rw [if_neg hne]
    refine turns_pure ⟨?_, fun h0 => absurd h0 hne, fun _ _ => hne⟩
    exact congrArg (f + ·) (if_neg hne).symm

theorem cxBufferAppend_turns (h : b.Regular) (source : List Byte) :
    (cxBufferAppend b source).Turns G (f + b.footprint) fun r g =>
      BufferStep f b source.length r.1 r.2 g := by
  unfold cxBufferAppend
  refine turns_ite (fun hnil => turns_pure (h.step (Or.inr hnil)))
    fun hsome => ?_
  have hgrow : (cxBufferAddCapacity b source.length).Turns G
      (f + b.footprint) fun r g =>
        BufferStep f b source.length r.1 r.2.2 g := by
    unfold cxBufferAddCapacity addCapacityWith
    refine turns_ite (fun _ => turns_pure (h.step (Or.inl overflow_neg)))
      fun _ => turns_ite (fun hgrow => ?_) fun henough => ?_
    · have hpos : 0 ≤ (roundToNextPow2 (b.size + source.length)).1 →
          0 < (roundToNextPow2 (b.size + source.length)).2 := by
        intro hrv
        rcases roundToNextPow2_rounds (b.size + source.length) with
          ⟨hover, -⟩ | ⟨-, hle⟩
        · rw [hover] at hrv
          exact absurd overflow_neg (Int.not_lt.mpr hrv)
        · omega
      refine turns_ite (fun hneg => turns_pure (h.step (Or.inl hneg)))
        fun hrv => ?_
      have hcap := hpos (Int.not_lt.mp hrv)
      refine turns_bind (resizeBufferExact_turns h hcap) ?_
      intro r g hr
      obtain ⟨rv, b'⟩ := r
      obtain ⟨howns, hregular, hroom⟩ := hr
      refine turns_ite (fun hneg => ?_) fun hrv' => ?_
      · exact turns_pure ⟨howns, hregular, fun hpos' _ => absurd hneg
          (Int.not_lt.mpr hpos')⟩
      · exact turns_pure ⟨howns, hregular, fun _ _ =>
          hroom (Int.not_lt.mp hrv') (Or.inl hcap)⟩
    · refine turns_pure ⟨rfl, h, fun _ hn hnull => ?_⟩
      have hcap := h hnull
      omega
  refine turns_bind hgrow ?_
  intro r g hstep
  obtain ⟨rv, additional, b'⟩ := r
  dsimp only at hstep ⊢
  by_cases hneg : rv < 0
  · rw [if_pos hneg]
    exact turns_pure hstep
  · rw [if_neg hneg]
    have hdata := hstep.room (by omega) (Or.inl (by omega))
    cases additional with
    | none => exact turns_fail _
    | some target =>
        refine turns_after (.writeBytes _ _) fun _ _ => turns_pure ?_
        unfold cxBufferAddSize
        split
        · exact ⟨hstep.owns, hstep.regular, fun _ _ => hdata⟩
        · exact ⟨hstep.owns, hstep.regular, fun _ _ => hdata⟩

/-- A buffer given back, if it has a block. -/
theorem cxBufferCleanup_turns (b : CxBuffer) :
    (cxBufferCleanup b).Turns G (f + b.footprint) fun r g =>
      r.2 = ⟨0, 0, 0⟩ ∧ g = f := by
  unfold cxBufferCleanup CxBuffer.footprint
  by_cases hnull : b.data = 0
  · rw [hnull, if_pos rfl, add_zero]
    exact turns_after still_free_null fun _ _ => turns_pure ⟨rfl, rfl⟩
  · rw [if_neg hnull]
    refine turns_bind turns_free ?_
    rintro _ g rfl
    exact turns_pure ⟨rfl, rfl⟩

-- ============================================================== collecting

/-- The list and the values, and nothing else. -/
structure Pair (l v : CxBuffer) (f : Footprint) : Prop where
  owns : f = l.footprint + v.footprint
  list : l.Regular
  values : v.Regular

theorem Pair.appendList (h : Pair l v f) (source : List Byte) :
    (cxBufferAppend l source).Turns G f fun r g => Pair r.2 v g
      ∧ (0 ≤ r.1 → 0 < source.length ∨ l.data ≠ 0 → r.2.data ≠ 0) := by
  obtain ⟨rfl, hl, hv⟩ := h
  rw [add_comm]
  refine (cxBufferAppend_turns hl source).imp ?_
  intro r g hr
  obtain ⟨rfl, hl', hroom⟩ := hr
  exact ⟨⟨add_comm _ _, hl', hv⟩, hroom⟩

theorem Pair.appendValues (h : Pair l v f) (source : List Byte) :
    (cxBufferAppend v source).Turns G f fun r g => Pair l r.2 g := by
  obtain ⟨rfl, hl, hv⟩ := h
  refine (cxBufferAppend_turns hv source).imp ?_
  intro r g hr
  obtain ⟨rfl, hv', -⟩ := hr
  exact ⟨rfl, hl, hv'⟩

theorem handleNext_turns (h : Pair l v f) (r : NextResult) :
    (handleNext r l v).Turns G f fun x g => Pair x.2.1 x.2.2 g := by
  unfold handleNext
  refine turns_ite (fun _ => turns_pure h) fun _ => ?_
  cases r.value with
  | none => exact turns_pure h
  | some value =>
      refine turns_bind (h.appendList _) fun x g hx => ?_
      refine turns_ite (fun _ => turns_pure hx.1) fun _ => ?_
      refine turns_bind (hx.1.appendValues _) fun y g hy => ?_
      refine turns_ite (fun _ => turns_pure hy) fun _ => ?_
      refine turns_bind (hy.appendValues _) fun z g hz => ?_
      exact turns_ite (fun _ => turns_pure hz) fun _ => turns_pure hz

/-- Whether or not the iterator came to an end. -/
theorem collectLoop_turns (next : Nat → NextResult) (rounds : Nat) :
    ∀ elements l v f, Pair l v f →
      (collectLoop next rounds elements l v).Turns G f fun x g =>
        ∀ y, x = some y → Pair y.2.2.1 y.2.2.2 g := by
  induction rounds with
  | zero => exact fun _ _ _ _ _ => turns_pure fun _ hy => nomatch hy
  | succ rounds ih =>
      intro elements l v f h
      unfold collectLoop
      refine turns_bind (handleNext_turns h _) fun x g hx => ?_
      refine turns_ite (fun _ => ih _ _ _ g hx) fun _ => turns_pure ?_
      intro y hy
      cases hy
      exact hx

theorem rebase_still (result baseSize elements i : Nat) :
    (rebase result baseSize elements i).Still := by
  rw [rebase]
  split
  · refine .bind (.load64 _) fun offset _ => .bind (.store64 _ _) fun _ _ => ?_
    exact rebase_still result baseSize elements (i + 1)
  · exact .pure trivial
termination_by elements - i

theorem cxBufferBytes_still (b : CxBuffer) : (cxBufferBytes b).Still := by
  unfold cxBufferBytes
  exact .ite (fun _ => .pure trivial) fun _ => .readBytes _ _

/-- What the call has to show: the block it returns, if it returns one. -/
def Result (target : Nat) (rv : Int) (result : Nat) (f : Footprint) : Prop :=
  rv < 0 ∧ result = target ∧ f = 0
    ∨ 0 ≤ rv ∧ ∃ size, f = .block ⟨result, size⟩

theorem joinBuffers_turns (h : Pair l v f) (target elements : Nat) :
    (joinBuffers target elements l v).Turns G f fun x g => ∃ g₁ g₂,
      g = g₁ + g₂ ∧ Result target x.1 x.2.1 g₁ ∧ Pair x.2.2.1 x.2.2.2 g₂ := by
  unfold joinBuffers
  refine turns_bind (h.appendList _) ?_
  intro r g hr
  obtain ⟨rv, l₁⟩ := r
  obtain ⟨hpair, hroom⟩ := hr
  refine turns_ite (fun hneg => ?_) fun hrv => ?_
  · exact turns_pure ⟨0, g, (zero_add g).symm, Or.inl ⟨hneg, rfl, rfl⟩, hpair⟩
  have hdata := hroom (Int.not_lt.mp hrv)
    (Or.inl (by rw [leBytes_length]; decide))
  refine turns_after (cxBufferBytes_still v) fun values _ => ?_
  refine turns_bind (hpair.appendList values) ?_
  intro r g hr
  obtain ⟨rv, l₂⟩ := r
  obtain ⟨hpair, hroom⟩ := hr
  refine turns_ite (fun hneg => ?_) fun hrv => ?_
  · exact turns_pure ⟨0, g, (zero_add g).symm, Or.inl ⟨hneg, rfl, rfl⟩, hpair⟩
  have hdata := hroom (Int.not_lt.mp hrv) (Or.inr hdata)
  -- the list's block changes hands
  have hunwrap : ∀ m, (cxBufferUnwrap l₂).run m = .ok (l₂.data, ⟨0, 0, 0⟩) m :=
    fun _ => rfl
  refine turns_after (P := fun r => r = (l₂.data, ⟨0, 0, 0⟩)) ?_ ?_
  · intro m r m' hrun
    rw [hunwrap] at hrun
    cases hrun
    exact ⟨⟨rfl, rfl, rfl⟩, rfl⟩
  · rintro r rfl
    refine turns_after (rebase_still _ _ _ _) fun _ _ => turns_pure
      ⟨.block ⟨l₂.data, l₂.capacity⟩, v.footprint, ?_,
        Or.inr ⟨Int.not_lt.mp hrv, _, rfl⟩, (zero_add _).symm, fun _ => rfl,
        hpair.values⟩
    rw [hpair.owns, CxBuffer.footprint_set hdata]

theorem collectOut_turns (h : Pair l v f) (rv : Int) (target : Nat) :
    (collectOut rv target l v).Turns G f fun x g =>
      x = some (rv, target) ∧ g = 0 := by
  obtain ⟨rfl, -, -⟩ := h
  unfold collectOut
  rw [add_comm]
  refine turns_bind (cxBufferCleanup_turns l) ?_
  intro r g hr
  obtain ⟨-, rfl⟩ := hr
  rw [← zero_add v.footprint]
  refine turns_bind (cxBufferCleanup_turns v) ?_
  intro r g hr
  obtain ⟨-, rfl⟩ := hr
  exact turns_pure ⟨rfl, rfl⟩

theorem cxCollect_turns (target : Nat) (next : Nat → NextResult)
    (rounds : Nat) :
    (cxCollect target next rounds).Turns G 0 fun x g =>
      ∀ y, x = some y → Result target y.1 y.2 g := by
  have hempty : Pair ⟨0, 0, 0⟩ ⟨0, 0, 0⟩ 0 :=
    ⟨(add_zero 0).symm, fun _ => rfl, fun _ => rfl⟩
  unfold cxCollect cxBufferInit
  simp only [if_neg (Int.lt_irrefl 0)]
  refine turns_bind (collectLoop_turns next rounds 0 _ _ 0 hempty) ?_
  intro x g hx
  cases x with
  | none => exact turns_pure fun _ hy => nomatch hy
  | some y =>
      obtain ⟨rv, elements, l, v⟩ := y
      have hpair := hx _ rfl
      refine turns_ite (fun hneg => ?_) fun _ => ?_
      · refine (collectOut_turns hpair rv target).imp ?_
        intro _ g hr y hy
        obtain ⟨rfl, rfl⟩ := hr
        cases hy
        exact Or.inl ⟨hneg, rfl, rfl⟩
      · refine turns_bind (joinBuffers_turns hpair target elements) ?_
        intro r g hr
        obtain ⟨rv, result, l, v⟩ := r
        obtain ⟨g₁, g₂, rfl, hresult, hpair⟩ := hr
        refine turns_part g₁ (collectOut_turns hpair rv result) ?_
        intro _ g hr y hy
        obtain ⟨rfl, rfl⟩ := hr
        cases hy
        rw [add_zero]
        exact hresult

-- =================================================================== leaks

/-- What a call leaves allocated: nothing where it failed, and one block, the
one it returns, where it did not. -/
structure CollectLeaves (target : Nat) (m m' : Machine) (rv : Int)
    (result : Nat) : Prop where
  failed : rv < 0 → result = target ∧ m'.arena.blocks.Perm m.arena.blocks
  collected : 0 ≤ rv → rv = 0
    ∧ ∃ size, m'.arena.blocks.Perm (⟨result, size⟩ :: m.arena.blocks)
  arrays : m'.arrays.Perm m.arrays

theorem CollectResult.zero {next : Nat → NextResult} {rounds target : Nat}
    {m m' : Machine} {rv : Int} {result : Nat}
    (h : CollectResult next rounds target m m' (some (rv, result)))
    (hrv : 0 ≤ rv) : rv = 0 := by
  cases h with
  | collected => rfl
  | stopped _ hfails => exact absurd hfails (Int.not_lt.mpr hrv)
  | unfilled _ hdenied => exact absurd hdenied.neg (Int.not_lt.mpr hrv)
  | unjoined _ _ _ hdenied => exact absurd hdenied.neg (Int.not_lt.mpr hrv)

/-- Whatever the iterator does and whichever requests are refused, a call
that comes to an end leaks nothing. It does come to an end, unless the
iterator goes on for all the rounds. -/
theorem cxCollect_leaks_nothing {m : Machine} (htidy : m.Tidy)
    (next : Nat → NextResult) (rounds target : Nat) :
    ∃ r m', (cxCollect target next rounds).run m = .ok r m'
      ∧ (∀ rv result, r = some (rv, result) →
        CollectLeaves target m m' rv result)
      ∧ (r = none → ∃ us, Yields next us ∧ us.length = rounds) := by
  obtain ⟨r, m', hrun, hresult⟩ :=
    cxCollect_result htidy.solid target next rounds
  obtain ⟨-, g, hleft, hheld⟩ := cxCollect_turns (G := False) target next rounds
    m.held m r m' htidy (add_zero _).symm hrun False.elim
  refine ⟨r, m', hrun, ?_, ?_⟩
  · rintro rv result rfl
    have harrays : m'.arrays.Perm m.arrays := by
      have heq := congrArg Prod.snd hheld
      rcases hleft _ rfl with ⟨-, -, rfl⟩ | ⟨-, size, rfl⟩
      · exact Multiset.coe_eq_coe.mp (heq.trans (add_zero _))
      · exact Multiset.coe_eq_coe.mp (heq.trans (add_zero _))
    have heq := congrArg Prod.fst hheld
    refine ⟨fun hneg => ?_, fun hpos => ⟨hresult.zero hpos, ?_⟩, harrays⟩
    · rcases hleft _ rfl with ⟨-, hsame, rfl⟩ | ⟨hpos, -⟩
      · exact ⟨hsame, Multiset.coe_eq_coe.mp (heq.trans (add_zero _))⟩
      · exact absurd hneg (Int.not_lt.mpr hpos)
    · rcases hleft _ rfl with ⟨hneg, -⟩ | ⟨-, size, rfl⟩
      · exact absurd hneg (Int.not_lt.mpr hpos)
      · refine ⟨size, Multiset.coe_eq_coe.mp (heq.trans ?_)⟩
        exact (congrArg Prod.fst
          (Footprint.blocks_cons ⟨result, size⟩ m.arena.blocks)).symm
  · rintro rfl
    cases hresult with
    | @unfinished us hy hlen => exact ⟨us, hy, hlen⟩

/-- The third request, for the second value, is refused beside a block of
someone else's, which is what is left. -/
theorem cxCollect_leaks_nothing_refused :
    ∃ m₀ m' : Machine, m₀.arena.blocks = [⟨4096, 16⟩]
      ∧ (cxCollect 7 (fun i => ⟨0, [[97], [98, 99]][i]?⟩) 3).run m₀
        = .ok (some (-cxErrAlloc, 7)) m'
      ∧ m'.arena.blocks = [⟨4096, 16⟩] := by
  let arena : Arena := ⟨[⟨4096, 16⟩], by simp, by simp⟩
  let m₀ : Machine := ⟨fun _ => 0, arena, [],
    fun t => if t = 2 then 0 else 2 ^ 20 * (t + 1), 0, false, []⟩
  have htidy : m₀.Tidy :=
    ⟨by simp [m₀, arena, Arena.Solid], by simp [m₀], by simp [m₀]⟩
  obtain ⟨r, m', hrun, hleaves, -⟩ := cxCollect_leaks_nothing htidy
    (fun i => ⟨0, [[97], [98, 99]][i]?⟩) 3 7
  have hvalue := congrArg Outcome.value hrun
  have hrv : ((cxCollect 7 (fun i => ⟨0, [[97], [98, 99]][i]?⟩) 3).run
      m₀).value = some (some (-cxErrAlloc, 7)) := by
    decide +kernel
  obtain rfl : some (-cxErrAlloc, 7) = r :=
    Option.some.inj (hrv.symm.trans hvalue)
  have hblocks := ((hleaves _ _ rfl).failed alloc_neg).2
  exact ⟨m₀, m', rfl, hrun, List.perm_singleton.mp hblocks⟩

end Cextras.Collection
