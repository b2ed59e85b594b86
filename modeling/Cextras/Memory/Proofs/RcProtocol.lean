/-
Who frees a shared object, and when. The count is the number of references,
modulo 2^32. So as long as there are never more than 2^32 of them at a time,
the release that gives up the last one is the only one that returns true:
nobody frees the object before that, one thread does after it, and nobody
uses it any more (`cxRc_lastRelease`).

The bound is exact: with one reference more the count is 1 again, and the
run does not get back below without a release that returns true and leaves
2^32 references behind.
-/
import Mathlib.Algebra.Group.Nat.Defs
import Mathlib.Data.List.Basic
import Cextras.Memory.Rc

namespace Cextras.Memory

open Lib

variable {θ : Type} [DecidableEq θ] {s s' : RcObject θ} {t u owner : θ}
  {p p' : RcPc} {c : RcConfig θ}

-- ================================================================== steps

/-- The ways a step of a thread can go. -/
inductive RcRule (t : θ) (s : RcObject θ) :
    RcPc → RcPc → RcObject θ → Prop where
  | use : t ∈ s.holders → RcRule t s .idle .idle s.access
  | retain : t ∈ s.holders → RcRule t s .idle .idle (s.access.retain t)
  | give {u : θ} : t ∈ s.holders → RcRule t s .idle .idle (s.give t u)
  | releaseLast : t ∈ s.holders → s.rc.count = 1 →
      RcRule t s .idle .freeing (s.access.release t)
  | releaseMore : t ∈ s.holders → s.rc.count ≠ 1 →
      RcRule t s .idle .idle (s.access.release t)
  | free : RcRule t s .freeing .idle (s.free t)

theorem rcStep_rule {x : RcChoice θ} (h : rcStep t x s p = some (p', s')) :
    RcRule t s p p' s' := by
  cases p with
  | idle =>
      simp only [rcStep] at h
      split at h
      case isFalse => cases h
      case isTrue hin =>
        cases x with
        | use =>
            cases h
            exact .use hin
        | retain =>
            cases h
            exact .retain hin
        | give u =>
            cases h
            exact .give hin
        | release =>
            cases h
            split
            · next hone => exact .releaseLast hin (beq_iff_eq.mp hone)
            · next hmore => exact .releaseMore hin (mt beq_iff_eq.mpr hmore)
        | free => cases h
  | freeing =>
      cases x with
      | free =>
          cases h
          exact .free
      | _ => cases h

-- ============================================================= invariants

/-- What holds while there were never more than 2^32 references: either some
are left and the object is there, or one thread has to free it or did. -/
structure RcSound (s : RcObject θ) : Prop where
  early : s.book.early = 0
  dangling : s.book.dangling = 0
  ended : s.book.freeing.length + s.book.freed
    = if s.holders = [] then 1 else 0

structure RcInv (s : RcObject θ) : Prop where
  count : s.rc.count.toNat = s.holders.length % 2 ^ 32
  peak : s.holders.length ≤ s.book.peak
  nodup : s.book.freeing.Nodup
  sound : s.book.peak ≤ 2 ^ 32 → RcSound s
  /-- the way back down leads through an early release -/
  high : 2 ^ 32 < s.book.peak → s.book.early = 0 → 2 ^ 32 < s.holders.length

/-- What thread `t` knows. -/
def RcKnows (t : θ) (p : RcPc) (s : RcObject θ) : Prop :=
  p = .freeing ↔ t ∈ s.book.freeing

omit [DecidableEq θ] in
/-- While somebody holds a reference the object is there. -/
theorem RcSound.live (h : RcSound s) (hin : t ∈ s.holders) :
    s.book.freeing = [] ∧ s.book.freed = 0 := by
  have hended := h.ended
  rw [if_neg (List.ne_nil_of_mem hin)] at hended
  exact ⟨List.length_eq_zero_iff.mp (by omega), by omega⟩

omit [DecidableEq θ] in
theorem RcSound.access (h : RcSound s) (hin : t ∈ s.holders) :
    s.access = s := by
  unfold RcObject.access
  rw [if_pos (h.live hin).2]
  rfl

omit [DecidableEq θ] in
theorem RcInv.access (h : RcInv s) (hin : t ∈ s.holders) : RcInv s.access where
  count := h.count
  peak := h.peak
  nodup := h.nodup
  sound hpeak := by
    rw [(h.sound hpeak).access hin]
    exact h.sound hpeak
  high := h.high

omit [DecidableEq θ] in
theorem RcInv.retain (h : RcInv s) (hin : t ∈ s.holders) :
    RcInv (s.retain t) where
  count := by
    have hcount := h.count
    show (s.rc.count + 1).toNat = (s.holders.length + 1) % 2 ^ 32
    rw [UInt32.toNat_add, UInt32.toNat_one]
    omega
  peak := Nat.le_max_right _ _
  nodup := h.nodup
  sound hpeak := by
    have hbefore : s.book.peak ≤ 2 ^ 32 :=
      Nat.le_trans (Nat.le_max_left _ _) hpeak
    obtain ⟨hnone, hthere⟩ := (h.sound hbefore).live hin
    refine ⟨(h.sound hbefore).early, (h.sound hbefore).dangling, ?_⟩
    show s.book.freeing.length + s.book.freed = _
    rw [hnone, hthere]
    rfl
  high hpeak hearly := by
    have hpeak' : 2 ^ 32 < max s.book.peak (s.holders.length + 1) := hpeak
    show 2 ^ 32 < s.holders.length + 1
    by_cases hbefore : 2 ^ 32 < s.book.peak
    · exact Nat.lt_succ_of_lt (h.high hbefore hearly)
    · omega

theorem RcInv.give (h : RcInv s) (hin : t ∈ s.holders) : RcInv (s.give t u) := by
  have hlen : (u :: s.holders.erase t).length = s.holders.length := by
    have hpos := List.length_pos_of_mem hin
    rw [List.length_cons, List.length_erase_of_mem hin]
    omega
  refine ⟨?_, ?_, h.nodup, fun hpeak => ?_, ?_⟩
  · exact h.count.trans (congrArg (· % 2 ^ 32) hlen.symm)
  · exact Nat.le_trans (Nat.le_of_eq hlen) h.peak
  · obtain ⟨hnone, hthere⟩ := (h.sound hpeak).live hin
    refine ⟨(h.sound hpeak).early, (h.sound hpeak).dangling, ?_⟩
    show s.book.freeing.length + s.book.freed = _
    rw [hnone, hthere]
    rfl
  · intro hpeak hearly
    exact Nat.lt_of_lt_of_eq (h.high hpeak hearly) hlen.symm

theorem release_last (hone : s.rc.count = 1) :
    (s.release t).book.freeing = t :: s.book.freeing
      ∧ (s.release t).book.early
        = s.book.early + if s.holders.erase t = [] then 0 else 1 := by
  refine ⟨by simp [RcObject.release, cxRcRelease, hone], ?_⟩
  by_cases hleft : s.holders.erase t = []
  · simp [RcObject.release, cxRcRelease, hleft]
  · simp [RcObject.release, cxRcRelease, hone, hleft]

theorem release_more (hmore : s.rc.count ≠ 1) :
    (s.release t).book.freeing = s.book.freeing
      ∧ (s.release t).book.early = s.book.early := by
  simp [RcObject.release, cxRcRelease, hmore]

theorem RcSound.release (h : RcSound s) (hin : t ∈ s.holders)
    (hlast : s.rc.count = 1 ↔ s.holders.erase t = []) :
    RcSound (s.release t) := by
  obtain ⟨hnone, hthere⟩ := h.live hin
  have hholders : (s.release t).holders = s.holders.erase t := rfl
  have hfreed : (s.release t).book.freed = s.book.freed := rfl
  by_cases hone : s.rc.count = 1
  · obtain ⟨hfreeing, hearly⟩ := release_last (t := t) hone
    refine ⟨?_, h.dangling, ?_⟩
    · rw [hearly, if_pos (hlast.mp hone)]
      exact h.early
    · rw [hfreeing, hnone, hfreed, hthere, hholders, if_pos (hlast.mp hone)]
      rfl
  · obtain ⟨hfreeing, hearly⟩ := release_more (t := t) hone
    refine ⟨hearly.trans h.early, h.dangling, ?_⟩
    rw [hfreeing, hnone, hfreed, hthere, hholders, if_neg (mt hlast.mpr hone)]
    rfl

theorem RcInv.release (h : RcInv s) (hin : t ∈ s.holders)
    (hnot : t ∉ s.book.freeing) : RcInv (s.release t) := by
  have hcount := h.count
  have hpos := List.length_pos_of_mem hin
  have hlen : (s.release t).holders.length = s.holders.length - 1 :=
    List.length_erase_of_mem hin
  have hleft : s.holders.erase t = [] ↔ s.holders.length = 1 := by
    rw [← List.length_eq_zero_iff, List.length_erase_of_mem hin]
    omega
  have hone : s.rc.count = 1 ↔ s.rc.count.toNat = 1 := UInt32.toNat_inj.symm
  have hdown : (s.release t).rc.count.toNat
      = (2 ^ 32 - 1 + s.rc.count.toNat) % 2 ^ 32 := UInt32.toNat_sub _ _
  have hpeak : (s.release t).book.peak = s.book.peak := rfl
  refine ⟨?_, ?_, ?_, fun hlow => ?_, fun hhigh hearly => ?_⟩
  · omega
  · rw [hlen, hpeak]
    exact Nat.le_trans (Nat.sub_le _ _) h.peak
  · by_cases hlast : s.rc.count = 1
    · rw [(release_last hlast).1]
      exact List.nodup_cons.mpr ⟨hnot, h.nodup⟩
    · rw [(release_more hlast).1]
      exact h.nodup
  · -- below the bound the count is 1 only at the last reference
    have hmost := h.peak
    refine (h.sound hlow).release hin ?_
    rw [hleft, hone]
    omega
  · -- and above it at 2^32 + 1 references, which is the way down
    rw [hpeak] at hhigh
    by_cases hlast : s.rc.count = 1
    · rw [(release_last hlast).2] at hearly
      have hnone : s.holders.erase t = [] := by
        by_contra hsome
        rw [if_neg hsome] at hearly
        exact Nat.succ_ne_zero _ hearly
      rw [if_pos hnone] at hearly
      have hmany := h.high hhigh hearly
      have hsole := hleft.mp hnone
      omega
    · rw [(release_more hlast).2] at hearly
      have hmany := h.high hhigh hearly
      rw [hone] at hlast
      omega

theorem RcInv.free (h : RcInv s) (hin : t ∈ s.book.freeing) :
    RcInv (s.free t) where
  count := h.count
  peak := h.peak
  nodup := h.nodup.erase t
  sound hpeak := by
    have hended := (h.sound hpeak).ended
    have hpos := List.length_pos_of_mem hin
    refine ⟨(h.sound hpeak).early, (h.sound hpeak).dangling, ?_⟩
    show (s.book.freeing.erase t).length + (s.book.freed + 1)
      = if s.holders = [] then 1 else 0
    rw [List.length_erase_of_mem hin]
    omega
  high := h.high

/-- What every step of `t` establishes. -/
theorem RcRule.step (h : RcRule t s p p' s') (hinv : RcInv s)
    (hk : RcKnows t p s) :
    RcInv s' ∧ RcKnows t p' s'
      ∧ ∀ u, u ≠ t → (u ∈ s'.book.freeing ↔ u ∈ s.book.freeing) := by
  cases h with
  | use hin => exact ⟨hinv.access hin, hk, fun _ _ => Iff.rfl⟩
  | retain hin =>
      exact ⟨(hinv.access hin).retain hin, hk, fun _ _ => Iff.rfl⟩
  | give hin => exact ⟨hinv.give hin, hk, fun _ _ => Iff.rfl⟩
  | releaseLast hin hone =>
      have hnot : t ∉ s.book.freeing := fun hfree => by cases hk.mpr hfree
      have hfreeing : (s.access.release t).book.freeing
          = t :: s.book.freeing := (release_last hone).1
      refine ⟨(hinv.access hin).release hin hnot, ?_, ?_⟩
      · refine iff_of_true rfl ?_
        rw [hfreeing]
        exact List.mem_cons_self
      · intro u hu
        rw [hfreeing, List.mem_cons, or_iff_right hu]
  | releaseMore hin hone =>
      have hnot : t ∉ s.book.freeing := fun hfree => by cases hk.mpr hfree
      have hfreeing : (s.access.release t).book.freeing = s.book.freeing :=
        (release_more hone).1
      refine ⟨(hinv.access hin).release hin hnot, ?_, ?_⟩
      · exact hk.trans (by rw [hfreeing])
      · intro u _
        rw [hfreeing]
  | free =>
      refine ⟨hinv.free (hk.mp rfl), ?_, ?_⟩
      · refine iff_of_false (fun h => by cases h) ?_
        exact fun hin => (hinv.nodup.mem_erase_iff.mp hin).1 rfl
      · intro u hu
        exact List.mem_erase_of_ne hu

theorem RcRun.inv (h : RcRun owner c) :
    RcInv c.shared ∧ ∀ t, RcKnows t (c.pc t) c.shared := by
  refine Interleaved.rely h (fun _ => True) RcInv RcKnows
    (fun u s s' => u ∈ s'.book.freeing ↔ u ∈ s.book.freeing)
    (fun _ _ _ _ _ _ _ _ => trivial) ?_ ?_ ?_ trivial
  · rintro c rfl
    refine ⟨⟨rfl, Nat.le_refl 1, List.nodup_nil, fun _ => ⟨rfl, rfl, rfl⟩, ?_⟩,
      fun t => iff_of_false (fun h => by cases h) List.not_mem_nil⟩
    intro hpeak
    exact absurd hpeak (by simp [rcStart, RcObject.start])
  · exact fun t x p s p' s' hstep _ _ hinv hk =>
      (rcStep_rule hstep).step hinv hk
  · exact fun t p s s' hrely hk => hk.trans hrely.symm

-- =================================================================== runs

/-- Whose turn it is to free the object. -/
structure RcOwned (c : RcConfig θ) : Prop where
  /-- while there are references, nobody's -/
  held : c.shared.holders ≠ [] →
    c.shared.book.freed = 0 ∧ ∀ t, c.pc t = .idle
  /-- when the last one is gone, one thread's, which does it once -/
  gone : c.shared.holders = [] →
    c.shared.book.freed = 0 ∧ (∃! t, c.pc t = .freeing)
      ∨ c.shared.book.freed = 1 ∧ ∀ t, c.pc t = .idle
  /-- a release returned true only to the thread that gave up the last one -/
  early : c.shared.book.early = 0
  /-- and nobody used the object after it was freed -/
  dangling : c.shared.book.dangling = 0

/-- The reference count works as long as there are at most 2^32 references at
a time. A run with more does not get back to that without a release that
returns true too early. -/
theorem cxRc_lastRelease (h : RcRun owner c) :
    (c.shared.book.peak ≤ 2 ^ 32 →
      c.shared.rc.count.toNat = c.shared.holders.length % 2 ^ 32 ∧ RcOwned c)
      ∧ (2 ^ 32 < c.shared.book.peak → c.shared.holders.length ≤ 2 ^ 32 →
        c.shared.book.early ≠ 0) := by
  obtain ⟨hinv, hk⟩ := h.inv
  have hidle : c.shared.book.freeing = [] → ∀ t, c.pc t = .idle := by
    intro hnone t
    cases hpc : c.pc t with
    | idle => rfl
    | freeing =>
        have hin := (hk t).mp hpc
        rw [hnone] at hin
        cases hin
  refine ⟨fun hpeak => ⟨hinv.count, ?_⟩, fun hpeak hlow hearly => ?_⟩
  · have hsound := hinv.sound hpeak
    have hended := hsound.ended
    refine ⟨fun hsome => ?_, fun hnone => ?_, hsound.early, hsound.dangling⟩
    · rw [if_neg hsome] at hended
      exact ⟨by omega, hidle (List.length_eq_zero_iff.mp (by omega))⟩
    · rw [if_pos hnone] at hended
      cases hfreeing : c.shared.book.freeing with
      | nil =>
          rw [hfreeing] at hended
          refine Or.inr ⟨?_, hidle hfreeing⟩
          rw [List.length_nil] at hended
          omega
      | cons t rest =>
          rw [hfreeing, List.length_cons] at hended
          have hrest : rest = [] := List.length_eq_zero_iff.mp (by omega)
          subst hrest
          refine Or.inl ⟨by omega, t, ?_, ?_⟩
          · exact (hk t).mpr (by rw [hfreeing]; exact List.mem_singleton_self t)
          · intro u hu
            have hin := (hk u).mp hu
            rw [hfreeing] at hin
            exact List.mem_singleton.mp hin
  · exact absurd (hinv.high hpeak hearly) (Nat.not_lt.mpr hlow)

-- the run that goes past the bound

/-- A thread may take any number of references. -/
theorem rcRun_retains (owner : θ) (n : Nat) :
    ∃ c, RcRun owner c ∧ c.pc owner = .idle
      ∧ c.shared.holders = List.replicate (n + 1) owner
      ∧ c.shared.book.peak = n + 1 := by
  induction n with
  | zero => exact ⟨rcStart owner, .start rfl, rfl, rfl, rfl⟩
  | succ n ih =>
      obtain ⟨c, hrun, hpc, hholders, hpeak⟩ := ih
      have hin : owner ∈ c.shared.holders := by
        rw [hholders]
        exact List.mem_replicate.mpr ⟨Nat.succ_ne_zero n, rfl⟩
      have hstep : rcProgram θ owner .retain (c.pc owner) c.shared
          = some (.idle, c.shared.access.retain owner) := by
        rw [hpc]
        exact if_pos hin
      refine ⟨_, hrun.step (t := owner) (x := .retain) trivial
        (Option.map_eq_some_iff.mpr ⟨_, hstep, rfl⟩), ?_, ?_, ?_⟩
      · exact Function.update_self ..
      · show owner :: c.shared.holders = _
        rw [hholders]
        rfl
      · show max c.shared.book.peak (c.shared.holders.length + 1) = _
        rw [hpeak, hholders, List.length_replicate]
        exact Nat.max_eq_right (Nat.le_succ _)

theorem rcRun_release (h : RcRun owner c) (hin : owner ∈ c.shared.holders)
    (hpc : c.pc owner = .idle) :
    ∃ c', RcRun owner c'
      ∧ c'.shared = c.shared.access.release owner := by
  have hstep : rcProgram θ owner .release (c.pc owner) c.shared
      = some (if (cxRcRelease c.shared.rc).1 then .freeing else .idle,
        c.shared.access.release owner) := by
    rw [hpc]
    exact if_pos hin
  exact ⟨_, h.step (t := owner) (x := .release) trivial
    (Option.map_eq_some_iff.mpr ⟨_, hstep, rfl⟩), rfl⟩

/-- Thread 0 hands a reference to thread 1 and gives up its own, and thread 1
gives up the last one: it has to free the object. And thread 0 takes 2^32
references more than its own: the release of one of them is early. -/
theorem cxRc_lastRelease_handed :
    (∃ c : RcConfig Nat, RcOwned c ∧ c.pc 1 = .freeing)
      ∧ ∃ c : RcConfig Nat, RcRun 0 c
        ∧ c.shared.holders.length = 2 ^ 32 ∧ c.shared.book.early ≠ 0 := by
  constructor
  · have h : ((rcProgram Nat).follow
        [(0, .retain), (0, .give 1), (0, .release), (1, .use), (1, .release)]
        (rcStart 0)).any
        (fun c => decide (c.shared.book.peak = 2 ∧ c.pc 1 = .freeing))
        = true := by decide +kernel
    obtain ⟨c, hrun, htest⟩ := (Option.any_eq_true _ _).mp h
    obtain ⟨hpeak, hpc⟩ := of_decide_eq_true htest
    have hreach : RcRun 0 c :=
      Interleaved.follow (.start rfl) (fun _ _ _ _ => trivial) hrun
    have hlow : c.shared.book.peak ≤ 2 ^ 32 := by
      rw [hpeak]
      decide
    exact ⟨c, ((cxRc_lastRelease hreach).1 hlow).2, hpc⟩
  · obtain ⟨c, hrun, hpc, hholders, hpeak⟩ := rcRun_retains (0 : Nat) (2 ^ 32)
    have hin : 0 ∈ c.shared.holders := by
      rw [hholders]
      exact List.mem_replicate.mpr ⟨Nat.succ_ne_zero _, rfl⟩
    obtain ⟨c', hrun', hshared⟩ := rcRun_release hrun hin hpc
    have hlen : c'.shared.holders.length = 2 ^ 32 := by
      have herase : (c.shared.holders.erase 0).length
          = c.shared.holders.length - 1 := List.length_erase_of_mem hin
      rw [hshared]
      refine herase.trans ?_
      rw [hholders, List.length_replicate, Nat.add_sub_cancel]
    have hhigh : 2 ^ 32 < c'.shared.book.peak := by
      rw [hshared]
      exact Nat.lt_of_lt_of_eq (Nat.lt_succ_self _) hpeak.symm
    exact ⟨c', hrun', hlen,
      (cxRc_lastRelease hrun').2 hhigh (Nat.le_of_eq hlen)⟩

end Cextras.Memory
