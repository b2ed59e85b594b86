/-
The calls of an interleaving. A thread is between calls, or in one of
several kinds (`call`); it goes from one call to the next only by way of
being between calls. `Calls` is the history that counts, for each kind, the
calls that began and the calls that ended, with the threads inside in
between.

The rule is `Interleaved.calls`: where as many calls of a kind ended as
began, no thread is in one. `Interleaved.ended_eq` relates the count of the
calls that ended to one the program keeps itself.
-/
import Mathlib.Data.List.Basic
import Cextras.Lib.Interleave

namespace Cextras.Lib

variable {θ ι : Type} {Pc : θ → Type} {σ χ : Type}

structure Calls (ι θ : Type) where
  begun : ι → Nat
  ended : ι → Nat
  inside : ι → List θ

namespace Calls

def zero : Calls ι θ := ⟨fun _ => 0, fun _ => 0, fun _ => []⟩

variable [DecidableEq θ] [DecidableEq ι]

/-- Thread `t` is in call `i`. -/
def enter (y : Calls ι θ) (i : ι) (t : θ) : Calls ι θ :=
  if t ∈ y.inside i then y
  else
    { y with
      begun := Function.update y.begun i (y.begun i + 1)
      inside := Function.update y.inside i (t :: y.inside i) }

/-- Thread `t` is in no call. -/
def leave (y : Calls ι θ) (t : θ) : Calls ι θ :=
  { y with
    ended := fun i => if t ∈ y.inside i then y.ended i + 1 else y.ended i
    inside := fun i => (y.inside i).erase t }

/-- What a step to `p` adds. -/
def note (call : (t : θ) → Pc t → Option ι) (t : θ) (p : Pc t)
    (y : Calls ι θ) : Calls ι θ :=
  match call t p with
  | some i => y.enter i t
  | none => y.leave t

/-- The history counts what is there. -/
structure Tracks (call : (t : θ) → Pc t → Option ι) (pc : (t : θ) → Pc t)
    (y : Calls ι θ) : Prop where
  nodup : ∀ i, (y.inside i).Nodup
  inside : ∀ i t, t ∈ y.inside i ↔ call t (pc t) = some i
  begun : ∀ i, y.begun i = y.ended i + (y.inside i).length

variable {call : (t : θ) → Pc t → Option ι} {pc pc' : (t : θ) → Pc t}
  {y : Calls ι θ} {t : θ} {i : ι}

omit [DecidableEq θ] [DecidableEq ι] in
/-- All calls that began have ended. -/
theorem Tracks.outside (h : y.Tracks call pc) (hall : y.begun i = y.ended i)
    (t : θ) : call t (pc t) ≠ some i := by
  have hbegun := h.begun i
  have hnone : y.inside i = [] := List.length_eq_zero_iff.mp (by omega)
  intro hin
  rw [← h.inside i t, hnone] at hin
  cases hin

theorem enter_inside (hnot : t ∉ y.inside i) (j : ι) :
    (y.enter i t).inside j = if j = i then t :: y.inside j else y.inside j := by
  unfold Calls.enter
  rw [if_neg hnot]
  show Function.update y.inside i (t :: y.inside i) j = _
  rw [Function.update_apply]
  split
  · next hj => rw [hj]
  · rfl

theorem enter_begun (hnot : t ∉ y.inside i) (j : ι) :
    (y.enter i t).begun j = if j = i then y.begun j + 1 else y.begun j := by
  unfold Calls.enter
  rw [if_neg hnot]
  show Function.update y.begun i (y.begun i + 1) j = _
  rw [Function.update_apply]
  split
  · next hj => rw [hj]
  · rfl

theorem enter_ended (y : Calls ι θ) (i : ι) (t : θ) :
    (y.enter i t).ended = y.ended := by
  unfold Calls.enter
  split <;> rfl

/-- A step that begins a call. -/
theorem Tracks.enter (h : y.Tracks call pc)
    (hbefore : call t (pc t) = none) (hcall : call t (pc' t) = some i)
    (hother : ∀ u, u ≠ t → pc' u = pc u) : (y.enter i t).Tracks call pc' := by
  have hnot : ∀ j, t ∉ y.inside j := by
    intro j hin
    rw [h.inside j t, hbefore] at hin
    cases hin
  refine ⟨fun j => ?_, fun j u => ?_, fun j => ?_⟩
  · rw [enter_inside (hnot i)]
    split
    · exact List.nodup_cons.mpr ⟨hnot j, h.nodup j⟩
    · exact h.nodup j
  · rw [enter_inside (hnot i)]
    by_cases hu : u = t
    · subst hu
      rw [hcall]
      split
      · next hj => exact iff_of_true List.mem_cons_self (congrArg some hj.symm)
      · next hj =>
          exact iff_of_false (hnot j) fun heq => hj (Option.some.inj heq).symm
    · rw [hother u hu, ← h.inside j u]
      split
      · rw [List.mem_cons, or_iff_right hu]
      · exact Iff.rfl
  · have hbegun := h.begun j
    rw [enter_inside (hnot i), enter_begun (hnot i), enter_ended]
    split
    · rw [List.length_cons]
      omega
    · exact hbegun

omit [DecidableEq ι] in
/-- A step that leads to no call. -/
theorem Tracks.leave (h : y.Tracks call pc) (hcall : call t (pc' t) = none)
    (hother : ∀ u, u ≠ t → pc' u = pc u) :
    (y.leave t).Tracks call pc' := by
  refine ⟨fun j => (h.nodup j).erase t, fun j u => ?_, fun j => ?_⟩
  · show u ∈ (y.inside j).erase t ↔ _
    rw [(h.nodup j).mem_erase_iff]
    by_cases hu : u = t
    · subst hu
      rw [hcall]
      exact iff_of_false (fun hin => hin.1 rfl) nofun
    · rw [hother u hu, ← h.inside j u]
      exact and_iff_right hu
  · have hbegun := h.begun j
    show y.begun j = (if t ∈ y.inside j then y.ended j + 1 else y.ended j)
      + ((y.inside j).erase t).length
    split
    · next hin =>
        have hpos := List.length_pos_of_mem hin
        rw [List.length_erase_of_mem hin]
        omega
    · next hnot =>
        rw [List.erase_of_not_mem hnot]
        exact hbegun

/-- A step, from call to call at most by way of none. -/
theorem Tracks.step (h : y.Tracks call pc)
    (hone : call t (pc t) = none ∨ call t (pc' t) = none
      ∨ call t (pc' t) = call t (pc t))
    (hother : ∀ u, u ≠ t → pc' u = pc u) :
    (y.note call t (pc' t)).Tracks call pc'
      ∧ ∀ i, (y.note call t (pc' t)).ended i = y.ended i
        + if call t (pc t) = some i ∧ call t (pc' t) = none then 1
          else 0 := by
  unfold Calls.note
  cases hcall : call t (pc' t) with
  | none =>
      refine ⟨h.leave hcall hother, fun i => ?_⟩
      show (if t ∈ y.inside i then y.ended i + 1 else y.ended i) = _
      by_cases hin : t ∈ y.inside i
      · rw [if_pos hin, if_pos ⟨(h.inside i t).mp hin, rfl⟩]
      · rw [if_neg hin, if_neg fun hleft => hin ((h.inside i t).mpr hleft.1)]
        rfl
  | some j =>
      have hnever : ∀ i, ¬ (call t (pc t) = some i ∧ some j = none) :=
        fun i hleft => by cases hleft.2
      by_cases hbefore : call t (pc t) = none
      · refine ⟨h.enter hbefore hcall hother, fun i => ?_⟩
        rw [if_neg (hnever i)]
        exact congrFun (enter_ended y j t) i
      · have hsame : call t (pc t) = some j := by
          rcases hone with hnone | hnone | hsame
          · exact absurd hnone hbefore
          · rw [hcall] at hnone
            cases hnone
          · exact hsame.symm.trans hcall
        have hstays : y.enter j t = y := if_pos ((h.inside j t).mpr hsame)
        show (y.enter j t).Tracks call pc' ∧ _
        rw [hstays]
        refine ⟨⟨h.nodup, fun i u => ?_, h.begun⟩, fun i => ?_⟩
        · rw [h.inside i u]
          by_cases hu : u = t
          · subst hu
            rw [hsame, hcall]
          · rw [hother u hu]
        · rw [if_neg (hnever i)]
          exact congrFun (enter_ended y j t) i

end Calls

-- ==================================================================== runs

variable [DecidableEq θ] [DecidableEq ι] {prog : Program Pc σ χ}
  {allowed : (t : θ) → Pc t → σ → Prop} {start : Config Pc σ → Prop}
  {call : (t : θ) → Pc t → Option ι} {c : Config Pc (σ × Calls ι θ)}

/-- The interleavings, with their calls. -/
abbrev Called (prog : Program Pc σ χ) (allowed : (t : θ) → Pc t → σ → Prop)
    (start : Config Pc σ → Prop) (call : (t : θ) → Pc t → Option ι) :
    Config Pc (σ × Calls ι θ) → Prop :=
  Recorded prog allowed start (fun t p y => y.note call t p) Calls.zero

/-- A program whose threads go from call to call by way of none. -/
def Program.OneCall (prog : Program Pc σ χ) (call : (t : θ) → Pc t → Option ι) :
    Prop :=
  ∀ t x p s p' s', prog t x p s = some (p', s') →
    call t p = none ∨ call t p' = none ∨ call t p' = call t p

omit [DecidableEq ι] in
private theorem recorded_step {c' : Config Pc (σ × Calls ι θ)} {t : θ} {x : χ}
    {note : (t : θ) → Pc t → Calls ι θ → Calls ι θ}
    (h : (prog.recorded note).step t x c = some c') :
    prog t x (c.pc t) c.shared.1 = some (c'.pc t, c'.shared.1)
      ∧ c'.shared.2 = note t (c'.pc t) c.shared.2
      ∧ ∀ u, u ≠ t → c'.pc u = c.pc u := by
  obtain ⟨p, s, hrun, hshared, rfl, hother⟩ := Program.step_cases h
  obtain ⟨hstep, hnote⟩ := Program.recorded_cases hrun
  rw [hshared]
  exact ⟨hstep, hnote, hother⟩

/-- The history counts what is there, in every run. -/
theorem Interleaved.calls (h : Called prog allowed start call c)
    (hone : prog.OneCall call)
    (hstart : ∀ c, start c → ∀ t, call t (c.pc t) = none) :
    c.shared.2.Tracks call c.pc := by
  induction h with
  | start h =>
      obtain ⟨hbegin, hnone⟩ := h
      rw [hnone]
      refine ⟨fun _ => List.nodup_nil, fun i t => ?_, fun _ => rfl⟩
      refine iff_of_false List.not_mem_nil fun hin => ?_
      cases (hstart _ hbegin t).symm.trans hin
  | @step c c' t x _ _ hrun ih =>
      obtain ⟨hstep, hnote, hother⟩ := recorded_step hrun
      rw [hnote]
      exact (ih.step (hone _ _ _ _ _ _ hstep) hother).1

/-- A count of the program's own, of the calls of kind `i` that ended. -/
theorem Interleaved.ended_eq (h : Called prog allowed start call c)
    (hone : prog.OneCall call)
    (hstart : ∀ c, start c → ∀ t, call t (c.pc t) = none)
    (i : ι) (count : σ → Nat) (hzero : ∀ c, start c → count c.shared = 0)
    (hcount : ∀ t x p s p' s', prog t x p s = some (p', s') →
      count s' = count s
        + if call t p = some i ∧ call t p' = none then 1 else 0) :
    c.shared.2.ended i = count c.shared.1 := by
  induction h with
  | start h =>
      obtain ⟨hbegin, hnone⟩ := h
      rw [hnone]
      exact (hzero _ hbegin).symm
  | @step c c' t x hrun₀ _ hrun ih =>
      obtain ⟨hstep, hnote, hother⟩ := recorded_step hrun
      have htracks := Interleaved.calls hrun₀ hone hstart
      rw [hnote, (htracks.step (hone _ _ _ _ _ _ hstep) hother).2 i, ih,
        hcount _ _ _ _ _ _ hstep]

end Cextras.Lib
