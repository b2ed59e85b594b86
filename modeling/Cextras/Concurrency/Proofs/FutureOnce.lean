/-
A future that is also resolved with null. Null marks a future that is not
resolved, so a resolve with null that finds it so stores null and returns
0, and it stays unresolved: the next resolve returns 0 as well, and waits
go on falling asleep.

As long as every resolve with null comes late, to a future that is resolved
already, it is turned back like any other late one. So its argument does
not matter, and the run is one without null but for the names of the
arguments (`FutureRun.relabel`); what is known of those runs
(FutureAgreement.lean) carries over.
-/
import Cextras.Concurrency.Proofs.FutureAgreement

namespace Cextras.Concurrency

open Lib

variable {θ : Type} [DecidableEq θ] {s s' : CxFuture θ} {t u : θ}
  {p p' : FuturePc} {cfg cfg' : FutureConfig θ}

/-- A resolve with null finds the future resolved. -/
def NullLate (_ : θ) (p : FuturePc) (s : CxFuture θ) : Prop :=
  p = .resolveTest 0 → s.outValue ≠ 0

-- ============================================================= relabelling

/-- Any argument will do for null. -/
def lateValue (value : Nat) : Nat := if value = 0 then 1 else value

theorem lateValue_ne_zero (value : Nat) : lateValue value ≠ 0 := by
  unfold lateValue
  split <;> omega

theorem lateValue_of_ne {value : Nat} (h : value ≠ 0) :
    lateValue value = value := if_neg h

/-- The argument and the return code of a resolve that returned. -/
def relabelResult (r : Nat × Int) : Nat × Int :=
  if r.2 = 0 then r else (lateValue r.1, r.2)

@[simp] theorem relabelResult_snd (r : Nat × Int) :
    (relabelResult r).2 = r.2 := by
  unfold relabelResult
  split <;> rfl

namespace FuturePc

def relabel : FuturePc → FuturePc
  | .resolveLock value => .resolveLock (lateValue value)
  | .resolveTest value => .resolveTest (lateValue value)
  | .resolveUnlock value rv =>
      .resolveUnlock (relabelResult (value, rv)).1 rv
  | p => p

@[simp] theorem relabel_held (p : FuturePc) : p.relabel.held = p.held := by
  cases p <;> rfl

end FuturePc

def FutureChoice.relabel : FutureChoice → FutureChoice
  | .resolve value => .resolve (lateValue value)
  | x => x

namespace CxFuture

def relabel (s : CxFuture θ) : CxFuture θ :=
  { s with book.resolved := s.book.resolved.map relabelResult }

omit [DecidableEq θ] in
theorem relabel_lock (h : s.lock t = some s') :
    s.relabel.lock t = some s'.relabel := by
  obtain ⟨y, hy, rfl⟩ := lock_cases h
  unfold lock relabel
  rw [hy]
  rfl

theorem relabel_relock (h : s.relock t = some s') :
    s.relabel.relock t = some s'.relabel := by
  obtain ⟨y, hy, rfl⟩ := Option.map_eq_some_iff.mp h
  unfold relock relabel
  rw [hy]
  rfl

end CxFuture

/-- A step of the relabelled thread, unless null is about to be stored. -/
theorem futureStep_relabel {x : FutureChoice}
    (h : futureStep t x s p = some (p', s')) (hlate : NullLate t p s) :
    futureStep t x.relabel s.relabel p.relabel
      = some (p'.relabel, s'.relabel) := by
  cases p with
  | idle =>
      cases x with
      | wait =>
          cases h
          rfl
      | resolve value =>
          cases h
          rfl
      | _ => cases h
  | waitLock =>
      obtain ⟨s₁, hlock, hs⟩ := Option.bind_eq_some_iff.mp h
      cases hs
      exact Option.bind_eq_some_iff.mpr ⟨_, CxFuture.relabel_lock hlock, rfl⟩
  | waitTest =>
      simp only [futureStep] at h
      show (if s.outValue = 0 then _ else _) = _
      split at h
      · next hnull =>
          cases h
          exact if_pos hnull
      · next hfound =>
          cases h
          exact if_neg hfound
  | blocked =>
      cases x with
      | spurious =>
          cases h
          rfl
      | _ =>
          obtain ⟨s₁, hrelock, hs⟩ := Option.bind_eq_some_iff.mp h
          cases hs
          exact Option.bind_eq_some_iff.mpr
            ⟨_, CxFuture.relabel_relock hrelock, rfl⟩
  | resolveLock value =>
      obtain ⟨s₁, hlock, hs⟩ := Option.bind_eq_some_iff.mp h
      cases hs
      exact Option.bind_eq_some_iff.mpr ⟨_, CxFuture.relabel_lock hlock, rfl⟩
  | resolveTest value =>
      simp only [futureStep] at h
      show (if s.outValue ≠ 0 then _ else _) = _
      split at h
      · next hfound =>
          cases h
          exact if_pos hfound
      · next hfirst =>
          -- the argument is not null, and keeps its name
          have hvalue : value ≠ 0 := by
            intro hnull
            exact hlate (congrArg FuturePc.resolveTest hnull) (not_not.mp hfirst)
          cases h
          rw [if_neg hfirst, lateValue_of_ne hvalue]
          rfl
  | resolveUnlock value rv =>
      cases h
      simp only [futureStep, FuturePc.relabel, CxFuture.relabel, List.map_append,
        List.map_singleton]
      refine congrArg some (Prod.ext rfl ?_)
      have hpair : ((relabelResult (value, rv)).1, rv)
          = relabelResult (value, rv) :=
        Prod.ext rfl (relabelResult_snd (value, rv)).symm
      rw [hpair]
      rfl
  | _ =>
      cases h
      rfl

/-- The configuration without null arguments. -/
def relabelled (cfg : FutureConfig θ) : FutureConfig θ :=
  ⟨fun t => (cfg.pc t).relabel, cfg.shared.relabel⟩

theorem FutureRun.relabel (h : FutureRun NullLate cfg) :
    FutureRun NonNull (relabelled cfg) := by
  induction h with
  | @start c hc =>
      subst hc
      exact .start rfl
  | @step c c' t x _ hlate hrun ih =>
      refine .step (t := t) (x := x.relabel) ih ?_ ?_
      · show (c.pc t).relabel.argument ≠ some 0
        cases c.pc t with
        | resolveLock value =>
            exact fun hnull => lateValue_ne_zero value (Option.some.inj hnull)
        | _ => exact nofun
      · obtain ⟨⟨p, s⟩, hstep, rfl⟩ := Option.map_eq_some_iff.mp hrun
        refine Option.map_eq_some_iff.mpr
          ⟨_, futureStep_relabel hstep hlate, ?_⟩
        unfold relabelled
        refine congrArg (fun pc => (⟨pc, s.relabel⟩ : FutureConfig θ)) ?_
        funext u
        by_cases hu : u = t
        · subst hu
          simp
        · simp [Function.update_of_ne hu]

-- ======================================================= waits do not block

/-- No wait blocks any more. -/
structure WaitsPass (cfg : FutureConfig θ) : Prop where
  /-- nobody is asleep, or about to be -/
  awake : cfg.shared.sync.asleep () = [] ∧ ∀ t, cfg.pc t ≠ .waitSleep
  /-- a wait that has the mutex goes on to read the value -/
  reads : ∀ t x,
    futureStep t x cfg.shared .waitTest = some (.waitRead, cfg.shared)
  /-- as long as a call is under way, some thread in a call can go on -/
  progress : ∀ t, cfg.pc t ≠ .idle →
    ∃ u x c, (futureProgram θ).step u x cfg = some c ∧ cfg.pc u ≠ .idle

/-- At most one resolve returned 0, and after it no wait blocks. -/
structure ResolvedOnce (cfg : FutureConfig θ) : Prop where
  once : cfg.shared.book.resolved.countP (fun r => decide (r.2 = 0)) ≤ 1
  passes : ∀ r ∈ cfg.shared.book.resolved, r.2 = 0 → WaitsPass cfg

omit [DecidableEq θ] in
theorem CxFuture.lock_free (h : s.sync.owner () = none) (t : θ) :
    (s.lock t).isSome := by
  unfold CxFuture.lock Sync.lock
  rw [h]
  rfl

theorem CxFuture.relock_free (h : s.sync.owner () = none)
    (hawake : s.sync.asleep () = []) (t : θ) : (s.relock t).isSome := by
  unfold CxFuture.relock Sync.relock Sync.lock
  rw [hawake, if_neg List.not_mem_nil, h]
  rfl

/-- A thread in a call has a step, except that it may have to take the
mutex first. -/
theorem futureStep_isSome (hp : p ≠ .idle)
    (hfree : p.held = none →
      s.sync.owner () = none ∧ s.sync.asleep () = []) :
    ∃ x, (futureStep t x s p).isSome := by
  refine ⟨.go, ?_⟩
  cases p with
  | idle => exact absurd rfl hp
  | waitLock =>
      obtain ⟨s₁, hlock⟩ := Option.isSome_iff_exists.mp
        (CxFuture.lock_free (hfree rfl).1 t)
      simp [futureStep, hlock]
  | blocked =>
      obtain ⟨s₁, hrelock⟩ := Option.isSome_iff_exists.mp
        (CxFuture.relock_free (hfree rfl).1 (hfree rfl).2 t)
      simp [futureStep, hrelock]
  | resolveLock value =>
      obtain ⟨s₁, hlock⟩ := Option.isSome_iff_exists.mp
        (CxFuture.lock_free (hfree rfl).1 t)
      simp [futureStep, hlock]
  | waitTest =>
      simp only [futureStep]
      split <;> rfl
  | resolveTest value =>
      simp only [futureStep]
      split <;> rfl
  | _ => rfl

theorem step_of_isSome {x : FutureChoice}
    (h : (futureStep t x cfg.shared (cfg.pc t)).isSome) :
    ∃ c, (futureProgram θ).step t x cfg = some c := by
  obtain ⟨r, hr⟩ := Option.isSome_iff_exists.mp h
  exact ⟨_, Option.map_eq_some_iff.mpr ⟨r, hr, rfl⟩⟩

/-- A value is there and nobody is asleep. -/
theorem waitsPass_of_awake (hheld : ∀ t, cfg.shared.sync.Holds t (cfg.pc t).held)
    (hvalue : cfg.shared.outValue ≠ 0)
    (hawake : cfg.shared.sync.asleep () = [])
    (hsleep : ∀ t, cfg.pc t ≠ .waitSleep) : WaitsPass cfg := by
  refine ⟨⟨hawake, hsleep⟩, fun t x => if_neg hvalue, ?_⟩
  intro t ht
  cases howner : cfg.shared.sync.owner () with
  | none =>
      obtain ⟨x, hx⟩ := futureStep_isSome (s := cfg.shared) (t := t) ht
        fun _ => ⟨howner, hawake⟩
      obtain ⟨c, hc⟩ := step_of_isSome hx
      exact ⟨t, x, c, hc, ht⟩
  | some u =>
      -- whoever holds the mutex can go on
      have hu : (cfg.pc u).held = some () := ((hheld u) ()).mp howner
      have hne : cfg.pc u ≠ .idle := by
        intro hidle
        rw [hidle] at hu
        cases hu
      obtain ⟨x, hx⟩ := futureStep_isSome (s := cfg.shared) (t := u) hne
        fun hnone => by simp [hnone] at hu
      obtain ⟨c, hc⟩ := step_of_isSome hx
      exact ⟨u, x, c, hc, hne⟩

/-- A future without null arguments that was resolved lets waits pass. -/
theorem Decided.waitsPass (hd : Decided (relabelled cfg).shared)
    (hs : Resolved (relabelled cfg).shared)
    (hk : ∀ t, FutureKnows t ((relabelled cfg).pc t) (relabelled cfg).shared) :
    WaitsPass cfg := by
  have hvalue : cfg.shared.outValue ≠ 0 := by
    intro hnull
    have hnone : (relabelled cfg).shared.book.resolved.find? _ = none :=
      Undecided.find?_eq_none (hs.null hnull)
    cases hd.first.symm.trans hnone
  refine waitsPass_of_awake ?_ hvalue hd.awake ?_
  · intro t
    have hholds := (hk t).holds
    rwa [show ((relabelled cfg).pc t).held = (cfg.pc t).held from
      FuturePc.relabel_held _] at hholds
  · intro t ht
    have hsees := (hk t).sees
    rw [show (relabelled cfg).pc t = (cfg.pc t).relabel from rfl, ht] at hsees
    exact hvalue hsees

theorem resolvedOnce_of_relabelled (h : FutureRun NullLate cfg) :
    ResolvedOnce cfg := by
  obtain ⟨hs, hk⟩ := h.relabel.resolved
  have hcodes : ∀ r, decide ((relabelResult r).2 = 0) = decide (r.2 = 0) :=
    fun r => by rw [relabelResult_snd]
  constructor
  · have honce : (cfg.shared.book.resolved.map relabelResult).countP
        (fun r => decide (r.2 = 0)) ≤ 1 := hs.once
    rw [List.countP_map] at honce
    simpa [Function.comp_def] using honce
  · intro r hr hrv
    rcases hs.settled hk with hundecided | hdecided
    · have hin : relabelResult r ∈ (relabelled cfg).shared.book.resolved :=
        List.mem_map_of_mem hr
      exact absurd hrv (relabelResult_snd r ▸ hundecided _ hin)
    · exact hdecided.waitsPass hs hk

-- ========================================================== a null that is

/-- What a thread knows, whatever is stored. -/
structure StoreKnows (t : θ) (p : FuturePc) (s : CxFuture θ) : Prop where
  holds : s.sync.Holds t p.held
  stored : ∀ v, p = .resolveBroadcast v ∨ p = .resolveUnlock v 0 →
    s.outValue = v

theorem FutureRule.storeKnows (hr : FutureRule t s p p' s')
    (hk : StoreKnows t p s) : StoreKnows t p' s' := by
  refine ⟨(hr.frame hk.holds).holds, ?_⟩
  intro v hv
  cases hr with
  | resolveStore =>
      rcases hv with hv | hv
      · exact FuturePc.resolveBroadcast.inj hv
      · cases hv
  | resolveBroadcast =>
      rcases hv with hv | hv
      · cases hv
      · obtain ⟨rfl, -⟩ := FuturePc.resolveUnlock.inj hv
        exact hk.stored _ (Or.inl rfl)
  | resolveLate =>
      rcases hv with hv | hv
      · cases hv
      · exact absurd (FuturePc.resolveUnlock.inj hv).2 (by decide)
  | _ => rcases hv with hv | hv <;> cases hv

omit [DecidableEq θ] in
theorem StoreKnows.stable (hk : StoreKnows t p s) (hr : FutureRely t s s') :
    StoreKnows t p s' := by
  refine ⟨hk.holds.congr hr.same, ?_⟩
  intro v hv
  have hheld : p.held = some () := by
    rcases hv with rfl | rfl
    · rfl
    · rfl
  rw [(hr.owned ((hk.holds ()).mpr hheld)).1]
  exact hk.stored v hv

/-- Of runs whose resolves may be with null. -/
theorem FutureRun.storeKnows (h : FutureRun (fun _ _ _ => True) cfg) :
    ∀ t, StoreKnows t (cfg.pc t) cfg.shared := by
  refine (h.rely (fun _ => True) (fun _ => True) StoreKnows FutureRely
    (fun _ _ _ _ _ _ _ _ => trivial) ?_ ?_ (fun _ _ _ _ hr hk => hk.stable hr)
    trivial).2
  · intro c hc
    subst hc
    exact ⟨trivial, fun t => ⟨fun _ => ⟨nofun, nofun⟩, fun v hv => by
      rcases hv with hv | hv <;> cases hv⟩⟩
  · intro t x p s p' s' hrun _ _ _ hk
    have hrule := futureStep_rule hrun
    exact ⟨trivial, hrule.storeKnows hk, (hrule.frame hk.holds).rely⟩

/-- A resolve with null that returns 0 leaves a future on which waits go to
sleep. -/
theorem FutureRun.unresolved {x : FutureChoice}
    (h : FutureRun (fun _ _ _ => True) cfg)
    (hpc : cfg.pc t = .resolveUnlock 0 0)
    (hstep : (futureProgram θ).step t x cfg = some cfg') :
    ¬ ResolvedOnce cfg' := by
  intro honce
  have hnull : cfg.shared.outValue = 0 := (h.storeKnows t).stored 0 (Or.inr hpc)
  obtain ⟨p, s, hrun, hshared, -, -⟩ := Program.step_cases hstep
  rw [hpc] at hrun
  cases hrun
  have hreturned : (0, 0) ∈ cfg'.shared.book.resolved := by
    rw [hshared]
    exact List.mem_append_right _ List.mem_cons_self
  have hreads := (honce.passes _ hreturned rfl).reads t .go
  have hsleeps : futureStep t .go cfg'.shared .waitTest
      = some (.waitSleep, cfg'.shared) := by
    refine if_pos ?_
    rw [hshared]
    exact hnull
  cases hreads.symm.trans hsleeps

instance NullLate.decidable (t : θ) (p : FuturePc) (s : CxFuture θ) :
    Decidable (NullLate t p s) :=
  inferInstanceAs (Decidable (p = .resolveTest 0 → s.outValue ≠ 0))

/-- A future is resolved at most once, and waits do not block afterwards, as
long as every resolve with null finds it resolved; one that does not breaks
this when it returns. -/
theorem cxFuture_resolvedOnce (cfg : FutureConfig θ) :
    (FutureRun NullLate cfg → ResolvedOnce cfg)
      ∧ (FutureRun (fun _ _ _ => True) cfg → ∀ t x cfg',
          cfg.pc t = .resolveUnlock 0 0 →
          (futureProgram θ).step t x cfg = some cfg' → ¬ ResolvedOnce cfg') :=
  ⟨resolvedOnce_of_relabelled, fun h _ _ _ hpc hstep => h.unresolved hpc hstep⟩

/-- A resolve with null that comes late is turned back, and the wait gets
the value. -/
theorem cxFuture_resolvedOnce_late : ∃ cfg : FutureConfig Nat,
    ResolvedOnce cfg ∧ cfg.shared.book.waited = [7]
      ∧ cfg.shared.book.resolved = [(7, 0), (0, -1)] := by
  have h : ((futureProgram Nat).play NullLate
      [(1, .resolve 7), (2, .resolve 0), (1, .go), (1, .go), (1, .go), (1, .go),
        (1, .go), (2, .go), (2, .go), (2, .go), (0, .wait), (0, .go), (0, .go),
        (0, .go), (0, .go)] futureStart).any
      (fun cfg => decide (cfg.shared.book.waited = [7]
        ∧ cfg.shared.book.resolved = [(7, 0), (0, -1)])) = true := by
    decide +kernel
  obtain ⟨cfg, hplay, htest⟩ := (Option.any_eq_true _ _).mp h
  have hrun : FutureRun NullLate cfg := Interleaved.play (.start rfl) hplay
  exact ⟨cfg, (cxFuture_resolvedOnce cfg).1 hrun, of_decide_eq_true htest⟩

/-- Two resolves with null return 0, and a wait that comes after them falls
asleep. -/
theorem cxFuture_resolve_nullTwice : ∃ cfg : FutureConfig Nat,
    FutureRun (fun _ _ _ => True) cfg ∧ ¬ ResolvedOnce cfg
      ∧ cfg.shared.book.resolved = [(0, 0), (0, 0)]
      ∧ cfg.shared.sync.asleep () = [3] := by
  have h : ((futureProgram Nat).play (fun _ _ _ => True)
      [(1, .resolve 0), (1, .go), (1, .go), (1, .go), (1, .go), (1, .go),
        (2, .resolve 0), (2, .go), (2, .go), (2, .go), (2, .go), (2, .go),
        (3, .wait), (3, .go), (3, .go), (3, .go)] futureStart).any
      (fun cfg => decide (cfg.shared.book.resolved = [(0, 0), (0, 0)]
        ∧ cfg.shared.sync.asleep () = [3])) = true := by
    decide +kernel
  obtain ⟨cfg, hplay, htest⟩ := (Option.any_eq_true _ _).mp h
  obtain ⟨hresolved, hasleep⟩ := of_decide_eq_true htest
  refine ⟨cfg, Interleaved.play (.start rfl) hplay, ?_, hresolved, hasleep⟩
  intro honce
  have htwice := honce.once
  rw [hresolved] at htwice
  exact absurd htwice (by decide)

end Cextras.Concurrency
