/-
A future has one value. The first resolve that finds `out_value` null
stores its argument and wakes everybody before it lets go of the mutex;
from then on every resolve turns back and nobody goes to sleep any more. So
all waits return the argument of the one resolve that returns 0, and when
it has, nobody is asleep (`cxFuture_agreement`). The values are not null,
which is how the code marks a future that is not resolved.
-/
import Cextras.Concurrency.Future

namespace Cextras.Concurrency

open Lib

variable {θ : Type} [DecidableEq θ] {s s' : CxFuture θ} {t u : θ}
  {p p' : FuturePc}

-- ================================================================== steps

omit [DecidableEq θ] in
theorem CxFuture.lock_cases (h : s.lock t = some s') :
    ∃ y, s.sync.lock () t = some y ∧ s' = { s with sync := y } := by
  obtain ⟨y, hy, rfl⟩ := Option.map_eq_some_iff.mp h
  exact ⟨y, hy, rfl⟩

/-- Where nobody sleeps, there is nobody to wake. -/
theorem CxFuture.wake_nil (h : s.sync.asleep () = []) (t : θ) :
    (s.wake t).sync.asleep () = [] := by
  have hsub := s.sync.wake_sublist () t ()
  rw [h] at hsub
  exact List.sublist_nil.mp hsub

theorem CxFuture.lock_of_relock (h : s.relock t = some s') :
    s.lock t = some s' := by
  obtain ⟨y, hy, rfl⟩ := Option.map_eq_some_iff.mp h
  obtain ⟨-, hlock⟩ := Sync.relock_cases hy
  unfold CxFuture.lock
  rw [hlock]
  rfl

/-- The ways a step of a thread can go. -/
inductive FutureRule (t : θ) (s : CxFuture θ) :
    FuturePc → FuturePc → CxFuture θ → Prop where
  | wait : FutureRule t s .idle .waitLock s
  | resolve {value : Nat} : FutureRule t s .idle (.resolveLock value) s
  | waitLock {s' : CxFuture θ} : s.lock t = some s' →
      FutureRule t s .waitLock .waitTest s'
  | waitNull : s.outValue = 0 → FutureRule t s .waitTest .waitSleep s
  | waitFound : s.outValue ≠ 0 → FutureRule t s .waitTest .waitRead s
  | waitSleep : FutureRule t s .waitSleep .blocked (s.sleep t)
  | spurious : FutureRule t s .blocked .blocked (s.wake t)
  | relock {s' : CxFuture θ} : s.lock t = some s' →
      FutureRule t s .blocked .waitTest s'
  | waitRead : FutureRule t s .waitRead (.waitUnlock s.outValue) s
  | waitUnlock {outValue : Nat} : FutureRule t s (.waitUnlock outValue) .idle
      { s.unlock with book.waited := s.book.waited ++ [outValue] }
  | resolveLock {value : Nat} {s' : CxFuture θ} : s.lock t = some s' →
      FutureRule t s (.resolveLock value) (.resolveTest value) s'
  | resolveLate {value : Nat} : s.outValue ≠ 0 →
      FutureRule t s (.resolveTest value) (.resolveUnlock value (-1)) s
  | resolveFirst {value : Nat} : s.outValue = 0 →
      FutureRule t s (.resolveTest value) (.resolveStore value) s
  | resolveStore {value : Nat} : FutureRule t s (.resolveStore value)
      (.resolveBroadcast value) { s with outValue := value }
  | resolveBroadcast {value : Nat} : FutureRule t s (.resolveBroadcast value)
      (.resolveUnlock value 0) s.broadcast
  | resolveUnlock {value : Nat} {rv : Int} :
      FutureRule t s (.resolveUnlock value rv) .idle
        { s.unlock with book.resolved := s.book.resolved ++ [(value, rv)] }

private theorem futureRelock_rule
    (h : (s.relock t >>= fun s => some (FuturePc.waitTest, s))
      = some (p', s')) : FutureRule t s .blocked p' s' := by
  obtain ⟨s₁, hrelock, hs⟩ := Option.bind_eq_some_iff.mp h
  cases hs
  exact .relock (CxFuture.lock_of_relock hrelock)

theorem futureStep_rule {x : FutureChoice}
    (h : futureStep t x s p = some (p', s')) : FutureRule t s p p' s' := by
  cases p with
  | idle =>
      cases x with
      | wait =>
          cases h
          exact .wait
      | resolve value =>
          cases h
          exact .resolve
      | _ => cases h
  | waitLock =>
      obtain ⟨s₁, hlock, hs⟩ := Option.bind_eq_some_iff.mp h
      cases hs
      exact .waitLock hlock
  | waitTest =>
      simp only [futureStep] at h
      split at h
      · next hnull =>
          cases h
          exact .waitNull hnull
      · next hfound =>
          cases h
          exact .waitFound hfound
  | waitSleep =>
      cases h
      exact .waitSleep
  | blocked =>
      cases x with
      | spurious =>
          cases h
          exact .spurious
      | _ => exact futureRelock_rule h
  | waitRead =>
      cases h
      exact .waitRead
  | waitUnlock outValue =>
      cases h
      exact .waitUnlock
  | resolveLock value =>
      obtain ⟨s₁, hlock, hs⟩ := Option.bind_eq_some_iff.mp h
      cases hs
      exact .resolveLock hlock
  | resolveTest value =>
      simp only [futureStep] at h
      split at h
      · next hlate =>
          cases h
          exact .resolveLate hlate
      · next hfirst =>
          cases h
          exact .resolveFirst (not_not.mp hfirst)
  | resolveStore value =>
      cases h
      exact .resolveStore
  | resolveBroadcast value =>
      cases h
      exact .resolveBroadcast
  | resolveUnlock value rv =>
      cases h
      exact .resolveUnlock

-- ============================================================= invariants

def FuturePc.held : FuturePc → Option Unit
  | .waitTest => some ()
  | .waitSleep => some ()
  | .waitRead => some ()
  | .waitUnlock _ => some ()
  | .resolveTest _ => some ()
  | .resolveStore _ => some ()
  | .resolveBroadcast _ => some ()
  | .resolveUnlock _ _ => some ()
  | _ => none

/-- The resolve that stored its argument has not returned yet. -/
def FuturePc.deciding : FuturePc → Bool
  | .resolveBroadcast _ => true
  | .resolveUnlock _ rv => decide (rv = 0)
  | _ => false

/-- No resolve returned 0 yet. -/
def Undecided (s : CxFuture θ) : Prop := ∀ r ∈ s.book.resolved, r.2 ≠ 0

/-- The one resolve that returned 0 left its argument, and nobody asleep. -/
structure Decided (s : CxFuture θ) : Prop where
  awake : s.sync.asleep () = []
  first : s.book.resolved.find? (fun r => decide (r.2 = 0))
    = some (s.outValue, 0)

/-- What holds of the future. -/
structure Resolved (s : CxFuture θ) : Prop where
  null : s.outValue = 0 → Undecided s
  early : Undecided s → s.book.waited = []
  agree : ∀ v ∈ s.book.waited, v = s.outValue
  decided : s.sync.owner () = none → s.outValue ≠ 0 → Decided s
  once : s.book.resolved.countP (fun r => decide (r.2 = 0)) ≤ 1

/-- What a thread knows of `out_value` at its program counter. -/
def FuturePc.Sees (s : CxFuture θ) : FuturePc → Prop
  | .waitSleep => s.outValue = 0
  | .waitRead => s.outValue ≠ 0
  | .waitUnlock v => v = s.outValue ∧ s.outValue ≠ 0
  | .resolveTest v => v ≠ 0
  | .resolveStore v => v ≠ 0 ∧ s.outValue = 0
  | .resolveBroadcast v => v ≠ 0 ∧ s.outValue = v ∧ Undecided s
  | .resolveUnlock v rv => s.outValue ≠ 0
      ∧ (rv = 0 → s.outValue = v ∧ s.sync.asleep () = [] ∧ Undecided s)
  | _ => True

/-- What thread `t` knows. -/
structure FutureKnows (t : θ) (p : FuturePc) (s : CxFuture θ) : Prop where
  holds : s.sync.Holds t p.held
  decided : p.held = some () → p.deciding = false → s.outValue ≠ 0 → Decided s
  sees : p.Sees s

/-- The argument of a call of `cx_future_resolve` that is about to begin. -/
def FuturePc.argument : FuturePc → Option Nat
  | .resolveLock value => some value
  | _ => none

/-- No resolve is called with null. -/
def NonNull (_ : θ) (p : FuturePc) (_ : CxFuture θ) : Prop :=
  p.argument ≠ some 0

instance NonNull.decidable (t : θ) (p : FuturePc) (s : CxFuture θ) :
    Decidable (NonNull t p s) :=
  inferInstanceAs (Decidable (p.argument ≠ some 0))

/-- What a thread relies on when others move. -/
structure FutureRely (u : θ) (s s' : CxFuture θ) : Prop where
  same : Sync.SameFor u s.sync s'.sync
  owned : s.sync.owner () = some u → s'.outValue = s.outValue
    ∧ s'.book.resolved = s.book.resolved
    ∧ (s.sync.asleep () = [] → s'.sync.asleep () = [])

omit [DecidableEq θ] in
theorem FutureKnows.owner (hk : FutureKnows t p s) (hp : p.held = some ()) :
    s.sync.owner () = some t :=
  (hk.holds ()).mpr hp

omit [DecidableEq θ] in
theorem FutureKnows.stable (hk : FutureKnows t p s) (hr : FutureRely t s s') :
    FutureKnows t p s' := by
  refine ⟨hk.holds.congr hr.same, ?_, ?_⟩
  · intro hp hd
    obtain ⟨hvalue, hresolved, hasleep⟩ := hr.owned (hk.owner hp)
    rw [hvalue]
    intro hne
    obtain ⟨hawake, hfirst⟩ := hk.decided hp hd hne
    refine ⟨hasleep hawake, ?_⟩
    rw [hresolved, hvalue]
    exact hfirst
  · have howned := fun hp => hr.owned (hk.owner hp)
    have hsees := hk.sees
    cases p with
    | idle => trivial
    | waitLock => trivial
    | waitTest => trivial
    | blocked => trivial
    | resolveLock _ => trivial
    | resolveTest _ => exact hsees
    | waitSleep => exact (howned rfl).1.trans hsees
    | waitRead =>
        show s'.outValue ≠ 0
        rw [(howned rfl).1]
        exact hsees
    | waitUnlock v =>
        show v = s'.outValue ∧ s'.outValue ≠ 0
        rw [(howned rfl).1]
        exact hsees
    | resolveStore v =>
        show v ≠ 0 ∧ s'.outValue = 0
        rw [(howned rfl).1]
        exact hsees
    | resolveBroadcast v =>
        obtain ⟨hvalue, hresolved, -⟩ := howned rfl
        show v ≠ 0 ∧ s'.outValue = v ∧ Undecided s'
        unfold Undecided
        rw [hvalue, hresolved]
        exact hsees
    | resolveUnlock v rv =>
        obtain ⟨hvalue, hresolved, hasleep⟩ := howned rfl
        obtain ⟨hne, hzero⟩ := hsees
        refine ⟨by rw [hvalue]; exact hne, ?_⟩
        intro hrv
        obtain ⟨hv, hawake, hundecided⟩ := hzero hrv
        unfold Undecided
        rw [hvalue, hresolved]
        exact ⟨hv, hasleep hawake, hundecided⟩

-- ================================================================= frames

/-- What a step of `t` does to the mutex, and to what others rely on. -/
structure FutureFrame (t : θ) (p' : FuturePc) (s s' : CxFuture θ) : Prop where
  holds : s'.sync.Holds t p'.held
  rely : ∀ u, u ≠ t → FutureRely u s s'

omit [DecidableEq θ] in
theorem FutureFrame.look (hholds : s.sync.Holds t p.held)
    (hheld : p'.held = p.held) : FutureFrame t p' s s := by
  refine ⟨?_, fun u _ => ⟨fun _ => Iff.rfl, fun _ => ⟨rfl, rfl, id⟩⟩⟩
  rw [hheld]
  exact hholds

omit [DecidableEq θ] in
theorem FutureFrame.lock (hholds : s.sync.Holds t p.held)
    (hlock : s.lock t = some s') (hp : p.held = none)
    (hp' : p'.held = some ()) : FutureFrame t p' s s' := by
  obtain ⟨y, hy, rfl⟩ := CxFuture.lock_cases hlock
  rw [hp] at hholds
  refine ⟨?_, ?_⟩
  · rw [hp']
    exact hholds.lock hy
  · intro u hu
    refine ⟨.lock hy hu, ?_⟩
    intro howner
    rw [(Sync.lock_cases hy).1] at howner
    cases howner

omit [DecidableEq θ] in
/-- What the thread that has the mutex does, others need not know. -/
theorem FutureRely.of_owner (howner : s.sync.owner () = some t) (hu : u ≠ t)
    (hsame : Sync.SameFor u s.sync s'.sync) : FutureRely u s s' := by
  refine ⟨hsame, ?_⟩
  exact fun howner' => absurd howner' (Sync.owner_ne howner hu)

omit [DecidableEq θ] in
/-- The thread writes what the mutex guards. -/
theorem FutureFrame.write (hholds : s.sync.Holds t p.held)
    (hp : p.held = some ()) (hp' : p'.held = some ())
    (howner : s'.sync.owner = s.sync.owner) : FutureFrame t p' s s' := by
  rw [hp] at hholds
  have hsame : ∀ u, Sync.SameFor u s.sync s'.sync := .of_owner howner
  refine ⟨?_, fun u hu => .of_owner hholds.owner hu (hsame u)⟩
  rw [hp']
  exact hholds.congr (hsame t)

omit [DecidableEq θ] in
theorem FutureFrame.release (hholds : s.sync.Holds t p.held)
    (hp : p.held = some ()) (hp' : p'.held = none)
    (howner : s'.sync.owner = Function.update s.sync.owner () none) :
    FutureFrame t p' s s' := by
  rw [hp] at hholds
  refine ⟨?_, fun u hu => ?_⟩
  · rw [hp']
    exact hholds.release howner
  · exact .of_owner hholds.owner hu (.release hholds.owner hu howner)

theorem FutureRule.frame (hr : FutureRule t s p p' s')
    (hholds : s.sync.Holds t p.held) : FutureFrame t p' s s' := by
  cases hr with
  | waitLock hlock => exact .lock hholds hlock rfl rfl
  | relock hlock => exact .lock hholds hlock rfl rfl
  | resolveLock hlock => exact .lock hholds hlock rfl rfl
  | waitSleep => exact .release hholds rfl rfl rfl
  | waitUnlock => exact .release hholds rfl rfl rfl
  | resolveUnlock => exact .release hholds rfl rfl rfl
  | resolveStore => exact .write hholds rfl rfl rfl
  | resolveBroadcast => exact .write hholds rfl rfl rfl
  | spurious =>
      exact ⟨hholds, fun u _ => ⟨fun _ => Iff.rfl,
        fun _ => ⟨rfl, rfl, fun hnone => CxFuture.wake_nil hnone t⟩⟩⟩
  | _ => exact .look hholds rfl

-- ========================================================== kinds of steps

/-- What every step of `t` establishes. -/
structure FutureStep (t : θ) (p' : FuturePc) (s s' : CxFuture θ) : Prop where
  resolved : Resolved s'
  knows : FutureKnows t p' s'
  rely : ∀ u, u ≠ t → FutureRely u s s'

omit [DecidableEq θ] in
/-- The thread looks at the future, or goes on. -/
theorem FutureKnows.look (hk : FutureKnows t p s) (hs : Resolved s)
    (hframe : FutureFrame t p' s s) (hheld : p'.held = p.held)
    (hd : p.deciding = false) (hsees : p'.Sees s) : FutureStep t p' s s := by
  refine ⟨hs, ⟨hframe.holds, ?_, hsees⟩, hframe.rely⟩
  rw [hheld]
  exact fun hp _ => hk.decided hp hd

omit [DecidableEq θ] in
theorem FutureFrame.locked (hframe : FutureFrame t p' s s') (hs : Resolved s)
    (hlock : s.lock t = some s')
    (hp' : p' = .waitTest ∨ ∃ v, p' = .resolveTest v ∧ v ≠ 0) :
    FutureStep t p' s s' := by
  obtain ⟨y, hy, rfl⟩ := CxFuture.lock_cases hlock
  obtain ⟨hfree, -⟩ := Sync.lock_cases hy
  have hheld : p'.held = some () := by
    rcases hp' with rfl | ⟨v, rfl, -⟩
    · rfl
    · rfl
  refine ⟨⟨hs.null, hs.early, hs.agree, ?_, hs.once⟩, ⟨hframe.holds, ?_, ?_⟩,
    hframe.rely⟩
  · intro hnone
    cases ((hframe.holds ()).mpr hheld).symm.trans hnone
  · intro _ _ hne
    obtain ⟨hawake, hfirst⟩ := hs.decided hfree hne
    obtain ⟨-, rfl⟩ := Sync.lock_cases hy
    exact ⟨hawake, hfirst⟩
  · rcases hp' with rfl | ⟨v, rfl, hv⟩
    · trivial
    · exact hv

omit [DecidableEq θ] in
theorem Undecided.find?_eq_none (h : Undecided s) :
    s.book.resolved.find? (fun r => decide (r.2 = 0)) = none := by
  rw [List.find?_eq_none]
  intro r hr
  simpa using h r hr

omit [DecidableEq θ] in
theorem Undecided.countP_eq_zero (h : Undecided s) :
    s.book.resolved.countP (fun r => decide (r.2 = 0)) = 0 := by
  rw [List.countP_eq_zero]
  intro r hr
  simpa using h r hr

theorem FutureRule.step (hr : FutureRule t s p p' s') (hs : Resolved s)
    (hk : FutureKnows t p s) (hvalue : NonNull t p s) :
    FutureStep t p' s s' := by
  have hsees := hk.sees
  have hdecided := hk.decided
  have hframe := hr.frame hk.holds
  cases hr with
  | wait => exact hk.look hs hframe rfl rfl trivial
  | resolve => exact hk.look hs hframe rfl rfl trivial
  | waitLock hlock => exact hframe.locked hs hlock (Or.inl rfl)
  | relock hlock => exact hframe.locked hs hlock (Or.inl rfl)
  | resolveLock hlock =>
      refine hframe.locked hs hlock (Or.inr ⟨_, rfl, ?_⟩)
      exact fun hnull => hvalue (congrArg some hnull)
  | waitNull hnull => exact hk.look hs hframe rfl rfl hnull
  | waitFound hfound => exact hk.look hs hframe rfl rfl hfound
  | waitRead => exact hk.look hs hframe rfl rfl ⟨rfl, hsees⟩
  | resolveLate hlate => exact hk.look hs hframe rfl rfl ⟨hlate, nofun⟩
  | resolveFirst hfirst => exact hk.look hs hframe rfl rfl ⟨hsees, hfirst⟩
  | waitSleep =>
      exact ⟨⟨hs.null, hs.early, hs.agree, fun _ hne => absurd hsees hne, hs.once⟩,
        ⟨hframe.holds, nofun, trivial⟩, hframe.rely⟩
  | spurious =>
      refine ⟨⟨hs.null, hs.early, hs.agree, ?_, hs.once⟩,
        ⟨hframe.holds, nofun, trivial⟩, hframe.rely⟩
      intro hfree hne
      obtain ⟨hawake, hfirst⟩ := hs.decided hfree hne
      exact ⟨CxFuture.wake_nil hawake t, hfirst⟩
  | @waitUnlock v =>
      obtain ⟨rfl, hne⟩ := hsees
      obtain ⟨hawake, hfirst⟩ := hdecided rfl rfl hne
      refine ⟨⟨hs.null, ?_, ?_, fun _ _ => ⟨hawake, hfirst⟩, hs.once⟩,
        ⟨hframe.holds, nofun, trivial⟩, hframe.rely⟩
      · intro hundecided
        have hnone : s.book.resolved.find? _ = none :=
          Undecided.find?_eq_none hundecided
        cases hfirst.symm.trans hnone
      · intro v hv
        rcases List.mem_append.mp hv with hv | hv
        · exact hs.agree v hv
        · exact List.mem_singleton.mp hv
  | @resolveStore v =>
      obtain ⟨hv, hnull⟩ := hsees
      have hundecided := hs.null hnull
      have hwaited := hs.early hundecided
      have howner := hk.owner rfl
      refine ⟨⟨fun hz => absurd hz hv, hs.early, ?_, ?_, hs.once⟩,
        ⟨hframe.holds, nofun, hv, rfl, hundecided⟩, hframe.rely⟩
      · intro v' hv'
        rw [show s.book.waited = [] from hwaited] at hv'
        cases hv'
      · intro hfree
        cases howner.symm.trans hfree
  | @resolveBroadcast v =>
      obtain ⟨hv, hout, hundecided⟩ := hsees
      have howner := hk.owner rfl
      have hne : s.outValue ≠ 0 := by
        rw [hout]
        exact hv
      refine ⟨⟨hs.null, hs.early, hs.agree, ?_, hs.once⟩,
        ⟨hframe.holds, nofun, hne, ?_⟩, hframe.rely⟩
      · intro hfree
        cases howner.symm.trans hfree
      · exact fun _ => ⟨hout, s.sync.broadcast_self (), hundecided⟩
  | @resolveUnlock v rv =>
      obtain ⟨hne, hzero⟩ := hsees
      refine ⟨⟨fun hnull => absurd hnull hne, ?_, hs.agree, ?_, ?_⟩,
        ⟨hframe.holds, nofun, trivial⟩, hframe.rely⟩
      · exact fun hundecided => hs.early fun r hr =>
          hundecided r (List.mem_append_left _ hr)
      · intro _ _
        by_cases hrv : rv = 0
        · obtain ⟨rfl, hawake, hundecided⟩ := hzero hrv
          refine ⟨hawake, ?_⟩
          show (s.book.resolved ++ [(s.outValue, rv)]).find? _ = _
          rw [List.find?_append, hundecided.find?_eq_none, hrv]
          rfl
        · obtain ⟨hawake, hfirst⟩ :=
            hdecided rfl (decide_eq_false hrv) hne
          refine ⟨hawake, ?_⟩
          show (s.book.resolved ++ [(v, rv)]).find? _ = _
          rw [List.find?_append, hfirst]
          rfl
      · show (s.book.resolved ++ [(v, rv)]).countP _ ≤ 1
        rw [List.countP_append, List.countP_singleton]
        by_cases hrv : rv = 0
        · obtain ⟨-, -, hundecided⟩ := hzero hrv
          rw [hundecided.countP_eq_zero]
          split <;> omega
        · rw [if_neg (by simpa using hrv)]
          exact hs.once

-- ==================================================================== runs

variable {cfg : FutureConfig θ}

theorem FutureRun.resolved (h : FutureRun NonNull cfg) :
    Resolved cfg.shared ∧ ∀ t, FutureKnows t (cfg.pc t) cfg.shared := by
  refine h.rely (fun _ => True) Resolved FutureKnows FutureRely
    (fun _ _ _ _ _ _ _ _ => trivial) ?_ ?_ (fun _ _ _ _ hr hk => hk.stable hr)
    trivial
  · intro c hc
    subst hc
    exact ⟨⟨fun _ => nofun, fun _ => rfl, nofun, fun _ hne => absurd rfl hne,
      Nat.zero_le _⟩, fun t => ⟨fun _ => ⟨nofun, nofun⟩, nofun, trivial⟩⟩
  · intro t x p s p' s' hrun _ hvalue hs hk
    have hstep := (futureStep_rule hrun).step hs hk hvalue
    exact ⟨hstep.resolved, hstep.knows, hstep.rely⟩

omit [DecidableEq θ] in
/-- Either no resolve returned 0 yet, or one did and nobody is asleep; the
resolve that stores its argument holds the mutex until it returns. -/
theorem Resolved.settled (hs : Resolved cfg.shared)
    (hk : ∀ t, FutureKnows t (cfg.pc t) cfg.shared) :
    Undecided cfg.shared ∨ Decided cfg.shared := by
  by_cases hnull : cfg.shared.outValue = 0
  · exact Or.inl (hs.null hnull)
  · cases howner : cfg.shared.sync.owner () with
    | none => exact Or.inr (hs.decided howner hnull)
    | some t =>
        have hheld := ((hk t).holds ()).mp howner
        have hdecided := (hk t).decided hheld
        have hsees := (hk t).sees
        generalize cfg.pc t = p at hdecided hsees
        cases p with
        | resolveBroadcast v => exact Or.inl hsees.2.2
        | resolveUnlock v rv =>
            by_cases hrv : rv = 0
            · exact Or.inl (hsees.2 hrv).2.2
            · exact Or.inr (hdecided (decide_eq_false hrv) hnull)
        | _ => exact Or.inr (hdecided rfl hnull)

/-- What threads can see of a future. -/
structure FutureAgreement (cfg : FutureConfig θ) : Prop where
  /-- every wait that returned gave the argument of the first resolve that
  returned 0 -/
  waits : ∀ v ∈ cfg.shared.book.waited,
    cfg.shared.book.resolved.find? (fun r => decide (r.2 = 0)) = some (v, 0)
  /-- there is no second -/
  once : cfg.shared.book.resolved.countP (fun r => decide (r.2 = 0)) ≤ 1
  /-- nobody is asleep after it -/
  awake : ∀ r ∈ cfg.shared.book.resolved, r.2 = 0 →
    cfg.shared.sync.asleep () = []

/-- Waits and resolves agree in every state of every run. -/
theorem cxFuture_agreement (h : FutureRun NonNull cfg) :
    FutureAgreement cfg := by
  obtain ⟨hs, hk⟩ := FutureRun.resolved h
  rcases hs.settled hk with hundecided | hdecided
  · refine ⟨?_, hs.once, fun r hr hrv => absurd hrv (hundecided r hr)⟩
    rw [hs.early hundecided]
    exact nofun
  · refine ⟨?_, hs.once, fun _ _ _ => hdecided.awake⟩
    intro v hv
    rw [hs.agree v hv]
    exact hdecided.first

/-- Two resolves compete while thread 0 sleeps, and it returns what the one
that was first stored. -/
theorem cxFuture_agreement_compete : ∃ cfg : FutureConfig Nat,
    FutureAgreement cfg ∧ cfg.shared.book.waited = [7]
      ∧ cfg.shared.book.resolved = [(7, 0), (8, -1)] := by
  have h : ((futureProgram Nat).play NonNull
      [(0, .wait), (0, .go), (0, .go), (0, .go), (1, .resolve 7), (2, .resolve 8),
        (1, .go), (1, .go), (1, .go), (1, .go), (1, .go), (2, .go), (2, .go),
        (2, .go), (0, .go), (0, .go), (0, .go), (0, .go)] futureStart).any
      (fun cfg => decide (cfg.shared.book.waited = [7]
        ∧ cfg.shared.book.resolved = [(7, 0), (8, -1)])) = true := by
    decide +kernel
  obtain ⟨cfg, hplay, htest⟩ := (Option.any_eq_true _ _).mp h
  have hrun : FutureRun NonNull cfg := Interleaved.play (.start rfl) hplay
  exact ⟨cfg, cxFuture_agreement hrun, of_decide_eq_true htest⟩

end Cextras.Concurrency
