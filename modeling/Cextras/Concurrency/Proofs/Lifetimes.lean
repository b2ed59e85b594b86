/-
When a semaphore or a future may be destroyed. A thread that comes back from
a wait may take that for the sign that nobody needs the object any more, and
destroy it. It may: a post or a resolve lets go of the mutex as the last
thing it does, and a wait takes the mutex after that to see what was left
for it. So at most as many waits have returned as there were units at first
and posts that returned (`cxSemaphore_lifetime`), and a wait of a future
returns after a resolve has (`cxFuture_lifetime`); where all calls that
began are accounted for in this way, no thread is inside one.
-/
import Cextras.Lib.Calls
import Cextras.Concurrency.Proofs.SemaphoreCounts
import Cextras.Concurrency.Proofs.FutureSettles

namespace Cextras.Concurrency

open Lib

variable {θ : Type} [DecidableEq θ] {t u : θ}

-- ============================================================== semaphores

section Semaphore

variable {s s' : CxSemaphore θ} {p p' : SemaphorePc} {initial : Nat}

inductive SemaphoreCall where
  | wait
  | post
deriving DecidableEq

def SemaphorePc.call : SemaphorePc → Option SemaphoreCall
  | .idle => none
  | .postLock => some .post
  | .postAdd => some .post
  | .postSignal => some .post
  | .postUnlock => some .post
  | _ => some .wait

theorem SemaphorePc.idle_of_call (h : p.call = none) : p = .idle := by
  cases p with
  | idle => rfl
  | _ => cases h

/-- The runs of a semaphore, with the calls that began and ended. -/
abbrev SemaphoreCalls (initial : Nat) :
    Config (fun _ : θ => SemaphorePc)
      (CxSemaphore θ × Calls SemaphoreCall θ) → Prop :=
  Called (semaphoreProgram θ) (fun _ _ _ => True)
    (fun c => initial < 2 ^ 64 ∧ c = semaphoreStart initial)
    (fun _ p => p.call)

/-- What a step does to the calls, and to the calls the semaphore counts. -/
theorem SemaphoreRule.calls (hr : SemaphoreRule t s p p' s') :
    (p.call = none ∨ p'.call = none ∨ p'.call = p.call)
      ∧ s'.book.waited = s.book.waited
        + (if p.call = some .wait ∧ p'.call = none then 1 else 0)
      ∧ s'.book.posted = s.book.posted
        + (if p.call = some .post ∧ p'.call = none then 1 else 0) := by
  have hwake : ∀ v, (s.wake v).book.waited = s.book.waited
      ∧ (s.wake v).book.posted = s.book.posted := by
    intro v
    unfold CxSemaphore.wake
    split <;> exact ⟨rfl, rfl⟩
  have hlocks : ∀ s₁, s.lock t = some s₁ →
      s₁.book.waited = s.book.waited ∧ s₁.book.posted = s.book.posted := by
    intro s₁ hlock
    obtain ⟨y, -, rfl⟩ := CxSemaphore.lock_cases hlock
    exact ⟨rfl, rfl⟩
  cases hr with
  | wait => exact ⟨Or.inl rfl, rfl, rfl⟩
  | post => exact ⟨Or.inl rfl, rfl, rfl⟩
  | waitLock hlock => exact ⟨Or.inr (Or.inr rfl), hlocks _ hlock⟩
  | waitEmpty => exact ⟨Or.inr (Or.inr rfl), rfl, rfl⟩
  | waitFound => exact ⟨Or.inr (Or.inr rfl), rfl, rfl⟩
  | waitSleep => exact ⟨Or.inr (Or.inr rfl), rfl, rfl⟩
  | spurious => exact ⟨Or.inr (Or.inr rfl), hwake t⟩
  | relock _ hlock => exact ⟨Or.inr (Or.inr rfl), hlocks _ hlock⟩
  | waitTake => exact ⟨Or.inr (Or.inr rfl), rfl, rfl⟩
  | waitUnlock => exact ⟨Or.inr (Or.inl rfl), rfl, rfl⟩
  | postLock hlock => exact ⟨Or.inr (Or.inr rfl), hlocks _ hlock⟩
  | postAdd => exact ⟨Or.inr (Or.inr rfl), rfl, rfl⟩
  | postSignal => exact ⟨Or.inr (Or.inr rfl), hwake _⟩
  | postUnlock => exact ⟨Or.inr (Or.inl rfl), rfl, rfl⟩

/-- The unit a post has added is not taken before it lets go of the mutex. -/
def SemaphorePc.Untaken (initial : Nat) (p : SemaphorePc) (s : CxSemaphore θ) :
    Prop :=
  p.posting = 1 → s.book.waits < initial + s.book.posts

theorem SemaphoreRule.untaken (hr : SemaphoreRule t s p p' s')
    (hs : Counted initial s) (hk : p.Untaken initial s) :
    p'.Untaken initial s' := by
  intro hp'
  cases hr with
  | postAdd =>
      have hcount := hs.count
      show s.book.waits < initial + (s.book.posts + 1)
      omega
  | postSignal =>
      have huntaken := hk rfl
      unfold CxSemaphore.wake
      split <;> exact huntaken
  | _ => cases hp'

omit [DecidableEq θ] in
theorem SemaphorePc.Untaken.stable (hk : p.Untaken initial s)
    (hknows : SemaphoreKnows t p s) (hr : SemaphoreRely t s s') :
    p.Untaken initial s' := by
  intro hp
  have hheld : p.held = some () := by
    cases p with
    | postSignal => rfl
    | postUnlock => rfl
    | _ => cases hp
  obtain ⟨-, -, -, hposts, -, hwaits, -⟩ := hr.owned (hknows.owner hheld)
  rw [hposts, hwaits]
  exact hk hp

theorem SemaphoreRun.untaken {c : SemaphoreConfig θ}
    (h : SemaphoreRun initial c) :
    ∀ t, SemaphoreKnows t (c.pc t) c.shared
      ∧ (c.pc t).Untaken initial c.shared := by
  refine (h.rely (fun _ => True) (Counted initial)
    (fun t p s => SemaphoreKnows t p s ∧ p.Untaken initial s) SemaphoreRely
    (fun _ _ _ _ _ _ _ _ => trivial) ?_ ?_ ?_ trivial).2
  · intro c hr
    obtain ⟨hinitial, rfl⟩ := hr
    have hstart : SemaphoreRun initial (semaphoreStart (θ := θ) initial) :=
      .start ⟨hinitial, rfl⟩
    obtain ⟨hs, hk⟩ := hstart.counted
    exact ⟨hs, fun t => ⟨hk t, nofun⟩⟩
  · intro t x p s p' s' hrun _ _ hs hr
    obtain ⟨hknows, huntaken⟩ := hr
    have hr := semaphoreStep_rule hrun
    have hstep := hr.step hs hknows
    exact ⟨hstep.counted, ⟨hstep.knows, hr.untaken hs huntaken⟩, hstep.rely⟩
  · intro t p s s' hrely hr
    obtain ⟨hknows, huntaken⟩ := hr
    exact ⟨hknows.stable hrely, huntaken.stable hknows hrely⟩

/-- Each wait that returned was let through by a unit there was at first, or
by a post that returned before. -/
theorem SemaphoreRun.waited_le {c : SemaphoreConfig θ}
    (h : SemaphoreRun initial c) :
    c.shared.book.waited ≤ initial + c.shared.book.posted := by
  obtain ⟨hs, hk⟩ := h.counted
  have hcount := hs.count
  cases howner : c.shared.sync.owner () with
  | none =>
      obtain ⟨hposts, hwaits⟩ := hs.returned howner
      omega
  | some t =>
      have hheld := ((hk t).holds ()).mp howner
      obtain ⟨hposts, hwaits⟩ := (hk t).returned hheld
      have huntaken := (h.untaken t).2
      unfold SemaphorePc.Untaken at huntaken
      generalize c.pc t = p at hposts huntaken
      cases p with
      | postSignal =>
          have hpost := huntaken rfl
          simp only [SemaphorePc.posting] at hposts
          omega
      | postUnlock =>
          have hpost := huntaken rfl
          simp only [SemaphorePc.posting] at hposts
          omega
      | _ =>
          simp only [SemaphorePc.posting] at hposts
          omega

/-- Nobody is in a call. -/
theorem SemaphoreRun.destroyed {c : SemaphoreConfig θ}
    (h : SemaphoreRun initial c) (hidle : ∀ t, c.pc t = .idle) :
    cxSemaphoreDestroy c.shared = 0 := by
  obtain ⟨-, hk⟩ := h.counted
  have hfree : c.shared.sync.owner () = none := by
    cases howner : c.shared.sync.owner () with
    | none => rfl
    | some t =>
        have hheld := ((hk t).holds ()).mp howner
        rw [hidle t] at hheld
        cases hheld
  have hunused : c.shared.sync.asleep () = [] := by
    refine List.eq_nil_iff_forall_not_mem.mpr fun t hin => ?_
    have hblocked := (hk t).asleep hin
    rw [hidle t] at hblocked
    cases hblocked
  unfold cxSemaphoreDestroy
  rw [Sync.destroyMutex_free hfree]
  exact Sync.destroyCond_unused hunused

/-- What returned by when. -/
structure SemaphoreLifetime (initial : Nat)
    (c : Config (fun _ : θ => SemaphorePc)
      (CxSemaphore θ × Calls SemaphoreCall θ)) : Prop where
  /-- no wait returns before what let it through has -/
  through : c.shared.2.ended .wait ≤ initial + c.shared.2.ended .post
  /-- where all that was there to be waited for was waited for, no thread is
  inside the semaphore, and it may be destroyed -/
  ends : initial + c.shared.2.begun .post = c.shared.2.ended .wait →
    c.shared.2.begun .wait = c.shared.2.ended .wait →
    (∀ t, c.pc t = .idle) ∧ cxSemaphoreDestroy c.shared.1 = 0

theorem cxSemaphore_lifetime
    {c : Config (fun _ : θ => SemaphorePc)
      (CxSemaphore θ × Calls SemaphoreCall θ)}
    (h : SemaphoreCalls initial c) : SemaphoreLifetime initial c := by
  have hone : (semaphoreProgram θ).OneCall fun _ p => p.call :=
    fun t x p s p' s' hstep => (semaphoreStep_rule hstep).calls.1
  have hidle : ∀ c : SemaphoreConfig θ,
      initial < 2 ^ 64 ∧ c = semaphoreStart initial →
      ∀ t, (c.pc t).call = none := by
    intro c hr t
    obtain ⟨-, rfl⟩ := hr
    rfl
  have htracks := Interleaved.calls h hone hidle
  have hwaited := Interleaved.ended_eq h hone hidle .wait
    (fun s => s.book.waited) (by rintro c ⟨-, rfl⟩; rfl)
    fun t x p s p' s' hstep => (semaphoreStep_rule hstep).calls.2.1
  have hposted := Interleaved.ended_eq h hone hidle .post
    (fun s => s.book.posted) (by rintro c ⟨-, rfl⟩; rfl)
    fun t x p s p' s' hstep => (semaphoreStep_rule hstep).calls.2.2
  have hrun : SemaphoreRun initial c.erase := h.erase
  have hthrough : c.shared.2.ended .wait
      ≤ initial + c.shared.2.ended .post := by
    rw [hwaited, hposted]
    exact hrun.waited_le
  refine ⟨hthrough, fun hposts hwaits => ?_⟩
  have hbegun := htracks.begun .post
  have hall : ∀ t, c.pc t = .idle := by
    intro t
    refine SemaphorePc.idle_of_call ?_
    cases hcall : (c.pc t).call with
    | none => rfl
    | some i =>
        cases i with
        | wait => exact absurd hcall (htracks.outside hwaits t)
        | post => exact absurd hcall (htracks.outside (by omega) t)
  exact ⟨hall, hrun.destroyed hall⟩

/-- Thread 0 waits twice, for posts of threads 1 and 2, and may destroy the
semaphore when it comes back; thread 1 had to let go of it first. -/
theorem cxSemaphore_lifetime_joined : ∃ c : Config (fun _ : Nat => SemaphorePc)
      (CxSemaphore Nat × Calls SemaphoreCall Nat),
    SemaphoreLifetime 0 c ∧ c.shared.2.begun .post = 2
      ∧ c.shared.2.ended .wait = 2 ∧ cxSemaphoreDestroy c.shared.1 = 0 := by
  have h : (((semaphoreProgram Nat).recorded
      fun t p y => Calls.note (fun _ p => SemaphorePc.call p) t p y).follow
      [(0, .wait), (0, .go), (0, .go), (0, .go), (1, .post), (1, .go), (1, .go),
        (2, .post), (1, .wake 0), (1, .go), (0, .go), (0, .go), (0, .go),
        (0, .go), (2, .go), (2, .go), (2, .wake 0), (0, .wait), (2, .go),
        (0, .go), (0, .go), (0, .go), (0, .go)]
      ⟨fun _ => .idle, cxSemaphoreInit 0, Calls.zero⟩).any
      (fun c => decide (c.shared.2.begun .post = 2
        ∧ c.shared.2.ended .wait = 2 ∧ c.shared.2.begun .wait = 2)) = true := by
    decide +kernel
  obtain ⟨c, hrun, htest⟩ := (Option.any_eq_true _ _).mp h
  obtain ⟨hposts, hwaited, hwaits⟩ := of_decide_eq_true htest
  have hreach : SemaphoreCalls 0 c :=
    Interleaved.follow (.start ⟨⟨by decide, rfl⟩, rfl⟩)
      (fun _ _ _ _ => trivial) hrun
  have hlife := cxSemaphore_lifetime hreach
  refine ⟨c, hlife, hposts, hwaited, (hlife.ends ?_ ?_).2⟩
  · rw [hposts, hwaited]
  · rw [hwaits, hwaited]

end Semaphore

-- ================================================================= futures

section Future

variable {s s' : CxFuture θ} {p p' : FuturePc}

inductive FutureCall where
  | wait
  | resolve
deriving DecidableEq

def FuturePc.call : FuturePc → Option FutureCall
  | .idle => none
  | .resolveLock _ => some .resolve
  | .resolveTest _ => some .resolve
  | .resolveStore _ => some .resolve
  | .resolveBroadcast _ => some .resolve
  | .resolveUnlock _ _ => some .resolve
  | _ => some .wait

theorem FuturePc.idle_of_call (h : p.call = none) : p = .idle := by
  cases p with
  | idle => rfl
  | _ => cases h

/-- The runs of a future, with the calls that began and ended. -/
abbrev FutureCalls : Config (fun _ : θ => FuturePc)
    (CxFuture θ × Calls FutureCall θ) → Prop :=
  Called (futureProgram θ) (fun _ _ _ => True) (fun c => c = futureStart)
    (fun _ p => p.call)

theorem FutureRule.calls (hr : FutureRule t s p p' s') :
    (p.call = none ∨ p'.call = none ∨ p'.call = p.call)
      ∧ s'.book.waited.length = s.book.waited.length
        + (if p.call = some .wait ∧ p'.call = none then 1 else 0)
      ∧ s'.book.resolved.length = s.book.resolved.length
        + (if p.call = some .resolve ∧ p'.call = none then 1 else 0) := by
  have hlocks : ∀ s₁, s.lock t = some s₁ →
      s₁.book.waited.length = s.book.waited.length
        ∧ s₁.book.resolved.length = s.book.resolved.length := by
    intro s₁ hlock
    obtain ⟨y, -, rfl⟩ := CxFuture.lock_cases hlock
    exact ⟨rfl, rfl⟩
  cases hr with
  | wait => exact ⟨Or.inl rfl, rfl, rfl⟩
  | resolve => exact ⟨Or.inl rfl, rfl, rfl⟩
  | waitLock hlock => exact ⟨Or.inr (Or.inr rfl), hlocks _ hlock⟩
  | relock hlock => exact ⟨Or.inr (Or.inr rfl), hlocks _ hlock⟩
  | resolveLock hlock => exact ⟨Or.inr (Or.inr rfl), hlocks _ hlock⟩
  | waitUnlock => exact ⟨Or.inr (Or.inl rfl), List.length_append, rfl⟩
  | resolveUnlock => exact ⟨Or.inr (Or.inl rfl), rfl, List.length_append⟩
  | _ => exact ⟨Or.inr (Or.inr rfl), rfl, rfl⟩

/-- A wait that has found a value. -/
def FuturePc.reads : FuturePc → Bool
  | .waitRead => true
  | .waitUnlock _ => true
  | _ => false

/-- Where nobody has the mutex, a value is there from a resolve that has
returned, and so is what a wait returned. -/
structure Left (s : CxFuture θ) : Prop where
  free : s.sync.owner () = none → s.outValue ≠ 0 → s.book.resolved ≠ []
  waited : s.book.waited ≠ [] → s.book.resolved ≠ []

/-- What thread `t` knows. -/
structure LeftKnows (t : θ) (p : FuturePc) (s : CxFuture θ) : Prop where
  holds : s.sync.Holds t p.held
  left : p.held = some () → p.deciding = false → s.outValue ≠ 0 →
    s.book.resolved ≠ []
  found : p.reads = true → s.outValue ≠ 0

/-- The thread takes the mutex. -/
theorem Left.lock (hs : Left s) (hr : FutureRule t s p p' s')
    (hk : LeftKnows t p s) (hlock : s.lock t = some s')
    (hp' : p'.held = some ()) (hreads : p'.reads = false) :
    Left s' ∧ LeftKnows t p' s' := by
  have hholds := (hr.frame hk.holds).holds
  obtain ⟨y, hy, rfl⟩ := CxFuture.lock_cases hlock
  obtain ⟨hfree, -⟩ := Sync.lock_cases hy
  refine ⟨⟨fun hnone => ?_, hs.waited⟩, hholds, fun _ _ => hs.free hfree, ?_⟩
  · cases ((hholds ()).mpr hp').symm.trans hnone
  · rw [hreads]
    exact nofun

/-- The thread goes on with the mutex. -/
theorem Left.inside (hs : Left s) (hr : FutureRule t s p p' s')
    (hk : LeftKnows t p s) (hbook : s'.book = s.book)
    (hp' : p'.held = some ())
    (hleft : p'.deciding = false → s'.outValue ≠ 0 → s.book.resolved ≠ [])
    (hfound : p'.reads = true → s'.outValue ≠ 0) :
    Left s' ∧ LeftKnows t p' s' := by
  have hholds := (hr.frame hk.holds).holds
  refine ⟨⟨fun hnone => ?_, ?_⟩, hholds, fun _ => ?_, hfound⟩
  · cases ((hholds ()).mpr hp').symm.trans hnone
  · rw [hbook]
    exact hs.waited
  · rw [hbook]
    exact hleft

/-- The thread has no mutex after the step. -/
theorem LeftKnows.outside (hk : LeftKnows t p s) (hr : FutureRule t s p p' s')
    (hs' : Left s') (hp' : p'.held = none) (hreads : p'.reads = false) :
    Left s' ∧ LeftKnows t p' s' := by
  refine ⟨hs', (hr.frame hk.holds).holds, ?_, ?_⟩
  · rw [hp']
    exact nofun
  · rw [hreads]
    exact nofun

theorem FutureRule.left (hr : FutureRule t s p p' s') (hs : Left s)
    (hk : LeftKnows t p s) : Left s' ∧ LeftKnows t p' s' := by
  have hrule := hr
  cases hr with
  | wait => exact hk.outside hrule hs rfl rfl
  | resolve => exact hk.outside hrule hs rfl rfl
  | waitLock hlock => exact hs.lock hrule hk hlock rfl rfl
  | relock hlock => exact hs.lock hrule hk hlock rfl rfl
  | resolveLock hlock => exact hs.lock hrule hk hlock rfl rfl
  | waitNull => exact hs.inside hrule hk rfl rfl (fun _ => hk.left rfl rfl) nofun
  | waitFound hfound =>
      exact hs.inside hrule hk rfl rfl (fun _ => hk.left rfl rfl) fun _ => hfound
  | waitSleep =>
      exact hk.outside hrule ⟨fun _ => hk.left rfl rfl, hs.waited⟩ rfl rfl
  | spurious => exact hk.outside hrule ⟨hs.free, hs.waited⟩ rfl rfl
  | waitRead =>
      exact hs.inside hrule hk rfl rfl (fun _ => hk.left rfl rfl)
        fun _ => hk.found rfl
  | waitUnlock =>
      have hleft := hk.left rfl rfl
      exact hk.outside hrule ⟨fun _ => hleft, fun _ => hleft (hk.found rfl)⟩
        rfl rfl
  | resolveLate =>
      exact hs.inside hrule hk rfl rfl (fun _ => hk.left rfl rfl) nofun
  | resolveFirst =>
      exact hs.inside hrule hk rfl rfl (fun _ => hk.left rfl rfl) nofun
  | resolveStore => exact hs.inside hrule hk rfl rfl nofun nofun
  | resolveBroadcast => exact hs.inside hrule hk rfl rfl nofun nofun
  | resolveUnlock =>
      have hsome : ∀ r, s.book.resolved ++ [r] ≠ [] :=
        fun r => List.append_ne_nil_of_right_ne_nil _ (List.cons_ne_nil r [])
      exact hk.outside hrule ⟨fun _ _ => hsome _, fun _ => hsome _⟩ rfl rfl

omit [DecidableEq θ] in
theorem LeftKnows.stable (hk : LeftKnows t p s) (hr : FutureRely t s s') :
    LeftKnows t p s' := by
  refine ⟨hk.holds.congr hr.same, fun hp => ?_, fun hp => ?_⟩
  · obtain ⟨hvalue, hresolved, -⟩ := hr.owned ((hk.holds ()).mpr hp)
    rw [hvalue, hresolved]
    exact hk.left hp
  · have hheld : p.held = some () := by
      cases p with
      | waitRead => rfl
      | waitUnlock _ => rfl
      | _ => cases hp
    rw [(hr.owned ((hk.holds ()).mpr hheld)).1]
    exact hk.found hp

theorem FutureRun.left {c : FutureConfig θ}
    (h : FutureRun (fun _ _ _ => True) c) : Left c.shared := by
  refine (h.rely (fun _ => True) Left LeftKnows FutureRely
    (fun _ _ _ _ _ _ _ _ => trivial) ?_ ?_ (fun _ _ _ _ hr hk => hk.stable hr)
    trivial).1
  · rintro c rfl
    exact ⟨⟨fun _ hne => absurd rfl hne, fun hne => absurd rfl hne⟩,
      fun t => ⟨fun _ => ⟨nofun, nofun⟩, nofun, nofun⟩⟩
  · intro t x p s p' s' hrun _ _ hs hk
    have hr := futureStep_rule hrun
    obtain ⟨hs', hk'⟩ := hr.left hs hk
    exact ⟨hs', hk', (hr.frame hk.holds).rely⟩

theorem FutureRun.destroyed {c : FutureConfig θ}
    (h : FutureRun (fun _ _ _ => True) c) (hidle : ∀ t, c.pc t = .idle) :
    cxFutureDestroy c.shared = (0, 0, 0) := by
  obtain ⟨-, hk⟩ := h.unslept
  have hfree : c.shared.sync.owner () = none := by
    cases howner : c.shared.sync.owner () with
    | none => rfl
    | some t =>
        have hheld := ((hk t).holds ()).mp howner
        rw [hidle t] at hheld
        cases hheld
  have hunused : c.shared.sync.asleep () = [] := by
    refine List.eq_nil_iff_forall_not_mem.mpr fun t hin => ?_
    have hblocked := (hk t).asleep hin
    rw [hidle t] at hblocked
    cases hblocked
  unfold cxFutureDestroy
  rw [Sync.destroyMutex_free hfree, Sync.destroyCond_unused hunused]

/-- What returned by when. -/
structure FutureLifetime
    (c : Config (fun _ : θ => FuturePc) (CxFuture θ × Calls FutureCall θ)) :
    Prop where
  /-- no wait returns before a resolve has -/
  through : c.shared.2.ended .wait ≠ 0 → c.shared.2.ended .resolve ≠ 0
  /-- where the one resolve that began was waited for, no thread is inside the
  future, and it may be destroyed -/
  ends : c.shared.2.begun .resolve = 1 → c.shared.2.ended .wait ≠ 0 →
    c.shared.2.begun .wait = c.shared.2.ended .wait →
    (∀ t, c.pc t = .idle) ∧ cxFutureDestroy c.shared.1 = (0, 0, 0)

theorem cxFuture_lifetime
    {c : Config (fun _ : θ => FuturePc) (CxFuture θ × Calls FutureCall θ)}
    (h : FutureCalls c) : FutureLifetime c := by
  have hone : (futureProgram θ).OneCall fun _ p => p.call :=
    fun t x p s p' s' hstep => (futureStep_rule hstep).calls.1
  have hidle : ∀ c : FutureConfig θ, c = futureStart →
      ∀ t, (c.pc t).call = none := by
    rintro c rfl t
    rfl
  have htracks := Interleaved.calls h hone hidle
  have hwaited := Interleaved.ended_eq h hone hidle .wait
    (fun s => s.book.waited.length) (by rintro c rfl; rfl)
    fun t x p s p' s' hstep => (futureStep_rule hstep).calls.2.1
  have hresolved := Interleaved.ended_eq h hone hidle .resolve
    (fun s => s.book.resolved.length) (by rintro c rfl; rfl)
    fun t x p s p' s' hstep => (futureStep_rule hstep).calls.2.2
  have hrun : FutureRun (fun _ _ _ => True) c.erase := h.erase
  have hthrough : c.shared.2.ended .wait ≠ 0 →
      c.shared.2.ended .resolve ≠ 0 := by
    rw [hwaited, hresolved]
    intro hsome
    exact mt List.length_eq_zero_iff.mp
      (hrun.left.waited (mt List.length_eq_zero_iff.mpr hsome))
  refine ⟨hthrough, fun hresolves hsome hwaits => ?_⟩
  have hbegun := htracks.begun .resolve
  have hended := hthrough hsome
  have hall : ∀ t, c.pc t = .idle := by
    intro t
    refine FuturePc.idle_of_call ?_
    cases hcall : (c.pc t).call with
    | none => rfl
    | some i =>
        cases i with
        | wait => exact absurd hcall (htracks.outside hwaits t)
        | resolve => exact absurd hcall (htracks.outside (by omega) t)
  exact ⟨hall, hrun.destroyed hall⟩

/-- Threads 0 and 2 wait for a resolve of thread 1; when both came back the
future may be destroyed. -/
theorem cxFuture_lifetime_joined :
    ∃ c : Config (fun _ : Nat => FuturePc) (CxFuture Nat × Calls FutureCall Nat),
      FutureLifetime c ∧ c.shared.2.ended .wait = 2
        ∧ cxFutureDestroy c.shared.1 = (0, 0, 0) := by
  have h : (((futureProgram Nat).recorded
      fun t p y => Calls.note (fun _ p => FuturePc.call p) t p y).follow
      [(0, .wait), (0, .go), (0, .go), (0, .go), (1, .resolve 7), (1, .go),
        (2, .wait), (1, .go), (1, .go), (1, .go), (1, .go), (2, .go), (2, .go),
        (2, .go), (2, .go), (0, .go), (0, .go), (0, .go), (0, .go)]
      ⟨fun _ => .idle, cxFutureInit, Calls.zero⟩).any
      (fun c => decide (c.shared.2.begun .resolve = 1
        ∧ c.shared.2.ended .wait = 2 ∧ c.shared.2.begun .wait = 2)) = true := by
    decide +kernel
  obtain ⟨c, hrun, htest⟩ := (Option.any_eq_true _ _).mp h
  obtain ⟨hresolves, hended, hwaits⟩ := of_decide_eq_true htest
  have hreach : FutureCalls c :=
    Interleaved.follow (.start ⟨rfl, rfl⟩) (fun _ _ _ _ => trivial) hrun
  have hlife := cxFuture_lifetime hreach
  refine ⟨c, hlife, hended, (hlife.ends hresolves ?_ ?_).2⟩
  · rw [hended]
    exact Nat.succ_ne_zero 1
  · rw [hwaits, hended]

end Future

end Cextras.Concurrency
