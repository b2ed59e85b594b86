/-
What a semaphore counts, and whom it wakes. The count is what it started
with, the posts added and the waits taken off, but for the posts that found
it at `SIZE_MAX`, which take it to 0. A thread goes to sleep holding the
mutex with the count at 0, and a post signals before it lets go of the
mutex: so while somebody sleeps, each unit of the count has a thread that
was woken for it and is not through its wait loop yet
(`cxSemaphore_counts`).
-/
import Cextras.Concurrency.Semaphore

namespace Cextras.Concurrency

open Lib

variable {θ : Type} [DecidableEq θ] {s s' : CxSemaphore θ} {t u : θ}
  {p p' : SemaphorePc} {initial : Nat}

-- ================================================================== steps

omit [DecidableEq θ] in
theorem CxSemaphore.lock_cases (h : s.lock t = some s') :
    ∃ y, s.sync.lock () t = some y ∧ s' = { s with sync := y } := by
  obtain ⟨y, hy, rfl⟩ := Option.map_eq_some_iff.mp h
  exact ⟨y, hy, rfl⟩

theorem CxSemaphore.relock_cases (h : s.relock t = some s') :
    t ∉ s.sync.asleep () ∧ s.lock t = some s' := by
  obtain ⟨y, hy, rfl⟩ := Option.map_eq_some_iff.mp h
  obtain ⟨hawake, hlock⟩ := Sync.relock_cases hy
  refine ⟨hawake, ?_⟩
  unfold CxSemaphore.lock
  rw [hlock]
  rfl

theorem CxSemaphore.wake_asleep (h : t ∈ s.sync.asleep ()) :
    s.wake t = { s with
      sync := s.sync.wake () t, book.woken := t :: s.book.woken } := if_pos h

theorem CxSemaphore.wake_awake (h : t ∉ s.sync.asleep ()) : s.wake t = s :=
  if_neg h

/-- A signal wakes nobody only if nobody sleeps. -/
theorem CxSemaphore.signal_cases (h : s.signal t = some s') :
    s' = s.wake t ∧ (s.sync.asleep () = [] ∨ t ∈ s.sync.asleep ()) := by
  obtain ⟨y, hy, rfl⟩ := Option.map_eq_some_iff.mp h
  rcases Sync.signal_cases hy with ⟨hnone, -⟩ | ⟨hin, -⟩
  · exact ⟨rfl, Or.inl hnone⟩
  · exact ⟨rfl, Or.inr hin⟩

/-- The ways a step of a thread can go. -/
inductive SemaphoreRule (t : θ) (s : CxSemaphore θ) :
    SemaphorePc → SemaphorePc → CxSemaphore θ → Prop where
  | wait : SemaphoreRule t s .idle .waitLock s
  | post : SemaphoreRule t s .idle .postLock s
  | waitLock {s' : CxSemaphore θ} : s.lock t = some s' →
      SemaphoreRule t s .waitLock (.waitTest false) s'
  | waitEmpty {woken : Bool} : s.count = 0 →
      SemaphoreRule t s (.waitTest woken) .waitSleep (s.resumed t)
  | waitFound {woken : Bool} : s.count ≠ 0 →
      SemaphoreRule t s (.waitTest woken) (.waitTake woken) s
  | waitSleep : SemaphoreRule t s .waitSleep .blocked (s.sleep t)
  | spurious : SemaphoreRule t s .blocked .blocked (s.wake t)
  | relock {s' : CxSemaphore θ} : t ∉ s.sync.asleep () → s.lock t = some s' →
      SemaphoreRule t s .blocked (.waitTest true) s'
  | waitTake {woken : Bool} : SemaphoreRule t s (.waitTake woken) .waitUnlock
      (s.decrement.resumed t)
  | waitUnlock : SemaphoreRule t s .waitUnlock .idle
      { s.unlock with book.waited := s.book.waited + 1 }
  | postLock {s' : CxSemaphore θ} : s.lock t = some s' →
      SemaphoreRule t s .postLock .postAdd s'
  | postAdd : SemaphoreRule t s .postAdd .postSignal s.increment
  | postSignal {chosen : θ} :
      s.sync.asleep () = [] ∨ chosen ∈ s.sync.asleep () →
      SemaphoreRule t s .postSignal .postUnlock (s.wake chosen)
  | postUnlock : SemaphoreRule t s .postUnlock .idle
      { s.unlock with book.posted := s.book.posted + 1 }

private theorem relock_rule
    (h : (s.relock t >>= fun s => some (SemaphorePc.waitTest true, s))
      = some (p', s')) : SemaphoreRule t s .blocked p' s' := by
  obtain ⟨s₁, hrelock, hs⟩ := Option.bind_eq_some_iff.mp h
  cases hs
  obtain ⟨hawake, hlock⟩ := CxSemaphore.relock_cases hrelock
  exact .relock hawake hlock

theorem semaphoreStep_rule {x : SemaphoreChoice θ}
    (h : semaphoreStep t x s p = some (p', s')) : SemaphoreRule t s p p' s' := by
  cases p with
  | idle =>
      cases x with
      | wait =>
          cases h
          exact .wait
      | post =>
          cases h
          exact .post
      | _ => cases h
  | waitLock =>
      obtain ⟨s₁, hlock, hs⟩ := Option.bind_eq_some_iff.mp h
      cases hs
      exact .waitLock hlock
  | waitTest woken =>
      simp only [semaphoreStep] at h
      split at h
      · next hzero =>
          cases h
          exact .waitEmpty hzero
      · next hcount =>
          cases h
          exact .waitFound hcount
  | waitSleep =>
      cases h
      exact .waitSleep
  | blocked =>
      cases x with
      | spurious =>
          cases h
          exact .spurious
      | _ => exact relock_rule h
  | waitTake woken =>
      cases h
      exact .waitTake
  | waitUnlock =>
      cases h
      exact .waitUnlock
  | postLock =>
      obtain ⟨s₁, hlock, hs⟩ := Option.bind_eq_some_iff.mp h
      cases hs
      exact .postLock hlock
  | postAdd =>
      cases h
      exact .postAdd
  | postSignal =>
      cases x with
      | wake chosen =>
          obtain ⟨s₁, hsignal, hs⟩ := Option.bind_eq_some_iff.mp h
          cases hs
          obtain ⟨rfl, hwho⟩ := CxSemaphore.signal_cases hsignal
          exact .postSignal hwho
      | _ => cases h
  | postUnlock =>
      cases h
      exact .postUnlock

-- ============================================================= invariants

def SemaphorePc.held : SemaphorePc → Option Unit
  | .waitTest _ => some ()
  | .waitSleep => some ()
  | .waitTake _ => some ()
  | .waitUnlock => some ()
  | .postAdd => some ()
  | .postSignal => some ()
  | .postUnlock => some ()
  | _ => none

/-- The thread has the mutex again after it was woken, and is not through
its wait loop yet. -/
def SemaphorePc.woken : SemaphorePc → Bool
  | .waitTest woken => woken
  | .waitTake woken => woken
  | _ => false

/-- A signal that is still due. -/
def SemaphorePc.signals : SemaphorePc → Nat
  | .postSignal => 1
  | _ => 0

/-- A post that is in the count and has not returned. -/
def SemaphorePc.posting : SemaphorePc → Nat
  | .postSignal => 1
  | .postUnlock => 1
  | _ => 0

/-- A wait that is off the count and has not returned. -/
def SemaphorePc.waiting : SemaphorePc → Nat
  | .waitUnlock => 1
  | _ => 0

/-- What holds of the semaphore. While nobody has the mutex, the count is
covered by threads that were woken. -/
structure Counted (initial : Nat) (s : CxSemaphore θ) : Prop where
  count : s.count + s.book.waits + 2 ^ 64 * s.book.wraps
    = initial + s.book.posts
  nodup : s.book.woken.Nodup
  sleepers : (s.sync.asleep ()).Nodup
  awake : ∀ t ∈ s.book.woken, t ∉ s.sync.asleep ()
  covered : s.sync.owner () = none → s.sync.asleep () ≠ [] →
    s.count ≤ s.book.woken.length
  returned : s.sync.owner () = none →
    s.book.posts = s.book.posted ∧ s.book.waits = s.book.waited

/-- What thread `t` knows. -/
structure SemaphoreKnows (t : θ) (p : SemaphorePc) (s : CxSemaphore θ) :
    Prop where
  holds : s.sync.Holds t p.held
  asleep : t ∈ s.sync.asleep () → p = .blocked
  woken : t ∈ s.book.woken
    ↔ p = .blocked ∧ t ∉ s.sync.asleep () ∨ p.woken = true
  covered : p.held = some () → s.sync.asleep () ≠ [] →
    s.count ≤ s.book.woken.length + p.signals
  returned : p.held = some () → s.book.posts = s.book.posted + p.posting
    ∧ s.book.waits = s.book.waited + p.waiting
  empty : p = .waitSleep → s.count = 0
  found : ∀ woken, p = .waitTake woken → s.count ≠ 0

/-- What a thread relies on when others move. -/
structure SemaphoreRely (u : θ) (s s' : CxSemaphore θ) : Prop where
  same : Sync.SameFor u s.sync s'.sync
  asleep : u ∈ s'.sync.asleep () → u ∈ s.sync.asleep ()
  woken : u ∈ s'.book.woken ↔ u ∈ s.book.woken
    ∨ u ∈ s.sync.asleep () ∧ u ∉ s'.sync.asleep ()
  owned : s.sync.owner () = some u → s'.count = s.count
    ∧ s.book.woken.length ≤ s'.book.woken.length
    ∧ (s'.sync.asleep () ≠ [] → s.sync.asleep () ≠ [])
    ∧ s'.book.posts = s.book.posts ∧ s'.book.posted = s.book.posted
    ∧ s'.book.waits = s.book.waits ∧ s'.book.waited = s.book.waited

omit [DecidableEq θ] in
theorem SemaphoreKnows.owner (hk : SemaphoreKnows t p s)
    (hp : p.held = some ()) : s.sync.owner () = some t :=
  (hk.holds ()).mpr hp

theorem SemaphoreKnows.stable (hk : SemaphoreKnows t p s)
    (hr : SemaphoreRely t s s') : SemaphoreKnows t p s' := by
  refine ⟨hk.holds.congr hr.same, fun ha => hk.asleep (hr.asleep ha), ?_, ?_, ?_,
    ?_, ?_⟩
  · rw [hr.woken, hk.woken]
    constructor
    · intro h
      rcases h with (⟨hp, hawake⟩ | hp) | ⟨ha, hawake⟩
      · exact Or.inl ⟨hp, fun ha => hawake (hr.asleep ha)⟩
      · exact Or.inr hp
      · exact Or.inl ⟨hk.asleep ha, hawake⟩
    · intro h
      rcases h with ⟨hp, hawake⟩ | hp
      · by_cases ha : t ∈ s.sync.asleep ()
        · exact Or.inr ⟨ha, hawake⟩
        · exact Or.inl (Or.inl ⟨hp, ha⟩)
      · exact Or.inl (Or.inr hp)
  · intro hp ha
    obtain ⟨hcount, hlen, hasleep, -⟩ := hr.owned (hk.owner hp)
    have hcovered := hk.covered hp (hasleep ha)
    omega
  · intro hp
    obtain ⟨-, -, -, hposts, hposted, hwaits, hwaited⟩ := hr.owned (hk.owner hp)
    rw [hposts, hposted, hwaits, hwaited]
    exact hk.returned hp
  · intro hp
    rw [(hr.owned (hk.owner (hp ▸ rfl))).1]
    exact hk.empty hp
  · intro woken hp
    rw [(hr.owned (hk.owner (hp ▸ rfl))).1]
    exact hk.found woken hp

-- ========================================================== kinds of steps

/-- What every step of `t` establishes. -/
structure SemaphoreStep (initial : Nat) (t : θ) (p' : SemaphorePc)
    (s s' : CxSemaphore θ) : Prop where
  counted : Counted initial s'
  knows : SemaphoreKnows t p' s'
  rely : ∀ u, u ≠ t → SemaphoreRely u s s'

omit [DecidableEq θ] in
theorem SemaphoreRely.refl (u : θ) (s : CxSemaphore θ) : SemaphoreRely u s s :=
  ⟨fun _ => Iff.rfl, id, by simp,
    fun _ => ⟨rfl, Nat.le_refl _, id, rfl, rfl, rfl, rfl⟩⟩

omit [DecidableEq θ] in
/-- What is done to the count and the book by the thread that has the
mutex. -/
theorem SemaphoreRely.of_owner (howner : s.sync.owner () = some t) (hu : u ≠ t)
    (hsync : s'.sync = s.sync)
    (hwoken : u ∈ s'.book.woken ↔ u ∈ s.book.woken) :
    SemaphoreRely u s s' := by
  refine ⟨?_, ?_, ?_, ?_⟩
  · exact .of_owner (by rw [hsync]) u
  · rw [hsync]
    exact id
  · rw [hsync, hwoken]
    simp
  · exact fun howner' => absurd howner' (Sync.owner_ne howner hu)

omit [DecidableEq θ] in
theorem SemaphoreRely.release (howner : s.sync.owner () = some t) (hu : u ≠ t)
    (howner' : s'.sync.owner = Function.update s.sync.owner () none)
    (hasleep : u ∈ s'.sync.asleep () ↔ u ∈ s.sync.asleep ())
    (hwoken : s'.book.woken = s.book.woken) : SemaphoreRely u s s' := by
  refine ⟨.release howner hu howner', hasleep.mp, ?_, ?_⟩
  · rw [hwoken, hasleep]
    simp
  · exact fun hown => absurd hown (Sync.owner_ne howner hu)

/-- Being woken changes what others rely on for nobody. -/
theorem Counted.rely_wake (hs : Counted initial s) (u v : θ) :
    SemaphoreRely u s (s.wake v) := by
  by_cases hv : v ∈ s.sync.asleep ()
  · rw [CxSemaphore.wake_asleep hv]
    refine ⟨fun _ => Iff.rfl, ?_, ?_, ?_⟩
    · exact fun hu => (s.sync.wake_sublist () v ()).subset hu
    · show u ∈ v :: s.book.woken ↔ u ∈ s.book.woken
        ∨ u ∈ s.sync.asleep () ∧ u ∉ (s.sync.wake () v).asleep ()
      rw [Sync.wake_self, List.mem_cons, hs.sleepers.mem_erase_iff]
      by_cases hu : u = v
      · subst hu
        simp [hv]
      · simp [hu]
    · intro howner
      refine ⟨rfl, Nat.le_succ _, ?_, rfl, rfl, rfl, rfl⟩
      exact fun _ => List.ne_nil_of_mem hv
  · rw [CxSemaphore.wake_awake hv]
    exact .refl u s

theorem Counted.wake (hs : Counted initial s) (v : θ) :
    Counted initial (s.wake v) := by
  by_cases hv : v ∈ s.sync.asleep ()
  · rw [CxSemaphore.wake_asleep hv]
    have hsub := s.sync.wake_sublist () v ()
    refine ⟨hs.count, ?_, hs.sleepers.sublist hsub, ?_, ?_, hs.returned⟩
    · exact List.nodup_cons.mpr ⟨fun hmem => hs.awake v hmem hv, hs.nodup⟩
    · intro t ht ha
      rcases List.mem_cons.mp ht with rfl | ht
      · rw [Sync.wake_self] at ha
        exact (hs.sleepers.mem_erase_iff.mp ha).1 rfl
      · exact hs.awake t ht (hsub.subset ha)
    · intro hfree _
      exact Nat.le_succ_of_le (hs.covered hfree (List.ne_nil_of_mem hv))
  · rw [CxSemaphore.wake_awake hv]
    exact hs

omit [DecidableEq θ] in
/-- Taking the mutex, for the first time in a call or after being woken. -/
theorem SemaphoreKnows.lock (hk : SemaphoreKnows t p s) (hs : Counted initial s)
    (hlock : s.lock t = some s') (hp : p.held = none)
    (hawake : t ∉ s.sync.asleep ())
    (hp' : p' = .postAdd ∨ ∃ woken, p' = .waitTest woken)
    (hwoken : p'.woken = true ↔ t ∈ s.book.woken) :
    SemaphoreStep initial t p' s s' := by
  obtain ⟨y, hy, rfl⟩ := CxSemaphore.lock_cases hlock
  have hholds : y.Holds t (some ()) := by
    refine Sync.Holds.lock ?_ hy
    rw [← hp]
    exact hk.holds
  have hsame : ∀ u, u ≠ t → Sync.SameFor u s.sync y := fun u hu => .lock hy hu
  obtain ⟨hfree, rfl⟩ := Sync.lock_cases hy
  have hheld : p'.held = some () ∧ p'.signals = 0 ∧ p'.posting = 0
      ∧ p'.waiting = 0 ∧ p' ≠ .blocked ∧ p' ≠ .waitSleep
      ∧ ∀ woken, p' ≠ .waitTake woken := by
    rcases hp' with rfl | ⟨woken, rfl⟩
    · exact ⟨rfl, rfl, rfl, rfl, nofun, nofun, nofun⟩
    · exact ⟨rfl, rfl, rfl, rfl, nofun, nofun, nofun⟩
  obtain ⟨hheld, hsignals, hposting, hwaiting, hblocked, hsleep, htake⟩ := hheld
  have howner := hholds.owner
  refine ⟨⟨hs.count, hs.nodup, hs.sleepers, hs.awake, ?_, ?_⟩, ?_, ?_⟩
  · intro hnone
    cases howner.symm.trans hnone
  · intro hnone
    cases howner.symm.trans hnone
  · refine ⟨by rw [hheld]; exact hholds, fun ha => absurd ha hawake, ?_, ?_, ?_,
      fun hp => absurd hp hsleep, fun woken hp => absurd hp (htake woken)⟩
    · rw [hwoken]
      simp [hblocked]
    · intro _ ha
      exact Nat.le_add_right_of_le (hs.covered hfree ha)
    · rw [hposting, hwaiting]
      exact fun _ => hs.returned hfree
  · intro u hu
    refine ⟨hsame u hu, id, by simp, ?_⟩
    intro howner'
    rw [hfree] at howner'
    cases howner'

omit [DecidableEq θ] in
/-- Giving up the mutex at the end of a call. -/
theorem SemaphoreKnows.unlock (hk : SemaphoreKnows t p s)
    (hs : Counted initial s) (hp : p = .waitUnlock ∨ p = .postUnlock)
    (hsync : s'.sync = s.sync.unlock ()) (hcount : s'.count = s.count)
    (hwoken : s'.book.woken = s.book.woken)
    (hwraps : s'.book.wraps = s.book.wraps)
    (hposts : s'.book.posts = s.book.posts)
    (hwaits : s'.book.waits = s.book.waits)
    (hposted : s'.book.posted = s.book.posted + p.posting)
    (hwaited : s'.book.waited = s.book.waited + p.waiting) :
    SemaphoreStep initial t .idle s s' := by
  have hheld : p.held = some () ∧ p.signals = 0 ∧ p ≠ .blocked
      ∧ p.woken = false := by
    rcases hp with rfl | rfl
    · exact ⟨rfl, rfl, nofun, rfl⟩
    · exact ⟨rfl, rfl, nofun, rfl⟩
  obtain ⟨hheld, hsignals, hblocked, hnot⟩ := hheld
  have hasleep : t ∉ s.sync.asleep () := fun ha => hblocked (hk.asleep ha)
  have howner' : s'.sync.owner = Function.update s.sync.owner () none := by
    rw [hsync]
    rfl
  have hasleep' : s'.sync.asleep = s.sync.asleep := by
    rw [hsync]
    rfl
  have hcovered := hk.covered hheld
  have hreturned := hk.returned hheld
  rw [hsignals] at hcovered
  refine ⟨⟨?_, ?_, ?_, ?_, ?_, ?_⟩, ?_, ?_⟩
  · rw [hcount, hwaits, hwraps, hposts]
    exact hs.count
  · rw [hwoken]
    exact hs.nodup
  · rw [hasleep']
    exact hs.sleepers
  · rw [hasleep', hwoken]
    exact hs.awake
  · rw [hasleep', hcount, hwoken]
    exact fun _ => hcovered
  · rw [hposts, hwaits, hposted, hwaited]
    exact fun _ => hreturned
  · refine ⟨?_, ?_, ?_, nofun, nofun, nofun, nofun⟩
    · refine Sync.Holds.release ?_ howner'
      rw [← hheld]
      exact hk.holds
    · rw [hasleep']
      exact fun ha => absurd ha hasleep
    · rw [hwoken, hk.woken, hnot]
      simp [hblocked, SemaphorePc.woken]
  · intro u hu
    refine .release (hk.owner hheld) hu howner' ?_ hwoken
    rw [hasleep']

omit [DecidableEq θ] in
/-- The thread that has the mutex changes the count or the book, and keeps
it. -/
theorem SemaphoreKnows.change (hk : SemaphoreKnows t p s)
    (hs : Counted initial s) (hp : p.held = some ()) (hp' : p'.held = some ())
    (hblocked : p ≠ .blocked) (hsync : s'.sync = s.sync)
    (hcount : s'.count + s'.book.waits + 2 ^ 64 * s'.book.wraps
      = initial + s'.book.posts)
    (hsub : s'.book.woken.Sublist s.book.woken)
    (hother : ∀ u, u ≠ t → (u ∈ s'.book.woken ↔ u ∈ s.book.woken))
    (hwoken : t ∈ s'.book.woken ↔ p'.woken = true)
    (hcovered : s.sync.asleep () ≠ [] →
      s'.count ≤ s'.book.woken.length + p'.signals)
    (hreturned : s'.book.posts = s'.book.posted + p'.posting
      ∧ s'.book.waits = s'.book.waited + p'.waiting)
    (hempty : p' = .waitSleep → s'.count = 0)
    (hfound : ∀ woken, p' = .waitTake woken → s'.count ≠ 0) :
    SemaphoreStep initial t p' s s' := by
  have howner := hk.owner hp
  have hasleep : t ∉ s.sync.asleep () := fun ha => hblocked (hk.asleep ha)
  have hp'b : p' ≠ .blocked := by
    intro heq
    rw [heq] at hp'
    cases hp'
  refine ⟨⟨hcount, hs.nodup.sublist hsub, ?_, ?_, ?_, ?_⟩, ?_, ?_⟩
  · rw [hsync]
    exact hs.sleepers
  · rw [hsync]
    exact fun u hu => hs.awake u (hsub.subset hu)
  · rw [hsync, howner]
    exact nofun
  · rw [hsync, howner]
    exact nofun
  · refine ⟨?_, ?_, ?_, ?_, fun _ => hreturned, hempty, hfound⟩
    · rw [hsync, hp', ← hp]
      exact hk.holds
    · rw [hsync]
      exact fun ha => absurd ha hasleep
    · rw [hwoken]
      simp [hp'b]
    · rw [hsync]
      exact fun _ => hcovered
  · exact fun u hu => .of_owner howner hu hsync (hother u hu)

omit [DecidableEq θ] in
/-- Going to sleep, with the count at 0. -/
theorem SemaphoreKnows.sleep (hk : SemaphoreKnows t .waitSleep s)
    (hs : Counted initial s) : SemaphoreStep initial t .blocked s (s.sleep t) := by
  have hzero := hk.empty rfl
  have hasleep : t ∉ s.sync.asleep () := fun ha => absurd (hk.asleep ha) nofun
  have hnot : t ∉ s.book.woken := by
    rw [hk.woken]
    simp [SemaphorePc.woken]
  have hmem : ∀ u, u ∈ (s.sleep t).sync.asleep ()
      ↔ u = t ∨ u ∈ s.sync.asleep () := by
    intro u
    show u ∈ (s.sync.sleep () () t).asleep () ↔ _
    rw [Sync.sleep_self, List.mem_cons]
  refine ⟨⟨hs.count, hs.nodup, ?_, ?_, ?_, fun _ => hk.returned rfl⟩, ?_, ?_⟩
  · show ((s.sync.sleep () () t).asleep ()).Nodup
    rw [Sync.sleep_self]
    exact List.nodup_cons.mpr ⟨hasleep, hs.sleepers⟩
  · intro u hu ha
    rcases (hmem u).mp ha with rfl | ha
    · exact hnot hu
    · exact hs.awake u hu ha
  · intro _ _
    show s.count ≤ _
    omega
  · refine ⟨hk.holds.release rfl, fun _ => rfl, ?_, nofun, nofun, nofun, nofun⟩
    rw [hmem]
    show t ∈ s.book.woken ↔ _
    simpa [SemaphorePc.woken] using hnot
  · intro u hu
    refine .release (hk.owner rfl) hu rfl ?_ rfl
    rw [hmem]
    simp [hu]

/-- A post signals. If anybody was asleep, one more thread is woken, for
the unit that was added. -/
theorem SemaphoreKnows.signal (hk : SemaphoreKnows t .postSignal s)
    (hs : Counted initial s) {chosen : θ}
    (hwho : s.sync.asleep () = [] ∨ chosen ∈ s.sync.asleep ()) :
    SemaphoreStep initial t .postUnlock s (s.wake chosen) := by
  have hsignal := hk.stable (hs.rely_wake t chosen)
  refine ⟨hs.wake chosen, ⟨hsignal.holds,
    fun ha => absurd (hsignal.asleep ha) nofun, ?_, ?_, hsignal.returned, nofun,
    nofun⟩, fun u _ => hs.rely_wake u chosen⟩
  · rw [hsignal.woken]
    simp [SemaphorePc.woken]
  · intro _ ha
    have hchosen : chosen ∈ s.sync.asleep () := by
      rcases hwho with hnone | hin
      · rw [CxSemaphore.wake_awake (by rw [hnone]; exact nofun), hnone] at ha
        exact absurd rfl ha
      · exact hin
    have hcovered := hk.covered rfl (List.ne_nil_of_mem hchosen)
    rw [CxSemaphore.wake_asleep hchosen]
    exact hcovered

theorem SemaphoreRule.step (hr : SemaphoreRule t s p p' s')
    (hs : Counted initial s) (hk : SemaphoreKnows t p s) :
    SemaphoreStep initial t p' s s' := by
  have hcount := hs.count
  cases hr with
  | wait =>
      refine ⟨hs, ⟨hk.holds, fun ha => absurd (hk.asleep ha) nofun, ?_, nofun,
        nofun, nofun, nofun⟩, fun u _ => .refl u s⟩
      rw [hk.woken]
      simp [SemaphorePc.woken]
  | post =>
      refine ⟨hs, ⟨hk.holds, fun ha => absurd (hk.asleep ha) nofun, ?_, nofun,
        nofun, nofun, nofun⟩, fun u _ => .refl u s⟩
      rw [hk.woken]
      simp [SemaphorePc.woken]
  | waitLock hlock =>
      refine hk.lock hs hlock rfl (fun ha => absurd (hk.asleep ha) nofun)
        (Or.inr ⟨_, rfl⟩) ?_
      rw [hk.woken]
      simp [SemaphorePc.woken]
  | postLock hlock =>
      refine hk.lock hs hlock rfl (fun ha => absurd (hk.asleep ha) nofun)
        (Or.inl rfl) ?_
      rw [hk.woken]
      simp [SemaphorePc.woken]
  | relock hawake hlock =>
      refine hk.lock hs hlock rfl hawake (Or.inr ⟨_, rfl⟩) ?_
      rw [hk.woken]
      simp [SemaphorePc.woken, hawake]
  | @waitEmpty woken hzero =>
      refine hk.change hs rfl rfl nofun rfl hcount List.erase_sublist
        (fun u hu => List.mem_erase_of_ne hu) ?_ ?_ ?_ (fun _ => hzero) nofun
      · show t ∈ s.book.woken.erase t ↔ _
        rw [hs.nodup.mem_erase_iff]
        simp [SemaphorePc.woken]
      · intro _
        show s.count ≤ _
        omega
      · exact hk.returned rfl
  | @waitFound woken hfound =>
      refine hk.change hs rfl rfl nofun rfl hcount (List.Sublist.refl _)
        (fun _ _ => Iff.rfl) ?_ (hk.covered rfl) ?_ nofun (fun _ _ => hfound)
      · rw [hk.woken]
        simp [SemaphorePc.woken]
      · exact hk.returned rfl
  | waitSleep => exact hk.sleep hs
  | spurious =>
      exact ⟨hs.wake t, hk.stable (hs.rely_wake t t), fun u _ => hs.rely_wake u t⟩
  | @waitTake woken =>
      have hfound := hk.found woken rfl
      obtain ⟨hposts, hwaits⟩ := hk.returned rfl
      refine hk.change hs rfl rfl nofun rfl ?_ List.erase_sublist
        (fun u hu => List.mem_erase_of_ne hu) ?_ ?_ ?_ nofun nofun
      · show s.count - 1 + (s.book.waits + 1) + 2 ^ 64 * s.book.wraps
          = initial + s.book.posts
        omega
      · show t ∈ s.book.woken.erase t ↔ _
        rw [hs.nodup.mem_erase_iff]
        simp [SemaphorePc.woken]
      · intro ha
        have hcovered := hk.covered rfl ha
        have hlen : s.book.woken.length - 1 ≤ (s.book.woken.erase t).length :=
          List.le_length_erase
        show s.count - 1 ≤ (s.book.woken.erase t).length + 0
        simp only [SemaphorePc.signals] at hcovered
        omega
      · exact ⟨hposts, congrArg (· + 1) hwaits⟩
  | waitUnlock =>
      exact hk.unlock hs (Or.inl rfl) rfl rfl rfl rfl rfl rfl rfl rfl
  | postAdd =>
      obtain ⟨hposts, hwaits⟩ := hk.returned rfl
      refine hk.change hs rfl rfl nofun rfl ?_ (List.Sublist.refl _)
        (fun _ _ => Iff.rfl) ?_ ?_ ?_ nofun nofun
      · show (s.count + 1) % 2 ^ 64 + s.book.waits
          + 2 ^ 64 * (s.book.wraps + (s.count + 1) / 2 ^ 64)
          = initial + (s.book.posts + 1)
        have hdiv := Nat.mod_add_div (s.count + 1) (2 ^ 64)
        omega
      · show t ∈ s.book.woken ↔ _
        rw [hk.woken]
        simp [SemaphorePc.woken]
      · intro ha
        have hcovered := hk.covered rfl ha
        have hle := Nat.mod_le (s.count + 1) (2 ^ 64)
        show (s.count + 1) % 2 ^ 64 ≤ s.book.woken.length + 1
        simp only [SemaphorePc.signals] at hcovered
        omega
      · exact ⟨congrArg (· + 1) hposts, hwaits⟩
  | postSignal hwho => exact hk.signal hs hwho
  | postUnlock =>
      exact hk.unlock hs (Or.inr rfl) rfl rfl rfl rfl rfl rfl rfl rfl

-- ==================================================================== runs

variable {cfg : SemaphoreConfig θ}

theorem SemaphoreRun.counted (h : SemaphoreRun initial cfg) :
    Counted initial cfg.shared
      ∧ ∀ t, SemaphoreKnows t (cfg.pc t) cfg.shared := by
  refine h.rely (fun _ => True) (Counted initial) SemaphoreKnows SemaphoreRely
    (fun _ _ _ _ _ _ _ _ => trivial) ?_ ?_ (fun _ _ _ _ hr hk => hk.stable hr)
    trivial
  · intro c hc
    obtain ⟨-, rfl⟩ := hc
    refine ⟨⟨rfl, List.nodup_nil, List.nodup_nil, nofun, fun _ ha => absurd rfl ha,
      fun _ => ⟨rfl, rfl⟩⟩, fun t => ⟨fun _ => ⟨nofun, nofun⟩, nofun, ?_, nofun,
      nofun, nofun, nofun⟩⟩
    constructor
    · exact nofun
    · intro h
      rcases h with ⟨hp, -⟩ | hp
      · cases hp
      · cases hp
  · intro t x p s p' s' hrun _ _ hs hk
    have hstep := (semaphoreStep_rule hrun).step hs hk
    exact ⟨hstep.counted, hstep.knows, hstep.rely⟩

/-- A thread that was woken and is not through its wait loop yet. -/
def Woken (cfg : SemaphoreConfig θ) (t : θ) : Prop :=
  cfg.pc t = .blocked ∧ t ∉ cfg.shared.sync.asleep ()
    ∨ (cfg.pc t).woken = true

/-- The account of a semaphore that started with `initial`. -/
structure SemaphoreAccount (initial : Nat) (cfg : SemaphoreConfig θ) : Prop where
  count : cfg.shared.count + cfg.shared.book.waits
    + 2 ^ 64 * cfg.shared.book.wraps = initial + cfg.shared.book.posts
  bounded : cfg.shared.book.waits ≤ initial + cfg.shared.book.posts
  /-- a wait takes nothing off a count of 0 -/
  found : ∀ t woken, cfg.pc t = .waitTake woken → cfg.shared.count ≠ 0
  /-- between two calls that have the mutex, the calls that were counted are
  the calls that returned -/
  returned : cfg.shared.sync.owner () = none →
    cfg.shared.book.posts = cfg.shared.book.posted
      ∧ cfg.shared.book.waits = cfg.shared.book.waited
  /-- the threads that were woken, each once -/
  nodup : cfg.shared.book.woken.Nodup
  woken : ∀ t, t ∈ cfg.shared.book.woken ↔ Woken cfg t
  /-- but for a post that is about to signal -/
  covered : (∃ t, t ∈ cfg.shared.sync.asleep ()) →
    (∀ t, cfg.pc t ≠ .postSignal) →
    cfg.shared.count ≤ cfg.shared.book.woken.length
  /-- between two calls that have the mutex, those woken are still on the
  way out of `pthread_cond_wait` -/
  resumed : cfg.shared.sync.owner () = none →
    ∀ t ∈ cfg.shared.book.woken, cfg.pc t = .blocked

/-- Every state of every run has the account. -/
theorem cxSemaphore_counts (h : SemaphoreRun initial cfg) :
    SemaphoreAccount initial cfg := by
  obtain ⟨hs, hk⟩ := SemaphoreRun.counted h
  have hcount := hs.count
  refine ⟨hcount, by omega, fun t => (hk t).found, hs.returned, hs.nodup,
    fun t => (hk t).woken, ?_, ?_⟩
  · intro hsleeps hsignal
    obtain ⟨u, hu⟩ := hsleeps
    have hne := List.ne_nil_of_mem hu
    cases howner : cfg.shared.sync.owner () with
    | none => exact hs.covered howner hne
    | some t =>
        have hheld := ((hk t).holds ()).mp howner
        have hcovered := (hk t).covered hheld hne
        have hnot := hsignal t
        generalize cfg.pc t = p at hcovered hnot
        cases p with
        | postSignal => exact absurd rfl hnot
        | _ => exact hcovered
  · intro hfree t ht
    rcases (hk t).woken.mp ht with ⟨hp, -⟩ | hp
    · exact hp
    · have hheld := (hk t).holds ()
      rw [hfree] at hheld
      generalize cfg.pc t = p at hp hheld
      cases p with
      | waitTest _ => cases hheld.mpr rfl
      | waitTake _ => cases hheld.mpr rfl
      | _ => cases hp

/-- A test that a schedule passes is passed in one of the runs. -/
theorem semaphoreRun_of_follow (initial : Nat)
    (turns : List (θ × SemaphoreChoice θ)) (test : SemaphoreConfig θ → Bool)
    (hinitial : initial < 2 ^ 64)
    (h : ((semaphoreProgram θ).follow turns (semaphoreStart initial)).any test
      = true) :
    ∃ cfg, SemaphoreRun initial cfg ∧ test cfg = true := by
  obtain ⟨cfg, hplay, htest⟩ := (Option.any_eq_true _ _).mp h
  refine ⟨cfg, Interleaved.follow ?_ (fun _ _ _ _ => trivial) hplay, htest⟩
  exact .start ⟨hinitial, rfl⟩

/-- Threads 0 and 1 sleep, and thread 2 posts and wakes 1. -/
theorem cxSemaphore_counts_woken : ∃ cfg : SemaphoreConfig Nat,
    SemaphoreAccount 0 cfg ∧ cfg.shared.book.woken = [1]
      ∧ cfg.shared.sync.asleep () = [0] := by
  obtain ⟨cfg, hrun, htest⟩ := semaphoreRun_of_follow 0
    [(0, .wait), (0, .go), (0, .go), (0, .go), (1, .wait), (1, .go), (1, .go),
      (1, .go), (2, .post), (2, .go), (2, .go), (2, .wake 1), (2, .go)]
    (fun cfg => decide (cfg.shared.book.woken = [1]
      ∧ cfg.shared.sync.asleep () = [0])) (by decide) (by decide +kernel)
  exact ⟨cfg, cxSemaphore_counts hrun, of_decide_eq_true htest⟩

/-- A post that finds the count at `SIZE_MAX` takes it to 0. -/
theorem cxSemaphorePost_wraps : ∃ cfg : SemaphoreConfig Unit,
    SemaphoreRun (2 ^ 64 - 1) cfg ∧ cfg.pc () = .idle
      ∧ cfg.shared.book.posted = 1 ∧ cfg.shared.book.waits = 0
      ∧ cfg.shared.count = 0 := by
  obtain ⟨cfg, hrun, htest⟩ := semaphoreRun_of_follow (2 ^ 64 - 1)
    [((), .post), ((), .go), ((), .go), ((), .wake ()), ((), .go)]
    (fun cfg => decide (cfg.pc () = .idle ∧ cfg.shared.book.posted = 1
      ∧ cfg.shared.book.waits = 0 ∧ cfg.shared.count = 0)) (by decide)
    (by decide +kernel)
  exact ⟨cfg, hrun, of_decide_eq_true htest⟩

end Cextras.Concurrency
