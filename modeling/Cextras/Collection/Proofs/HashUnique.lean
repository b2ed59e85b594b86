/-
One element a key. A put stops at the first slot that is empty or has
the key, so an empty slot in front of the key's element catches the
value: the key then has two elements. That is the only way to come by
two (`cxRcHashMap_unique`): as long as every put finds no empty slot in
front of an element of its key, no two elements have one key, and a put
of a key that has an element returns it.

`cxRcHashMap_two_elements` is a run whose last put finds such a gap.
-/
import Mathlib.Data.List.TakeWhile
import Cextras.Collection.Proofs.HashClient
import Cextras.Collection.Proofs.HashView

namespace Cextras.Collection

open Lib

/-- If a slot of the key's path holds an element of the key, then no
slot before the first such one is empty. -/
def CxRcHashMap.NoGap (map : CxRcHashMap) (k : UInt64) : Prop :=
  (∃ t ∈ map.path k, map.HasLive k t) →
    ∀ s ∈ (map.path k).takeWhile fun t => ¬ map.HasLive k t, map.Live s

instance CxRcHashMap.decidableNoGap (map : CxRcHashMap) (k : UInt64) :
    Decidable (map.NoGap k) :=
  inferInstanceAs (Decidable ((∃ t ∈ map.path k, _) → ∀ s ∈ _, map.Live s))

/-- The operation, if it is a put, finds no gap. -/
def HashOp.FindsNoGap (s : HashClient) : HashOp → Prop
  | .put k _ => s.map.NoGap k
  | .retain _ => True
  | .release _ => True

instance HashOp.decidableFindsNoGap (s : HashClient) :
    (op : HashOp) → Decidable (op.FindsNoGap s)
  | .put k _ => inferInstanceAs (Decidable (s.map.NoGap k))
  | .retain _ => inferInstanceAs (Decidable True)
  | .release _ => inferInstanceAs (Decidable True)

-- ========================================================== first matches

section Search

variable {α : Type} {p q : α → Prop} [DecidablePred p] [DecidablePred q]
  {l : List α}

/-- If nothing before the first `p` is a `q`, the first `q` is a `p`. -/
theorem find_of_takeWhile (himp : ∀ a ∈ l, p a → q a) (hex : ∃ a ∈ l, p a)
    (hnone : ∀ a ∈ l.takeWhile fun a => ¬ p a, ¬ q a) :
    ∃ a, l.find? (fun a => q a) = some a ∧ p a := by
  induction l with
  | nil =>
      obtain ⟨a, ha, -⟩ := hex
      cases ha
  | cons b l ih =>
      by_cases hb : p b
      · exact ⟨b, List.find?_cons_of_pos
          (decide_eq_true (himp b List.mem_cons_self hb)), hb⟩
      · rw [List.takeWhile_cons_of_pos (by simpa using hb)] at hnone
        rw [List.find?_cons_of_neg
          (by simpa using hnone b List.mem_cons_self)]
        refine ih (fun a ha => himp a (List.mem_cons_of_mem _ ha)) ?_
          fun a ha => hnone a (List.mem_cons_of_mem _ ha)
        obtain ⟨a, ha, hpa⟩ := hex
        rcases List.mem_cons.mp ha with rfl | ha
        · exact absurd hpa hb
        · exact ⟨a, ha, hpa⟩

/-- If something before the first `p` is a `q`, the first `q` is no `p`. -/
theorem find_before_takeWhile
    (hex : ∃ a ∈ l.takeWhile fun a => ¬ p a, q a) :
    ∃ a, l.find? (fun a => q a) = some a ∧ ¬ p a := by
  induction l with
  | nil =>
      obtain ⟨a, ha, -⟩ := hex
      cases ha
  | cons b l ih =>
      obtain ⟨a, ha, hqa⟩ := hex
      by_cases hb : p b
      · rw [List.takeWhile_cons_of_neg (by simpa using hb)] at ha
        cases ha
      · rw [List.takeWhile_cons_of_pos (by simpa using hb)] at ha
        by_cases hqb : q b
        · exact ⟨b, List.find?_cons_of_pos (decide_eq_true hqb), hb⟩
        · rw [List.find?_cons_of_neg (by simpa using hqb)]
          rcases List.mem_cons.mp ha with rfl | ha
          · exact absurd hqa hqb
          · exact ih ⟨a, ha, hqa⟩

end Search

-- ============================================================ uniqueness

variable {m m' : Machine} {T T' : Table} {b : HashBook} {s : HashClient}
  {k : UInt64} {t : Place}

/-- No two live slots have one key word. -/
def Table.Unique (T : Table) : Prop :=
  ∀ s t, T.In s → T.In t → T.refs s ≠ 0 → T.refs t ≠ 0 →
    T.word s = T.word t → s = t

/-- A table whose live slots were live before, under the same keys. -/
theorem Table.Unique.sub (h : T.Unique)
    (hsub : ∀ s, T'.In s → T'.refs s ≠ 0 →
      T.In s ∧ T.refs s ≠ 0 ∧ T'.word s = T.word s) : T'.Unique := by
  intro s t hs ht hsl htl hword
  obtain ⟨hs, hsl, hsw⟩ := hsub s hs hsl
  obtain ⟨ht, htl, htw⟩ := hsub t ht htl
  exact h s t hs ht hsl htl (hsw.symm.trans (hword.trans htw))

/-- Counting at a slot that is live. -/
theorem Table.Unique.setRefs (h : T.Unique) (ht : T.refs t ≠ 0) (n : Nat) :
    (T.setRefs t n).Unique := by
  refine h.sub fun s hs hlive => ⟨hs, ?_, rfl⟩
  change Function.update T.refs t n s ≠ 0 at hlive
  by_cases hst : s = t
  · rwa [hst]
  · rwa [Function.update_of_ne hst] at hlive

/-- A new element whose key has none. -/
theorem Table.Unique.fresh (h : T.Unique)
    (hfree : ∀ s, T.In s → T.refs s ≠ 0 → T.word s ≠ k) :
    ((T.setWord t k).setRefs t 1).Unique := by
  have hother : ∀ s ≠ t, ((T.setWord t k).setRefs t 1).refs s = T.refs s
      ∧ ((T.setWord t k).setRefs t 1).word s = T.word s := fun s hne =>
    ⟨Function.update_of_ne hne _ _, Function.update_of_ne hne _ _⟩
  have hself : ((T.setWord t k).setRefs t 1).word t = k :=
    Function.update_self ..
  intro s u hs hu hsl hul hword
  by_cases hst : s = t
  · by_cases hut : u = t
    · rw [hst, hut]
    · rw [hst, hself, (hother u hut).2] at hword
      rw [(hother u hut).1] at hul
      exact absurd hword.symm (hfree u hu hul)
  · rw [(hother s hst).1] at hsl
    by_cases hut : u = t
    · rw [hut, hself, (hother s hst).2] at hword
      exact absurd hword (hfree s hs hsl)
    · rw [(hother u hut).1] at hul
      rw [(hother s hst).2, (hother u hut).2] at hword
      exact h s u hs hu hsl hul hword

/-- Without a gap, a put stops at an element of the key, if there is
one. -/
theorem Keeps.putSlot_live (h : Keeps m T b) (hgap : T.toMap.NoGap k)
    (ht : T.In t) (hlive : T.refs t ≠ 0) (hword : T.word t = k) :
    ∃ u, TableInv.putSlot T k = some u ∧ T.In u ∧ T.refs u ≠ 0
      ∧ T.word u = k := by
  have hpath : t ∈ T.toMap.path k := hword ▸ h.home t ht hlive
  have hex : ∃ t ∈ T.toMap.path k, T.toMap.HasLive k t :=
    ⟨t, hpath, Table.hasLive_iff.mpr ⟨ht, hlive, hword⟩⟩
  -- a slot before the first element of the key is live, so it has
  -- another key
  have hnone : ∀ s ∈ (T.toMap.path k).takeWhile fun t => ¬ T.toMap.HasLive k t,
      ¬ (T.refs s = 0 ∨ T.word s = k) := by
    rintro s hs (hdead | hsword)
    · exact (Table.live_iff.mp (hgap hex s hs)).2 hdead
    · have hnot := List.mem_takeWhile_imp hs
      simp only [decide_not, Bool.not_eq_eq_eq_not, Bool.not_true,
        decide_eq_false_iff_not] at hnot
      obtain ⟨hin, hslive⟩ := Table.live_iff.mp (hgap hex s hs)
      exact hnot (Table.hasLive_iff.mpr ⟨hin, hslive, hsword⟩)
  obtain ⟨u, hu, hp⟩ := find_of_takeWhile
    (fun s _ hs => Or.inr (Table.hasLive_iff.mp hs).2.2) hex hnone
  exact ⟨u, hu, Table.hasLive_iff.mp hp⟩

/-- An operation that finds no gap keeps the keys apart. -/
theorem Keeps.unique_step (h : Keeps m T b) (hu : T.Unique) {op : HashOp}
    (hmap : s.map = T.toMap) (hgap : op.FindsNoGap s)
    (heffect : OpEffect m T T' op) : T'.Unique := by
  cases op with
  | put k v =>
      obtain ⟨t, -, heffect⟩ := heffect
      have hgap : T.toMap.NoGap k := hmap ▸ hgap
      have hfree : (∀ u, TableInv.putSlot T k = some u → T.refs u = 0) →
          ∀ s, T.In s → T.refs s ≠ 0 → T.word s ≠ k := by
        intro hdead s hs hlive hword
        obtain ⟨u, hslot, -, hulive, -⟩ := h.putSlot_live hgap hs hlive hword
        exact hulive (hdead u hslot)
      cases heffect with
      | live hslot hne hT' => exact hT' ▸ hu.setRefs hne _
      | empty hslot hdead hT' =>
          rw [hT']
          refine hu.fresh (hfree fun u hu => ?_)
          rwa [Option.some.inj (hu.symm.trans hslot)]
      | grown m₁ T₁ hslot he hs hT' =>
          have hsub : ∀ s, T₁.In s → T₁.refs s ≠ 0 →
              T.In s ∧ T.refs s ≠ 0 ∧ T₁.word s = T.word s := by
            intro s hs hlive
            have hne : s.1 ≠ T.count := by
              intro heq
              rw [he.refs, if_pos heq] at hlive
              exact hlive rfl
            have hcount := he.count
            have h1 := hs.1
            have h2 := he.size ▸ hs.2
            rw [he.refs, if_neg hne] at hlive
            exact ⟨⟨by omega, h2⟩, hlive, by rw [he.word, if_neg hne]⟩
          rw [hT']
          refine (hu.sub hsub).fresh fun s hs hlive hword => ?_
          obtain ⟨hs, hlive, heq⟩ := hsub s hs hlive
          refine hfree (fun u hu => ?_) s hs hlive (heq.symm.trans hword)
          exact absurd (hslot.symm.trans hu) (by rintro ⟨⟩)
  | retain k =>
      rcases heffect with rfl | ⟨t, -, -, hne, hT'⟩
      · exact hu
      · exact hT' ▸ hu.setRefs hne _
  | release p =>
      obtain ⟨t, -, -, hne, hT'⟩ := heffect
      exact hT' ▸ hu.setRefs hne _

-- ================================================================ the map

/-- What holds in a state of a run whose puts find no gap. -/
structure OneElement (s : HashClient) (m : Machine) : Prop where
  unique : ∀ k t u, s.map.HasLive k t → s.map.HasLive k u → t = u
  /-- a put of a key that has an element returns it, adds one reference
  and cleans the new value up -/
  put_live : ∀ k v t, (HashOp.put k v).Allowed s → s.map.NoGap k →
    s.map.HasLive k t → ∃ array n map',
      (valuesAt s.map t.1).run m = .ok array m ∧ s.map.count t = some n
        ∧ (cxRcHashMapPut s.map k v).run m
          = .ok (getElement array t.2, map') (called m v)
        ∧ map'.count t = some (n + 1) ∧ ∀ u ≠ t, map'.count u = s.map.count u
  /-- a put that finds a gap makes a second element of the key -/
  put_gap : ∀ k v, (HashOp.put k v).Allowed s → ¬ s.map.NoGap k →
    ∃ p map' m', (cxRcHashMapPut s.map k v).run m = .ok (p, map') m'
      ∧ ∃ t u, t ≠ u ∧ map'.HasLive k t ∧ map'.HasLive k u

theorem Keeps.put_live (h : Keeps m T b) (hu : T.Unique) {v : List Byte}
    (hspare : b.Spare k) (hgap : T.toMap.NoGap k) (ht : T.toMap.HasLive k t) :
    ∃ array n map', (valuesAt T.toMap t.1).run m = .ok array m
      ∧ T.toMap.count t = some n
      ∧ (cxRcHashMapPut T.toMap k v).run m
        = .ok (getElement array t.2, map') (called m v)
      ∧ map'.count t = some (n + 1) ∧ ∀ u ≠ t, map'.count u = T.toMap.count u := by
  obtain ⟨hin, hlive, hword⟩ := Table.hasLive_iff.mp ht
  obtain ⟨u, hslot, hinu, hulive, huword⟩ := h.putSlot_live hgap hin hlive hword
  have heq : u = t := hu u t hinu hin hulive hlive (huword.trans hword.symm)
  subst heq
  have haddr : getElement (T.array u.1) u.2 = T.address u :=
    getElement_eq (h.inv.laid hin.1) hin.2
  have hin' : (T.setRefs u (T.refs u + 1)).In u := hin
  refine ⟨T.array u.1, T.refs u, (T.setRefs u (T.refs u + 1)).toMap,
    Table.run_valuesAt hin.1, Table.count_toMap hin, ?_, ?_, fun w hw => ?_⟩
  · rw [h.inv.run_hashMapPut h.count_pos, hslot, haddr]
    exact h.inv.run_putAt_live hin hlive (h.spare hspare hin hlive hword) hword v
  · rw [Table.count_toMap hin', Table.setRefs]
    dsimp only
    rw [Function.update_self]
    rfl
  · by_cases hinw : T.In w
    · have hinw' : (T.setRefs u (T.refs u + 1)).In w := hinw
      rw [Table.count_toMap hinw, Table.count_toMap hinw', Table.setRefs]
      dsimp only
      rw [Function.update_of_ne hw]
    · have hinw' : ¬ (T.setRefs u (T.refs u + 1)).In w := hinw
      rw [Table.count_toMap_none hinw, Table.count_toMap_none hinw']

theorem Keeps.put_gap (h : Keeps m T b) {v : List Byte}
    (hv : v.length = T.elementSize) (hgap : ¬ T.toMap.NoGap k) :
    ∃ p map' m', (cxRcHashMapPut T.toMap k v).run m = .ok (p, map') m'
      ∧ ∃ t u, t ≠ u ∧ map'.HasLive k t ∧ map'.HasLive k u := by
  unfold CxRcHashMap.NoGap at hgap
  push Not at hgap
  obtain ⟨⟨t, -, ht⟩, s, hs, hdead⟩ := hgap
  have hpath : s ∈ T.toMap.path k := List.takeWhile_subset _ hs
  have hin : T.In s := Table.in_of_mem_probes h.inv.size_pos hpath
  have hempty : T.refs s = 0 := by
    by_contra hne
    exact hdead (Table.live_iff.mpr ⟨hin, hne⟩)
  obtain ⟨u, hslot, hnot⟩ := find_before_takeWhile (p := T.toMap.HasLive k)
    (q := fun s => T.refs s = 0 ∨ T.word s = k) ⟨s, hs, Or.inl hempty⟩
  change TableInv.putSlot T k = some u at hslot
  obtain ⟨hinu, -, hor⟩ := h.putSlot_spec hslot
  have hudead : T.refs u = 0 := by
    by_contra hne
    exact hnot (Table.hasLive_iff.mpr ⟨hinu, hne, hor.resolve_left hne⟩)
  obtain ⟨hint, htlive, htword⟩ := Table.hasLive_iff.mp ht
  have hne : t ≠ u := fun heq => htlive (heq ▸ hudead)
  refine ⟨T.address u, ((T.setWord u k).setRefs u 1).toMap, wrote m (T.address u) v,
    ?_, t, u, hne, ?_, ?_⟩
  · rw [h.inv.run_hashMapPut h.count_pos, hslot]
    exact h.inv.run_putAt_empty hinu hudead hv
  · refine Table.hasLive_iff.mpr ⟨hint, ?_, ?_⟩
    · change Function.update T.refs u 1 t ≠ 0
      rwa [Function.update_of_ne hne]
    · change Function.update T.word u k t = k
      rwa [Function.update_of_ne hne]
  · refine Table.hasLive_iff.mpr ⟨hinu, ?_, ?_⟩
    · change Function.update T.refs u 1 u ≠ 0
      rw [Function.update_self]
      exact one_ne_zero
    · exact Function.update_self ..

/-- Runs whose puts find no gap have one element a key, and a put that
does find one breaks this. -/
theorem cxRcHashMap_unique {mem : Mem} {oracle : Nat → Nat}
    {size elementSize : Nat} (hsize : 0 < size) (helem : 0 < elementSize)
    (h : Reached (HashClient.start size elementSize) HashClient.exec
      (fun s _ op => op.Allowed s ∧ op.FindsNoGap s) (Machine.boot mem oracle)
      s m) : OneElement s m := by
  have hinv : ∃ T, Agrees s m T ∧ T.Unique := by
    refine h.invariant_granted (fun s m => ∃ T, Agrees s m T ∧ T.Unique)
      ?_ ?_
    · refine (agrees_start hsize helem).imp ?_
      rintro s m ⟨T, hagrees, hbook, -, -⟩
      refine ⟨T, hagrees, fun t _ ht _ hlive => ?_⟩
      rw [hagrees.2.refs t ht, hbook] at hlive
      exact absurd rfl hlive
    · rintro s m op ⟨T, hagrees, hunique⟩ ⟨hop, hgap⟩
      refine (exec_effect hagrees hop).imp ?_
      rintro s' m' ⟨T', hagrees', heffect⟩
      exact ⟨T', hagrees', hagrees.2.unique_step hunique hagrees.1 hgap heffect⟩
  obtain ⟨T, ⟨hmap, hkeeps⟩, hunique⟩ := hinv
  refine ⟨fun k t u ht hu => ?_, fun k v t hop hgap ht => ?_,
    fun k v hop hgap => ?_⟩
  · rw [hmap] at ht hu
    obtain ⟨hint, htlive, htword⟩ := Table.hasLive_iff.mp ht
    obtain ⟨hinu, hulive, huword⟩ := Table.hasLive_iff.mp hu
    exact hunique t u hint hinu htlive hulive (htword.trans huword.symm)
  · rw [hmap] at hgap ht ⊢
    exact hkeeps.put_live hunique hop.2.2 hgap ht
  · have hv : v.length = T.elementSize := by
      rw [hop.1, hmap]
      rfl
    rw [hmap] at hgap ⊢
    exact hkeeps.put_gap hv hgap

/-- One slot an inner map: a key with an element is put again, and one
that was released is put behind it. -/
theorem cxRcHashMap_unique_chain : ∃ s m,
    Reached (HashClient.start 1 1) HashClient.exec
      (fun s _ op => op.Allowed s ∧ op.FindsNoGap s)
      (Machine.boot (fun _ => 0) fun t => 2 ^ 20 * (t + 1)) s m
      ∧ s.map.hashMapCount = 2 ∧ OneElement s m := by
  obtain ⟨s, m, hrun, htest⟩ := reached_of_replayFrom
    (HashClient.start 1 1) HashClient.exec
    (fun s _ op => op.Allowed s ∧ op.FindsNoGap s)
    (Machine.boot (fun _ => 0) fun t => 2 ^ 20 * (t + 1))
    [.put 1 [11], .put 2 [22], .put 2 [33], .retain 1]
    (fun x => decide (x.1.map.hashMapCount = 2))
    (by decide +kernel)
  exact ⟨s, m, hrun, of_decide_eq_true htest,
    cxRcHashMap_unique (by decide) (by decide) hrun⟩

/-- Key 1 fills the only slot, key 2 goes to a second inner map, key 1 is
released, and key 2 is put again: it lands in front of its element. -/
theorem cxRcHashMap_two_elements : ∃ s m,
    HashClient.Run 1 1 (fun _ => 0) (fun t => 2 ^ 20 * (t + 1)) s m
      ∧ s.map.HasLive 2 (0, 0) ∧ s.map.HasLive 2 (1, 0) := by
  obtain ⟨s, m, hrun, htest⟩ := reached_of_replayFrom
    (HashClient.start 1 1) HashClient.exec
    (fun s _ op => op.Allowed s)
    (Machine.boot (fun _ => 0) (fun t => 2 ^ 20 * (t + 1)))
    [.put 1 [11], .put 2 [22], .release 3145728, .put 2 [33]]
    (fun x => decide (x.1.map.HasLive 2 (0, 0)
      ∧ x.1.map.HasLive 2 (1, 0)))
    (by decide +kernel)
  exact ⟨s, m, hrun, of_decide_eq_true htest⟩

end Cextras.Collection
