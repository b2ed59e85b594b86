/-
Self-delimiting sequences: the first element of a chunk announces how
long the chunk is. Every list falls apart into the chunks that can be
taken off its front, one after the other, and a tail that is empty,
starts with an element that announces nothing, or is shorter than its
first element announces (`exists_chunked`); there is one way to do so
(`Chunked.unique`). Lists without such a tail are `Whole`; the lengths
of the prefixes that are whole are the boundaries of a list.
-/
import Mathlib.Data.List.Basic

namespace Cextras.Lib

variable {α : Type} {len : α → Nat}

-- ================================================================ chunks

/-- As long as its first element announces. -/
def IsChunk (len : α → Nat) (c : List α) : Prop :=
  ∃ a as, c = a :: as ∧ len a = c.length

/-- How a list ends, once all chunks are taken off its front. -/
inductive End where
  /-- nothing is left -/
  | whole
  /-- an element that announces no chunk is next -/
  | bad
  /-- the next chunk is longer than what is left -/
  | cut
deriving DecidableEq

inductive Tail (len : α → Nat) : End → List α → Prop where
  | whole : Tail len .whole []
  | bad {a : α} {as : List α} : len a = 0 → Tail len .bad (a :: as)
  | cut {a : α} {as : List α} : as.length + 1 < len a → Tail len .cut (a :: as)

/-- The list `s` is the chunks `cs` with the tail `t` after them. -/
structure Chunked (len : α → Nat) (cs : List (List α)) (e : End)
    (t s : List α) : Prop where
  split : s = cs.flatten ++ t
  chunks : ∀ c ∈ cs, IsChunk len c
  tail : Tail len e t

variable {c t t' s s' : List α} {cs cs' : List (List α)} {e e' : End}

theorem IsChunk.length_pos (h : IsChunk len c) : 0 < c.length := by
  obtain ⟨a, as, rfl, -⟩ := h
  exact Nat.succ_pos _

/-- The chunk at the front of a list is determined. -/
theorem IsChunk.append_inj {c' : List α} (h : IsChunk len c)
    (h' : IsChunk len c') (heq : c ++ s = c' ++ s') : c = c' ∧ s = s' := by
  have hlen : c.length = c'.length := by
    obtain ⟨a, as, rfl, ha⟩ := h
    obtain ⟨a', as', rfl, ha'⟩ := h'
    have hhead : a = a' := by simpa using congrArg List.head? heq
    rw [← ha, ← ha', hhead]
  exact List.append_inj heq hlen

/-- No chunk can be taken off a tail. -/
theorem Tail.not_chunk (h : Tail len e t) (hc : IsChunk len c) : t ≠ c ++ s := by
  obtain ⟨a, as, rfl, hlen⟩ := hc
  intro heq
  cases h with
  | whole => cases heq
  | bad hbad =>
      obtain ⟨rfl, rfl⟩ := List.cons.inj heq
      rw [hlen] at hbad
      cases hbad
  | cut hcut =>
      obtain ⟨rfl, htail⟩ := List.cons.inj heq
      have hle := congrArg List.length htail
      simp only [List.append_eq, List.length_append] at hle
      rw [hlen, List.length_cons] at hcut
      omega

/-- A tail is of one kind. -/
theorem Tail.unique (h : Tail len e t) (h' : Tail len e' t) : e = e' := by
  cases h with
  | whole =>
      cases h'
      rfl
  | bad hbad =>
      cases h' with
      | bad => rfl
      | cut hcut => omega
  | cut hcut =>
      cases h' with
      | bad hbad => omega
      | cut => rfl

theorem Tail.eq_nil (h : Tail len .whole t) : t = [] := by
  cases h
  rfl

-- ================================================================= lists

theorem Chunked.of_tail (h : Tail len e t) : Chunked len [] e t t :=
  ⟨rfl, fun _ hc => absurd hc List.not_mem_nil, h⟩

theorem Chunked.cons (hc : IsChunk len c) (h : Chunked len cs e t s) :
    Chunked len (c :: cs) e t (c ++ s) := by
  refine ⟨?_, ?_, h.tail⟩
  · rw [h.split, List.flatten_cons, List.append_assoc]
  · intro d hd
    rcases List.mem_cons.mp hd with rfl | hd
    · exact hc
    · exact h.chunks d hd

/-- The chunks after the first one. -/
theorem Chunked.uncons (h : Chunked len (c :: cs) e t s) :
    IsChunk len c ∧ ∃ s', s = c ++ s' ∧ Chunked len cs e t s' := by
  refine ⟨h.chunks c (List.mem_cons_self ..), cs.flatten ++ t, ?_,
    ⟨rfl, ?_, h.tail⟩⟩
  · rw [h.split, List.flatten_cons, List.append_assoc]
  · exact fun d hd => h.chunks d (List.mem_cons_of_mem _ hd)

/-- What starts with `a` starts with a chunk, or is a tail. -/
theorem chunk_or_tail (len : α → Nat) (a : α) (as : List α) :
    (∃ c s, a :: as = c ++ s ∧ IsChunk len c) ∨ ∃ e, Tail len e (a :: as) := by
  by_cases hbad : len a = 0
  · exact Or.inr ⟨.bad, .bad hbad⟩
  · by_cases hcut : as.length + 1 < len a
    · exact Or.inr ⟨.cut, .cut hcut⟩
    · refine Or.inl ⟨(a :: as).take (len a), (a :: as).drop (len a),
        (List.take_append_drop ..).symm, a, as.take (len a - 1), ?_, ?_⟩
      · obtain ⟨n, hn⟩ := Nat.exists_eq_succ_of_ne_zero hbad
        rw [hn, List.take_succ_cons, Nat.succ_sub_one]
      · rw [List.length_take, List.length_cons]
        omega

/-- Every list falls apart into chunks and a tail. -/
theorem exists_chunked (len : α → Nat) (s : List α) :
    ∃ cs e t, Chunked len cs e t s := by
  induction hn : s.length using Nat.strongRecOn generalizing s with
  | _ n ih =>
      cases s with
      | nil => exact ⟨[], .whole, [], .of_tail .whole⟩
      | cons a as =>
          rcases chunk_or_tail len a as with ⟨c, s, heq, hc⟩ | ⟨e, he⟩
          · have hlen := congrArg List.length heq
            rw [List.length_append] at hlen
            have hpos := hc.length_pos
            obtain ⟨cs, e, t, hs⟩ := ih s.length (by omega) s rfl
            rw [heq]
            exact ⟨c :: cs, e, t, hs.cons hc⟩
          · exact ⟨[], e, _, .of_tail he⟩

/-- In one way only. -/
theorem Chunked.unique (h : Chunked len cs e t s) (h' : Chunked len cs' e' t' s) :
    cs = cs' ∧ e = e' ∧ t = t' := by
  induction cs generalizing cs' s with
  | nil =>
      have hs : s = t := h.split
      subst hs
      cases cs' with
      | nil =>
          have hs : s = t' := h'.split
          subst hs
          exact ⟨rfl, h.tail.unique h'.tail, rfl⟩
      | cons c' cs' =>
          obtain ⟨hc', s', heq, -⟩ := h'.uncons
          exact absurd heq (h.tail.not_chunk hc')
  | cons c cs ih =>
      obtain ⟨hc, s₁, rfl, h₁⟩ := h.uncons
      cases cs' with
      | nil =>
          have hs : c ++ s₁ = t' := h'.split
          exact absurd hs.symm (h'.tail.not_chunk hc)
      | cons c' cs' =>
          obtain ⟨hc', s₂, heq, h₂⟩ := h'.uncons
          obtain ⟨rfl, rfl⟩ := hc.append_inj hc' heq
          obtain ⟨rfl, rfl, rfl⟩ := ih h₁ h₂
          exact ⟨rfl, rfl, rfl⟩

theorem Chunked.length_eq (h : Chunked len cs e t s) :
    s.length = cs.flatten.length + t.length := by
  rw [h.split, List.length_append]

-- ========================================================= whole, boundary

/-- Nothing but chunks. -/
def Whole (len : α → Nat) (s : List α) : Prop :=
  ∃ cs, Chunked len cs .whole [] s

theorem Chunked.whole (h : Chunked len cs .whole t s) :
    Chunked len cs .whole [] s := by
  obtain rfl := h.tail.eq_nil
  exact h

theorem Chunked.flatten_eq (h : Chunked len cs .whole [] s) : s = cs.flatten := by
  rw [h.split, List.append_nil]

theorem chunked_flatten (h : ∀ c ∈ cs, IsChunk len c) :
    Chunked len cs .whole [] cs.flatten :=
  ⟨(List.append_nil _).symm, h, .whole⟩

/-- A whole list, and any list after it. -/
theorem Chunked.append (h : Chunked len cs .whole [] s)
    (h' : Chunked len cs' e t s') : Chunked len (cs ++ cs') e t (s ++ s') := by
  refine ⟨?_, ?_, h'.tail⟩
  · rw [h.flatten_eq, h'.split, List.flatten_append, List.append_assoc]
  · intro c hc
    rcases List.mem_append.mp hc with hc | hc
    · exact h.chunks c hc
    · exact h'.chunks c hc

/-- A position between two chunks, or at an end. -/
def Boundary (len : α → Nat) (s : List α) (b : Nat) : Prop :=
  b ≤ s.length ∧ Whole len (s.take b)

/-- The first chunks of a list end at a boundary. -/
theorem Chunked.take (h : Chunked len cs e t s) (m : Nat) :
    Chunked len (cs.take m) .whole [] (s.take (cs.take m).flatten.length) := by
  have htake : s.take (cs.take m).flatten.length = (cs.take m).flatten := by
    rw [h.split, ← congrArg List.flatten (List.take_append_drop m cs),
      List.flatten_append, List.append_assoc]
    simp
  rw [htake]
  exact chunked_flatten fun c hc => h.chunks c (List.mem_of_mem_take hc)

theorem take_flatten_length_le (cs : List (List α)) (m : Nat) :
    (cs.take m).flatten.length ≤ cs.flatten.length := by
  conv_rhs => rw [← List.take_append_drop m cs, List.flatten_append,
    List.length_append]
  omega

theorem Chunked.boundary (h : Chunked len cs e t s) (m : Nat) :
    Boundary len s (cs.take m).flatten.length := by
  refine ⟨?_, _, h.take m⟩
  have := take_flatten_length_le cs m
  have := h.length_eq
  omega

/-- The boundaries of a list are the ends of its first chunks. -/
theorem Chunked.exists_take {b : Nat} (h : Chunked len cs e t s)
    (hb : Boundary len s b) :
    ∃ m ≤ cs.length, b = (cs.take m).flatten.length := by
  obtain ⟨hle, ds, hds⟩ := hb
  obtain ⟨ds', e', t', hds'⟩ := exists_chunked len (s.drop b)
  have hall := hds.append hds'
  rw [List.take_append_drop] at hall
  obtain ⟨rfl, -, -⟩ := h.unique hall
  refine ⟨ds.length, by rw [List.length_append]; omega, ?_⟩
  rw [List.take_left, ← hds.flatten_eq, List.length_take]
  omega

end Cextras.Lib
