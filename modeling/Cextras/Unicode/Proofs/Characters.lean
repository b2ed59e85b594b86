/-
The walkers over arbitrary bytes. All of them cut a string at the same
places, into chunks as long as the length table says of their lead bytes
(`Lib.Chunked`): for each walker, what it returns is read off the chunks
of the string and the way the string ends. Nothing here asks that a chunk
be well-formed; the encodings of scalar values are chunks among others
(`encoded_chunk`).
-/
import Cextras.Lib.Chunks
import Cextras.Unicode.Proofs.Encode

namespace Cextras.Unicode

open Lib

-- ======================================================= one character

/-- What the decoder assembles from the bytes of a character. -/
def payload : List Byte → Nat
  | [c0] => c0.toNat
  | [c0, c1] => (c0.toNat &&& 0x1F) <<< 6 ||| contBits c1
  | [c0, c1, c2] =>
      (c0.toNat &&& 0x0F) <<< 12 ||| contBits c1 <<< 6 ||| contBits c2
  | [c0, c1, c2, c3] =>
      (c0.toNat &&& 0x07) <<< 18 ||| contBits c1 <<< 12 ||| contBits c2 <<< 6
        ||| contBits c3
  | _ => 0

/-- The units the UTF-16 table counts for a character. -/
def units : List Byte → Nat
  | [] => 0
  | lead :: _ => utf16LenMap lead

theorem utf8LenMap_le (b : Byte) : utf8LenMap b ≤ 4 := by
  unfold utf8LenMap byteSizeEntry
  split_ifs <;> decide

/-- A chunk of bytes, by its length. -/
theorem chunk_cases {c : List Byte} (h : IsChunk utf8LenMap c) :
    (∃ c0, c = [c0]) ∨ (∃ c0 c1, c = [c0, c1]) ∨ (∃ c0 c1 c2, c = [c0, c1, c2])
      ∨ ∃ c0 c1 c2 c3, c = [c0, c1, c2, c3] := by
  obtain ⟨a, as, rfl, hlen⟩ := h
  have hle := utf8LenMap_le a
  rw [hlen] at hle
  match as, hle with
  | [], _ => exact Or.inl ⟨_, rfl⟩
  | [_], _ => exact Or.inr (Or.inl ⟨_, _, rfl⟩)
  | [_, _], _ => exact Or.inr (Or.inr (Or.inl ⟨_, _, _, rfl⟩))
  | [_, _, _], _ => exact Or.inr (Or.inr (Or.inr ⟨_, _, _, _, rfl⟩))
  | _ :: _ :: _ :: _ :: as, hle =>
      simp only [List.length_cons] at hle
      omega

/-- The size of a chunk, whatever follows it. -/
theorem cxUtf8Csize_chunk {c : List Byte} (h : IsChunk utf8LenMap c)
    (rest : List Byte) {length : Nat} (hlen : c.length ≤ length) :
    cxUtf8Csize (c ++ rest) length = .ok c.length := by
  obtain ⟨a, as, rfl, ha⟩ := h
  rw [List.cons_append, cxUtf8Csize_cons, ha, if_neg (by omega)]

/-- Decoding a chunk, whatever follows it. -/
theorem cxUtf8Cp_chunk {c : List Byte} (h : IsChunk utf8LenMap c)
    (rest : List Byte) {length : Nat} (hlen : c.length ≤ length) :
    cxUtf8Cp (some (c ++ rest)) length = .ok (payload c : Int) := by
  unfold cxUtf8Cp
  dsimp only
  rw [cxUtf8Csize_chunk h rest hlen]
  rcases chunk_cases h with ⟨_, rfl⟩ | ⟨_, _, rfl⟩ | ⟨_, _, _, rfl⟩
    | ⟨_, _, _, _, rfl⟩
  · rfl
  · rfl
  · rfl
  · rfl

/-- A tail has no size: the walkers stop there, or jump past the end. -/
theorem cxUtf8Csize_tail {e : End} {t : List Byte} (h : Tail utf8LenMap e t)
    (hne : e ≠ .whole) : cxUtf8Csize t t.length = .ok 0 := by
  cases h with
  | whole => exact absurd rfl hne
  | bad hbad =>
      rw [cxUtf8Csize_cons, hbad, ite_self]
  | cut hcut =>
      rw [cxUtf8Csize_cons, List.length_cons, if_pos hcut]

/-- A character that starts with a tab is a tab. -/
theorem tab_chunk {c : List Byte} (hc : IsChunk utf8LenMap c)
    (h : c.head? = some 0x09) : c = [0x09] := by
  obtain ⟨a, as, rfl, hlen⟩ := hc
  obtain rfl : a = 0x09 := Option.some.inj h
  have hone : utf8LenMap 0x09 = 1 := by decide
  rw [hone, List.length_cons] at hlen
  rw [List.eq_nil_of_length_eq_zero (by omega : as.length = 0)]

theorem contBits_lt (b : Byte) : contBits b < 2 ^ 6 :=
  Nat.and_lt_two_pow _ (by decide)

theorem shiftLeft_lt {x a b : Nat} (h : x < 2 ^ a) : x <<< b < 2 ^ (a + b) := by
  rw [Nat.shiftLeft_eq, Nat.pow_add]
  exact Nat.mul_lt_mul_of_pos_right h (Nat.two_pow_pos b)

theorem payload_lt (c : List Byte) : payload c < 2 ^ 32 := by
  have hmask : ∀ (b : Byte) (m : Nat), m < 2 ^ 8 → b.toNat &&& m < 2 ^ 8 :=
    fun b m hm => Nat.and_lt_two_pow _ hm
  have hcont : ∀ (b : Byte) {k : Nat}, k ≤ 12 → contBits b <<< k < 2 ^ 32 :=
    fun b k hk => Nat.lt_of_lt_of_le (shiftLeft_lt (contBits_lt b))
      (Nat.pow_le_pow_right (by decide) (by omega))
  have hlead : ∀ (b : Byte) {m k : Nat}, m < 2 ^ 8 → k ≤ 18 →
      (b.toNat &&& m) <<< k < 2 ^ 32 :=
    fun b m k hm hk => Nat.lt_of_lt_of_le (shiftLeft_lt (hmask b m hm))
      (Nat.pow_le_pow_right (by decide) (by omega))
  have hlast : ∀ b : Byte, contBits b < 2 ^ 32 := fun b =>
    Nat.lt_of_lt_of_le (contBits_lt b) (by decide)
  unfold payload
  split
  · next b => exact Nat.lt_trans b.toNat_lt (by decide)
  · exact Nat.or_lt_two_pow (hlead _ (by decide) (by decide)) (hlast _)
  · exact Nat.or_lt_two_pow (Nat.or_lt_two_pow
      (hlead _ (by decide) (by decide)) (hcont _ (by decide))) (hlast _)
  · exact Nat.or_lt_two_pow (Nat.or_lt_two_pow (Nat.or_lt_two_pow
      (hlead _ (by decide) (by decide)) (hcont _ (by decide)))
      (hcont _ (by decide))) (hlast _)
  · decide

theorem cxUtf8Cp_size_zero (b : Byte) (bs : List Byte) {length : Nat}
    (h : cxUtf8Csize (b :: bs) length = .ok 0) :
    cxUtf8Cp (some (b :: bs)) length = .ok (-1) := by
  unfold cxUtf8Cp
  dsimp only
  rw [h]
  rfl

-- ================================================== encoded characters

theorem payload_two {x y : Nat} (hx : x < 0x20) (hy : y < 0x40) :
    payload [UInt8.ofNat (x + 0xC0), UInt8.ofNat (y + 0x80)] = 64 * x + y := by
  simp only [payload]
  rw [(utf8LenMap_two hx).2.2, contBits_ofNat hy, shift_or (by omega)]
  rfl

theorem payload_three {x y z : Nat} (hx : x < 0x10) (hy : y < 0x40)
    (hz : z < 0x40) :
    payload [UInt8.ofNat (x + 0xE0), UInt8.ofNat (y + 0x80),
      UInt8.ofNat (z + 0x80)] = 4096 * x + 64 * y + z := by
  simp only [payload]
  rw [(utf8LenMap_three hx).2.2, contBits_ofNat hy, contBits_ofNat hz,
    Nat.or_assoc, shift_or (x := y) (k := 6) (by omega), shift_or (by omega)]
  omega

theorem payload_four {x y z t : Nat} (hx : x < 0x08) (hy : y < 0x40)
    (hz : z < 0x40) (ht : t < 0x40) :
    payload [UInt8.ofNat (x + 0xF0), UInt8.ofNat (y + 0x80),
      UInt8.ofNat (z + 0x80), UInt8.ofNat (t + 0x80)]
      = 262144 * x + 4096 * y + 64 * z + t := by
  simp only [payload]
  rw [(utf8LenMap_four hx).2.2, contBits_ofNat hy, contBits_ofNat hz,
    contBits_ofNat ht, Nat.or_assoc, Nat.or_assoc,
    shift_or (x := z) (k := 6) (by omega),
    shift_or (x := y) (k := 12) (by omega), shift_or (by omega)]
  omega

/-- Masking and shifting the bytes of an encoded character gives back its
value. -/
theorem Encoded.payload_eq {v : Nat} {bs : List Byte} (h : Encoded v bs) :
    payload bs = v := by
  cases h with
  | one hv =>
      exact (UInt8.toNat_ofNat' ..).trans (Nat.mod_eq_of_lt (by omega))
  | two x y hv hx hy => rw [payload_two hx hy, hv]
  | three x y z hv hx hy hz => rw [payload_three hx hy hz, hv]
  | four x y z w hv hx hy hz hw => rw [payload_four hx hy hz hw, hv]

/-- The encoding of a scalar value is a chunk, and its payload is the
value. -/
theorem encoded_chunk (c : Char) :
    IsChunk utf8LenMap (String.utf8EncodeChar c)
      ∧ payload (String.utf8EncodeChar c) = c.val.toNat := by
  have henc := encoded_char c
  obtain ⟨lead, tail, heq, h8, -⟩ := encoded_lead henc
  exact ⟨⟨lead, tail, heq, h8⟩, henc.payload_eq⟩

/-- The units the table counts for an encoded character. -/
theorem units_char (c : Char) :
    units (String.utf8EncodeChar c) = if c.val.toNat < 0x800 then 1 else 2 := by
  obtain ⟨lead, tail, heq, -, h16⟩ := encoded_lead (encoded_char c)
  rw [heq]
  exact h16

/-- Encoded text is a list of chunks. -/
theorem chunked_text (cps : List Char) :
    Chunked utf8LenMap (cps.map String.utf8EncodeChar) .whole [] (text cps) := by
  have hall : ∀ c ∈ cps.map String.utf8EncodeChar, IsChunk utf8LenMap c := by
    intro c hc
    obtain ⟨ch, -, rfl⟩ := List.mem_map.mp hc
    exact (encoded_chunk ch).1
  have h := chunked_flatten hall
  rwa [← List.flatMap_def] at h

-- ============================================================== one turn

variable {str : List Byte} {i : Nat} {c rest t : List Byte} {e : End}
  {cs : List (List Byte)}

/-- What a walker sees with a character next. -/
structure CharStep (str : List Byte) (i : Nat) (c : List Byte) : Prop where
  inside : i < str.length
  pos : 0 < c.length
  fits : i + c.length ≤ str.length
  lead : ∃ lead, byteAt str i = .ok lead ∧ utf8LenMap lead = c.length
    ∧ utf16LenMap lead = units c ∧ c.head? = some lead
  size : cxUtf8Csize (str.drop i) (str.length - i) = .ok c.length
  value : cxUtf8Cp (some (str.drop i)) c.length = .ok (payload c : Int)

theorem byteAt_drop {b : Byte} {bs : List Byte} (h : str.drop i = b :: bs) :
    byteAt str i = .ok b := by
  apply byteAt_ok
  have h0 := congrArg (fun l : List Byte => l[0]?) h
  simpa using h0

theorem char_step (hc : IsChunk utf8LenMap c) (h : str.drop i = c ++ rest) :
    CharStep str i c ∧ str.drop (i + c.length) = rest := by
  have hpos := hc.length_pos
  have hlen := congrArg List.length h
  rw [List.length_drop, List.length_append] at hlen
  refine ⟨⟨by omega, hpos, by omega, ?_, ?_, ?_⟩, ?_⟩
  · obtain ⟨a, as, rfl, ha⟩ := hc
    exact ⟨a, byteAt_drop h, ha, rfl, rfl⟩
  · rw [h]
    exact cxUtf8Csize_chunk hc rest (by omega)
  · rw [h]
    exact cxUtf8Cp_chunk hc rest (Nat.le_refl _)
  · rw [← List.drop_drop, h, List.drop_left]

/-- What a walker sees when no whole character is next. -/
structure TailStep (str : List Byte) (i : Nat) (e : End) (t : List Byte) :
    Prop where
  inside : i < str.length
  lead : ∃ lead, byteAt str i = .ok lead ∧ utf16LenMap lead = units t
    ∧ (e = .bad → utf8LenMap lead = 0)
    ∧ (e = .cut → str.length < i + utf8LenMap lead)
  size : cxUtf8Csize (str.drop i) (str.length - i) = .ok 0
  value : cxUtf8Cp (some (str.drop i)) 0 = .ok (-1)

theorem tail_step (ht : Tail utf8LenMap e t) (hne : e ≠ .whole)
    (h : str.drop i = t) : TailStep str i e t := by
  have hlen := congrArg List.length h
  rw [List.length_drop] at hlen
  have hsize := cxUtf8Csize_tail ht hne
  rw [← h, List.length_drop] at hsize
  have hvalue : ∀ b bs, str.drop i = b :: bs →
      cxUtf8Cp (some (str.drop i)) 0 = .ok (-1) := by
    intro b bs hb
    rw [hb]
    apply cxUtf8Cp_size_zero
    rw [cxUtf8Csize_cons]
    split
    · rfl
    · next hpos => rw [Nat.eq_zero_of_not_pos hpos]
  cases ht with
  | whole => exact absurd rfl hne
  | bad hbad =>
      rw [List.length_cons] at hlen
      exact ⟨by omega, ⟨_, byteAt_drop h, rfl, fun _ => hbad, by simp⟩, hsize,
        hvalue _ _ h⟩
  | cut hcut =>
      rw [List.length_cons] at hlen
      exact ⟨by omega, ⟨_, byteAt_drop h, rfl, by simp, fun _ => by omega⟩, hsize,
        hvalue _ _ h⟩

/-- A walker stops at the end of its string. -/
theorem drop_nil (h : str.drop i = []) : ¬ i < str.length := by
  rw [List.drop_eq_nil_iff] at h
  omega

theorem clenLoop_turn {length count : Nat} {lead : Byte} (h : i < length)
    (hlead : byteAt str i = .ok lead) :
    clenLoop str length i count = if utf8LenMap lead = 0 then .ok (-1)
      else clenLoop str length (i + utf8LenMap lead) (count + 1) := by
  rw [clenLoop, dif_pos h, hlead]
  rfl

theorem clenLoop_end {length count : Nat} (h : ¬ i < length) :
    clenLoop str length i count = .ok (count : Int) := by
  rw [clenLoop, dif_neg h]
  rfl

theorem utf16LenLoop_turn {length len16 : Nat} {lead : Byte} (h : i < length)
    (hlead : byteAt str i = .ok lead) :
    utf16LenLoop str length i len16 = if utf8LenMap lead = 0 then .ok (-1)
      else utf16LenLoop str length (i + utf8LenMap lead)
        (len16 + utf16LenMap lead) := by
  rw [utf16LenLoop, dif_pos h, hlead]
  rfl

theorem utf16LenLoop_end {length len16 : Nat} (h : ¬ i < length) :
    utf16LenLoop str length i len16 = .ok (len16 : Int) := by
  rw [utf16LenLoop, dif_neg h]
  rfl

theorem bidxLoop_turn {length charIndex j : Nat} {lead : Byte}
    (h : i < length ∧ j < charIndex) (hlead : byteAt str i = .ok lead) :
    bidxLoop str length charIndex i j = if utf8LenMap lead = 0 then .ok (-1)
      else bidxLoop str length charIndex (i + utf8LenMap lead) (j + 1) := by
  rw [bidxLoop, dif_pos h, hlead]
  rfl

theorem bidxLoop_end {length charIndex j : Nat}
    (h : ¬ (i < length ∧ j < charIndex)) :
    bidxLoop str length charIndex i j
      = .ok (if i > length then -1 else (i : Int)) := by
  rw [bidxLoop, dif_neg h]
  split
  · rfl
  · rfl

-- ================================================================= loops

/-- A count of the whole characters, and what a lead byte adds whose
character is cut off: the two walkers by lead bytes count that one. -/
def counted (e : End) (n last : Nat) : Int :=
  match e with
  | .whole => n
  | .bad => -1
  | .cut => (n + last : Nat)

theorem clenLoop_chunked (cs : List (List Byte)) : ∀ (i count : Nat),
    Chunked utf8LenMap cs e t (str.drop i) →
    clenLoop str str.length i count = .ok (counted e (count + cs.length) 1) := by
  induction cs with
  | nil =>
      intro i count h
      have hdrop : str.drop i = t := h.split
      cases e with
      | whole =>
          exact clenLoop_end (drop_nil (hdrop.trans h.tail.eq_nil))
      | bad =>
          have hs := tail_step h.tail (by decide) hdrop
          obtain ⟨lead, hlead, -, hbad, -⟩ := hs.lead
          rw [clenLoop_turn hs.inside hlead, if_pos (hbad rfl)]
          rfl
      | cut =>
          have hs := tail_step h.tail (by decide) hdrop
          obtain ⟨lead, hlead, -, -, hcut⟩ := hs.lead
          have hin := hs.inside
          have hover := hcut rfl
          rw [clenLoop_turn hin hlead, if_neg (by omega),
            clenLoop_end (by omega)]
          rfl
  | cons c cs ih =>
      intro i count h
      obtain ⟨hc, s', hdrop, hrest⟩ := h.uncons
      obtain ⟨hs, hnext⟩ := char_step hc hdrop
      obtain ⟨lead, hlead, h8, -, -⟩ := hs.lead
      have hpos := hs.pos
      rw [← hnext] at hrest
      rw [clenLoop_turn hs.inside hlead, if_neg (by omega), h8, ih _ _ hrest,
        List.length_cons, Nat.add_right_comm, Nat.add_assoc]

theorem utf16LenLoop_chunked (cs : List (List Byte)) : ∀ (i len16 : Nat),
    Chunked utf8LenMap cs e t (str.drop i) →
    utf16LenLoop str str.length i len16
      = .ok (counted e (len16 + (cs.map units).sum) (units t)) := by
  induction cs with
  | nil =>
      intro i len16 h
      have hdrop : str.drop i = t := h.split
      cases e with
      | whole =>
          exact utf16LenLoop_end (drop_nil (hdrop.trans h.tail.eq_nil))
      | bad =>
          have hs := tail_step h.tail (by decide) hdrop
          obtain ⟨lead, hlead, -, hbad, -⟩ := hs.lead
          rw [utf16LenLoop_turn hs.inside hlead, if_pos (hbad rfl)]
          rfl
      | cut =>
          have hs := tail_step h.tail (by decide) hdrop
          obtain ⟨lead, hlead, h16, -, hcut⟩ := hs.lead
          have hin := hs.inside
          have hover := hcut rfl
          rw [utf16LenLoop_turn hin hlead, if_neg (by omega),
            utf16LenLoop_end (by omega), h16]
          rfl
  | cons c cs ih =>
      intro i len16 h
      obtain ⟨hc, s', hdrop, hrest⟩ := h.uncons
      obtain ⟨hs, hnext⟩ := char_step hc hdrop
      obtain ⟨lead, hlead, h8, h16, -⟩ := hs.lead
      have hpos := hs.pos
      rw [← hnext] at hrest
      rw [utf16LenLoop_turn hs.inside hlead, if_neg (by omega), h8, h16,
        ih _ _ hrest, List.map_cons, List.sum_cons, Nat.add_assoc]

/-- The offset of the character `k`: past the last one only where the
string ends with a whole character. -/
def offsetOf (cs : List (List Byte)) (e : End) (k : Nat) : Option Nat :=
  if k ≤ cs.length ∨ e = .whole then some (cs.take k).flatten.length else none

/-- An offset, or -1. -/
def offsetInt : Option Nat → Int
  | some n => n
  | none => -1

@[simp] theorem offsetOf_zero : offsetOf cs e 0 = some 0 := by
  simp [offsetOf]

@[simp] theorem offsetOf_nil_succ (k : Nat) :
    offsetOf [] e (k + 1) = if e = .whole then some 0 else none := by
  simp [offsetOf]

theorem offsetOf_cons_succ (k : Nat) :
    offsetOf (c :: cs) e (k + 1) = (offsetOf cs e k).map (c.length + ·) := by
  unfold offsetOf
  simp only [List.length_cons, Nat.add_le_add_iff_right, List.take_succ_cons,
    List.flatten_cons, List.length_append]
  split
  · rfl
  · rfl

theorem bidxLoop_chunked (cs : List (List Byte)) : ∀ (charIndex i j k : Nat),
    Chunked utf8LenMap cs e t (str.drop i) → i ≤ str.length →
    charIndex = j + k →
    bidxLoop str str.length charIndex i j
      = .ok (offsetInt ((offsetOf cs e k).map (i + ·))) := by
  induction cs with
  | nil =>
      intro charIndex i j k h hle hj
      have hdrop : str.drop i = t := h.split
      cases k with
      | zero =>
          rw [bidxLoop_end (by omega), if_neg (by omega), offsetOf_zero]
          rfl
      | succ k =>
          rw [offsetOf_nil_succ]
          cases e with
          | whole =>
              have hend := drop_nil (hdrop.trans h.tail.eq_nil)
              rw [bidxLoop_end (fun hc => hend hc.1), if_neg (by omega)]
              rfl
          | bad =>
              have hs := tail_step h.tail (by decide) hdrop
              obtain ⟨lead, hlead, -, hbad, -⟩ := hs.lead
              rw [bidxLoop_turn ⟨hs.inside, by omega⟩ hlead, if_pos (hbad rfl)]
              rfl
          | cut =>
              have hs := tail_step h.tail (by decide) hdrop
              obtain ⟨lead, hlead, -, -, hcut⟩ := hs.lead
              have hin := hs.inside
              have hover := hcut rfl
              rw [bidxLoop_turn ⟨hin, by omega⟩ hlead, if_neg (by omega),
                bidxLoop_end (by omega), if_pos (by omega)]
              rfl
  | cons c cs ih =>
      intro charIndex i j k h hle hj
      obtain ⟨hc, s', hdrop, hrest⟩ := h.uncons
      obtain ⟨hs, hnext⟩ := char_step hc hdrop
      obtain ⟨lead, hlead, h8, -, -⟩ := hs.lead
      have hpos := hs.pos
      rw [← hnext] at hrest
      cases k with
      | zero =>
          rw [bidxLoop_end (by omega), if_neg (by omega), offsetOf_zero]
          rfl
      | succ k =>
          rw [bidxLoop_turn ⟨hs.inside, by omega⟩ hlead, if_neg (by omega), h8,
            ih charIndex _ _ k hrest hs.fits (by omega), offsetOf_cons_succ]
          cases offsetOf cs e k with
          | none => rfl
          | some n =>
              simp only [Option.map_some]
              rw [Nat.add_assoc]

-- =============================================================== walkers

variable {s : List Byte}

theorem cxUtf8Clen_chunked (h : Chunked utf8LenMap cs e t s) :
    cxUtf8Clen s s.length = .ok (counted e cs.length 1) := by
  rw [cxUtf8Clen, clenLoop_chunked cs 0 0 (by rwa [List.drop_zero]),
    Nat.zero_add]

theorem cxUtf816len_chunked (h : Chunked utf8LenMap cs e t s) :
    cxUtf816len s s.length = .ok (counted e (cs.map units).sum (units t)) := by
  rw [cxUtf816len, utf16LenLoop_chunked cs 0 0 (by rwa [List.drop_zero]),
    Nat.zero_add]

theorem cxUtf8Bidx_chunked (h : Chunked utf8LenMap cs e t s) (k : Nat) :
    cxUtf8Bidx s s.length k = .ok (offsetInt (offsetOf cs e k)) := by
  rw [cxUtf8Bidx, bidxLoop_chunked cs k 0 0 k (by rwa [List.drop_zero])
    (Nat.zero_le _) (Nat.zero_add k).symm]
  simp

end Cextras.Unicode
