/-
What the decoder accepts. It looks at the lead byte and the length alone,
so it takes every chunk, and of each it assembles the payload
(`cxUtf8Cp_decodes`). A chunk is the encoding of a scalar value exactly
if the bytes after the first are continuation bytes, the payload is a
scalar value, and no shorter chunk has the same one (`encoded_iff`).
-/
import Cextras.Unicode.Proofs.Characters

namespace Cextras.Unicode

open Lib

variable {c bs bs' : List Byte} {b : Byte} {v : Nat}

-- ================================================================= bytes

/-- The number of bytes a value takes at least. -/
def encodedSize (v : Nat) : Nat :=
  if v < 0x80 then 1 else if v < 0x800 then 2 else if v < 0x10000 then 3 else 4

/-- The lead bytes of one length are a range. -/
theorem lead_range {k lo m : Nat} (h : utf8LenMap b = k)
    (hall : ∀ n < 256, utf8LenMap (UInt8.ofNat n) = k → lo ≤ n ∧ n < lo + m) :
    ∃ x < m, b = UInt8.ofNat (x + lo) := by
  rw [← UInt8.ofNat_toNat (x := b)] at h
  obtain ⟨hlo, hhi⟩ := hall _ b.toNat_lt h
  exact ⟨b.toNat - lo, by omega, by rw [Nat.sub_add_cancel hlo, UInt8.ofNat_toNat]⟩

theorem lead_one (h : utf8LenMap b = 1) : ∃ x < 0x80, b = UInt8.ofNat (x + 0) :=
  lead_range h (by decide +kernel)

theorem lead_two (h : utf8LenMap b = 2) :
    ∃ x < 0x20, b = UInt8.ofNat (x + 0xC0) :=
  lead_range h (by decide +kernel)

theorem lead_three (h : utf8LenMap b = 3) :
    ∃ x < 0x10, b = UInt8.ofNat (x + 0xE0) :=
  lead_range h (by decide +kernel)

theorem lead_four (h : utf8LenMap b = 4) :
    ∃ x < 0x08, b = UInt8.ofNat (x + 0xF0) :=
  lead_range h (by decide +kernel)

/-- A continuation byte. -/
def IsCont (b : Byte) : Prop := 0x80 ≤ b.toNat ∧ b.toNat ≤ 0xBF

theorem isCont_iff : IsCont b ↔ ∃ x < 0x40, b = UInt8.ofNat (x + 0x80) := by
  constructor
  · rintro ⟨hlo, hhi⟩
    exact ⟨b.toNat - 0x80, by omega,
      by rw [Nat.sub_add_cancel hlo, UInt8.ofNat_toNat]⟩
  · rintro ⟨x, hx, rfl⟩
    have hall : ∀ x < 0x40, IsCont (UInt8.ofNat (x + 0x80)) := by
      unfold IsCont
      decide
    exact hall x hx

-- ============================================================ one chunk

/-- What makes a chunk the encoding of a scalar value. -/
structure WellFormed (c : List Byte) : Prop where
  conts : ∀ b ∈ c.tail, IsCont b
  scalar : (payload c).isValidChar
  shortest : encodedSize (payload c) = c.length

/-- The digits of a well-formed chunk. -/
theorem WellFormed.encoded (hc : IsChunk utf8LenMap c) (h : WellFormed c) :
    Encoded (payload c) c := by
  obtain ⟨hconts, -, hshort⟩ := h
  obtain ⟨lead, as, hcons, hlen⟩ := hc
  unfold encodedSize at hshort
  match as, hcons with
  | [], hcons =>
      subst hcons
      obtain ⟨x, hx, rfl⟩ := lead_one hlen
      have hpay : payload [UInt8.ofNat (x + 0)] = x :=
        (UInt8.toNat_ofNat' ..).trans (Nat.mod_eq_of_lt (by omega))
      rw [hpay]
      exact .one hx
  | [c1], hcons =>
      subst hcons
      obtain ⟨x, hx, rfl⟩ := lead_two hlen
      obtain ⟨y, hy, rfl⟩ := isCont_iff.mp (hconts c1 (by simp))
      have hpay := payload_two hx hy
      rw [hpay] at hshort ⊢
      refine .two x y rfl hx hy ?_
      by_contra hlt
      rw [if_pos (by omega)] at hshort
      cases hshort
  | [c1, c2], hcons =>
      subst hcons
      obtain ⟨x, hx, rfl⟩ := lead_three hlen
      obtain ⟨y, hy, rfl⟩ := isCont_iff.mp (hconts c1 (by simp))
      obtain ⟨z, hz, rfl⟩ := isCont_iff.mp (hconts c2 (by simp))
      have hpay := payload_three hx hy hz
      rw [hpay] at hshort ⊢
      refine .three x y z rfl hx hy hz ?_
      by_contra hlt
      simp only [List.length_cons, List.length_nil] at hshort
      split_ifs at hshort <;> omega
  | [c1, c2, c3], hcons =>
      subst hcons
      obtain ⟨x, hx, rfl⟩ := lead_four hlen
      obtain ⟨y, hy, rfl⟩ := isCont_iff.mp (hconts c1 (by simp))
      obtain ⟨z, hz, rfl⟩ := isCont_iff.mp (hconts c2 (by simp))
      obtain ⟨t, ht, rfl⟩ := isCont_iff.mp (hconts c3 (by simp))
      have hpay := payload_four hx hy hz ht
      rw [hpay] at hshort ⊢
      refine .four x y z t rfl hx hy hz ht ?_
      by_contra hlt
      simp only [List.length_cons, List.length_nil] at hshort
      split_ifs at hshort <;> omega
  | _ :: _ :: _ :: _ :: _, hcons =>
      have := utf8LenMap_le lead
      rw [hlen, hcons] at this
      simp only [List.length_cons] at this
      omega

/-- A value has one encoding. -/
theorem Encoded.unique (h : Encoded v bs) (hmax : v < 0x110000)
    (h' : Encoded v bs') : bs = bs' := by
  cases h with
  | one hv =>
      cases h' with
      | one => rfl
      | two | three | four => omega
  | two x y hv hx hy hge =>
      cases h' with
      | one hv' => omega
      | two x' y' hv' hx' hy' =>
          obtain ⟨rfl, rfl⟩ : x = x' ∧ y = y' := by omega
          rfl
      | three | four => omega
  | three x y z hv hx hy hz hge =>
      cases h' with
      | one | two => omega
      | three x' y' z' hv' hx' hy' hz' =>
          obtain ⟨rfl, rfl, rfl⟩ : x = x' ∧ y = y' ∧ z = z' := by omega
          rfl
      | four => omega
  | four x y z t hv hx hy hz ht hge =>
      cases h' with
      | one | two | three => omega
      | four x' y' z' t' hv' hx' hy' hz' ht' =>
          obtain ⟨rfl, rfl, rfl, rfl⟩ : x = x' ∧ y = y' ∧ z = z' ∧ t = t' := by
            omega
          rfl

theorem Encoded.conts (h : Encoded v bs) : ∀ b ∈ bs.tail, IsCont b := by
  intro b hb
  cases h with
  | one => cases hb
  | two x y _ _ hy =>
      rw [List.mem_singleton.mp hb]
      exact isCont_iff.mpr ⟨_, hy, rfl⟩
  | three x y z _ _ hy hz =>
      simp only [List.tail_cons, List.mem_cons, List.not_mem_nil, or_false] at hb
      rcases hb with rfl | rfl
      · exact isCont_iff.mpr ⟨_, hy, rfl⟩
      · exact isCont_iff.mpr ⟨_, hz, rfl⟩
  | four x y z t _ _ hy hz ht =>
      simp only [List.tail_cons, List.mem_cons, List.not_mem_nil, or_false] at hb
      rcases hb with rfl | rfl | rfl
      · exact isCont_iff.mpr ⟨_, hy, rfl⟩
      · exact isCont_iff.mpr ⟨_, hz, rfl⟩
      · exact isCont_iff.mpr ⟨_, ht, rfl⟩

theorem Encoded.size (h : Encoded v bs) : encodedSize v = bs.length := by
  unfold encodedSize
  cases h with
  | one hv =>
      rw [if_pos hv]
      rfl
  | two x y hv hx hy hge =>
      rw [if_neg (by omega), if_pos (by omega)]
      rfl
  | three x y z hv hx hy hz hge =>
      rw [if_neg (by omega), if_neg (by omega), if_pos (by omega)]
      rfl
  | four x y z t hv hx hy hz ht hge =>
      rw [if_neg (by omega), if_neg (by omega), if_neg (by omega)]
      rfl

/-- The encoding of a scalar value is the well-formed chunk with that
payload. -/
theorem encoded_iff (hc : IsChunk utf8LenMap c) (ch : Char) :
    String.utf8EncodeChar ch = c
      ↔ WellFormed c ∧ payload c = ch.val.toNat := by
  have hvalid : ch.val.toNat.isValidChar := ch.valid
  constructor
  · rintro rfl
    have hpay := (encoded_chunk ch).2
    have henc := encoded_char ch
    exact ⟨⟨henc.conts, hpay ▸ hvalid, hpay ▸ henc.size⟩, hpay⟩
  · rintro ⟨hwf, hpay⟩
    have henc := hwf.encoded hc
    rw [hpay] at henc
    have hmax : ch.val.toNat < 0x110000 := by
      simp only [Nat.isValidChar] at hvalid
      omega
    exact (encoded_char ch).unique hmax henc

-- =============================================================== decoder

/-- The decoder takes what is a chunk, and nothing else: its value is the
payload, and a prefix of the bytes is the encoding of a scalar value
exactly if that chunk is well-formed; then the payload is the value. -/
theorem cxUtf8Cp_decodes (chr : List Byte) (hne : chr ≠ []) :
    ∃ cp : Int, cxUtf8Cp (some chr) chr.length = .ok cp
      ∧ (0 ≤ cp ↔ ∃ c, IsChunk utf8LenMap c ∧ c <+: chr)
      ∧ (cp < 0 → cp = -1)
      ∧ ∀ c, IsChunk utf8LenMap c → c <+: chr → cp = payload c
        ∧ ∀ ch : Char, String.utf8EncodeChar ch <+: chr
          ↔ WellFormed c ∧ payload c = ch.val.toNat := by
  obtain ⟨b, bs, rfl⟩ := List.exists_cons_of_ne_nil hne
  rcases chunk_or_tail utf8LenMap b bs with ⟨c, s, heq, hc⟩ | ⟨e, he⟩
  · have hlen : c.length ≤ (b :: bs).length := by
      rw [heq, List.length_append]
      omega
    have hprefix : c <+: b :: bs := ⟨s, heq.symm⟩
    rw [heq] at hlen
    refine ⟨payload c, by rw [heq]; exact cxUtf8Cp_chunk hc s hlen, ?_, ?_, ?_⟩
    · exact iff_of_true (Int.natCast_nonneg _) ⟨c, hc, hprefix⟩
    · intro hneg
      omega
    · intro c' hc' hprefix'
      obtain ⟨s', hs'⟩ := hprefix'
      obtain ⟨rfl, rfl⟩ := hc'.append_inj hc (hs'.trans heq)
      refine ⟨rfl, fun ch => ?_⟩
      rw [← encoded_iff hc' ch]
      constructor
      · rintro ⟨s₁, hs₁⟩
        exact ((encoded_chunk ch).1.append_inj hc' (hs₁.trans heq)).1
      · rintro rfl
        exact hprefix
  · have hnot : ∀ c, IsChunk utf8LenMap c → ¬ c <+: b :: bs := by
      rintro c hc ⟨s, hs⟩
      exact he.not_chunk hc hs.symm
    have hsize := cxUtf8Csize_tail he (by rintro rfl; cases he)
    refine ⟨-1, cxUtf8Cp_size_zero b bs hsize, ?_, fun _ => rfl, ?_⟩
    · refine iff_of_false (by decide) ?_
      rintro ⟨c, hc, hprefix⟩
      exact hnot c hc hprefix
    · intro c hc hprefix
      exact absurd hprefix (hnot c hc)

/-- The euro sign, with bytes after it. -/
theorem cxUtf8Cp_euro : ∃ cp : Int,
    cxUtf8Cp (some [0xE2, 0x82, 0xAC, 0x20]) 4 = .ok cp ∧ 0 ≤ cp := by
  obtain ⟨cp, hrun, hiff, -⟩ := cxUtf8Cp_decodes [0xE2, 0x82, 0xAC, 0x20]
    (by decide)
  exact ⟨cp, hrun, hiff.mpr ⟨[0xE2, 0x82, 0xAC], ⟨_, _, rfl, by decide⟩,
    [0x20], rfl⟩⟩

/-- Decoded, although the second byte is not a continuation byte. -/
theorem cxUtf8Cp_malformed :
    cxUtf8Cp (some [0xC3, 0x28]) 2 = .ok 0xE8
      ∧ ¬ ∃ ch : Char, String.utf8EncodeChar ch <+: [0xC3, 0x28] := by
  have hc : IsChunk utf8LenMap [0xC3, 0x28] := ⟨_, _, rfl, by decide⟩
  refine ⟨by decide, ?_⟩
  rintro ⟨ch, s, hs⟩
  have heq := ((encoded_chunk ch).1.append_inj hc
    (hs.trans (List.append_nil _).symm)).1
  have hcont := ((encoded_iff hc ch).mp heq).1.conts 0x28 (by decide)
  exact absurd hcont.1 (by decide)

end Cextras.Unicode
