/-
What the C library makes of text: lines (`getline`), tokens (`strtok`) and
numbers (`sscanf` with `%x`). Text is a list of bytes; a C string ends
before its first NUL.

Each reader comes with the rule for text that was written for it: a token
and the delimiter after it (`strtok_token`), the digits of a number and what
is no digit after them (`scanHex_digits`), lines that end in their only
newline (`getlines_flatten`).
-/
import Cextras.Lib.Mem

namespace Cextras.Lib

/-- What a C string in the buffer consists of. -/
def cString (buffer : List Byte) : List Byte := buffer.takeWhile (· ≠ 0)

/-- The characters of a literal. -/
def chars (cs : List Char) : List Byte := cs.map fun c => UInt8.ofNat c.toNat

-- ==================================================================== lines

/-- What `getline` reads up to the end of the file, newlines included. -/
def getlines : List Byte → List (List Byte)
  | [] => []
  | b :: file =>
      if b = 10 then [b] :: getlines file
      else
        match getlines file with
        | [] => [[b]]
        | line :: lines => (b :: line) :: lines

/-- One whole line. -/
def Line (line : List Byte) : Prop :=
  ∃ text, line = text ++ [10] ∧ 10 ∉ text

theorem getlines_line {text : List Byte} (h : 10 ∉ text) (file : List Byte) :
    getlines (text ++ 10 :: file) = (text ++ [10]) :: getlines file := by
  induction text with
  | nil => rfl
  | cons b text ih =>
      rw [List.mem_cons, not_or] at h
      rw [List.cons_append, getlines, if_neg (Ne.symm h.1), ih h.2]
      rfl

/-- A file of whole lines is read line by line. -/
theorem getlines_flatten {lines : List (List Byte)}
    (h : ∀ line ∈ lines, Line line) : getlines lines.flatten = lines := by
  induction lines with
  | nil => rfl
  | cons line lines ih =>
      obtain ⟨text, rfl, htext⟩ := h line List.mem_cons_self
      rw [List.flatten_cons, List.append_assoc, List.singleton_append,
        getlines_line htext, ih fun l hl => h l (List.mem_cons_of_mem _ hl)]

-- ==================================================================== spans

section Spans

variable {α : Type} {p : α → Bool} {xs rest : List α} {x : α}

/-- The rest begins with what is not `p`, or is empty. -/
def Stops (p : α → Bool) (rest : List α) : Prop :=
  ∀ x ∈ rest.head?, p x = false

theorem stops_nil : Stops p [] := nofun

theorem stops_cons (h : p x = false) : Stops p (x :: rest) := by
  intro y hy
  cases hy
  exact h

theorem takeWhile_span (h : ∀ x ∈ xs, p x = true) (hrest : Stops p rest) :
    (xs ++ rest).takeWhile p = xs := by
  rw [List.takeWhile_append_of_pos h]
  cases rest with
  | nil => exact List.append_nil _
  | cons y rest =>
      rw [List.takeWhile_cons_of_neg (by rw [hrest y rfl]; nofun),
        List.append_nil]

theorem dropWhile_span (h : ∀ x ∈ xs, p x = true) (hrest : Stops p rest) :
    (xs ++ rest).dropWhile p = rest := by
  rw [List.dropWhile_append_of_pos h]
  cases rest with
  | nil => rfl
  | cons y rest =>
      exact List.dropWhile_cons_of_neg (by rw [hrest y rfl]; nofun)

end Spans

/-- Text without NUL before a character that is none. -/
theorem cString_append {text : List Byte} (h : 0 ∉ text) (rest : List Byte) :
    cString (text ++ rest) = text ++ cString rest := by
  unfold cString
  refine List.takeWhile_append_of_pos fun b hb => ?_
  exact decide_eq_true fun hzero => h (hzero ▸ hb)

theorem cString_cons {b : Byte} (h : b ≠ 0) (rest : List Byte) :
    cString (b :: rest) = b :: cString rest :=
  List.takeWhile_cons_of_pos (decide_eq_true h)

-- =================================================================== tokens

/-- `strtok`: the next token, and what the next call goes on with. -/
def strtok (delim text : List Byte) : Option (List Byte × List Byte) :=
  let text := text.dropWhile fun b => delim.contains b
  if text = [] then none
  else some (text.takeWhile fun b => !delim.contains b,
    (text.dropWhile fun b => !delim.contains b).drop 1)

/-- A token that ends where `text` stops being one. -/
theorem strtok_span {delim token rest : List Byte} (hne : token ≠ [])
    (htoken : ∀ b ∈ token, delim.contains b = false)
    (hrest : Stops (fun b => !delim.contains b) rest) :
    strtok delim (token ++ rest) = some (token, rest.drop 1) := by
  have hskip : (token ++ rest).dropWhile (fun b => delim.contains b)
      = token ++ rest := by
    cases token with
    | nil => exact absurd rfl hne
    | cons b token =>
        refine List.dropWhile_cons_of_neg ?_
        rw [htoken b List.mem_cons_self]
        nofun
  have hall : ∀ b ∈ token, (!delim.contains b) = true := by
    intro b hb
    rw [htoken b hb]
    rfl
  unfold strtok
  dsimp only
  rw [hskip, if_neg fun hnil => hne (List.append_eq_nil_iff.mp hnil).1,
    takeWhile_span hall hrest, dropWhile_span hall hrest]

/-- A token and its delimiter. -/
theorem strtok_token {delim token : List Byte} {b : Byte} (hne : token ≠ [])
    (htoken : ∀ b ∈ token, delim.contains b = false)
    (hb : delim.contains b = true) (rest : List Byte) :
    strtok delim (token ++ b :: rest) = some (token, rest) :=
  strtok_span hne htoken (stops_cons (by rw [hb]; rfl))

/-- A token begins where no delimiter stands. -/
theorem strtok_head {delim : List Byte} {b : Byte} (hb : delim.contains b = false)
    (text : List Byte) :
    ∃ token rest, strtok delim (b :: text) = some (b :: token, rest)
      ∧ ∀ c ∈ token, c ∈ text := by
  have hskip : (b :: text).dropWhile (fun b => delim.contains b) = b :: text := by
    refine List.dropWhile_cons_of_neg ?_
    rw [hb]
    nofun
  have htake : (b :: text).takeWhile (fun b => !delim.contains b)
      = b :: text.takeWhile fun b => !delim.contains b := by
    refine List.takeWhile_cons_of_pos ?_
    rw [hb]
    rfl
  refine ⟨text.takeWhile fun b => !delim.contains b,
    ((b :: text).dropWhile fun b => !delim.contains b).drop 1, ?_, ?_⟩
  · unfold strtok
    dsimp only
    rw [hskip, if_neg (List.cons_ne_nil _ _), htake]
  · intro c hc
    exact (List.takeWhile_prefix _).subset hc

-- ================================================================== numbers

/-- `isspace` -/
def isSpace (b : Byte) : Bool := b = 32 || 9 ≤ b && b ≤ 13

/-- The value of a hexadecimal digit. -/
def hexDigit (b : Byte) : Option Nat :=
  if 48 ≤ b ∧ b ≤ 57 then some (b.toNat - 48)
  else if 65 ≤ b ∧ b ≤ 70 then some (b.toNat - 55)
  else if 97 ≤ b ∧ b ≤ 102 then some (b.toNat - 87)
  else none

def isHexDigit (b : Byte) : Bool := (hexDigit b).isSome

def hexValue (digits : List Byte) : Nat :=
  digits.foldl (fun v b => 16 * v + (hexDigit b).getD 0) 0

/-- What `strtoul` returns for these digits. -/
def strtoul (negative : Bool) (digits : List Byte) : Nat :=
  let v := hexValue digits
  if v ≥ 2 ^ 64 then 2 ^ 64 - 1
  else if negative then (2 ^ 64 - v) % 2 ^ 64
  else v

/-- `%x`: white space, a sign, `0x`, digits. -/
def scanHex (text : List Byte) : Option (Nat × List Byte) :=
  let text := text.dropWhile isSpace
  let negative := decide (text.head? = some 45)
  let text := if text.head? = some 43 ∨ text.head? = some 45 then text.drop 1
    else text
  let text := if text.take 2 = [48, 120] ∨ text.take 2 = [48, 88]
    then text.drop 2 else text
  let digits := text.takeWhile isHexDigit
  if digits = [] then none
  else some (strtoul negative digits, text.dropWhile isHexDigit)

theorem isHexDigit_range {b : Byte} (h : isHexDigit b = true) :
    48 ≤ b ∧ b ≤ 57 ∨ 65 ≤ b ∧ b ≤ 70 ∨ 97 ≤ b ∧ b ≤ 102 := by
  unfold isHexDigit hexDigit at h
  split at h
  · next hdigit => exact Or.inl hdigit
  · split at h
    · next hupper => exact Or.inr (Or.inl hupper)
    · split at h
      · next hlower => exact Or.inr (Or.inr hlower)
      · cases h

/-- A byte that is no hexadecimal digit is none of them. -/
theorem isHexDigit_ne {b c : Byte} (h : isHexDigit b = true)
    (hc : isHexDigit c = false) : b ≠ c := by
  rintro rfl
  rw [h] at hc
  cases hc

theorem isSpace_of_hexDigit {b : Byte} (h : isHexDigit b = true) :
    isSpace b = false := by
  have hrange := isHexDigit_range h
  unfold isSpace
  simp only [Bool.or_eq_false_iff, Bool.and_eq_false_iff, decide_eq_false_iff_not]
  simp only [UInt8.le_iff_toNat_le] at hrange ⊢
  refine ⟨?_, ?_⟩
  · rintro rfl
    revert hrange
    decide
  · right
    have h13 : (13 : Byte).toNat = 13 := rfl
    have h48 : (48 : Byte).toNat = 48 := rfl
    have h65 : (65 : Byte).toNat = 65 := rfl
    have h97 : (97 : Byte).toNat = 97 := rfl
    omega

/-- Text with no white space, sign or `0x` before its number. -/
theorem scanHex_plain {b : Byte} {text : List Byte} (hspace : isSpace b = false)
    (hsign : b ≠ 43 ∧ b ≠ 45)
    (hplain : ∀ x : Byte, x = 120 ∨ x = 88 → (b :: text).take 2 ≠ [48, x]) :
    scanHex (b :: text) = if (b :: text).takeWhile isHexDigit = [] then none
      else some (strtoul false ((b :: text).takeWhile isHexDigit),
        (b :: text).dropWhile isHexDigit) := by
  have hskip : (b :: text).dropWhile isSpace = b :: text := by
    refine List.dropWhile_cons_of_neg ?_
    rw [hspace]
    nofun
  have hplus : ¬ (some b = some (43 : Byte) ∨ some b = some (45 : Byte)) := by
    intro h
    rcases h with h | h
    · exact hsign.1 (Option.some.inj h)
    · exact hsign.2 (Option.some.inj h)
  have hminus : decide (some b = some (45 : Byte)) = false :=
    decide_eq_false fun h => hplus (Or.inr h)
  have hzero : ¬ ((b :: text).take 2 = [48, 120]
      ∨ (b :: text).take 2 = [48, 88]) := by
    intro h
    rcases h with h | h
    · exact hplain 120 (Or.inl rfl) h
    · exact hplain 88 (Or.inr rfl) h
  unfold scanHex
  simp only [hskip, List.head?_cons, if_neg hplus, if_neg hzero, hminus]

/-- The digits of a number are read to their end. -/
theorem scanHex_digits {digits rest : List Byte} (hne : digits ≠ [])
    (hdigits : ∀ b ∈ digits, isHexDigit b = true)
    (hrest : Stops isHexDigit rest)
    (hx : ∀ b ∈ rest.head?, b ≠ 120 ∧ b ≠ 88) :
    scanHex (digits ++ rest) = some (strtoul false digits, rest) := by
  have htake := takeWhile_span hdigits hrest
  have hdrop := dropWhile_span hdigits hrest
  obtain ⟨d, ds, rfl⟩ := List.exists_cons_of_ne_nil hne
  have hd := hdigits d List.mem_cons_self
  rw [List.cons_append] at htake hdrop ⊢
  rw [scanHex_plain (isSpace_of_hexDigit hd)
    ⟨isHexDigit_ne hd rfl, isHexDigit_ne hd rfl⟩, htake, hdrop, if_neg hne]
  -- the character after the first digit is another digit, or no `x`
  intro x hxx heq
  cases ds with
  | nil =>
      cases rest with
      | nil => cases heq
      | cons b rest =>
          obtain ⟨-, htail⟩ := List.cons.inj heq
          obtain ⟨rfl, -⟩ := List.cons.inj htail
          obtain ⟨h120, h88⟩ := hx b rfl
          rcases hxx with h | h
          · exact h120 h
          · exact h88 h
  | cons e ds =>
      obtain ⟨-, htail⟩ := List.cons.inj heq
      obtain ⟨rfl, -⟩ := List.cons.inj htail
      have he := hdigits e (by simp)
      rcases hxx with rfl | rfl
      · cases he
      · cases he

theorem strtoul_digits {digits : List Byte} (h : hexValue digits < 2 ^ 64) :
    strtoul false digits = hexValue digits := by
  unfold strtoul
  rw [if_neg (Nat.not_le.mpr h)]
  rfl

/-- There is no number where the text begins with something else. -/
theorem scanHex_none {b : Byte} (hspace : isSpace b = false)
    (hsign : b ≠ 43 ∧ b ≠ 45) (hdigit : isHexDigit b = false)
    (text : List Byte) : scanHex (b :: text) = none := by
  have htake : (b :: text).takeWhile isHexDigit = [] := by
    refine List.takeWhile_cons_of_neg ?_
    rw [hdigit]
    nofun
  rw [scanHex_plain hspace hsign, if_pos htake]
  intro x _ heq
  obtain ⟨rfl, -⟩ := List.cons.inj heq
  cases hdigit

theorem scanHex_spaces {text : List Byte} (h : ∀ b ∈ text, isSpace b = true) :
    scanHex text = none := by
  have hskip := dropWhile_span (p := isSpace) h stops_nil
  rw [List.append_nil] at hskip
  unfold scanHex
  rw [hskip]
  rfl

/-- A part of a format. -/
inductive Directive where
  /-- `%x` -/
  | hex
  | literal (b : Byte)

/-- The numbers `sscanf` assigns, in their order. -/
def sscanf : List Directive → List Byte → List Nat
  | [], _ => []
  | .hex :: format, text =>
      match scanHex text with
      | some (v, text) => v :: sscanf format text
      | none => []
  | .literal b :: format, text =>
      if text.head? = some b then sscanf format (text.drop 1) else []

theorem sscanf_hex {format : List Directive} {text rest : List Byte} {v : Nat}
    (h : scanHex text = some (v, rest)) :
    sscanf (.hex :: format) text = v :: sscanf format rest := by
  rw [sscanf, h]

theorem sscanf_none {format : List Directive} {text : List Byte}
    (h : scanHex text = none) : sscanf (.hex :: format) text = [] := by
  rw [sscanf, h]

theorem sscanf_literal (format : List Directive) (b : Byte) (text : List Byte) :
    sscanf (.literal b :: format) (b :: text) = sscanf format text := by
  rw [sscanf, if_pos (by rfl)]
  rfl

theorem sscanf_stop {format : List Directive} {b : Byte} {text : List Byte}
    (h : text.head? ≠ some b) : sscanf (.literal b :: format) text = [] := by
  rw [sscanf, if_neg h]

end Cextras.Lib
