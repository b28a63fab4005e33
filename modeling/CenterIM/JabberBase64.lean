import CenterIM.BasicAuth

/-!
# Decoding Base64 in the Jabber hook

The decoder collects the bits of four characters in a number, passes over line breaks wherever
they stand, and ends at the padding; it reads back what `base64_encode` writes.
-/
namespace CenterIM.JabberBase64
open ByteText Base64 BasicAuth

def equals : Byte := 61

/-- The number that `base64_decode` puts into `tmp` for a character. -/
def charValue (c : Byte) : Option ℕ :=
  if 65 ≤ c && c ≤ 90 then some (c.toNat - 65)
  else if 97 ≤ c && c ≤ 122 then some (26 + (c.toNat - 97))
  else if 48 ≤ c && c ≤ 57 then some (52 + (c.toNat - 48))
  else if c = 43 then some 62
  else if c = 47 then some 63
  else none

def low (n : ℕ) : Byte := UInt8.ofNat n

/-- The loop of `base64_decode`. A character outside the alphabet counts with the value of the
one before it. -/
def decodeLoop : Str → Str → ℕ → ℕ → ℕ → Str
  | [], out, _, _, _ => out
  | c :: s, out, tmp, tmp2, n =>
    if c = nul then out
    else if charValue c = none ∧ (c = cr ∨ c = lf) then decodeLoop s out tmp tmp2 n
    else if charValue c = none ∧ c = equals then
      if n = 3 then out ++ [low (tmp2 >>> 10), low (tmp2 >>> 2)]
      else if n = 2 then out ++ [low (tmp2 >>> 4)]
      else out
    else
      let tmp := (charValue c).getD tmp
      let tmp2 := tmp2 <<< 6 ||| tmp
      if n + 1 = 4 then decodeLoop s (out ++ [low (tmp2 >>> 16), low (tmp2 >>> 8), low tmp2]) tmp 0 0
      else decodeLoop s out tmp tmp2 (n + 1)

/-- `base64_decode`: what it returns, and the length it stores. -/
def base64_decode (str : Option Str) : Option (Str × ℕ) :=
  str.map fun str =>
    let out := decodeLoop str [] 0 0 0
    (out, out.length)

theorem shift_or (x : ℕ) {d : ℕ} (hd : d < 64) : x <<< 6 ||| d = x * 64 + d := by
  rw [Nat.shiftLeft_eq]
  exact or_low x hd

set_option maxRecDepth 4000 in
theorem charValue_letter : ∀ d < 64, charValue (letter d) = some d := by
  decide

theorem letter_ne_nul : ∀ d < 64, letter d ≠ nul := by
  decide

theorem decodeLoop_filter (s out : Str) (tmp tmp2 n : ℕ) :
    decodeLoop s out tmp tmp2 n =
      decodeLoop (s.filter fun c => c ≠ cr && c ≠ lf) out tmp tmp2 n := by
  have hcr : charValue cr = none ∧ cr ≠ nul := by decide
  have hlf : charValue lf = none ∧ lf ≠ nul := by decide
  induction s generalizing out tmp tmp2 n with
  | nil => rfl
  | cons c s ih =>
    by_cases hc : c = cr ∨ c = lf
    · have hskip : decodeLoop (c :: s) out tmp tmp2 n = decodeLoop s out tmp tmp2 n := by
        rcases hc with rfl | rfl
        · simp [decodeLoop, hcr]
        · simp [decodeLoop, hlf]
      have hdrop : (c :: s).filter (fun c => c ≠ cr && c ≠ lf) =
          s.filter fun c => c ≠ cr && c ≠ lf := by
        rcases hc with rfl | rfl <;> simp
      rw [hskip, hdrop, ih]
    · have hkeep : (c :: s).filter (fun c => c ≠ cr && c ≠ lf) =
          c :: s.filter fun c => c ≠ cr && c ≠ lf := by
        simp only [not_or] at hc
        simp [hc.1, hc.2]
      rw [hkeep, decodeLoop, decodeLoop]
      simp only [ih, hc, and_false, if_false]

theorem decodeLoop_letter {d n : ℕ} (hd : d < 64) (hn : n + 1 ≠ 4) (s out : Str) (tmp tmp2 : ℕ) :
    decodeLoop (letter d :: s) out tmp tmp2 n = decodeLoop s out d (tmp2 * 64 + d) (n + 1) := by
  have hbits : tmp2 <<< 6 ||| d = tmp2 * 64 + d := shift_or tmp2 hd
  rw [decodeLoop, if_neg (letter_ne_nul d hd)]
  simp only [charValue_letter d hd, reduceCtorEq, false_and, if_false, Option.getD_some, hbits, hn]

theorem decodeLoop_fourth {d : ℕ} (hd : d < 64) (s out : Str) (tmp tmp2 : ℕ) :
    decodeLoop (letter d :: s) out tmp tmp2 3 =
      decodeLoop s (out ++ [low ((tmp2 * 64 + d) / 65536), low ((tmp2 * 64 + d) / 256),
        low (tmp2 * 64 + d)]) d 0 0 := by
  have hbits : tmp2 <<< 6 ||| d = tmp2 * 64 + d := shift_or tmp2 hd
  rw [decodeLoop, if_neg (letter_ne_nul d hd)]
  simp only [charValue_letter d hd, reduceCtorEq, false_and, if_false, Option.getD_some, hbits,
    Nat.shiftRight_eq_div_pow]
  rfl

theorem decodeLoop_pad (s out : Str) (tmp tmp2 n : ℕ) :
    decodeLoop (pad :: s) out tmp tmp2 n =
      if n = 3 then out ++ [low (tmp2 / 1024), low (tmp2 / 4)]
      else if n = 2 then out ++ [low (tmp2 / 16)]
      else out := by
  have hpad : charValue pad = none ∧ pad ≠ nul ∧ pad ≠ cr ∧ pad ≠ lf ∧ pad = equals := by decide
  rw [decodeLoop, if_neg hpad.2.1, if_neg fun h => h.2.elim hpad.2.2.1 hpad.2.2.2.1,
    if_pos ⟨hpad.1, hpad.2.2.2.2⟩]
  simp only [Nat.shiftRight_eq_div_pow, Nat.reducePow]

theorem low_eq {n : ℕ} {a : Byte} (h : n % 256 = a.toNat) : low n = a := by
  apply UInt8.toNat_inj.mp
  rw [low, UInt8.toNat_ofNat']
  exact h

theorem decodeLoop_encode (s out : Str) (tmp : ℕ) :
    decodeLoop (encode s) out tmp 0 0 = out ++ s := by
  induction s using sextets.induct generalizing out tmp with
  | case1 a b c rest ih =>
    have ha := a.toNat_lt
    have hb := b.toNat_lt
    have hc := c.toNat_lt
    rw [encode_three, decodeLoop_letter (by omega) (by omega),
      decodeLoop_letter (by omega) (by omega), decodeLoop_letter (by omega) (by omega),
      decodeLoop_fourth (by omega), @low_eq _ a (by omega), @low_eq _ b (by omega),
      @low_eq _ c (by omega), ih, List.append_assoc]
    rfl
  | case2 a b =>
    have ha := a.toNat_lt
    have hb := b.toNat_lt
    rw [encode_two, decodeLoop_letter (by omega) (by omega),
      decodeLoop_letter (by omega) (by omega), decodeLoop_letter (by omega) (by omega),
      decodeLoop_pad, if_pos rfl, @low_eq _ a (by omega), @low_eq _ b (by omega)]
  | case3 a =>
    have ha := a.toNat_lt
    rw [encode_one, decodeLoop_letter (by omega) (by omega),
      decodeLoop_letter (by omega) (by omega), decodeLoop_pad, if_neg (by omega), if_pos rfl,
      @low_eq _ a (by omega)]
  | case4 => simp [encode, sextets, decodeLoop]

/-- A buffer comes back with its length, also when line breaks stand in the encoded text. -/
theorem base64_decode_encode {buffer : Str} (h : buffer ≠ []) :
    base64_decode (base64_encode buffer) = some (buffer, buffer.length) ∧
      ∀ text str, base64_encode buffer = some text →
        (str.filter fun c => c ≠ cr && c ≠ lf) = text →
        base64_decode (some str) = some (buffer, buffer.length) := by
  have henc := base64_encode_eq h
  refine ⟨?_, ?_⟩
  · rw [henc, base64_decode, Option.map_some, decodeLoop_encode]
    rfl
  · intro text str htext hstr
    obtain rfl : encode buffer = text := Option.some.inj (henc.symm.trans htext)
    rw [base64_decode, Option.map_some, decodeLoop_filter, hstr, decodeLoop_encode]
    rfl

/-- Two bytes, with line breaks inside the group and before the padding. -/
theorem base64_decode_encode_two :
    base64_decode (some (bytes "Y\r\nWI\n=")) = some (bytes "ab", 2) :=
  (base64_decode_encode (by decide : bytes "ab" ≠ [])).2 (bytes "YWI=") _ (by decide) (by decide)

end CenterIM.JabberBase64
