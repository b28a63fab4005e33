import CenterIM.ByteText

/-!
# Base64

The encoding of RFC 4648 in groups of three bytes, its decoder, and the round trip. The
sextets of a text are stated apart from the characters that stand for them.
-/
namespace CenterIM.Base64
open ByteText

def sextets : Str → List ℕ
  | a :: b :: c :: rest =>
    a.toNat / 4 :: (a.toNat % 4 * 16 + b.toNat / 16) :: (b.toNat % 16 * 4 + c.toNat / 64) ::
      c.toNat % 64 :: sextets rest
  | [a, b] => [a.toNat / 4, a.toNat % 4 * 16 + b.toNat / 16, b.toNat % 16 * 4]
  | [a] => [a.toNat / 4, a.toNat % 4 * 16]
  | [] => []

def alphabet : Str := bytes "ABCDEFGHIJKLMNOPQRSTUVWXYZabcdefghijklmnopqrstuvwxyz0123456789+/"

def letter (d : ℕ) : Byte := alphabet.getD d nul

def pad : Byte := 61

def encode (s : Str) : Str :=
  (sextets s).map letter ++ List.replicate ((3 - s.length % 3) % 3) pad

/-- The number that a character stands for; more than 63 for one that stands for none. -/
def value (c : Byte) : ℕ := alphabet.idxOf c

/-- The bytes of four characters, which have to be letters up to the padding. -/
def decodeGroup (w x y z : Byte) (last : Bool) : Option Str :=
  let ok (c : Byte) : Bool := decide (value c < 64)
  let first := UInt8.ofNat (value w * 4 + value x / 16)
  let second := UInt8.ofNat (value x % 16 * 16 + value y / 4)
  let third := UInt8.ofNat (value y % 4 * 64 + value z)
  if ok w && ok x && ok y && ok z then some [first, second, third]
  else if ok w && ok x && ok y && z == pad && last then some [first, second]
  else if ok w && ok x && y == pad && z == pad && last then some [first]
  else none

def decode : Str → Option Str
  | [] => some []
  | w :: x :: y :: z :: rest => do
    let group ← decodeGroup w x y z rest.isEmpty
    let text ← decode rest
    return group ++ text
  | _ => none

theorem value_letter : ∀ d < 64, value (letter d) = d := by
  decide

theorem value_pad : value pad = 64 := by
  decide

theorem sextets_lt (s : Str) : ∀ d ∈ sextets s, d < 64 := by
  induction s using sextets.induct with
  | case1 a b c rest ih =>
    have ha := a.toNat_lt
    have hb := b.toNat_lt
    have hc := c.toNat_lt
    intro d hd
    simp only [sextets, List.mem_cons] at hd
    rcases hd with rfl | rfl | rfl | rfl | hd
    · omega
    · omega
    · omega
    · omega
    · exact ih d hd
  | case2 a b =>
    have ha := a.toNat_lt
    have hb := b.toNat_lt
    intro d hd
    simp only [sextets, List.mem_cons, List.not_mem_nil, or_false] at hd
    rcases hd with rfl | rfl | rfl <;> omega
  | case3 a =>
    have ha := a.toNat_lt
    intro d hd
    simp only [sextets, List.mem_cons, List.not_mem_nil, or_false] at hd
    rcases hd with rfl | rfl <;> omega
  | case4 => simp [sextets]

theorem encode_three (a b c : Byte) (rest : Str) :
    encode (a :: b :: c :: rest) =
      letter (a.toNat / 4) :: letter (a.toNat % 4 * 16 + b.toNat / 16) ::
        letter (b.toNat % 16 * 4 + c.toNat / 64) :: letter (c.toNat % 64) :: encode rest := by
  have hlen : (a :: b :: c :: rest).length % 3 = rest.length % 3 := by
    simp only [List.length_cons]
    omega
  simp only [encode, sextets, List.map_cons, List.cons_append, hlen]

theorem encode_two (a b : Byte) :
    encode [a, b] = [letter (a.toNat / 4), letter (a.toNat % 4 * 16 + b.toNat / 16),
      letter (b.toNat % 16 * 4), pad] := rfl

theorem encode_one (a : Byte) :
    encode [a] = [letter (a.toNat / 4), letter (a.toNat % 4 * 16), pad, pad] := rfl

section Groups

variable {w x y z : ℕ}

theorem decodeGroup_three (hw : w < 64) (hx : x < 64) (hy : y < 64) (hz : z < 64) (last : Bool) :
    decodeGroup (letter w) (letter x) (letter y) (letter z) last =
      some [UInt8.ofNat (w * 4 + x / 16), UInt8.ofNat (x % 16 * 16 + y / 4),
        UInt8.ofNat (y % 4 * 64 + z)] := by
  simp [decodeGroup, value_letter w hw, value_letter x hx, value_letter y hy, value_letter z hz,
    hw, hx, hy, hz]

theorem decodeGroup_two (hw : w < 64) (hx : x < 64) (hy : y < 64) :
    decodeGroup (letter w) (letter x) (letter y) pad true =
      some [UInt8.ofNat (w * 4 + x / 16), UInt8.ofNat (x % 16 * 16 + y / 4)] := by
  simp [decodeGroup, value_letter w hw, value_letter x hx, value_letter y hy, value_pad, hw, hx, hy]

theorem decodeGroup_one (hw : w < 64) (hx : x < 64) :
    decodeGroup (letter w) (letter x) pad pad true = some [UInt8.ofNat (w * 4 + x / 16)] := by
  simp [decodeGroup, value_letter w hw, value_letter x hx, value_pad, hw, hx]

end Groups

theorem ofNat_eq {n : ℕ} {a : Byte} (h : n = a.toNat) : UInt8.ofNat n = a := by
  rw [h, UInt8.ofNat_toNat]

theorem decode_encode (s : Str) : decode (encode s) = some s := by
  induction s using sextets.induct with
  | case1 a b c rest ih =>
    have ha := a.toNat_lt
    have hb := b.toNat_lt
    have hc := c.toNat_lt
    rw [encode_three, decode, ih,
      decodeGroup_three (by omega) (by omega) (by omega) (by omega),
      ofNat_eq (a := a) (by omega), ofNat_eq (a := b) (by omega), ofNat_eq (a := c) (by omega)]
    rfl
  | case2 a b =>
    have ha := a.toNat_lt
    have hb := b.toNat_lt
    rw [encode_two, decode, List.isEmpty_nil,
      decodeGroup_two (by omega) (by omega) (by omega),
      ofNat_eq (a := a) (by omega), ofNat_eq (a := b) (by omega)]
    rfl
  | case3 a =>
    have ha := a.toNat_lt
    rw [encode_one, decode, List.isEmpty_nil, decodeGroup_one (by omega) (by omega),
      ofNat_eq (a := a) (by omega)]
    rfl
  | case4 => rfl

end CenterIM.Base64
