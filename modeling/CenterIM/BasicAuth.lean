import CenterIM.Base64
import CenterIM.StrText

/-!
# HTTP Basic credentials

`cw_base64_encode` of connwrap, which reads signed characters and has an alphabet of its
own, `base64_encode` of the Jabber hook, and the authorization lines that `HTTPClient`
makes with the first one.
-/
namespace CenterIM.BasicAuth
open ByteText StrText Base64

/-- `base64digits` of `cw_base64_encode`, with the NUL at its end. -/
def base64digits : Str :=
  bytes "ABCDEFGHIJKLMNOPQRSTUVWXYZabcdefghijklmnopqrstuvwxyz0123456789._" ++ [nul]

/-- A `char` as the number that it is promoted to. -/
def promote (c : Byte) : Int32 := c.toInt8.toInt32

/-- The character of `base64digits` at an index. -/
def digitAt (i : Int32) : Except Fault Byte :=
  if 0 ≤ i.toInt ∧ i.toInt < base64digits.length then .ok (base64digits.getD i.toInt.toNat nul)
  else .error .pastEnd

/-- `strncat(out, &c, 1)` adds nothing for a NUL. -/
def append1 (c : Byte) : Str := if c = nul then [] else [c]

/-- The loop of `cw_base64_encode` and what comes after it, on the text that is left. -/
def cw_loop : Str → Except Fault Str
  | a :: b :: c :: rest => do
    let w ← digitAt (promote a >>> 2)
    let x ← digitAt ((promote a <<< 4 &&& (0x30 : Int32)) ||| promote b >>> 4)
    let y ← digitAt ((promote b <<< 2 &&& (0x3c : Int32)) ||| promote c >>> 6)
    let z ← digitAt (promote c &&& 0x3f)
    let out ← cw_loop rest
    return append1 w ++ append1 x ++ append1 y ++ append1 z ++ out
  | [a, b] => do
    let w ← digitAt (promote a >>> 2)
    let fragment := (promote a <<< 4 &&& 0x30).toInt8.toUInt8 ||| (promote b >>> 4).toInt8.toUInt8
    let x ← digitAt fragment.toUInt32.toInt32
    let y ← digitAt (promote b <<< 2 &&& 0x3c)
    return append1 w ++ append1 x ++ append1 y ++ bytes "-"
  | [a] => do
    let w ← digitAt (promote a >>> 2)
    let x ← digitAt (promote a <<< 4 &&& 0x30)
    return append1 w ++ append1 x ++ bytes "-" ++ bytes "-"
  | [] => .ok []

/-- `cw_base64_encode(in)`. -/
def cw_base64_encode (input : Str) : Except Fault Str := cw_loop (cstr input)

/-- `b64table` of the Jabber hook. -/
def b64table : Str :=
  bytes "ABCDEFGHIJKLMNOPQRSTUVWXYZabcdefghijklmnopqrstuvwxyz0123456789+/"

/-- One group of `base64_encode`, of which `n` bytes are from the buffer. -/
def group (n : ℕ) (i0 i1 i2 : Byte) : Str :=
  let at64 (i : Byte) : Byte := b64table.getD i.toNat nul
  [at64 (i0 >>> 2), at64 ((i0 &&& 3) <<< 4 ||| i1 >>> 4),
    if n < 2 then 61 else at64 ((i1 &&& 0xf) <<< 2 ||| i2 >>> 6),
    if n < 3 then 61 else at64 (i2 &&& 0x3f)]

def groups : Str → Str
  | a :: b :: c :: rest => group 3 a b c ++ groups rest
  | [a, b] => group 2 a b 0
  | [a] => group 1 a 0 0
  | [] => []

/-- `base64_encode(buffer, bufferLen)` of the Jabber hook, for buffers of less than 2 ^ 29 - 2
bytes: `( bufferLen+2 )*4` is an `int`. -/
def base64_encode (buffer : Str) : Option Str := if buffer = [] then none else some (groups buffer)

/-- A header line with credentials, as `HTTPClient::SendRequest` packs them. -/
def basicLine (field user passwd : Str) : Except Fault Str := do
  let ba ← cw_base64_encode (user ++ bytes ":" ++ passwd)
  return field ++ bytes ": Basic " ++ ba ++ [cr, lf]

def proxyAuthorization (m_proxy_user m_proxy_passwd : Str) : Except Fault Str :=
  basicLine (bytes "Proxy-Authorization") m_proxy_user m_proxy_passwd

/-- The line for the server, with the method `Basic`. -/
def authorization (m_user m_pass : Str) : Except Fault Str :=
  basicLine (bytes "Authorization") m_user m_pass

/-- What a server or a proxy that follows the RFC makes of such a line. -/
def credentials (field line : Str) : Option Str :=
  let lead := field ++ bytes ": Basic "
  if lead <+: line then decode ((line.drop lead.length).takeWhile (· ≠ cr)) else none

/-- The encoders agree on the text with the RFC, and as credentials it is decoded again. -/
def Standard (s : Str) : Prop :=
  cw_base64_encode s = .ok (encode s) ∧ base64_encode s = some (encode s) ∧
    ∀ user passwd, s = user ++ bytes ":" ++ passwd →
      (∃ line, proxyAuthorization user passwd = .ok line ∧
        credentials (bytes "Proxy-Authorization") line = some s) ∧
      ∃ line, authorization user passwd = .ok line ∧
        credentials (bytes "Authorization") line = some s

/-- No padding, no character that is negative as a signed one, and none of the two sextets
for which connwrap has other characters. -/
def Common (s : Str) : Prop :=
  s.length % 3 = 0 ∧ (∀ c ∈ s, c.toNat < 128) ∧ ∀ d ∈ sextets s, d < 62

instance (s : Str) : Decidable (Common s) := inferInstanceAs (Decidable (_ ∧ _ ∧ _))

section Bits

theorem promote_toInt (c : Byte) :
    (promote c).toInt = if c.toNat < 128 then (c.toNat : ℤ) else c.toNat - 256 := by
  have hint : (promote c).toInt = c.toBitVec.toInt := by
    rw [promote, Int8.toInt_toInt32]
    rfl
  have hnat : c.toBitVec.toNat = c.toNat := rfl
  rw [hint, BitVec.toInt_eq_toNat_cond, hnat]
  split_ifs <;> omega

theorem shiftRight_toInt (x k : Int32) {n : ℕ} (hk : (k.toBitVec.smod 32).toNat = n) :
    (x >>> k).toInt = x.toInt / 2 ^ n := by
  have hbits : (x >>> k).toBitVec = x.toBitVec.sshiftRight' (k.toBitVec.smod 32) :=
    Int32.toBitVec_shiftRight x k
  have hint : (x >>> k).toInt = (x >>> k).toBitVec.toInt := rfl
  rw [hint, hbits, BitVec.toInt_sshiftRight', Int.shiftRight_eq_div_pow, hk]
  rfl

theorem shift_two (a : Byte) :
    (promote a >>> 2).toInt = if a.toNat < 128 then (a.toNat / 4 : ℤ) else a.toNat / 4 - 64 := by
  rw [shiftRight_toInt (n := 2) _ _ (by decide), promote_toInt]
  split_ifs <;> omega

theorem shift_four (b : Byte) :
    (promote b >>> 4).toInt = if b.toNat < 128 then (b.toNat / 16 : ℤ) else b.toNat / 16 - 16 := by
  rw [shiftRight_toInt (n := 4) _ _ (by decide), promote_toInt]
  split_ifs <;> omega

theorem shift_six (c : Byte) :
    (promote c >>> 6).toInt = if c.toNat < 128 then (c.toNat / 64 : ℤ) else c.toNat / 64 - 4 := by
  rw [shiftRight_toInt (n := 6) _ _ (by decide), promote_toInt]
  split_ifs <;> omega

theorem high_two : ∀ a : Byte, promote a <<< 4 &&& 0x30 = Int32.ofNat (a.toNat % 4 * 16) := by
  decide +kernel

theorem high_four : ∀ b : Byte, promote b <<< 2 &&& 0x3c = Int32.ofNat (b.toNat % 16 * 4) := by
  decide +kernel

theorem low_six (c : Byte) : (promote c &&& 0x3f).toInt = (c.toNat % 64 : ℤ) := by
  have hnat : (promote c &&& 0x3f).toBitVec.toNat = (promote c).toBitVec.toNat % 64 := by
    have hand : (promote c &&& 0x3f).toBitVec.toNat = (promote c).toBitVec.toNat &&& (2 ^ 6 - 1) :=
      rfl
    rw [hand, Nat.and_two_pow_sub_one_eq_mod]
  have hpromote := promote_toInt c
  have hsigned : (promote c).toInt = (promote c).toBitVec.toInt := rfl
  have hlt : (promote c).toBitVec.toNat < 2 ^ 32 := (promote c).toBitVec.isLt
  have hint : (promote c &&& 0x3f).toInt = (promote c &&& 0x3f).toBitVec.toInt := rfl
  rw [hsigned, BitVec.toInt_eq_toNat_cond] at hpromote
  rw [hint, BitVec.toInt_eq_toNat_cond, hnat]
  split_ifs at hpromote ⊢ <;> omega

/-- The upper bits of an index and the lower ones, which may be those of a negative number. -/
theorem or_low_bits :
    (∀ k < 4, ∀ l < 16, (Int32.ofNat (k * 16) ||| Int32.ofInt ((l : ℕ) - 8 : ℤ)).toInt =
      if 8 ≤ l then (k * 16 + (l - 8) : ℤ) else l - 8) ∧
    ∀ k < 16, ∀ l < 4, (Int32.ofNat (k * 4) ||| Int32.ofInt ((l : ℕ) - 2 : ℤ)).toInt =
      if 2 ≤ l then (k * 4 + (l - 2) : ℤ) else l - 2 := by
  decide

theorem or_four (k : ℕ) (hk : k < 4) (b : Byte) :
    (Int32.ofNat (k * 16) ||| promote b >>> 4).toInt =
      if b.toNat < 128 then (k * 16 + b.toNat / 16 : ℤ) else b.toNat / 16 - 16 := by
  have hb := b.toNat_lt
  obtain ⟨l, hl, hlow⟩ : ∃ l : ℕ, l < 16 ∧ (promote b >>> 4).toInt = (l - 8 : ℤ) := by
    refine ⟨((promote b >>> 4).toInt + 8).toNat, ?_, ?_⟩ <;> rw [shift_four] <;> split_ifs <;> omega
  have hbits : promote b >>> 4 = Int32.ofInt (l - 8 : ℤ) := by rw [← hlow, Int32.ofInt_toInt]
  have hshift := shift_four b
  rw [hlow] at hshift
  rw [hbits, or_low_bits.1 k hk l hl]
  split_ifs at hshift ⊢ <;> omega

theorem or_six (k : ℕ) (hk : k < 16) (c : Byte) :
    (Int32.ofNat (k * 4) ||| promote c >>> 6).toInt =
      if c.toNat < 128 then (k * 4 + c.toNat / 64 : ℤ) else c.toNat / 64 - 4 := by
  have hc := c.toNat_lt
  obtain ⟨l, hl, hlow⟩ : ∃ l : ℕ, l < 4 ∧ (promote c >>> 6).toInt = (l - 2 : ℤ) := by
    refine ⟨((promote c >>> 6).toInt + 2).toNat, ?_, ?_⟩ <;> rw [shift_six] <;> split_ifs <;> omega
  have hbits : promote c >>> 6 = Int32.ofInt (l - 2 : ℤ) := by rw [← hlow, Int32.ofInt_toInt]
  have hshift := shift_six c
  rw [hlow] at hshift
  rw [hbits, or_low_bits.2 k hk l hl]
  split_ifs at hshift ⊢ <;> omega

def digit (d : ℕ) : Byte := base64digits.getD d nul

theorem digitAt_neg {i : Int32} (h : i.toInt < 0) : digitAt i = .error .pastEnd := by
  rw [digitAt, if_neg (by omega)]

theorem digitAt_nat {i : Int32} {n : ℕ} (h : i.toInt = n) (hn : n < 64) :
    digitAt i = .ok (digit n) := by
  have hlen : base64digits.length = 65 := by decide
  rw [digitAt, if_pos (by omega), h, Int.toNat_natCast, digit]

theorem digits_letter : ∀ d < 64,
    append1 (digit d) = [digit d] ∧ (digit d = letter d ↔ d < 62) := by
  decide +kernel

end Bits

section Groups

theorem shr_two (a : Byte) : (a >>> 2).toNat = a.toNat / 4 := by
  simp [UInt8.toNat_shiftRight, Nat.shiftRight_eq_div_pow]

theorem shr_four (a : Byte) : (a >>> 4).toNat = a.toNat / 16 := by
  simp [UInt8.toNat_shiftRight, Nat.shiftRight_eq_div_pow]

theorem shr_six (a : Byte) : (a >>> 6).toNat = a.toNat / 64 := by
  simp [UInt8.toNat_shiftRight, Nat.shiftRight_eq_div_pow]

theorem two_bits (a : Byte) : ((a &&& 3) <<< 4).toNat = a.toNat % 4 * 16 := by
  have hand : a.toNat &&& 3 = a.toNat % 4 := Nat.and_two_pow_sub_one_eq_mod a.toNat 2
  have hmod : a.toNat % 4 * 16 % 256 = a.toNat % 4 * 16 := Nat.mod_eq_of_lt (by omega)
  rw [UInt8.toNat_shiftLeft, UInt8.toNat_and, show (3 : Byte).toNat = 3 from rfl, hand,
    Nat.shiftLeft_eq]
  exact hmod

theorem four_bits (b : Byte) : ((b &&& 0xf) <<< 2).toNat = b.toNat % 16 * 4 := by
  have hand : b.toNat &&& 15 = b.toNat % 16 := Nat.and_two_pow_sub_one_eq_mod b.toNat 4
  have hmod : b.toNat % 16 * 4 % 256 = b.toNat % 16 * 4 := Nat.mod_eq_of_lt (by omega)
  rw [UInt8.toNat_shiftLeft, UInt8.toNat_and, show (0xf : Byte).toNat = 15 from rfl, hand,
    Nat.shiftLeft_eq]
  exact hmod

theorem six_bits (c : Byte) : (c &&& 0x3f).toNat = c.toNat % 64 := by
  rw [UInt8.toNat_and]
  exact Nat.and_two_pow_sub_one_eq_mod c.toNat 6

theorem or_low (k : ℕ) {l n : ℕ} (hl : l < 2 ^ n) : k * 2 ^ n ||| l = k * 2 ^ n + l := by
  rw [← Nat.shiftLeft_eq, Nat.shiftLeft_add_eq_or_of_lt hl]

theorem second_index (a b : Byte) :
    ((a &&& 3) <<< 4 ||| b >>> 4).toNat = a.toNat % 4 * 16 + b.toNat / 16 := by
  have hb := b.toNat_lt
  rw [UInt8.toNat_or, two_bits, shr_four]
  exact or_low (n := 4) _ (by omega)

theorem third_index (b c : Byte) :
    ((b &&& 0xf) <<< 2 ||| c >>> 6).toNat = b.toNat % 16 * 4 + c.toNat / 64 := by
  have hc := c.toNat_lt
  rw [UInt8.toNat_or, four_bits, shr_six]
  exact or_low (n := 2) _ (by omega)

theorem group_eq (n : ℕ) (a b c : Byte) : group n a b c =
    [letter (a.toNat / 4), letter (a.toNat % 4 * 16 + b.toNat / 16),
      if n < 2 then pad else letter (b.toNat % 16 * 4 + c.toNat / 64),
      if n < 3 then pad else letter (c.toNat % 64)] := by
  simp only [group, shr_two, second_index, third_index, six_bits]
  rfl

theorem groups_encode (s : Str) : groups s = encode s := by
  induction s using groups.induct with
  | case1 a b c rest ih =>
    rw [groups, ih, encode_three, group_eq]
    rfl
  | case2 a b =>
    rw [groups, encode_two, group_eq]
    rfl
  | case3 a =>
    rw [groups, encode_one, group_eq]
    rfl
  | case4 => rfl

theorem base64_encode_eq {s : Str} (h : s ≠ []) : base64_encode s = some (encode s) := by
  rw [base64_encode, if_neg h, groups_encode]

end Groups

section Loop

variable {a b c : Byte} {rest : Str}

theorem cw_loop_high (h : ¬ (a.toNat < 128 ∧ b.toNat < 128 ∧ c.toNat < 128)) :
    ∃ f, cw_loop (a :: b :: c :: rest) = .error f := by
  have ha := a.toNat_lt
  have hb := b.toNat_lt
  have hc := c.toNat_lt
  rw [cw_loop, high_two, high_four]
  cases hw : digitAt (promote a >>> 2) with
  | error f => exact ⟨f, rfl⟩
  | ok w =>
    have ha' : a.toNat < 128 := by
      by_contra hneg
      have hi := shift_two a
      rw [if_neg hneg] at hi
      rw [digitAt_neg (by omega)] at hw
      exact nomatch hw
    cases hx : digitAt (Int32.ofNat (a.toNat % 4 * 16) ||| promote b >>> 4) with
    | error f => exact ⟨f, rfl⟩
    | ok x =>
      have hb' : b.toNat < 128 := by
        by_contra hneg
        have hi := or_four (a.toNat % 4) (by omega) b
        rw [if_neg hneg] at hi
        rw [digitAt_neg (by omega)] at hx
        exact nomatch hx
      have hc' : ¬ c.toNat < 128 := fun hc' => h ⟨ha', hb', hc'⟩
      have hi := or_six (b.toNat % 16) (by omega) c
      rw [if_neg hc'] at hi
      rw [digitAt_neg (i := Int32.ofNat (b.toNat % 16 * 4) ||| promote c >>> 6) (by omega)]
      exact ⟨.pastEnd, rfl⟩

theorem cw_loop_low (ha : a.toNat < 128) (hb : b.toNat < 128) (hc : c.toNat < 128) :
    cw_loop (a :: b :: c :: rest) = (cw_loop rest).map ([digit (a.toNat / 4),
      digit (a.toNat % 4 * 16 + b.toNat / 16), digit (b.toNat % 16 * 4 + c.toNat / 64),
      digit (c.toNat % 64)] ++ ·) := by
  have hw := shift_two a
  have hx := or_four (a.toNat % 4) (by omega) b
  have hy := or_six (b.toNat % 16) (by omega) c
  have hz := low_six c
  rw [if_pos ha] at hw
  rw [if_pos hb] at hx
  rw [if_pos hc] at hy
  rw [cw_loop, high_two, high_four,
    digitAt_nat (n := a.toNat / 4) (by omega) (by omega),
    digitAt_nat (n := a.toNat % 4 * 16 + b.toNat / 16) (by omega) (by omega),
    digitAt_nat (n := b.toNat % 16 * 4 + c.toNat / 64) (by omega) (by omega),
    digitAt_nat (n := c.toNat % 64) (by omega) (by omega)]
  have h1 := (digits_letter (a.toNat / 4) (by omega)).1
  have h2 := (digits_letter (a.toNat % 4 * 16 + b.toNat / 16) (by omega)).1
  have h3 := (digits_letter (b.toNat % 16 * 4 + c.toNat / 64) (by omega)).1
  have h4 := (digits_letter (c.toNat % 64) (by omega)).1
  cases hr : cw_loop rest with
  | error f => rfl
  | ok out =>
    simp only [Except.map, bind, Except.bind, pure, Except.pure, h1, h2, h3, h4]
    rfl

theorem common_three : Common (a :: b :: c :: rest) ↔
    (a.toNat < 128 ∧ b.toNat < 128 ∧ c.toNat < 128) ∧
      (a.toNat / 4 < 62 ∧ a.toNat % 4 * 16 + b.toNat / 16 < 62 ∧
        b.toNat % 16 * 4 + c.toNat / 64 < 62 ∧ c.toNat % 64 < 62) ∧ Common rest := by
  have hlen : (a :: b :: c :: rest).length % 3 = rest.length % 3 := by
    simp only [List.length_cons]
    omega
  simp only [Common, hlen, sextets, List.forall_mem_cons]
  tauto

theorem bind_ok {α β : Type} {x : Except Fault α} {f : α → Except Fault β} {r : β}
    (h : x >>= f = .ok r) : ∃ v, x = .ok v ∧ f v = .ok r := by
  cases x with
  | error e => exact nomatch h
  | ok v => exact ⟨v, rfl, h⟩

theorem last_differs {t : Str} {w x y : Byte} (h : t ++ bytes "-" = [w, x, y, pad]) : False := by
  have hb : bytes "-" = [45] := by decide
  have hp : pad ≠ 45 := by decide
  have hl := congrArg List.getLast? h
  rw [hb, List.getLast?_append] at hl
  exact hp (Option.some.inj hl).symm

theorem four_letters {w x y z : ℕ} {out t : Str} (hw : w < 64) (hx : x < 64) (hy : y < 64)
    (hz : z < 64) :
    [digit w, digit x, digit y, digit z] ++ out = letter w :: letter x :: letter y :: letter z :: t ↔
      (w < 62 ∧ x < 62 ∧ y < 62 ∧ z < 62) ∧ out = t := by
  simp only [List.cons_append, List.nil_append, List.cons.injEq, (digits_letter w hw).2,
    (digits_letter x hx).2, (digits_letter y hy).2, (digits_letter z hz).2]
  tauto

/-- The result is that of the RFC exactly for a text that both write alike. -/
theorem cw_loop_iff (s : Str) : cw_loop s = .ok (encode s) ↔ Common s := by
  induction s using cw_loop.induct with
  | case1 a b c rest ih =>
    have hc6 := c.toNat_lt
    rw [common_three, ← ih, encode_three]
    by_cases hlow : a.toNat < 128 ∧ b.toNat < 128 ∧ c.toNat < 128
    · obtain ⟨ha, hb, hc⟩ := hlow
      rw [cw_loop_low ha hb hc]
      cases hr : cw_loop rest with
      | error f => exact iff_of_false (fun h => nomatch h) fun h => nomatch h.2.2
      | ok out =>
        rw [Except.map, Except.ok.injEq, Except.ok.injEq,
          four_letters (by omega) (by omega) (by omega) (by omega)]
        exact ⟨fun h => ⟨⟨ha, hb, hc⟩, h⟩, fun h => h.2⟩
    · obtain ⟨f, hf⟩ : ∃ f, cw_loop (a :: b :: c :: rest) = .error f := cw_loop_high hlow
      rw [hf]
      exact iff_of_false (fun h => nomatch h) fun h => hlow h.1
  | case2 a b =>
    refine iff_of_false ?_ fun h => absurd h.1 (by simp)
    intro h
    rw [cw_loop, encode_two] at h
    obtain ⟨w, -, h⟩ := bind_ok h
    obtain ⟨x, -, h⟩ := bind_ok h
    obtain ⟨y, -, h⟩ := bind_ok h
    exact last_differs (t := append1 w ++ append1 x ++ append1 y) (Except.ok.inj h)
  | case3 a =>
    refine iff_of_false ?_ fun h => absurd h.1 (by simp)
    intro h
    rw [cw_loop, encode_one] at h
    obtain ⟨w, -, h⟩ := bind_ok h
    obtain ⟨x, -, h⟩ := bind_ok h
    exact last_differs (t := append1 w ++ append1 x ++ bytes "-") (Except.ok.inj h)
  | case4 => exact iff_of_true rfl ⟨rfl, by simp, by simp [sextets]⟩

end Loop

/-- The credentials go through the line of a text that both encoders write alike. -/
theorem credentials_basicLine {field user passwd s : Str} (hs : s = user ++ bytes ":" ++ passwd)
    (hok : cw_base64_encode s = .ok (encode s)) :
    ∃ line, basicLine field user passwd = .ok line ∧ credentials field line = some s := by
  refine ⟨field ++ bytes ": Basic " ++ encode s ++ [cr, lf], ?_, ?_⟩
  · rw [basicLine, ← hs, hok]
    rfl
  · have hpre : field ++ bytes ": Basic " <+: field ++ bytes ": Basic " ++ encode s ++ [cr, lf] := by
      rw [List.append_assoc]
      exact List.prefix_append _ _
    have hcr : ∀ c ∈ encode s, decide (c ≠ cr) = true := by
      intro c hc
      simp only [encode, List.mem_append, List.mem_map, List.mem_replicate] at hc
      rcases hc with ⟨d, hd, rfl⟩ | ⟨-, rfl⟩
      · have hne : ∀ d < 64, decide (letter d ≠ cr) = true := by decide +kernel
        exact hne d (sextets_lt s d hd)
      · decide
    have htake : (encode s ++ [cr, lf]).takeWhile (· ≠ cr) = encode s := by
      rw [List.takeWhile_append_of_pos hcr]
      simp
    simp only [credentials, if_pos hpre]
    rw [List.append_assoc _ (encode s), List.drop_left, htake, decode_encode]

/-- The credentials are what the RFC says exactly for texts of whole groups, of characters
below 128, without the two sextets for which connwrap has its own characters. -/
theorem standard_iff (s : Str) (hne : s ≠ []) (hnul : nul ∉ s) : Standard s ↔ Common s := by
  have hcw : cw_base64_encode s = .ok (encode s) ↔ Common s := by
    rw [cw_base64_encode, cstr_eq_self hnul, cw_loop_iff]
  constructor
  · intro h
    exact hcw.mp h.1
  · intro h
    have hok := hcw.mpr h
    refine ⟨hok, base64_encode_eq hne, ?_⟩
    intro user passwd hs
    exact ⟨credentials_basicLine hs hok, credentials_basicLine hs hok⟩

theorem standard_joe : Standard (bytes "joe:secret12") :=
  (standard_iff (bytes "joe:secret12") (by decide) (by decide)).mpr (by decide +kernel)

/-- Padding is written as minus signs. -/
theorem not_standard : ¬ Standard (bytes "me:pw") := by
  intro h
  exact absurd ((standard_iff _ (by decide) (by decide)).mp h) (by decide)

end CenterIM.BasicAuth
