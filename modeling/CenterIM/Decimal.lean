import CenterIM.ByteText

/-!
# Numbers as the C library writes and scans them

Decimal output of the standard streams and of `%d`, and the scanners `strtoul`,
`strtol` and `atoi` of a 64-bit C library, with the round trips between them.
-/
namespace CenterIM.Decimal
open ByteText

def isspace (c : Byte) : Bool := c == blank || (9 ≤ c && c ≤ 13)

def isdigit (c : Byte) : Bool := 48 ≤ c && c ≤ 57

/-- The value of a digit in the largest base; other characters count as no digit. -/
def digitValue (c : Byte) : ℕ :=
  if isdigit c then c.toNat - 48
  else if 97 ≤ c && c ≤ 122 then c.toNat - 87
  else if 65 ≤ c && c ≤ 90 then c.toNat - 55
  else 36

def digit (d : ℕ) : Byte := UInt8.ofNat (48 + d)

def decimal (n : ℕ) : Str := if n = 0 then [digit 0] else ((Nat.digits 10 n).map digit).reverse

def decimalInt (i : ℤ) : Str := if i < 0 then 45 :: decimal i.natAbs else decimal i.natAbs

def leadingNumber (base : ℕ) (s : Str) : ℕ :=
  (s.takeWhile fun c => decide (digitValue c < base)).foldl (fun n c => n * base + digitValue c) 0

def scanSign (s : Str) : Bool × Str :=
  match s.dropWhile isspace with
  | 45 :: t => (true, t)
  | 43 :: t => (false, t)
  | t => (false, t)

/-- Base 0 of the scanners: `0x` means 16, another leading zero 8, anything else 10. -/
def autoBase (s : Str) : ℕ × Str :=
  match s with
  | 48 :: x :: d :: t =>
    if (x == 120 || x == 88) && digitValue d < 16 then (16, d :: t) else (8, s)
  | 48 :: _ => (8, s)
  | _ => (10, s)

/-- `strtoul(s, 0, 0)`: saturates at the largest value, and negates in 64 bits. -/
def strtoul (s : Str) : UInt64 :=
  let (neg, t) := scanSign s
  let (base, u) := autoBase t
  let n := leadingNumber base u
  if 2 ^ 64 ≤ n then UInt64.ofNat (2 ^ 64 - 1)
  else if neg then 0 - UInt64.ofNat n
  else UInt64.ofNat n

/-- `strtol(s, 0, 10)`, saturating at the ends of the 64-bit range. -/
def strtol (s : Str) : ℤ :=
  let (neg, t) := scanSign s
  let n := leadingNumber 10 t
  if neg then max (-(n : ℤ)) (-2 ^ 63) else min (n : ℤ) (2 ^ 63 - 1)

/-- `atoi`: the 64-bit scan truncated to 32 bits. -/
def atoi (s : Str) : Int32 := Int32.ofInt (strtol s)

theorem digit_toNat {d : ℕ} (h : d < 10) : (digit d).toNat = 48 + d := by
  simp only [digit, UInt8.toNat_ofNat']
  omega

theorem isdigit_iff (c : Byte) : isdigit c = true ↔ 48 ≤ c.toNat ∧ c.toNat ≤ 57 := by
  simp [isdigit, UInt8.le_iff_toNat_le]

theorem isspace_iff (c : Byte) : isspace c = true ↔ c.toNat = 32 ∨ (9 ≤ c.toNat ∧ c.toNat ≤ 13) := by
  simp [isspace, blank, UInt8.le_iff_toNat_le, ← UInt8.toNat_inj]

theorem isdigit_digit {d : ℕ} (h : d < 10) : isdigit (digit d) = true := by
  rw [isdigit_iff, digit_toNat h]
  omega

theorem digitValue_digit {d : ℕ} (h : d < 10) : digitValue (digit d) = d := by
  simp only [digitValue, isdigit_digit h, if_true, digit_toNat h]
  omega

theorem decimal_ne_nil (n : ℕ) : decimal n ≠ [] := by
  unfold decimal
  split_ifs with h
  · simp
  · simpa [Nat.digits_eq_nil_iff_eq_zero] using h

theorem mem_decimal {n : ℕ} {c : Byte} (h : c ∈ decimal n) : ∃ d < 10, c = digit d := by
  unfold decimal at h
  split_ifs at h with hn
  · exact ⟨0, by omega, by simpa using h⟩
  · simp only [List.mem_reverse, List.mem_map] at h
    obtain ⟨d, hd, rfl⟩ := h
    exact ⟨d, Nat.digits_lt_base (by omega) hd, rfl⟩

theorem isdigit_of_mem_decimal {n : ℕ} {c : Byte} (h : c ∈ decimal n) : isdigit c = true := by
  obtain ⟨d, hd, rfl⟩ := mem_decimal h
  exact isdigit_digit hd

theorem digitValue_lt_of_isdigit {c : Byte} (h : isdigit c = true) : digitValue c < 10 := by
  have hc := (isdigit_iff c).mp h
  simp only [digitValue, h, if_true]
  omega

theorem foldl_digits (base : ℕ) (ds : List ℕ) (h : ∀ d ∈ ds, d < 10) :
    ((ds.map digit).reverse).foldl (fun n c => n * base + digitValue c) 0 = Nat.ofDigits base ds := by
  induction ds with
  | nil => rfl
  | cons d ds ih =>
    have hd := digitValue_digit (h d (by simp))
    have hi := ih (fun e he => h e (by simp [he]))
    simp only [List.map_cons, List.reverse_cons, List.foldl_append, List.foldl_cons,
      List.foldl_nil, hi, hd, Nat.ofDigits_cons]
    ring

theorem leadingNumber_of_digits {base : ℕ} {s : Str}
    (h : ∀ c ∈ s, digitValue c < base) :
    leadingNumber base s = s.foldl (fun n c => n * base + digitValue c) 0 := by
  unfold leadingNumber
  rw [List.takeWhile_eq_self_iff.mpr]
  simpa using h

theorem leadingNumber_decimal (n : ℕ) : leadingNumber 10 (decimal n) = n := by
  rw [leadingNumber_of_digits fun c hc => digitValue_lt_of_isdigit (isdigit_of_mem_decimal hc)]
  unfold decimal
  split_ifs with h
  · subst h
    rfl
  · rw [foldl_digits 10 _ fun d hd => Nat.digits_lt_base (by omega) hd]
    exact Nat.ofDigits_digits 10 n

theorem not_isspace_of_isdigit {c : Byte} (h : isdigit c = true) : isspace c = false := by
  have hc := (isdigit_iff c).mp h
  rw [Bool.eq_false_iff, Ne, isspace_iff]
  omega

theorem decimal_cons (n : ℕ) : ∃ c t, decimal n = c :: t ∧ isdigit c = true := by
  cases h : decimal n with
  | nil => exact absurd h (decimal_ne_nil n)
  | cons c t => exact ⟨c, t, rfl, isdigit_of_mem_decimal (n := n) (by simp [h])⟩

theorem scanSign_digit {c : Byte} (hc : isdigit c = true) (t : Str) :
    scanSign (c :: t) = (false, c :: t) := by
  have hn := (isdigit_iff c).mp hc
  have hs := not_isspace_of_isdigit hc
  unfold scanSign
  rw [List.dropWhile_cons_of_neg (by simp [hs])]
  split
  · simp_all
  · simp_all
  · rfl

theorem scanSign_decimal (n : ℕ) : scanSign (decimal n) = (false, decimal n) := by
  obtain ⟨c, t, h, hc⟩ := decimal_cons n
  rw [h, scanSign_digit hc]

theorem scanSign_minus (s : Str) : scanSign (45 :: s) = (true, s) := by
  have hs : isspace 45 = false := by decide
  simp [scanSign, hs]

theorem decimal_head {n : ℕ} (hn : n ≠ 0) {c : Byte} {t : Str} (h : decimal n = c :: t) : c ≠ 48 := by
  simp only [decimal, hn, if_false] at h
  have hne : Nat.digits 10 n ≠ [] := Nat.digits_ne_nil_iff_ne_zero.mpr hn
  have hl := Nat.getLast_digit_ne_zero 10 hn
  have hlt : (Nat.digits 10 n).getLast hne < 10 :=
    Nat.digits_lt_base (by omega) (List.getLast_mem hne)
  have hh : c = digit ((Nat.digits 10 n).getLast hne) := by
    have hg := congrArg List.head? h
    simp only [List.head?_reverse, List.getLast?_map, List.head?_cons] at hg
    rw [List.getLast?_eq_some_getLast hne] at hg
    simpa using hg.symm
  intro he
  have ht := digit_toNat hlt
  rw [← hh, he] at ht
  simp at ht
  omega

theorem autoBase_decimal {n : ℕ} (hn : n ≠ 0) : autoBase (decimal n) = (10, decimal n) := by
  obtain ⟨c, t, h, -⟩ := decimal_cons n
  have hc := decimal_head hn h
  rw [h]
  unfold autoBase
  split
  · simp_all
  · simp_all
  · rfl

theorem leadingNumber_autoBase (n : ℕ) :
    leadingNumber (autoBase (decimal n)).1 (autoBase (decimal n)).2 = n := by
  by_cases hn : n = 0
  · subst hn
    rfl
  · rw [autoBase_decimal hn]
    exact leadingNumber_decimal n

theorem strtoul_decimal {n : ℕ} (h : n < 2 ^ 64) : strtoul (decimal n) = UInt64.ofNat n := by
  simp only [strtoul, scanSign_decimal, leadingNumber_autoBase, if_neg (not_le.mpr h),
    Bool.false_eq_true, if_false]

theorem strtoul_minus {n : ℕ} (h : n < 2 ^ 64) :
    strtoul (45 :: decimal n) = 0 - UInt64.ofNat n := by
  simp only [strtoul, scanSign_minus, leadingNumber_autoBase, if_neg (not_le.mpr h), if_true]

theorem not_mem_decimalInt {c : Byte} (hc : isdigit c = false) (hm : c ≠ 45) (i : ℤ) :
    c ∉ decimalInt i := by
  have hd : ∀ n, c ∉ decimal n := fun n h => by
    simp [isdigit_of_mem_decimal h] at hc
  unfold decimalInt
  split_ifs
  · simpa [hm] using hd _
  · exact hd _

theorem decimalInt_plain (i : ℤ) : Plain (decimalInt i) :=
  ⟨not_mem_decimalInt (by decide) (by decide) i, not_mem_decimalInt (by decide) (by decide) i⟩

/-- A 64-bit signed number survives being written and scanned back as unsigned. -/
theorem strtoul_decimalInt (t : Int64) : strtoul (decimalInt t.toInt) = t.toUInt64 := by
  have hlo := t.le_toInt
  have hhi := t.toInt_lt
  conv_rhs => rw [← Int64.ofInt_toInt t]
  unfold decimalInt
  split_ifs with hneg
  · rw [strtoul_minus (by omega)]
    have hn : t.toInt = -(t.toInt.natAbs : ℤ) := by omega
    conv_rhs => rw [hn, Int64.ofInt_neg, Int64.toUInt64_neg, Int64.ofInt_eq_ofNat]
    simp
  · rw [strtoul_decimal (by omega)]
    have hn : t.toInt = (t.toInt.natAbs : ℤ) := by omega
    conv_rhs => rw [hn, Int64.ofInt_eq_ofNat]
    rfl

theorem strtol_decimalInt {i : ℤ} (hlo : -2 ^ 63 ≤ i) (hhi : i < 2 ^ 63) :
    strtol (decimalInt i) = i := by
  unfold decimalInt
  split_ifs with hneg
  · simp only [strtol, scanSign_minus, leadingNumber_decimal, if_true]
    omega
  · simp only [strtol, scanSign_decimal, leadingNumber_decimal, Bool.false_eq_true, if_false]
    omega

theorem atoi_decimalInt (i : Int32) : atoi (decimalInt i.toInt) = i := by
  have hlo := i.le_toInt
  have hhi := i.toInt_lt
  rw [atoi, strtol_decimalInt (by omega) (by omega)]
  exact Int32.ofInt_toInt i

theorem decimalInt_natCast (n : ℕ) : decimalInt n = decimal n := by
  have h : ¬(n : ℤ) < 0 := by omega
  rw [decimalInt, if_neg h, Int.natAbs_natCast]

theorem atoi_decimal {n : ℕ} (hn : n < 2 ^ 63) : atoi (decimal n) = Int32.ofNat n := by
  rw [← decimalInt_natCast, atoi, strtol_decimalInt (by omega) (by omega), Int32.ofInt_eq_ofNat]

end CenterIM.Decimal
