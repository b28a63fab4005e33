import CenterIM.Decimal

/-!
# String routines of kkstrtext

The number formatter, the word splitter and the MIME escaping that the file formats of
the program are built from, and the case mapping used to compare nicknames. Characters
are compared and mapped as in the C locale.
-/
namespace CenterIM.StrText
open ByteText Decimal

/-- What a C++ routine does instead of returning: it leaves its string, uses a variable
it has not set, gets an out-of-range exception, or follows a null pointer. -/
inductive Fault
  | pastEnd
  | uninitialised
  | outOfRange
  | nullDeref
  deriving DecidableEq, Repr

/-- `i2str(i)`. -/
def i2str (i : Int32) : Str := decimalInt i.toInt

/-- What `snprintf` leaves of a text in a buffer of this size. -/
def snprintf (size : ℕ) (s : Str) : Str := s.take (size - 1)

/-- `leadcut(base, delim)`. -/
def leadcut (base delim : Str) : Str := base.dropWhile (· ∈ delim)

/-- The delimiters that `getword` takes when none are given. -/
def wordDelim : Str := [tab, lf, cr, blank]

/-- Does `strchr(delim, c)` find nothing? It looks at the terminating NUL too. -/
def inWord (delim : Str) (c : Byte) : Bool := decide (c ∉ delim ∧ c ≠ nul)

/-- `getword(base, delim)`: the word, and what is left in `base`. -/
def getword (base delim : Str) : Str × Str :=
  let base := leadcut base delim
  let sub := base.takeWhile (inWord delim)
  let rest := base.drop sub.length
  (sub, if rest = [] then [] else leadcut rest delim)

/-- `trailcut(base, delim)`. -/
def trailcut (base delim : Str) : Str := base.rdropWhile (· ∈ delim)

/-- `getrword(base, delim)`: the last word and what is left in front of it. -/
def getrword (base delim : Str) : Str × Str :=
  let base := trailcut base delim
  let sub := base.rtakeWhile (inWord delim)
  let rest :=
    if sub.length = base.length then base
    else trailcut (base.take (base.length - sub.length - 1)) delim
  (sub, if sub = rest then [] else rest)

def wordsLoop : ℕ → Str → List Str
  | 0, _ => []
  | n + 1, base =>
    let (buf, base) := getword base wordDelim
    if buf = [] then [] else buf :: wordsLoop n base

/-- `s.rfind(c)`. -/
def rfind (c : Byte) : Str → Option ℕ
  | [] => none
  | d :: s =>
    match rfind c s with
    | some i => some (i + 1)
    | none => if d = c then some 0 else none

def toupper (c : Byte) : Byte := if 97 ≤ c && c ≤ 122 then c - 32 else c

def tolower (c : Byte) : Byte := if 65 ≤ c && c ≤ 90 then c + 32 else c

/-- `up(s)`. -/
def up (s : Str) : Str := s.map toupper

/-- `lo(s)`. -/
def lo (s : Str) : Str := s.map tolower

/-- `stripspaces(s)`. -/
def stripspaces (s : Str) : Str := s.filter (· ≠ blank)

/-- One hexadecimal digit as `mime` writes it. -/
def hexDigit (c : Byte) : Byte := if 9 < c then 65 + c - 10 else 48 + c

def isalnum (c : Byte) : Bool :=
  (97 ≤ c && c ≤ 122) || (65 ≤ c && c ≤ 90) || (48 ≤ c && c ≤ 57)

/-- What `mime` writes for one character. -/
def mimeByte (c : Byte) : Str :=
  if isalnum c then [c]
  else if c ≠ blank then [37, hexDigit (c >>> 4 &&& 15), hexDigit (c &&& 15)]
  else [43]

/-- `mime(text)`. -/
def mime (text : Str) : Str := (cstr text).flatMap mimeByte

/-- `sscanf(s, "%2x", &htm)`: the byte that the number leaves in a `char`. -/
def scanHex2 (s : Str) : Option Byte :=
  let field := (s.dropWhile isspace).take 2
  let (neg, digits) : Bool × Str :=
    match field with
    | 45 :: t => (true, t)
    | 43 :: t => (false, t)
    | t => (false, t)
  let digits := digits.takeWhile fun c => decide (digitValue c < 16)
  if digits = [] then none
  else
    let v := UInt8.ofNat (leadingNumber 16 digits)
    some (if neg then 0 - v else v)

/-- The loop of `unmime`; `htm` is its variable of that name, unset at first. -/
def unmimeLoop (htm : Option Byte) : Str → Except Fault Str
  | [] => .ok []
  | c :: s =>
    if c = 43 then (unmimeLoop htm s).map (blank :: ·)
    else if c = 37 then
      match s with
      | a :: b :: t =>
        match (scanHex2 (a :: b :: t)).or htm with
        | some v => (unmimeLoop (some v) t).map (v :: ·)
        | none => .error .uninitialised
      | _ => .error .pastEnd
    else (unmimeLoop htm s).map (c :: ·)

/-- `unmime(text)`. -/
def unmime (text : Str) : Except Fault Str :=
  (unmimeLoop none (cstr text)).map cstr

theorem rfind_none {c : Byte} {s : Str} : rfind c s = none ↔ c ∉ s := by
  induction s with
  | nil => simp [rfind]
  | cons d s ih =>
    rw [rfind]
    cases h : rfind c s with
    | some i => simp [← ih, h]
    | none =>
      have hs : c ∉ s := ih.mp h
      by_cases hd : d = c
      · simp [hd]
      · have hd' : c ≠ d := fun he => hd he.symm
        simp [hd, hs, hd']

/-- The place that is found holds the character, and no later one does. -/
theorem rfind_some {c : Byte} {s : Str} {i : ℕ} (h : rfind c s = some i) :
    s[i]? = some c ∧ c ∉ s.drop (i + 1) := by
  induction s generalizing i with
  | nil => cases h
  | cons d s ih =>
    rw [rfind] at h
    cases hs : rfind c s with
    | some j =>
      rw [hs] at h
      obtain rfl := Option.some.inj h
      exact ih hs
    | none =>
      rw [hs] at h
      dsimp only at h
      split_ifs at h with hd
      obtain rfl := Option.some.inj h
      exact ⟨by simp [hd], by simpa using rfind_none.mp hs⟩

theorem hexDigit_scan : ∀ d < 16,
    isspace (hexDigit (UInt8.ofNat d)) = false ∧ isalnum (hexDigit (UInt8.ofNat d)) = true ∧
      hexDigit (UInt8.ofNat d) ≠ 45 ∧ hexDigit (UInt8.ofNat d) ≠ 43 ∧
      digitValue (hexDigit (UInt8.ofNat d)) = d := by
  decide

theorem nibbles (c : Byte) : ∃ hi < 16, ∃ lo < 16,
    c >>> 4 &&& 15 = UInt8.ofNat hi ∧ c &&& 15 = UInt8.ofNat lo ∧
      UInt8.ofNat (hi * 16 + lo) = c := by
  have hlt := c.toNat_lt
  refine ⟨c.toNat / 16, by omega, c.toNat % 16, by omega, ?_, ?_, ?_⟩
  · apply UInt8.toNat_inj.mp
    have h : c.toNat / 16 &&& 15 = c.toNat / 16 % 16 := Nat.and_two_pow_sub_one_eq_mod _ 4
    have hs : (c >>> 4 &&& 15).toNat = c.toNat / 16 &&& 15 := by
      simp [UInt8.toNat_and, UInt8.toNat_shiftRight, Nat.shiftRight_eq_div_pow]
    rw [hs, h, UInt8.toNat_ofNat']
    omega
  · apply UInt8.toNat_inj.mp
    have h : c.toNat &&& 15 = c.toNat % 16 := Nat.and_two_pow_sub_one_eq_mod _ 4
    have hs : (c &&& 15).toNat = c.toNat &&& 15 := by simp [UInt8.toNat_and]
    rw [hs, h, UInt8.toNat_ofNat']
    omega
  · apply UInt8.toNat_inj.mp
    rw [UInt8.toNat_ofNat']
    omega

/-- `mime` leaves letters and digits, `+`, and `%` before an escape. -/
theorem mimeByte_chars (c : Byte) : ∀ d ∈ mimeByte c, isalnum d = true ∨ d = 43 ∨ d = 37 := by
  obtain ⟨hi, hi16, lo, lo16, hh, hl, -⟩ := nibbles c
  have hhi := (hexDigit_scan hi hi16).2.1
  have hlo := (hexDigit_scan lo lo16).2.1
  intro d hd
  unfold mimeByte at hd
  rw [hh, hl] at hd
  split_ifs at hd with ha hb
  · exact Or.inl (by rwa [List.mem_singleton.mp hd])
  · simp only [List.mem_cons, List.not_mem_nil, or_false] at hd
    rcases hd with rfl | rfl | rfl
    · exact Or.inr (Or.inr rfl)
    · exact Or.inl hhi
    · exact Or.inl hlo
  · exact Or.inr (Or.inl (List.mem_singleton.mp hd))

theorem scanHex2_hexDigit (c : Byte) :
    isspace (hexDigit (c >>> 4 &&& 15)) = false ∧
      scanHex2 [hexDigit (c >>> 4 &&& 15), hexDigit (c &&& 15)] = some c := by
  obtain ⟨hi, hi16, lo, lo16, hh, hl, hv⟩ := nibbles c
  obtain ⟨hs, -, hm, hp, hd⟩ := hexDigit_scan hi hi16
  obtain ⟨-, -, -, -, he⟩ := hexDigit_scan lo lo16
  rw [hh, hl]
  refine ⟨hs, ?_⟩
  have hdrop : [hexDigit (UInt8.ofNat hi), hexDigit (UInt8.ofNat lo)].dropWhile isspace =
      [hexDigit (UInt8.ofNat hi), hexDigit (UInt8.ofNat lo)] :=
    List.dropWhile_cons_of_neg (by simp [hs])
  simp only [scanHex2, hdrop, List.take_succ_cons, List.take_zero]
  split
  · simp_all
  · simp_all
  · simp [leadingNumber, hd, he, hi16, lo16, hv]

theorem scanHex2_append {a b : Byte} (ha : isspace a = false) (t : Str) :
    scanHex2 (a :: b :: t) = scanHex2 [a, b] := by
  simp [scanHex2, ha]

theorem unmimeLoop_char (htm : Option Byte) {c : Byte} (h43 : c ≠ 43) (h37 : c ≠ 37) (s : Str) :
    unmimeLoop htm (c :: s) = (unmimeLoop htm s).map (c :: ·) := by
  rw [unmimeLoop.eq_def]
  simp [h43, h37]

theorem unmimeLoop_plus (htm : Option Byte) (s : Str) :
    unmimeLoop htm (43 :: s) = (unmimeLoop htm s).map (blank :: ·) := by
  rw [unmimeLoop.eq_def]
  simp

theorem unmimeLoop_escape (htm : Option Byte) {a b v : Byte} (t : Str)
    (h : scanHex2 (a :: b :: t) = some v) :
    unmimeLoop htm (37 :: a :: b :: t) = (unmimeLoop (some v) t).map (v :: ·) := by
  rw [unmimeLoop.eq_def]
  simp [h]

theorem unmimeLoop_mimeByte (htm : Option Byte) (c : Byte) (t : Str) :
    ∃ htm', unmimeLoop htm (mimeByte c ++ t) = (unmimeLoop htm' t).map (c :: ·) := by
  unfold mimeByte
  split_ifs with ha hb
  · have hp : c ≠ 43 ∧ c ≠ 37 := by
      constructor <;> rintro rfl <;> exact absurd ha (by decide)
    exact ⟨htm, unmimeLoop_char htm hp.1 hp.2 t⟩
  · obtain ⟨hs, hv⟩ := scanHex2_hexDigit c
    exact ⟨some c, unmimeLoop_escape htm t (by rw [scanHex2_append hs, hv])⟩
  · obtain rfl := not_not.mp hb
    exact ⟨htm, unmimeLoop_plus htm t⟩

theorem unmimeLoop_flatMap (htm : Option Byte) (s : Str) :
    unmimeLoop htm (s.flatMap mimeByte) = .ok s := by
  induction s generalizing htm with
  | nil => rfl
  | cons c s ih =>
    obtain ⟨htm', h⟩ := unmimeLoop_mimeByte htm c (s.flatMap mimeByte)
    rw [List.flatMap_cons, h, ih]
    rfl

theorem mime_chars {s : Str} {d : Byte} (h : d ∈ mime s) : isalnum d = true ∨ d = 43 ∨ d = 37 := by
  obtain ⟨c, -, hd⟩ := List.mem_flatMap.mp h
  exact mimeByte_chars c d hd

theorem not_mem_mime {d : Byte} (hd : isalnum d = false) (h43 : d ≠ 43) (h37 : d ≠ 37) (s : Str) :
    d ∉ mime s := by
  intro h
  rcases mime_chars h with h | h | h
  · simp [hd] at h
  · exact h43 h
  · exact h37 h

theorem mime_plain (s : Str) : Plain (mime s) :=
  ⟨not_mem_mime (by decide) (by decide) (by decide) s,
    not_mem_mime (by decide) (by decide) (by decide) s⟩

theorem mime_eq_nil_iff {s : Str} (hs : nul ∉ s) : mime s = [] ↔ s = [] := by
  rw [mime, cstr_eq_self hs, List.flatMap_eq_nil_iff]
  constructor
  · intro h
    cases s with
    | nil => rfl
    | cons c s =>
      have hc := h c (by simp)
      unfold mimeByte at hc
      split_ifs at hc
  · rintro rfl
    simp

/-- Unescaping an escaped text gives the text, whatever its characters. -/
theorem unmime_mime {s : Str} (hs : nul ∉ s) : unmime (mime s) = .ok s := by
  rw [unmime, cstr_eq_self (mime_plain s).2, mime, cstr_eq_self hs, unmimeLoop_flatMap]
  exact congrArg Except.ok (cstr_eq_self hs)

theorem leadcut_word {w delim : Str} (hw : ∀ c ∈ w, inWord delim c = true) (hne : w ≠ [])
    (rest : Str) : leadcut (w ++ rest) delim = w ++ rest := by
  cases w with
  | nil => exact absurd rfl hne
  | cons c w =>
    have hc := hw c (by simp)
    simp only [inWord, decide_eq_true_eq] at hc
    exact List.dropWhile_cons_of_neg (by simpa using hc.1)

theorem getword_leadcut (s delim : Str) : getword (leadcut s delim) delim = getword s delim := by
  have hidem : leadcut (leadcut s delim) delim = leadcut s delim := List.dropWhile_idempotent _ s
  simp only [getword, hidem]

theorem getword_word {w r delim : Str} {d : Byte} (hw : ∀ c ∈ w, inWord delim c = true)
    (hne : w ≠ []) (hd : d ∈ delim) :
    getword (w ++ d :: r) delim = (w, leadcut r delim) := by
  have hin : inWord delim d = false := by simp [inWord, hd]
  have htake : (w ++ d :: r).takeWhile (inWord delim) = w := by
    rw [List.takeWhile_append_of_pos hw, List.takeWhile_cons_of_neg (by simp [hin]),
      List.append_nil]
  have hcut : leadcut (d :: r) delim = leadcut r delim :=
    List.dropWhile_cons_of_pos (by simpa using hd)
  simp only [getword, leadcut_word hw hne, htake, List.drop_left, hcut]
  simp

theorem getword_last {w delim : Str} (hw : ∀ c ∈ w, inWord delim c = true) (hne : w ≠ []) :
    getword w delim = (w, []) := by
  have hlead := leadcut_word hw hne []
  rw [List.append_nil] at hlead
  simp only [getword, hlead, List.takeWhile_eq_self_iff.mpr hw, List.drop_length]
  simp

/-- A text that the word splitter leaves as it is. -/
def Kept (s : Str) : Prop := nul ∉ s ∧ ∀ c, s.head? = some c → c ∉ wordDelim

theorem leadcut_head (s delim : Str) (c : Byte) (h : (leadcut s delim).head? = some c) :
    c ∉ delim := by
  have hp := List.head?_dropWhile_not (· ∈ delim) s
  rw [leadcut] at h
  rw [h] at hp
  simpa using hp

theorem leadcut_subset (s delim : Str) : leadcut s delim ⊆ s :=
  (List.dropWhile_suffix _).subset

theorem getword_kept {buf : Str} (h : nul ∉ buf) : Kept (getword buf wordDelim).2 := by
  have hrest : ∀ s : Str, nul ∉ s → Kept (if s = [] then [] else leadcut s wordDelim) := by
    intro s hs
    split_ifs
    · exact ⟨List.not_mem_nil, by simp⟩
    · exact ⟨fun hm => hs (leadcut_subset _ _ hm), fun c hc => leadcut_head _ _ c hc⟩
  refine hrest _ fun hm => h ?_
  exact leadcut_subset _ _ (List.mem_of_mem_drop hm)

instance (s : Str) : Decidable (Kept s) :=
  inferInstanceAs (Decidable (nul ∉ s ∧ ∀ c ∈ s.head?, c ∉ wordDelim))

/-- Looking at the first character alone, which is quicker than looking at every character. -/
theorem kept_iff {s : Str} :
    Kept s ↔ nul ∉ s ∧ (s.head?.all fun c => decide (c ∉ wordDelim)) = true := by
  rw [Kept]
  cases s with
  | nil => simp
  | cons c s => simp

theorem getword_subset (buf : Str) : (getword buf wordDelim).1 ⊆ buf := fun _ hc =>
  leadcut_subset _ _ ((List.takeWhile_prefix _).subset hc)

theorem getword_nil {buf : Str} (h : nul ∉ buf) (hw : (getword buf wordDelim).1 = []) :
    (getword buf wordDelim).2 = [] := by
  cases hl : leadcut buf wordDelim with
  | nil => simp [getword, hl]
  | cons c t =>
    have hc : inWord wordDelim c = true := by
      simp only [inWord, decide_eq_true_eq]
      refine ⟨leadcut_head buf wordDelim c (by rw [hl]; rfl), ?_⟩
      rintro rfl
      exact h (leadcut_subset _ _ (by rw [hl]; simp))
    simp [getword, hl, hc] at hw

theorem leadcut_kept {s : Str} (h : Kept s) : leadcut s wordDelim = s := by
  cases s with
  | nil => rfl
  | cons c t => exact List.dropWhile_cons_of_neg (by simpa using h.2 c rfl)

theorem isalnum_inWord {c : Byte} (h : isalnum c = true) : inWord wordDelim c = true := by
  have hdelim : ∀ d ∈ nul :: wordDelim, isalnum d = false := by decide +kernel
  simp only [inWord, decide_eq_true_eq]
  constructor
  · intro hm
    rw [hdelim c (List.mem_cons_of_mem _ hm)] at h
    exact absurd h (by decide)
  · rintro rfl
    exact absurd h (by decide)

theorem mime_inWord (s : Str) : ∀ c ∈ mime s, inWord wordDelim c = true := by
  intro c hc
  rcases mime_chars hc with h | rfl | rfl
  · exact isalnum_inWord h
  · decide
  · decide

theorem decimal_isalnum (n : ℕ) : ∀ c ∈ decimal n, isalnum c = true := by
  intro c hc
  have h := (isdigit_iff c).mp (isdigit_of_mem_decimal hc)
  simp only [isalnum, Bool.or_eq_true, Bool.and_eq_true, decide_eq_true_eq]
  exact Or.inr (by simpa [UInt8.le_iff_toNat_le] using h)

theorem decimal_inWord (n : ℕ) : ∀ c ∈ decimal n, inWord wordDelim c = true := fun c hc =>
  isalnum_inWord (decimal_isalnum n c hc)

theorem decimalInt_inWord (i : ℤ) : ∀ c ∈ decimalInt i, inWord wordDelim c = true := by
  intro c hc
  unfold decimalInt at hc
  split_ifs at hc
  · rcases List.mem_cons.mp hc with rfl | hc
    · decide
    · exact decimal_inWord _ c hc
  · exact decimal_inWord _ c hc

theorem decimalInt_ne_nil (i : ℤ) : decimalInt i ≠ [] := by
  unfold decimalInt
  split_ifs
  · exact List.cons_ne_nil _ _
  · exact decimal_ne_nil _

end CenterIM.StrText
