import CenterIM.StrText

/-!
# Splitting a long text

`splitlongtext` cuts a text into pieces of a given size, at blanks or tabs where it finds some,
and writes a mark behind every piece that is not the last one. Strings are shorter than 2 ^ 31.
-/
namespace CenterIM.LongText
open ByteText

def isBlank (c : Byte) : Bool := c == blank || c == tab

/-- `s.find_last_of(" \t")`. -/
def find_last_of : Str → Option ℕ
  | [] => none
  | c :: s =>
    match find_last_of s with
    | some i => some (i + 1)
    | none => if isBlank c then some 0 else none

/-- `size - cont.size()`, computed without a sign. -/
def room (size : Int32) (cont : Str) : ℕ := ((size.toInt - cont.length) % 2 ^ 64).toNat

def cutAt (room : ℕ) (text : Str) : ℕ :=
  if text.length ≤ room then text.length else (find_last_of (text.take room)).getD room

/-- The blanks and tabs in front of a text are erased, unless there is nothing behind them. -/
def dropBlanks (text : Str) : Str :=
  if text.all isBlank then text else text.dropWhile isBlank

/-- The loop of `splitlongtext`; no result means that the turns were not enough. -/
def splitLoop (room : ℕ) (cont : Str) : ℕ → Str → Option (List Str)
  | 0, _ => none
  | n + 1, text =>
    if text = [] then some []
    else
      let npos := cutAt room text
      let sub := text.take npos
      let text := text.drop npos
      let (sub, text) := if cont.length < text.length then (sub ++ cont, text) else (sub ++ text, [])
      (splitLoop room cont n (dropBlanks text)).map (sub :: ·)

/-- `splitlongtext(text, lst, size, cont)`. -/
def splitlongtext (n : ℕ) (text : Str) (size : Int32) (cont : Str) : Option (List Str) :=
  splitLoop (room size cont) cont n text

/-- The pieces without the marks of all but the last one make up the text, up to blanks and
tabs at the cuts. -/
def Joins (cont : Str) : Str → List Str → Prop
  | text, [] => text = []
  | text, [p] => text = p
  | text, p :: q :: ps => ∃ sub gap rest, p = sub ++ cont ∧ text = sub ++ gap ++ rest ∧
      (∀ c ∈ gap, c = blank ∨ c = tab) ∧ Joins cont rest (q :: ps)

section Split

variable {k : ℕ} {cont text : Str}

theorem find_last_of_lt {s : Str} {i : ℕ} (h : find_last_of s = some i) : i < s.length := by
  induction s generalizing i with
  | nil => cases h
  | cons c s ih =>
    rw [find_last_of] at h
    cases hs : find_last_of s with
    | some j =>
      rw [hs] at h
      obtain rfl := Option.some.inj h
      have := ih hs
      rw [List.length_cons]
      omega
    | none =>
      rw [hs] at h
      dsimp only at h
      split_ifs at h
      obtain rfl := Option.some.inj h
      exact Nat.succ_pos _

theorem find_last_of_none {s : Str} (h : find_last_of s = none) : ∀ c ∈ s, isBlank c = false := by
  induction s with
  | nil => simp
  | cons c s ih =>
    rw [find_last_of] at h
    cases hs : find_last_of s with
    | some j =>
      rw [hs] at h
      cases h
    | none =>
      rw [hs] at h
      dsimp only at h
      split_ifs at h with hc
      intro d hd
      obtain rfl | hd := List.mem_cons.mp hd
      · exact Bool.eq_false_iff.mpr hc
      · exact ih hs d hd

/-- A text that is cut in front of its first character has a blank there, and none behind it. -/
theorem find_last_of_zero {c : Byte} {s : Str} (h : find_last_of (c :: s) = some 0) :
    isBlank c = true ∧ ∀ d ∈ s, isBlank d = false := by
  rw [find_last_of] at h
  cases hs : find_last_of s with
  | some j =>
    rw [hs] at h
    cases h
  | none =>
    rw [hs] at h
    dsimp only at h
    split_ifs at h with hc
    exact ⟨hc, find_last_of_none hs⟩

theorem cutAt_le (k : ℕ) (text : Str) : cutAt k text ≤ k ∧ cutAt k text ≤ text.length := by
  rw [cutAt]
  split_ifs with h
  · exact ⟨h, le_rfl⟩
  · cases hf : find_last_of (text.take k) with
    | none => exact ⟨le_rfl, by rw [Option.getD_none]; omega⟩
    | some i =>
      have := find_last_of_lt hf
      rw [List.length_take] at this
      rw [Option.getD_some]
      omega

theorem dropBlanks_append (text : Str) :
    ∃ gap, text = gap ++ dropBlanks text ∧ ∀ c ∈ gap, c = blank ∨ c = tab := by
  rw [dropBlanks]
  split_ifs with hall
  · exact ⟨[], rfl, by simp⟩
  · refine ⟨text.takeWhile isBlank, List.takeWhile_append_dropWhile.symm, fun c hc => ?_⟩
    have hblank := List.mem_takeWhile_imp hc
    simpa [isBlank] using hblank

theorem dropBlanks_ne_nil (h : text ≠ []) : dropBlanks text ≠ [] := by
  rw [dropBlanks]
  split_ifs with hall
  · exact h
  · rw [Ne, List.dropWhile_eq_nil_iff]
    simpa using hall

theorem length_dropBlanks_le (text : Str) : (dropBlanks text).length ≤ text.length := by
  obtain ⟨gap, hgap, -⟩ := dropBlanks_append text
  have := congrArg List.length hgap
  rw [List.length_append] at this
  omega

/-- A text of which nothing is cut off begins with a blank and then something else. -/
theorem cutAt_zero (hk : 2 ≤ k) (hne : text ≠ []) (h0 : cutAt k text = 0) :
    ∃ c d s, text = c :: d :: s ∧ isBlank c = true ∧ isBlank d = false := by
  have hpos := List.length_pos_of_ne_nil hne
  rw [cutAt] at h0
  split_ifs at h0 with hle
  · omega
  · obtain ⟨m, rfl⟩ : ∃ m, k = m + 2 := ⟨k - 2, by omega⟩
    match text, hle with
    | [], hle => exact absurd rfl hne
    | [c], hle => simp at hle
    | c :: d :: s, _ =>
      rw [List.take_succ_cons, List.take_succ_cons] at h0
      cases hf : find_last_of (c :: d :: s.take m) with
      | none =>
        rw [hf, Option.getD_none] at h0
        omega
      | some i =>
        rw [hf, Option.getD_some] at h0
        subst h0
        obtain ⟨hc, hrest⟩ := find_last_of_zero hf
        exact ⟨c, d, s, rfl, hc, hrest d List.mem_cons_self⟩

/-- Each turn leaves a shorter text: where nothing is cut off, a blank is dropped. -/
theorem rest_shorter (hk : 2 ≤ k) (hne : text ≠ []) :
    (dropBlanks (text.drop (cutAt k text))).length < text.length := by
  have hpos := List.length_pos_of_ne_nil hne
  by_cases h0 : cutAt k text = 0
  · obtain ⟨c, d, s, rfl, hc, hd⟩ := cutAt_zero hk hne h0
    have hall : ¬ (c :: d :: s).all isBlank = true := by simp [hd]
    rw [h0, List.drop_zero, dropBlanks, if_neg hall, List.dropWhile_cons_of_pos hc,
      List.dropWhile_cons_of_neg (by simp [hd])]
    exact Nat.lt_succ_self _
  · have hle := length_dropBlanks_le (text.drop (cutAt k text))
    rw [List.length_drop] at hle
    omega

theorem splitLoop_last (hne : text ≠ []) (h : (text.drop (cutAt k text)).length ≤ cont.length) :
    splitLoop k cont 2 text = some [text] := by
  rw [splitLoop, if_neg hne]
  dsimp only
  rw [if_neg (by omega), List.take_append_drop]
  rfl

theorem splitLoop_more (n : ℕ) (hne : text ≠ [])
    (h : cont.length < (text.drop (cutAt k text)).length) :
    splitLoop k cont (n + 1) text =
      (splitLoop k cont n (dropBlanks (text.drop (cutAt k text)))).map
        ((text.take (cutAt k text) ++ cont) :: ·) := by
  rw [splitLoop, if_neg hne]
  dsimp only
  rw [if_pos h]

theorem splitLoop_spec (hk : 2 ≤ k) (text : Str) :
    ∃ n lst, splitLoop k cont n text = some lst ∧ (∀ p ∈ lst, p.length ≤ k + cont.length) ∧
      Joins cont text lst ∧ (text ≠ [] → lst ≠ []) := by
  induction hn : text.length using Nat.strong_induction_on generalizing text with
  | _ n ih =>
    by_cases hne : text = []
    · subst hne
      exact ⟨1, [], rfl, by simp, rfl, fun h => absurd rfl h⟩
    have hcut := cutAt_le k text
    have htake : (text.take (cutAt k text)).length = cutAt k text := by
      rw [List.length_take]
      omega
    by_cases hlast : (text.drop (cutAt k text)).length ≤ cont.length
    · refine ⟨2, [text], splitLoop_last hne hlast, ?_, rfl, fun _ => List.cons_ne_nil _ _⟩
      intro p hp
      obtain rfl := List.mem_singleton.mp hp
      rw [List.length_drop] at hlast
      omega
    · have hmore : cont.length < (text.drop (cutAt k text)).length := by omega
      have hrest : text.drop (cutAt k text) ≠ [] := by
        intro h
        rw [h] at hmore
        exact absurd hmore (Nat.not_lt_zero _)
      obtain ⟨m, lst, hm, hlen, hjoin, hlst⟩ :=
        ih _ (by have := rest_shorter hk hne; omega) (dropBlanks (text.drop (cutAt k text))) rfl
      obtain ⟨q, ps, rfl⟩ := List.exists_cons_of_ne_nil (hlst (dropBlanks_ne_nil hrest))
      obtain ⟨gap, hgap, hblank⟩ := dropBlanks_append (text.drop (cutAt k text))
      refine ⟨m + 1, (text.take (cutAt k text) ++ cont) :: q :: ps, ?_, ?_, ?_,
        fun _ => List.cons_ne_nil _ _⟩
      · rw [splitLoop_more m hne hmore, hm]
        rfl
      · intro p hp
        obtain rfl | hp := List.mem_cons.mp hp
        · rw [List.length_append, htake]
          omega
        · exact hlen p hp
      · refine ⟨text.take (cutAt k text), gap, _, rfl, ?_, hblank, hjoin⟩
        rw [List.append_assoc, ← hgap, List.take_append_drop]

end Split

theorem room_eq {size : Int32} {cont : Str} (h : (cont.length : ℤ) + 2 ≤ size.toInt) :
    (room size cont : ℤ) = size.toInt - cont.length := by
  have hlt := size.toInt_lt
  rw [room]
  omega

/-- Splitting ends, with pieces of the size that make up the text. -/
theorem splitlongtext_pieces (text cont : Str) (size : Int32)
    (hsize : (cont.length : ℤ) + 2 ≤ size.toInt) :
    ∃ n lst, splitlongtext n text size cont = some lst ∧
      (∀ p ∈ lst, (p.length : ℤ) ≤ size.toInt) ∧ Joins cont text lst := by
  have hroom := room_eq hsize
  obtain ⟨n, lst, hlst, hlen, hjoin, -⟩ :=
    splitLoop_spec (show 2 ≤ room size cont by omega) text
  refine ⟨n, lst, hlst, fun p hp => ?_, hjoin⟩
  have := hlen p hp
  omega

theorem splitlongtext_short : ∃ n lst, splitlongtext n (bytes "to be or not") 6 (bytes "..") = some lst ∧
    (∀ p ∈ lst, (p.length : ℤ) ≤ (6 : Int32).toInt) ∧ Joins (bytes "..") (bytes "to be or not") lst :=
  splitlongtext_pieces (bytes "to be or not") (bytes "..") 6 (by decide)

end CenterIM.LongText
