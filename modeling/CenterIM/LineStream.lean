import CenterIM.ByteText

/-!
# Input streams read line by line

`istream::getline` with its fixed buffer, and kkstrtext's `getstring` on top of it. The
buffer is invisible: on text without NUL, `getstring` returns the lines one after
another, so a stream is determined by the lines that are left in it (`ofLines`).
-/
namespace CenterIM.LineStream
open ByteText

/-- What an `ifstream` has left to read, and its end-of-file bit. The fail bit is
looked at only by the loop that has just set it, so it is not part of the state. -/
structure IStream where
  rest : Str
  eof : Bool
  deriving DecidableEq, Repr

/-- A stream just opened on a file with this content. -/
def IStream.ofContent (s : Str) : IStream := ⟨s, false⟩

/-- What ended one `getline`: the end of the file, the delimiter, or a full buffer. -/
inductive Stop
  | eof
  | delim
  | full
  deriving DecidableEq, Repr

/-- `getline(buf, n + 1)`: the characters stored, those left, and why it stopped. The
end of the file is tested first, the delimiter next, the room in the buffer last. -/
def getline : ℕ → Str → Str × Str × Stop
  | _, [] => ([], [], .eof)
  | n, c :: s =>
    if c = lf then ([], s, .delim)
    else
      match n with
      | 0 => ([], c :: s, .full)
      | n + 1 =>
        let r := getline n s
        (c :: r.1, r.2)

/-- The loop of `getstring`: read on while the buffer was filled without a newline. -/
def getstringLoop : ℕ → Str → Str → Str × IStream
  | 0, rest, sbuf => (sbuf, ⟨rest, false⟩)
  | fuel + 1, rest, sbuf =>
    match getline 2047 rest with
    | (buf, rest, .eof) => (sbuf ++ cstr buf, ⟨rest, true⟩)
    | (buf, rest, .delim) => (sbuf ++ cstr buf, ⟨rest, false⟩)
    | (buf, rest, .full) => getstringLoop fuel rest (sbuf ++ cstr buf)

/-- `getstring(f, sbuf)`: whether it read, the new value of `sbuf`, and the stream. -/
def getstring (f : IStream) (sbuf : Str) : Bool × Str × IStream :=
  if f.eof then (false, sbuf, f)
  else
    let r := getstringLoop (f.rest.length + 1) f.rest []
    (true, r.1, r.2)

theorem getline_lf (n : ℕ) (s : Str) : getline n (lf :: s) = ([], s, .delim) := by
  cases n <;> simp [getline]

theorem getline_short {n : ℕ} {l : Str} (hl : lf ∉ l) (hn : l.length ≤ n) (s : Str) :
    getline n (l ++ lf :: s) = (l, s, .delim) := by
  induction l generalizing n with
  | nil => exact getline_lf n s
  | cons c l ih =>
    simp only [List.mem_cons, not_or] at hl
    obtain ⟨n, rfl⟩ : ∃ m, n = m + 1 := ⟨n - 1, by simp at hn; omega⟩
    simp [getline, Ne.symm hl.1, ih hl.2 (n := n) (by simpa using hn)]

theorem getline_last {n : ℕ} {l : Str} (hl : lf ∉ l) (hn : l.length ≤ n) :
    getline n l = (l, [], .eof) := by
  induction l generalizing n with
  | nil => simp [getline]
  | cons c l ih =>
    simp only [List.mem_cons, not_or] at hl
    obtain ⟨n, rfl⟩ : ∃ m, n = m + 1 := ⟨n - 1, by simp at hn; omega⟩
    simp [getline, Ne.symm hl.1, ih hl.2 (n := n) (by simpa using hn)]

/-- A line longer than the buffer comes in pieces of the buffer's size. -/
theorem getline_long {n : ℕ} {l : Str} (hl : lf ∉ l) (hn : n < l.length) (s : Str) :
    getline n (l ++ s) = (l.take n, l.drop n ++ s, .full) := by
  induction l generalizing n with
  | nil => simp at hn
  | cons c l ih =>
    simp only [List.mem_cons, not_or] at hl
    cases n with
    | zero => simp [getline, Ne.symm hl.1]
    | succ n => simp [getline, Ne.symm hl.1, ih hl.2 (n := n) (by simpa using hn)]

theorem getstringLoop_line {fuel : ℕ} {l : Str} (h : Plain l) (hf : l.length < fuel)
    (s sbuf : Str) : getstringLoop fuel (l ++ lf :: s) sbuf = (sbuf ++ l, ⟨s, false⟩) := by
  induction fuel generalizing l sbuf with
  | zero => omega
  | succ fuel ih =>
    by_cases hl : l.length ≤ 2047
    · simp [getstringLoop, getline_short h.1 hl, cstr_eq_self h.2]
    · have hp : Plain (l.drop 2047) :=
        ⟨fun hm => h.1 (List.mem_of_mem_drop hm), fun hm => h.2 (List.mem_of_mem_drop hm)⟩
      have hc : cstr (l.take 2047) = l.take 2047 :=
        cstr_eq_self fun hm => h.2 (List.mem_of_mem_take hm)
      have hi := ih hp (by simp only [List.length_drop]; omega) (sbuf ++ l.take 2047)
      simp only [getstringLoop, getline_long h.1 (not_le.mp hl), hc]
      rw [hi, List.append_assoc, List.take_append_drop]

theorem getstringLoop_last {fuel : ℕ} {l : Str} (h : Plain l) (hf : l.length < fuel)
    (sbuf : Str) : getstringLoop fuel l sbuf = (sbuf ++ l, ⟨[], true⟩) := by
  induction fuel generalizing l sbuf with
  | zero => omega
  | succ fuel ih =>
    by_cases hl : l.length ≤ 2047
    · simp [getstringLoop, getline_last h.1 hl, cstr_eq_self h.2]
    · have hp : Plain (l.drop 2047) :=
        ⟨fun hm => h.1 (List.mem_of_mem_drop hm), fun hm => h.2 (List.mem_of_mem_drop hm)⟩
      have hc : cstr (l.take 2047) = l.take 2047 :=
        cstr_eq_self fun hm => h.2 (List.mem_of_mem_take hm)
      have hg := getline_long h.1 (not_le.mp hl) []
      rw [List.append_nil, List.append_nil] at hg
      have hi := ih hp (by simp only [List.length_drop]; omega) (sbuf ++ l.take 2047)
      simp only [getstringLoop, hg, hc]
      rw [hi, List.append_assoc, List.take_append_drop]

/-- The stream in which exactly these lines are left; none at the end of the file. -/
def ofLines : List Str → IStream
  | [] => ⟨[], true⟩
  | l :: ls => ⟨[lf].intercalate (l :: ls), false⟩

@[simp] theorem ofLines_nil_eof : (ofLines []).eof = true := rfl

@[simp] theorem ofLines_cons_eof (l : Str) (ls : List Str) : (ofLines (l :: ls)).eof = false := rfl

theorem ofLines_eof (ls : List Str) : (ofLines ls).eof = ls.isEmpty := by cases ls <;> rfl

theorem ofLines_cons_cons (l k : Str) (ls : List Str) :
    ofLines (l :: k :: ls) = ⟨l ++ lf :: (ofLines (k :: ls)).rest, false⟩ := by
  simp [ofLines, List.intercalate]

theorem ofLines_lines (s : Str) : ofLines (lines s) = IStream.ofContent s := by
  cases h : lines s with
  | nil => exact absurd h (lines_ne_nil s)
  | cons l ls =>
    simp only [ofLines, ← h, IStream.ofContent, lines, List.intercalate_splitOn]

/-- `getstring` takes what is left up to the next newline. -/
theorem getstring_line {l : Str} (h : Plain l) (s sbuf : Str) :
    getstring ⟨l ++ lf :: s, false⟩ sbuf = (true, l, ⟨s, false⟩) := by
  have hf : l.length < (l ++ lf :: s).length + 1 := by
    rw [List.length_append]
    omega
  have hl := getstringLoop_line h hf s []
  simp only [getstring, Bool.false_eq_true, if_false]
  rw [hl]
  rfl

/-- `getstring` takes the first line that is left. -/
theorem getstring_ofLines {l : Str} (h : Plain l) (ls : List Str) (sbuf : Str) :
    getstring (ofLines (l :: ls)) sbuf = (true, l, ofLines ls) := by
  cases ls with
  | nil =>
    have hl := getstringLoop_last h (Nat.lt_succ_self l.length) []
    have hr : ofLines [l] = ⟨l, false⟩ := by simp [ofLines, List.intercalate]
    simp only [getstring, hr, Bool.false_eq_true, if_false]
    rw [hl]
    rfl
  | cons k ls =>
    rw [ofLines_cons_cons, getstring_line h]
    rfl

@[simp] theorem getstring_ofLines_nil (sbuf : Str) :
    getstring (ofLines []) sbuf = (false, sbuf, ofLines []) := rfl

theorem getstring_nul {f : IStream} {sbuf : Str} (h : nul ∉ sbuf) :
    nul ∉ (getstring f sbuf).2.1 := by
  have hloop : ∀ (n : ℕ) (rest sbuf : Str), nul ∉ sbuf → nul ∉ (getstringLoop n rest sbuf).1 := by
    intro n
    induction n with
    | zero => exact fun _ _ h => h
    | succ n ih =>
      intro rest sbuf h
      have hbuf : nul ∉ sbuf ++ cstr (getline 2047 rest).1 := by
        simpa [h] using nul_not_mem_cstr _
      rw [getstringLoop]
      split
      · next he => rwa [he] at hbuf
      · next he => rwa [he] at hbuf
      · next he =>
        rw [he] at hbuf
        exact ih _ _ hbuf
  rw [getstring]
  split_ifs
  · exact h
  · exact hloop _ _ [] (List.not_mem_nil)

/-- A bound on the number of lines left, for the loops over a stream. -/
def IStream.size (f : IStream) : ℕ := if f.eof then 0 else f.rest.length + 1

theorem length_le_size (ls : List Str) : ls.length ≤ (ofLines ls).size := by
  induction ls with
  | nil => simp [IStream.size]
  | cons l ls ih =>
    cases ls with
    | nil => simp [IStream.size]
    | cons k ls =>
      rw [ofLines_cons_cons]
      simp only [IStream.size, ofLines_cons_eof, Bool.false_eq_true, if_false, List.length_append,
        List.length_cons] at ih ⊢
      omega

/-- Reading a stream until `getstring` returns false: the strings it gave. -/
def getstrings : ℕ → IStream → Str → Option (List Str)
  | 0, _, _ => none
  | fuel + 1, f, sbuf =>
    match getstring f sbuf with
    | (false, _, _) => some []
    | (true, buf, f) => (getstrings fuel f buf).map (buf :: ·)

theorem getstrings_ofLines {ls : List Str} (h : ∀ l ∈ ls, Plain l) {fuel : ℕ}
    (hf : ls.length < fuel) (sbuf : Str) : getstrings fuel (ofLines ls) sbuf = some ls := by
  induction ls generalizing fuel sbuf with
  | nil =>
    obtain ⟨fuel, rfl⟩ : ∃ m, fuel = m + 1 := ⟨fuel - 1, by simp at hf; omega⟩
    rw [getstrings, getstring_ofLines_nil]
  | cons l ls ih =>
    obtain ⟨fuel, rfl⟩ : ∃ m, fuel = m + 1 := ⟨fuel - 1, by simp at hf; omega⟩
    have hrest := ih (fun k hk => h k (by simp [hk])) (by simpa using hf) l
    rw [getstrings, getstring_ofLines (h l (by simp))]
    simp only [hrest, Option.map_some]

/-- A content with `n` newlines has `n + 1` lines. -/
theorem length_lines (s : Str) : (lines s).length = s.count lf + 1 := by
  induction s with
  | nil => rfl
  | cons c s ih =>
    by_cases hc : c = lf
    · rw [hc, lines_lf, List.length_cons, ih, List.count_cons_self]
    · have hcount : (c :: s).count lf = s.count lf := List.count_cons_of_ne hc
      rw [lines_cons hc, List.length_modifyHead, hcount, ih]

/-- The read buffer is invisible: a file is read as the parts between its newlines. -/
theorem getstrings_ofContent {s : Str} (h : nul ∉ s) {fuel : ℕ} (hf : s.count lf + 1 < fuel)
    (sbuf : Str) : getstrings fuel (.ofContent s) sbuf = some (lines s) ∧
      (lines s).length = s.count lf + 1 ∧ (∀ l ∈ lines s, lf ∉ l) ∧
      [lf].intercalate (lines s) = s := by
  have hlen := length_lines s
  have hplain : ∀ l ∈ lines s, Plain l := fun l hl => plain_of_mem_lines h hl
  refine ⟨?_, hlen, fun l hl => (hplain l hl).1, ?_⟩
  · rw [← ofLines_lines]
    exact getstrings_ofLines hplain (by omega) sbuf
  · rw [lines, List.intercalate_splitOn]

/-- A line that fills the buffer, and an empty one at the end. -/
theorem getstrings_ofContent_full :
    getstrings 3 (.ofContent (List.replicate 2047 (97 : Byte) ++ [lf])) [] =
      some (lines (List.replicate 2047 97 ++ [lf])) := by
  have hnul : nul ∉ List.replicate 2047 (97 : Byte) ++ [lf] := by
    intro h
    rcases List.mem_append.mp h with h | h
    · exact absurd (List.eq_of_mem_replicate h) (by decide)
    · exact absurd (List.mem_singleton.mp h) (by decide)
  have hcount : (List.replicate 2047 (97 : Byte) ++ [lf]).count lf + 1 < 3 := by
    rw [List.count_append, List.count_replicate]
    decide
  exact (getstrings_ofContent hnul hcount []).1

end CenterIM.LineStream
