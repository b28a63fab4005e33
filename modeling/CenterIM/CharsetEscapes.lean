import CenterIM.MimeBuffers

/-!
# Conversion to UTF-8 and back

`str_to_utf8` and `utf8_to_str` of kkstrtext with their buffers. The first skips an escape
sequence without looking whether the text ends in it, and reads behind the text exactly if the
escape is its last character.
-/
namespace CenterIM.CharsetEscapes
open ByteText StrText MimeBuffers

abbrev esc : Byte := 27

/-- What `str_to_utf8` writes for a character. -/
def utf8Bytes (c : Byte) : Str := if c < 128 then [c] else [c >>> 6 ||| 192, c &&& 63 ||| 128]

/-- Where `str_to_utf8` goes on after an escape at `n`. -/
def escapeEnd (text : Str) (n : ℕ) : Except Fault ℕ := do
  let n := n + 2
  let x ← load text n
  let n := if x = 120 then n + 1 else n
  let three ← load text n
  let n := if three = 51 then n + 1 else n
  return n + 2

/-- The loop of `str_to_utf8`; after as many rounds as there are characters, `n` is outside. -/
def strToUtf8At (text : Str) (inlen : ℕ) : ℕ → Str → ℕ → ℕ → Except Fault Str
  | 0, _, _, _ => .error .pastEnd
  | rounds + 1, result, n, i =>
    if n < inlen then do
      let c ← load text n
      if c = esc then
        let n ← escapeEnd text n
        strToUtf8At text inlen rounds result n i
      else
        let result ← putAll result i (utf8Bytes c)
        strToUtf8At text inlen rounds result (n + 1) (i + (utf8Bytes c).length)
    else put result i nul

/-- `str_to_utf8(pin)`, with what its new buffer holds. -/
def str_to_utf8 (result pin : Str) : Except Fault Str :=
  let inlen := (cstr pin).length
  (strToUtf8At (strcpy pin) inlen (inlen + 1) result 0 0).map cstr

def utf8Size (pin : Str) : ℕ := (cstr pin).length * 2 + 1

/-- What a round of `utf8_to_str` does with the character `c` at `n`: the buffer, `n` and `i`. -/
def utf8Char (text : Str) (inlen : ℕ) (result : Str) (n i : ℕ) (c : Byte) :
    Except Fault (Str × ℕ × ℕ) := do
  if c < 0x80 then
    let result ← put result i c
    return (result, n, i + 1)
  else if c &&& 0xC0 = 0xC0 then
    let d ← load text (n + 1)
    let result ← put result i ((c &&& 0x03) <<< 6 ||| d &&& 0x3F)
    return (result, n + 1, i + 1)
  else if c &&& 0xE0 = 0xE0 then
    if n + 2 ≤ inlen then
      let d ← load text (n + 1)
      let result ← put result i ((c &&& 0xF) <<< 4 ||| d &&& 0x3F)
      let e ← load text (n + 2)
      let r ← load result i
      let result ← put result i (r ||| e &&& 0x3F)
      return (result, n + 2, i + 1)
    else return (result, n + 2, i)
  else if c &&& 0xF0 = 0xF0 then return (result, n + 3, i)
  else if c &&& 0xF8 = 0xF8 then return (result, n + 4, i)
  else if c &&& 0xFC = 0xFC then return (result, n + 5, i)
  else return (result, n, i)

/-- The loop of `utf8_to_str`. -/
def utf8ToStrAt (text : Str) (inlen : ℕ) : ℕ → Str → ℕ → ℕ → Except Fault Str
  | 0, _, _, _ => .error .pastEnd
  | rounds + 1, result, n, i =>
    if n < inlen then do
      let c ← load text n
      let (result, n, i) ← utf8Char text inlen result n i c
      utf8ToStrAt text inlen rounds result (n + 1) i
    else put result i nul

/-- `utf8_to_str(pin)`, with what its new buffer holds. -/
def utf8_to_str (result pin : Str) : Except Fault Str :=
  let inlen := (cstr pin).length
  (utf8ToStrAt (strcpy pin) inlen (inlen + 1) result 0 0).map cstr

/-- Where a text stands in an escape sequence: outside, or at one of its characters. -/
inductive Place
  | text
  | first
  | second
  | third
  | last (more : Bool)
  deriving DecidableEq

def Place.next : Place → Byte → Place
  | .text, c => if c = esc then .first else .text
  | .first, _ => .second
  | .second, c => if c = 120 then .third else if c = 51 then .last true else .last false
  | .third, c => if c = 51 then .last true else .last false
  | .last true, _ => .last false
  | .last false, _ => .text

/-- Is the last character of a text an escape that begins a sequence? -/
def EndsInEscape (s : Str) : Prop := s.foldl Place.next .text = .first

instance (s : Str) : Decidable (EndsInEscape s) := inferInstanceAs (Decidable (_ = _))

theorem load_strcpy {pin : Str} {n : ℕ} (hn : n < (cstr pin).length) :
    load (strcpy pin) n = .ok (cstr pin)[n] := by
  rw [load, strcpy, List.getElem?_append_left hn, List.getElem?_eq_getElem hn]

theorem load_end (pin : Str) : load (strcpy pin) (cstr pin).length = .ok nul :=
  load_append (cstr pin) nul []

theorem load_behind {pin : Str} {n : ℕ} (hn : (cstr pin).length < n) :
    load (strcpy pin) n = .error .pastEnd := by
  apply load_outside
  rw [strcpy, List.length_append]
  exact hn

theorem load_drop {pin : Str} {n : ℕ} (hn : n ≤ (cstr pin).length) (k : ℕ) :
    load (strcpy pin) (n + k) = load ((cstr pin).drop n ++ [nul]) k := by
  have hlen : (cstr pin).length = n + ((cstr pin).drop n).length := by
    rw [List.length_drop]
    omega
  have hsplit : strcpy pin = (cstr pin).take n ++ ((cstr pin).drop n ++ [nul]) := by
    rw [← List.append_assoc, List.take_append_drop, strcpy]
  have htake : ((cstr pin).take n).length = n := List.length_take_of_le hn
  rw [load, load, hsplit, List.getElem?_append_right (by omega), htake, Nat.add_sub_cancel_left]

theorem last_false (t : Str) : t.foldl Place.next (.last false) = .first ↔
    (t.drop 1).foldl Place.next .text = .first := by
  cases t with
  | nil => simp
  | cons c t => rfl

theorem last_true (t : Str) : t.foldl Place.next (.last true) = .first ↔
    (t.drop 2).foldl Place.next .text = .first := by
  cases t with
  | nil => simp
  | cons c t => exact last_false t

/-- How many characters of `t` belong to the sequence whose escape is two characters before. -/
def skipped (t : Str) : ℕ :=
  if t.head? = some 120 then (if t.tail.head? = some 51 then 4 else 3)
  else if t.head? = some 51 then 3 else 2

theorem second_skipped (t : Str) : t.foldl Place.next .second = .first ↔
    (t.drop (skipped t)).foldl Place.next .text = .first := by
  cases t with
  | nil => simp [skipped]
  | cons c t =>
    by_cases hx : c = 120
    · subst hx
      cases t with
      | nil => simp [skipped, Place.next]
      | cons d t =>
        by_cases h3 : d = 51
        · subst h3
          have hplace : (120 :: 51 :: t).foldl Place.next .second =
              t.foldl Place.next (.last true) := rfl
          rw [hplace, last_true]
          simp [skipped]
        · have hplace : (120 :: d :: t).foldl Place.next .second =
              t.foldl Place.next (.last false) := by simp [Place.next, h3]
          rw [hplace, last_false]
          simp [skipped, h3]
    · by_cases h3 : c = 51
      · subst h3
        have hplace : (51 :: t).foldl Place.next .second = t.foldl Place.next (.last true) := rfl
        rw [hplace, last_true]
        simp [skipped]
      · have hplace : (c :: t).foldl Place.next .second = t.foldl Place.next (.last false) := by
          simp [Place.next, hx, h3]
        rw [hplace, last_false]
        simp [skipped, hx, h3]

theorem escapeEnd_eq {pin : Str} {n : ℕ} (hn : n + 1 < (cstr pin).length) :
    escapeEnd (strcpy pin) n = .ok (n + 2 + skipped ((cstr pin).drop (n + 2))) := by
  have hload := @load_drop pin (n + 2) (by omega)
  have h0 := hload 0
  have h1 := hload 1
  rw [Nat.add_zero] at h0
  rw [escapeEnd, h0]
  cases h : (cstr pin).drop (n + 2) with
  | nil =>
    rw [h] at h0
    have hnul : load ([] ++ [nul]) 0 = .ok nul := rfl
    have hne : nul ≠ 120 ∧ nul ≠ 51 := by decide
    rw [hnul] at h0 ⊢
    simp [h0, hne, skipped, bind, Except.bind, pure, Except.pure]
  | cons c t =>
    rw [h] at h0 h1
    have hc : load (c :: t ++ [nul]) 0 = .ok c := rfl
    rw [hc] at h0 ⊢
    by_cases hx : c = 120
    · subst hx
      cases t with
      | nil =>
        have hnul : load (120 :: [] ++ [nul]) 1 = .ok nul := rfl
        have hne : nul ≠ 51 := by decide
        rw [hnul] at h1
        simp [h1, hne, skipped, bind, Except.bind, pure, Except.pure]
      | cons d t =>
        have hd : load (120 :: d :: t ++ [nul]) 1 = .ok d := rfl
        rw [hd] at h1
        by_cases h3 : d = 51
        · simp [h1, h3, skipped, bind, Except.bind, pure, Except.pure]
        · simp [h1, h3, skipped, bind, Except.bind, pure, Except.pure]
    · by_cases h3 : c = 51
      · simp [h0, h3, skipped, bind, Except.bind, pure, Except.pure]
      · simp [h0, hx, h3, skipped, bind, Except.bind, pure, Except.pure]

theorem escapeEnd_behind {pin : Str} {n : ℕ} (hn : n + 1 = (cstr pin).length) :
    escapeEnd (strcpy pin) n = .error .pastEnd := by
  rw [escapeEnd, load_behind (by omega)]
  rfl

theorem put_inside {text : Str} {i : ℕ} (h : i < text.length) (c : Byte) :
    ∃ text', put text i c = .ok text' ∧ text'.length = text.length :=
  ⟨text.set i c, by rw [put, if_pos h], List.length_set⟩

theorem putAll_inside {dst : Str} {d : ℕ} (cs : Str) (h : d + cs.length ≤ dst.length) :
    ∃ dst', putAll dst d cs = .ok dst' ∧ dst'.length = dst.length := by
  induction cs generalizing dst d with
  | nil => exact ⟨dst, rfl, rfl⟩
  | cons c cs ih =>
    rw [List.length_cons] at h
    obtain ⟨dst₁, hput, hlen₁⟩ := put_inside (by omega : d < dst.length) c
    obtain ⟨dst₂, hrest, hlen₂⟩ := @ih dst₁ (d + 1) (by omega)
    exact ⟨dst₂, by rw [putAll, hput]; exact hrest, hlen₂.trans hlen₁⟩

theorem utf8Bytes_length (c : Byte) : (utf8Bytes c).length ≤ 2 := by
  rw [utf8Bytes]
  split_ifs
  · exact Nat.le_succ 1
  · exact le_rfl

/-- The conversion stays within the text and the buffer exactly if no escape ends the text. -/
theorem strToUtf8At_iff {pin result : Str} {n i rounds : ℕ}
    (hr : (cstr pin).length - n < rounds) (hres : result.length = utf8Size pin) (hi : i ≤ 2 * n)
    (hi' : i ≤ 2 * (cstr pin).length) :
    (∃ out, strToUtf8At (strcpy pin) (cstr pin).length rounds result n i = .ok out) ↔
      ((cstr pin).drop n).foldl Place.next .text ≠ .first := by
  rw [utf8Size] at hres
  induction rounds generalizing result n i with
  | zero => omega
  | succ rounds ih =>
    rw [strToUtf8At]
    by_cases hn : n < (cstr pin).length
    · simp only [if_pos hn, load_strcpy hn, bind, Except.bind]
      have hdrop := List.drop_eq_getElem_cons hn
      by_cases hc : (cstr pin)[n] = esc
      · rw [if_pos hc]
        by_cases hlast : n + 1 < (cstr pin).length
        · rw [escapeEnd_eq hlast]
          have hplace : ((cstr pin).drop n).foldl Place.next .text =
              ((cstr pin).drop (n + 2)).foldl Place.next .second := by
            rw [hdrop, hc, List.drop_eq_getElem_cons hlast]
            rfl
          have hsecond := second_skipped ((cstr pin).drop (n + 2))
          rw [List.drop_drop] at hsecond
          rw [ih (by omega) hres (by omega) hi', hplace]
          exact not_congr hsecond.symm
        · have hplace : ((cstr pin).drop n).foldl Place.next .text = .first := by
            rw [hdrop, hc, List.drop_eq_nil_of_le (by omega)]
            rfl
          rw [escapeEnd_behind (by omega), hplace]
          simp
      · have hlen := utf8Bytes_length (cstr pin)[n]
        obtain ⟨result', hput, hlen'⟩ := @putAll_inside result i (utf8Bytes (cstr pin)[n]) (by omega)
        have hplace : ((cstr pin).drop n).foldl Place.next .text =
            ((cstr pin).drop (n + 1)).foldl Place.next .text := by
          rw [hdrop, List.foldl_cons, Place.next, if_neg hc]
        rw [if_neg hc, hput, hplace]
        exact ih (by omega) (hlen'.trans hres) (by omega) (by omega)
    · obtain ⟨out, hput, -⟩ := put_inside (by omega : i < result.length) nul
      rw [if_neg hn, hput, List.drop_eq_nil_of_le (by omega)]
      simp

/-- The test for two high bits catches what the tests for more would. -/
theorem mask_high {c m : Byte} (hm : m &&& 0xC0 = 0xC0) (h2 : c &&& 0xC0 ≠ 0xC0) :
    c &&& m ≠ m := by
  intro h
  apply h2
  calc c &&& 0xC0 = (c &&& m) &&& 0xC0 := by rw [UInt8.and_assoc, hm]
    _ = 0xC0 := by rw [h, hm]

/-- A round of `utf8_to_str` reads at most the NUL, and writes at most one character. -/
theorem utf8Char_inside {pin result : Str} {n i : ℕ} (hn : n < (cstr pin).length)
    (hi : i < result.length) (c : Byte) :
    ∃ result' n' i', utf8Char (strcpy pin) (cstr pin).length result n i c =
        .ok (result', n', i') ∧ result'.length = result.length ∧ n ≤ n' ∧ i' ≤ i + 1 := by
  have hload : ∀ k ≤ (cstr pin).length, ∃ d, load (strcpy pin) k = .ok d := by
    intro k hk
    rcases hk.lt_or_eq with hlt | rfl
    · exact ⟨_, load_strcpy hlt⟩
    · exact ⟨nul, load_end pin⟩
  obtain ⟨d, hd⟩ := hload (n + 1) hn
  rw [utf8Char]
  by_cases h80 : c < 0x80
  · obtain ⟨result', hput, hlen⟩ := put_inside hi c
    exact ⟨result', n, i + 1, by rw [if_pos h80, hput]; rfl, hlen, le_rfl, le_rfl⟩
  · rw [if_neg h80]
    by_cases h2 : c &&& 0xC0 = 0xC0
    · obtain ⟨result', hput, hlen⟩ := put_inside hi ((c &&& 0x03) <<< 6 ||| d &&& 0x3F)
      refine ⟨result', n + 1, i + 1, ?_, hlen, Nat.le_succ n, le_rfl⟩
      rw [if_pos h2, hd]
      simp only [bind, Except.bind, hput]
      rfl
    · refine ⟨result, n, i, ?_, rfl, le_rfl, Nat.le_succ i⟩
      rw [if_neg h2, if_neg (mask_high (by decide) h2), if_neg (mask_high (by decide) h2),
        if_neg (mask_high (by decide) h2), if_neg (mask_high (by decide) h2)]
      rfl

theorem utf8ToStrAt_ok {pin result : Str} {n i rounds : ℕ}
    (hr : (cstr pin).length - n < rounds) (hres : result.length = (cstr pin).length + 1)
    (hi : i ≤ n) (hi' : i ≤ (cstr pin).length) :
    ∃ out, utf8ToStrAt (strcpy pin) (cstr pin).length rounds result n i = .ok out := by
  induction rounds generalizing result n i with
  | zero => omega
  | succ rounds ih =>
    rw [utf8ToStrAt]
    by_cases hn : n < (cstr pin).length
    · obtain ⟨result', n', i', hchar, hlen, hnn, hii⟩ :=
        @utf8Char_inside pin result n i hn (by omega) (cstr pin)[n]
      simp only [if_pos hn, load_strcpy hn, hchar, bind, Except.bind]
      exact ih (by omega) (hlen.trans hres) (by omega) (by omega)
    · obtain ⟨out, hput, -⟩ := put_inside (by omega : i < result.length) nul
      rw [if_neg hn, hput]
      exact ⟨out, rfl⟩

theorem utf8Bytes_nul {c : Byte} (hc : c ≠ nul) : nul ∉ utf8Bytes c := by
  have hhigh : ∀ c : Byte, c >>> 6 ||| 192 ≠ nul ∧ c &&& 63 ||| 128 ≠ nul := by
    decide +kernel
  rw [utf8Bytes]
  split_ifs
  · simpa using Ne.symm hc
  · simpa using ⟨(hhigh c).1.symm, (hhigh c).2.symm⟩

theorem flatMap_utf8Bytes_nul {s : Str} (hs : nul ∉ s) : nul ∉ s.flatMap utf8Bytes := by
  intro h
  obtain ⟨c, hc, hn⟩ := List.mem_flatMap.mp h
  exact utf8Bytes_nul (fun he => hs (he ▸ hc)) hn

theorem strToUtf8At_plain {pin u v a gap : Str} {rounds : ℕ} (hs : cstr pin = u ++ v)
    (hesc : esc ∉ v) (hr : v.length < rounds) (hgap : (v.flatMap utf8Bytes).length < gap.length) :
    ∃ rest, strToUtf8At (strcpy pin) (cstr pin).length rounds (a ++ gap) u.length a.length =
      .ok (a ++ (v.flatMap utf8Bytes ++ nul :: rest)) := by
  induction v generalizing u a gap rounds with
  | nil =>
    obtain ⟨rounds, rfl⟩ : ∃ m, rounds = m + 1 := ⟨rounds - 1, by simp at hr; omega⟩
    obtain ⟨g, gap, rfl⟩ := List.exists_cons_of_length_pos (by omega : 0 < gap.length)
    refine ⟨gap, ?_⟩
    rw [strToUtf8At, if_neg (by simp [hs]), put_append]
    rfl
  | cons c v ih =>
    obtain ⟨rounds, rfl⟩ : ∃ m, rounds = m + 1 := ⟨rounds - 1, by simp at hr; omega⟩
    simp only [List.mem_cons, not_or] at hesc
    rw [List.flatMap_cons, List.length_append] at hgap
    have hn : u.length < (cstr pin).length := by
      rw [hs, List.length_append, List.length_cons]
      omega
    have hload : load (strcpy pin) u.length = .ok c := by
      rw [strcpy, hs, List.append_assoc]
      exact load_append u c _
    have htake : (gap.take (utf8Bytes c).length).length = (utf8Bytes c).length :=
      List.length_take_of_le (by omega)
    have hput := putAll_append a (utf8Bytes c) (gap.drop (utf8Bytes c).length) htake
    rw [List.take_append_drop] at hput
    obtain ⟨rest, hrest⟩ := @ih (u ++ [c]) (a ++ utf8Bytes c) (gap.drop (utf8Bytes c).length) rounds
      (by simp [hs]) hesc.2 (by simpa using hr) (by rw [List.length_drop]; omega)
    refine ⟨rest, ?_⟩
    rw [strToUtf8At, if_pos hn, hload]
    simp only [bind, Except.bind, if_neg (Ne.symm hesc.1), hput]
    simpa [List.append_assoc] using hrest

theorem utf8ToStrAt_plain {pin u v a gap : Str} {rounds : ℕ}
    (hs : cstr pin = u ++ v.flatMap utf8Bytes) (hr : v.length < rounds)
    (hgap : v.length < gap.length) :
    ∃ rest, utf8ToStrAt (strcpy pin) (cstr pin).length rounds (a ++ gap) u.length a.length =
      .ok (a ++ (v ++ nul :: rest)) := by
  induction v generalizing u a gap rounds with
  | nil =>
    obtain ⟨rounds, rfl⟩ : ∃ m, rounds = m + 1 := ⟨rounds - 1, by simp at hr; omega⟩
    obtain ⟨g, gap, rfl⟩ := List.exists_cons_of_length_pos (by omega : 0 < gap.length)
    refine ⟨gap, ?_⟩
    rw [utf8ToStrAt, if_neg (by simp [hs]), put_append]
    rfl
  | cons c v ih =>
    obtain ⟨rounds, rfl⟩ : ∃ m, rounds = m + 1 := ⟨rounds - 1, by simp at hr; omega⟩
    obtain ⟨g, gap, rfl⟩ := List.exists_cons_of_length_pos (by omega : 0 < gap.length)
    obtain ⟨rest, hrest⟩ := @ih (u ++ utf8Bytes c) (a ++ [c]) gap rounds
      (by simp [hs]) (by simpa using hr) (by simpa using hgap)
    refine ⟨rest, ?_⟩
    have hputs : ∀ d, put (a ++ g :: gap) a.length d = .ok (a ++ d :: gap) :=
      fun d => put_append a g d gap
    simp only [List.length_append, List.append_assoc, List.singleton_append,
      List.length_singleton] at hrest
    by_cases h128 : c < 128
    · have hbytes : utf8Bytes c = [c] := by rw [utf8Bytes, if_pos h128]
      have hload : load (strcpy pin) u.length = .ok c := by
        rw [strcpy, hs, List.flatMap_cons, hbytes, List.append_assoc]
        exact load_append u c _
      have hn : u.length < (cstr pin).length := by simp [hs, hbytes]
      rw [utf8ToStrAt, if_pos hn, hload]
      simp only [utf8Char, if_pos h128, hputs, bind, Except.bind, pure, Except.pure]
      simpa [hbytes] using hrest
    · have hbits : ∀ c : Byte, ¬ c < 128 → ¬ (c >>> 6 ||| 192) < 128 ∧
          (c >>> 6 ||| 192) &&& 0xC0 = 0xC0 ∧
          ((c >>> 6 ||| 192) &&& 3) <<< 6 ||| (c &&& 63 ||| 128) &&& 0x3F = c := by
        decide +kernel
      obtain ⟨hhigh, hmask, hback⟩ := hbits c h128
      have hbytes : utf8Bytes c = [c >>> 6 ||| 192, c &&& 63 ||| 128] := by
        rw [utf8Bytes, if_neg h128]
      have hload : load (strcpy pin) u.length = .ok (c >>> 6 ||| 192) := by
        rw [strcpy, hs, List.flatMap_cons, hbytes, List.append_assoc]
        exact load_append u _ _
      have hload' : load (strcpy pin) (u.length + 1) = .ok (c &&& 63 ||| 128) := by
        have happ := load_append (u ++ [c >>> 6 ||| 192]) (c &&& 63 ||| 128)
          (v.flatMap utf8Bytes ++ [nul])
        rw [strcpy, hs, List.flatMap_cons, hbytes]
        simpa [List.append_assoc] using happ
      have hn : u.length < (cstr pin).length := by simp [hs, hbytes]
      rw [utf8ToStrAt, if_pos hn, hload]
      simp only [utf8Char, if_neg hhigh, if_pos hmask, hload', hback, hputs, bind, Except.bind, pure,
        Except.pure]
      simpa [hbytes] using hrest

theorem flatMap_utf8Bytes_length (s : Str) :
    s.length ≤ (s.flatMap utf8Bytes).length ∧ (s.flatMap utf8Bytes).length ≤ s.length * 2 := by
  induction s with
  | nil => exact ⟨le_rfl, le_rfl⟩
  | cons c s ih =>
    have hle := utf8Bytes_length c
    have hpos : 0 < (utf8Bytes c).length := by
      rw [utf8Bytes]
      split_ifs
      · exact Nat.one_pos
      · exact Nat.two_pos
    rw [List.flatMap_cons, List.length_append, List.length_cons]
    omega

theorem str_to_utf8_plain {pin result : Str} (hres : result.length = utf8Size pin)
    (hesc : esc ∉ cstr pin) : str_to_utf8 result pin = .ok ((cstr pin).flatMap utf8Bytes) := by
  have hlen := (flatMap_utf8Bytes_length (cstr pin)).2
  have hsize : ((cstr pin).flatMap utf8Bytes).length < result.length := by
    rw [hres, utf8Size]
    omega
  obtain ⟨rest, hconv⟩ := @strToUtf8At_plain pin [] (cstr pin) [] result ((cstr pin).length + 1)
    rfl hesc (Nat.lt_succ_self _) hsize
  have hnul := flatMap_utf8Bytes_nul (nul_not_mem_cstr pin)
  simp only [List.nil_append, List.length_nil] at hconv
  simp only [str_to_utf8, hconv, Except.map, cstr_append_nul, cstr_eq_self hnul]

theorem utf8_to_str_plain {s buf : Str} (hs : nul ∉ s)
    (hbuf : buf.length = (s.flatMap utf8Bytes).length + 1) :
    utf8_to_str buf (s.flatMap utf8Bytes) = .ok s := by
  have hcstr := cstr_eq_self (flatMap_utf8Bytes_nul hs)
  have hlen := (flatMap_utf8Bytes_length s).1
  obtain ⟨rest, hconv⟩ := @utf8ToStrAt_plain (s.flatMap utf8Bytes) [] s [] buf
    ((s.flatMap utf8Bytes).length + 1) hcstr (by omega) (by omega)
  rw [hcstr] at hconv
  simp only [List.nil_append, List.length_nil] at hconv
  simp only [utf8_to_str, hcstr, hconv, Except.map, cstr_append_nul, cstr_eq_self hs]

/-- Neither function leaves its text or its buffer, and what is converted without an escape
comes back, exactly if the text does not end in an escape. -/
theorem conversion_iff {pin result back : Str} (hres : result.length = utf8Size pin)
    (hback : back.length = (cstr pin).length + 1) :
    ((∃ out, str_to_utf8 result pin = .ok out) ∧ (∃ out, utf8_to_str back pin = .ok out) ∧
      (esc ∉ cstr pin → ∃ mid, str_to_utf8 result pin = .ok mid ∧
        ∀ buf : Str, buf.length = mid.length + 1 → utf8_to_str buf mid = .ok (cstr pin))) ↔
      ¬ EndsInEscape (cstr pin) := by
  have hiff := @strToUtf8At_iff pin result 0 0 ((cstr pin).length + 1) (by omega) hres le_rfl
    (by omega)
  rw [List.drop_zero] at hiff
  have hsafe : (∃ out, str_to_utf8 result pin = .ok out) ↔ ¬ EndsInEscape (cstr pin) := by
    rw [EndsInEscape, ← ne_eq, ← hiff, str_to_utf8]
    constructor
    · rintro ⟨out, h⟩
      cases hloop : strToUtf8At (strcpy pin) (cstr pin).length ((cstr pin).length + 1) result 0 0 with
      | error e => simp [hloop, Except.map] at h
      | ok out => exact ⟨out, rfl⟩
    · rintro ⟨out, h⟩
      exact ⟨cstr out, by simp only [h]; rfl⟩
  constructor
  · intro h
    exact hsafe.mp h.1
  · intro h
    refine ⟨hsafe.mpr h, ?_, ?_⟩
    · obtain ⟨out, hout⟩ := @utf8ToStrAt_ok pin back 0 0 ((cstr pin).length + 1) (by omega) hback
        le_rfl (by omega)
      exact ⟨cstr out, by simp only [utf8_to_str, hout]; rfl⟩
    · intro hesc
      refine ⟨_, str_to_utf8_plain hres hesc, fun buf hbuf => ?_⟩
      exact utf8_to_str_plain (nul_not_mem_cstr pin) hbuf

/-- A text with an escape sequence in it, and one without. -/
theorem conversion_latin :
    (∃ out, str_to_utf8 (List.replicate 15 nul) [97, 27, 40, 120, 51, 65, 233] = .ok out) ∧
      (∃ out, utf8_to_str (List.replicate 8 nul) [97, 27, 40, 120, 51, 65, 233] = .ok out) ∧
      ∃ mid, str_to_utf8 (List.replicate 9 nul) [99, 97, 102, 233] = .ok mid ∧
        ∀ buf : Str, buf.length = mid.length + 1 →
          utf8_to_str buf mid = .ok [99, 97, 102, 233] := by
  obtain ⟨hto, hfrom, -⟩ := (@conversion_iff [97, 27, 40, 120, 51, 65, 233] (List.replicate 15 nul)
    (List.replicate 8 nul) (by decide) (by decide)).mpr (by decide)
  obtain ⟨-, -, hboth⟩ := (@conversion_iff [99, 97, 102, 233] (List.replicate 9 nul)
    (List.replicate 5 nul) (by decide) (by decide)).mpr (by decide)
  exact ⟨hto, hfrom, hboth (by decide)⟩

/-- An escape as the last character: the character behind the NUL is read. -/
theorem escape_last : str_to_utf8 [0, 0, 0, 0, 0] [97, 27] = .error .pastEnd := by
  rfl

end CenterIM.CharsetEscapes
