import CenterIM.StrText

/-!
# The buffers of mime and unmime

`mime` and `unmime` work on C strings: the first writes into a buffer three times as long as
its text, the second overwrites its text. `unmime` steps over the two characters behind a `%`
without looking whether they are there, and keeps its last number where there is none.
-/
namespace CenterIM.MimeBuffers
open ByteText Decimal StrText

/-- `text[i]`. -/
def load (text : Str) (i : ℕ) : Except Fault Byte :=
  match text[i]? with
  | some c => .ok c
  | none => .error .pastEnd

/-- `text[i] = c`. -/
def put (text : Str) (i : ℕ) (c : Byte) : Except Fault Str :=
  if i < text.length then .ok (text.set i c) else .error .pastEnd

/-- The buffer that `strcpy` makes of a text. -/
def strcpy (text : Str) : Str := cstr text ++ [nul]

/-- What `unmime` writes for the character at `s`, how many more it steps over, and what is in
`htm` then. -/
def unmimeChar (text : Str) (s : ℕ) (htm : Option Byte) (c : Byte) :
    Except Fault (Byte × ℕ × Option Byte) :=
  if c = 43 then .ok (blank, 0, htm)
  else if c = 37 then
    -- `sscanf` reads up to the NUL
    if nul ∈ text.drop (s + 1) then
      match (scanHex2 (cstr (text.drop (s + 1)))).or htm with
      | some v => .ok (v, 2, some v)
      | none => .error .uninitialised
    else .error .pastEnd
  else .ok (c, 0, htm)

/-- The loop of `unmime(char *)`. After as many rounds as there are characters, `s` is outside. -/
def unmimeAt : ℕ → Str → ℕ → ℕ → Option Byte → Except Fault Str
  | 0, _, _, _, _ => .error .pastEnd
  | rounds + 1, text, s, d, htm =>
    match load text s with
    | .error e => .error e
    | .ok c =>
      if c = nul then put text d nul
      else
        match unmimeChar text s htm c with
        | .error e => .error e
        | .ok (v, skip, htm) =>
          match put text d v with
          | .error e => .error e
          | .ok text => unmimeAt rounds text (s + skip + 1) (d + 1) htm

/-- `unmime(char *)`. -/
def unmimeBuffer (text : Str) : Except Fault Str := unmimeAt text.length text 0 0 none

/-- `unmime(const string &)` with its buffer. -/
def unmimeString (text : Str) : Except Fault Str := (unmimeBuffer (strcpy text)).map cstr

/-- Several characters written one after the other, `dst[d++] = c`. -/
def putAll : Str → ℕ → Str → Except Fault Str
  | dst, _, [] => .ok dst
  | dst, d, c :: cs =>
    match put dst d c with
    | .error e => .error e
    | .ok dst => putAll dst (d + 1) cs

/-- The loop of `mime(char *, const char *)`. -/
def mimeAt : Str → Str → ℕ → Except Fault Str
  | [], dst, d => put dst d nul
  | c :: src, dst, d =>
    match putAll dst d (mimeByte c) with
    | .error e => .error e
    | .ok dst => mimeAt src dst (d + (mimeByte c).length)

/-- `mime(const string &)`, with what its new buffer holds. -/
def mimeString (buf text : Str) : Except Fault Str := (mimeAt (cstr text) buf 0).map cstr

theorem load_append (a : Str) (c : Byte) (t : Str) : load (a ++ c :: t) a.length = .ok c := by
  simp [load]

theorem load_outside {text : Str} {i : ℕ} (h : text.length ≤ i) :
    load text i = .error .pastEnd := by
  rw [load, List.getElem?_eq_none h]

theorem put_append (a : Str) (c v : Byte) (t : Str) :
    put (a ++ c :: t) a.length v = .ok (a ++ v :: t) := by
  simp [put]

section Mime

theorem putAll_append {gap : Str} (a cs rest : Str) (h : gap.length = cs.length) :
    putAll (a ++ (gap ++ rest)) a.length cs = .ok (a ++ (cs ++ rest)) := by
  induction cs generalizing a gap with
  | nil => rw [List.length_eq_zero_iff.mp h]; rfl
  | cons c cs ih =>
    cases gap with
    | nil => simp at h
    | cons g gap =>
      have hrest := ih (a ++ [c]) (Nat.succ.inj h)
      simp only [List.append_assoc, List.singleton_append, List.length_append,
        List.length_singleton] at hrest
      rw [putAll, List.cons_append, put_append]
      exact hrest

theorem mimeByte_length (c : Byte) : (mimeByte c).length ≤ 3 := by
  unfold mimeByte
  split_ifs
  · exact Nat.le_of_ble_eq_true rfl
  · exact le_rfl
  · exact Nat.le_of_ble_eq_true rfl

theorem flatMap_mimeByte_length (src : Str) :
    (src.flatMap mimeByte).length ≤ 3 * src.length := by
  induction src with
  | nil => exact le_rfl
  | cons c src ih =>
    have hc := mimeByte_length c
    rw [List.flatMap_cons, List.length_append, List.length_cons]
    omega

/-- The loop fills a buffer that is long enough, and ends the text in it. -/
theorem mimeAt_fits (src a buf : Str) (h : (src.flatMap mimeByte).length < buf.length) :
    mimeAt src (a ++ buf) a.length =
      .ok (a ++ (src.flatMap mimeByte ++ nul :: buf.drop ((src.flatMap mimeByte).length + 1))) := by
  induction src generalizing a buf with
  | nil =>
    cases buf with
    | nil => simp at h
    | cons g buf => exact put_append a g nul buf
  | cons c src ih =>
    rw [List.flatMap_cons, List.length_append] at h ⊢
    have hgap : (buf.take (mimeByte c).length).length = (mimeByte c).length :=
      List.length_take_of_le (by omega)
    have hput := putAll_append a (mimeByte c) (buf.drop (mimeByte c).length) hgap
    rw [List.take_append_drop] at hput
    have hrest := ih (a ++ mimeByte c) (buf.drop (mimeByte c).length)
      (by rw [List.length_drop]; omega)
    rw [List.length_append, List.append_assoc, List.append_assoc, List.drop_drop] at hrest
    rw [mimeAt, hput]
    refine hrest.trans ?_
    rw [List.append_assoc, Nat.add_assoc]

end Mime

section Unmime

theorem cstr_append_nul (t s : Str) : cstr (t ++ nul :: s) = cstr t := by
  induction t with
  | nil => rfl
  | cons c t ih =>
    rw [List.cons_append, cstr, cstr, List.takeWhile_cons, List.takeWhile_cons]
    split
    · exact congrArg (c :: ·) ih
    · rfl

theorem unmimeAt_outside {text : Str} {s : ℕ} (h : text.length ≤ s) (rounds d : ℕ)
    (htm : Option Byte) : unmimeAt rounds text s d htm = .error .pastEnd := by
  cases rounds with
  | zero => rfl
  | succ rounds => rw [unmimeAt, load_outside h]

/-- Writing behind what is done takes one character off the front of what was passed over. -/
theorem put_gap (done gap rest : Str) (c v : Byte) : ∃ gap' : Str, gap'.length = gap.length ∧
    put (done ++ (gap ++ c :: rest)) done.length v = .ok ((done ++ [v]) ++ (gap' ++ rest)) := by
  cases gap with
  | nil => exact ⟨[], rfl, by simpa using put_append done c v rest⟩
  | cons g gap =>
    refine ⟨gap ++ [c], by simp, ?_⟩
    simpa using put_append done g v (gap ++ c :: rest)

/-- The loop in the buffer has done `done`, passed over `gap`, and leaves what the decoding of
the rest says, or both go wrong. -/
def Agrees (done : Str) (decoded buffer : Except Fault Str) : Prop :=
  match decoded with
  | .ok r => ∃ rest, buffer = .ok (done ++ (r ++ nul :: rest))
  | .error _ => ∃ e, buffer = .error e

theorem agrees_map {done : Str} {v : Byte} {decoded buffer : Except Fault Str}
    (h : Agrees (done ++ [v]) decoded buffer) :
    Agrees done (decoded.map (v :: ·)) buffer := by
  cases decoded with
  | error e => exact h
  | ok r =>
    obtain ⟨rest, hr⟩ := h
    exact ⟨rest, by simpa using hr⟩

variable {done gap t : Str} {htm : Option Byte}

theorem unmimeAt_step {rounds skip : ℕ} {c v : Byte} {htm' : Option Byte} {decoded} (hc : c ≠ nul)
    (hchar : unmimeChar (done ++ (gap ++ c :: t)) (done ++ gap).length htm c = .ok (v, skip, htm'))
    (h : ∀ gap' : Str, gap'.length = gap.length → Agrees (done ++ [v]) decoded
      (unmimeAt rounds ((done ++ [v]) ++ (gap' ++ t)) ((done ++ [v]).length + (gap'.length + skip))
        (done ++ [v]).length htm')) :
    Agrees done (decoded.map (v :: ·))
      (unmimeAt (rounds + 1) (done ++ (gap ++ c :: t)) (done.length + gap.length)
        done.length htm) := by
  obtain ⟨gap', hlen, hput⟩ := put_gap done gap t c v
  have hload : load (done ++ (gap ++ c :: t)) (done ++ gap).length = .ok c := by
    rw [← List.append_assoc]
    exact load_append (done ++ gap) c t
  have hnext := agrees_map (h gap' hlen)
  have hs : (done ++ gap).length + skip + 1 = (done ++ [v]).length + (gap'.length + skip) := by
    simp only [List.length_append, List.length_singleton, hlen]
    omega
  have hd : done.length + 1 = (done ++ [v]).length := by simp
  rw [← List.length_append, unmimeAt, hload]
  simp only [if_neg hc, hchar, hput]
  rwa [hs, hd]

theorem unmimeChar_escape (ht : nul ∉ t) (done gap : Str) (htm : Option Byte) :
    unmimeChar (done ++ (gap ++ 37 :: (t ++ [nul]))) (done ++ gap).length htm 37 =
      match (scanHex2 t).or htm with
      | some v => .ok (v, 2, some v)
      | none => .error .uninitialised := by
  have hdrop : (done ++ (gap ++ 37 :: (t ++ [nul]))).drop ((done ++ gap).length + 1) =
      t ++ [nul] := by
    have hsplit : done ++ (gap ++ 37 :: (t ++ [nul])) = (done ++ gap ++ [37]) ++ (t ++ [nul]) := by
      simp
    have hlen : (done ++ gap).length + 1 = (done ++ gap ++ [37]).length := by
      rw [List.length_append, List.length_append, List.length_append, List.length_singleton]
    rw [hsplit, hlen, List.drop_left]
  rw [unmimeChar, hdrop, cstr_append_nul, cstr_eq_self ht]
  simp

/-- A `%` with less than two characters behind it leads out of the buffer, if not to a number
that is not there. -/
theorem unmimeAt_short (ht : nul ∉ t) (hshort : t.length < 2) (rounds : ℕ) (done gap : Str)
    (htm : Option Byte) : ∃ e, unmimeAt (rounds + 1) (done ++ (gap ++ 37 :: (t ++ [nul])))
      (done.length + gap.length) done.length htm = .error e := by
  have hload : load (done ++ (gap ++ 37 :: (t ++ [nul]))) (done ++ gap).length = .ok 37 := by
    rw [← List.append_assoc]
    exact load_append (done ++ gap) 37 (t ++ [nul])
  rw [← List.length_append, unmimeAt, hload]
  simp only [unmimeChar_escape ht]
  cases (scanHex2 t).or htm with
  | none => exact ⟨_, rfl⟩
  | some v =>
    obtain ⟨gap', hlen, hput⟩ := put_gap done gap (t ++ [nul]) 37 v
    refine ⟨.pastEnd, ?_⟩
    simp only [hput]
    apply unmimeAt_outside
    simp only [List.length_append, List.length_singleton, hlen]
    omega

/-- The loop in the buffer does what the decoding of the text says, from every round on. -/
theorem unmimeAt_agrees (ht : nul ∉ t) {rounds : ℕ} (hr : t.length < rounds)
    (done gap : Str) (htm : Option Byte) :
    Agrees done (unmimeLoop htm t)
      (unmimeAt rounds (done ++ (gap ++ (t ++ [nul]))) (done.length + gap.length)
        done.length htm) := by
  obtain ⟨rounds, rfl⟩ : ∃ n, rounds = n + 1 := ⟨rounds - 1, by omega⟩
  fun_induction unmimeLoop htm t generalizing rounds done gap with
  | case1 htm =>
    have hload : load (done ++ (gap ++ [nul])) (done.length + gap.length) = .ok nul := by
      rw [← List.length_append, ← List.append_assoc]
      exact load_append (done ++ gap) nul []
    have hput : ∃ rest, put (done ++ (gap ++ [nul])) done.length nul = .ok (done ++ nul :: rest) := by
      obtain ⟨gap', -, h⟩ := put_gap done gap [] nul nul
      exact ⟨gap' ++ [], by simpa using h⟩
    obtain ⟨rest, hput⟩ := hput
    refine ⟨rest, ?_⟩
    rw [unmimeAt, List.nil_append, hload]
    exact hput
  | case2 htm t ih =>
    simp only [List.mem_cons, not_or, List.length_cons] at ht hr
    obtain ⟨rounds, rfl⟩ : ∃ n, rounds = n + 1 := ⟨rounds - 1, by omega⟩
    have hchar : unmimeChar (done ++ (gap ++ 43 :: (t ++ [nul]))) (done ++ gap).length htm 43 =
        .ok (blank, 0, htm) := if_pos rfl
    refine unmimeAt_step (by decide) hchar fun gap' _ => ?_
    exact ih ht.2 (done ++ [blank]) gap' rounds (by omega)
  | case3 htm a b t v hv _ ih =>
    simp only [List.mem_cons, not_or, List.length_cons] at ht hr
    obtain ⟨rounds, rfl⟩ : ∃ n, rounds = n + 1 := ⟨rounds - 1, by omega⟩
    have hab : nul ∉ a :: b :: t := by
      simp only [List.mem_cons, not_or]
      exact ht.2
    have hchar := unmimeChar_escape hab done gap htm
    rw [hv] at hchar
    refine unmimeAt_step (by decide) hchar fun gap' hgap => ?_
    have hnext := ih ht.2.2.2 (done ++ [v]) (gap' ++ [a, b]) rounds (by omega)
    have htext : gap' ++ [a, b] ++ (t ++ [nul]) = gap' ++ (a :: b :: t ++ [nul]) := by simp
    have hlen : (gap' ++ [a, b]).length = gap'.length + 2 := by simp
    rwa [htext, hlen] at hnext
  | case4 htm a b t hv =>
    have hab : nul ∉ a :: b :: t := fun h => ht (List.mem_cons_of_mem _ h)
    have hload : load (done ++ (gap ++ 37 :: (a :: b :: t ++ [nul]))) (done ++ gap).length =
        .ok 37 := by
      rw [← List.append_assoc]
      exact load_append (done ++ gap) 37 (a :: b :: t ++ [nul])
    refine ⟨.uninitialised, ?_⟩
    have hchar := unmimeChar_escape hab done gap htm
    rw [hv] at hchar
    rw [← List.length_append, unmimeAt, List.cons_append, hload]
    simp only [hchar]
    rfl
  | case5 htm t hshort =>
    have htail : nul ∉ t := fun h => ht (List.mem_cons_of_mem _ h)
    refine unmimeAt_short htail ?_ rounds done gap htm
    match t, hshort with
    | [], _ => exact Nat.two_pos
    | [_], _ => exact Nat.one_lt_two
    | a :: b :: t, h => exact (h a b t rfl).elim
  | case6 htm c t h43 h37 ih =>
    simp only [List.mem_cons, not_or, List.length_cons] at ht hr
    obtain ⟨rounds, rfl⟩ : ∃ n, rounds = n + 1 := ⟨rounds - 1, by omega⟩
    have hchar : unmimeChar (done ++ (gap ++ c :: (t ++ [nul]))) (done ++ gap).length htm c =
        .ok (c, 0, htm) := by
      rw [unmimeChar, if_neg h43, if_neg h37]
    refine unmimeAt_step (Ne.symm ht.1) hchar fun gap' _ => ?_
    exact ih ht.2 (done ++ [c]) gap' rounds (by omega)

theorem unmimeBuffer_agrees (text : Str) :
    Agrees [] (unmimeLoop none (cstr text)) (unmimeBuffer (strcpy text)) := by
  have hlen : (cstr text).length < (strcpy text).length := by simp [strcpy]
  exact unmimeAt_agrees (nul_not_mem_cstr text) hlen [] [] none

/-- The text that `unmime` leaves in its buffer is the decoded one. -/
theorem unmimeString_eq {text r : Str} (h : unmime text = .ok r) : unmimeString text = .ok r := by
  have hagrees := unmimeBuffer_agrees text
  rw [unmime] at h
  cases hl : unmimeLoop none (cstr text) with
  | error e =>
    rw [hl] at h
    cases h
  | ok t =>
    rw [hl] at h hagrees
    obtain ⟨rest, hrest⟩ := hagrees
    rw [unmimeString, hrest, ← Except.ok.inj h]
    exact congrArg Except.ok (cstr_append_nul t rest)

/-- Escaping a text in a new buffer and unescaping it again gives the text, whatever its
characters. The escaped text has no blank, tab, newline or NUL, and it fits the buffer. -/
theorem unmimeString_mimeString {s buf : Str} (hs : nul ∉ s) (hbuf : buf.length = 3 * s.length + 1) :
    mimeString buf s = .ok (mime s) ∧ unmimeString (mime s) = .ok s ∧
      (∀ c ∈ [blank, tab, lf, nul], c ∉ mime s) ∧ (mime s).length + 1 ≤ buf.length := by
  have hlen : (mime s).length ≤ 3 * s.length := by
    rw [mime, cstr_eq_self hs]
    exact flatMap_mimeByte_length s
  refine ⟨?_, unmimeString_eq (unmime_mime hs), ?_, by omega⟩
  · have hfits := mimeAt_fits (cstr s) [] buf (show (mime s).length < buf.length by omega)
    have hm : mimeAt (cstr s) buf 0 = .ok (mime s ++ nul :: buf.drop ((mime s).length + 1)) := hfits
    rw [mimeString, hm]
    refine congrArg Except.ok ?_
    rw [cstr_append_nul, cstr_eq_self (mime_plain s).2]
  · have hkept : ∀ c ∈ [blank, tab, lf, nul], isalnum c = false ∧ c ≠ 43 ∧ c ≠ 37 := by
      decide +kernel
    intro c hc
    obtain ⟨h1, h2, h3⟩ := hkept c hc
    exact not_mem_mime h1 h2 h3 s

theorem unmimeString_mimeString_mixed :
    mimeString (List.replicate 19 255) [32, 37, 43, 10, 200, 97] =
        .ok (mime [32, 37, 43, 10, 200, 97]) ∧
      unmimeString (mime [32, 37, 43, 10, 200, 97]) = .ok [32, 37, 43, 10, 200, 97] := by
  have h := @unmimeString_mimeString [32, 37, 43, 10, 200, 97] (List.replicate 19 255)
    (by decide) (by decide)
  exact ⟨h.1, h.2.1⟩

/-- The texts behind the `%` characters at which `unmime` reads a number, after `skip` more
characters. -/
def escapesFrom : ℕ → Str → List Str
  | _, [] => []
  | 0, c :: s => if c = 37 then s :: escapesFrom 2 s else escapesFrom 0 s
  | skip + 1, _ :: s => escapesFrom skip s

def escapes (text : Str) : List Str := escapesFrom 0 (cstr text)

/-- The decoding comes to its end when every escape is complete and there is a number in the
first one. -/
theorem unmimeLoop_total_iff (htm : Option Byte) (t : Str) :
    (∃ r, unmimeLoop htm t = .ok r) ↔
      (∀ e ∈ escapesFrom 0 t, 2 ≤ e.length) ∧
        (htm = none → ∀ e, (escapesFrom 0 t).head? = some e → scanHex2 e ≠ none) := by
  have hmap : ∀ {v : Byte} {x : Except Fault Str},
      (∃ r, x.map (v :: ·) = .ok r) ↔ ∃ r, x = .ok r := by
    intro v x
    cases x with
    | error e => exact iff_of_false (by rintro ⟨r, h⟩; cases h) (by rintro ⟨r, h⟩; cases h)
    | ok r => exact iff_of_true ⟨_, rfl⟩ ⟨r, rfl⟩
  fun_induction unmimeLoop htm t with
  | case1 htm => exact iff_of_true ⟨[], rfl⟩ ⟨by simp [escapesFrom], by simp [escapesFrom]⟩
  | case2 htm t ih =>
    exact hmap.trans ih
  | case3 htm a b t v hv _ ih =>
    have hesc : escapesFrom 0 (37 :: a :: b :: t) = (a :: b :: t) :: escapesFrom 0 t := rfl
    refine (hmap.trans ih).trans ?_
    rw [hesc]
    simp only [List.mem_cons, forall_eq_or_imp, List.head?_cons, Option.some.injEq,
      forall_eq', reduceCtorEq, false_implies, and_true, List.length_cons]
    constructor
    · intro h
      refine ⟨⟨by omega, h⟩, fun hn hs => ?_⟩
      rw [hn, hs] at hv
      cases hv
    · exact fun h => h.1.2
  | case4 htm a b t hv =>
    have hesc : escapesFrom 0 (37 :: a :: b :: t) = (a :: b :: t) :: escapesFrom 0 t := rfl
    obtain ⟨hs, hn⟩ := Option.or_eq_none_iff.mp hv
    refine iff_of_false (by rintro ⟨r, h⟩; cases h) fun h => ?_
    rw [hesc] at h
    exact h.2 hn _ rfl hs
  | case5 htm t hshort =>
    have hesc : escapesFrom 0 (37 :: t) = t :: escapesFrom 2 t := rfl
    refine iff_of_false (by rintro ⟨r, h⟩; cases h) fun h => ?_
    have hlen := h.1 t (by simp [hesc])
    match t, hshort with
    | [], _ => exact absurd hlen (by decide)
    | [_], _ => exact absurd hlen (Nat.not_succ_le_self 1)
    | a :: b :: t, h => exact h a b t rfl
  | case6 htm c t h43 h37 ih =>
    have hesc : escapesFrom 0 (c :: t) = escapesFrom 0 t := by rw [escapesFrom, if_neg h37]
    rw [hesc]
    exact hmap.trans ih

/-- `unmime` stays inside its text and writes only what the text determines if and only if
every escape in it has its two characters and a number can be read in the first one. -/
theorem unmimeBuffer_total_iff (text : Str) :
    (∃ buf, unmimeBuffer (strcpy text) = .ok buf) ↔
      (∀ e ∈ escapes text, 2 ≤ e.length) ∧
        ∀ e, (escapes text).head? = some e → scanHex2 e ≠ none := by
  have hloop := unmimeLoop_total_iff none (cstr text)
  have hagrees := unmimeBuffer_agrees text
  have hbuf : (∃ buf, unmimeBuffer (strcpy text) = .ok buf) ↔
      ∃ r, unmimeLoop none (cstr text) = .ok r := by
    cases hl : unmimeLoop none (cstr text) with
    | error e =>
      rw [hl] at hagrees
      obtain ⟨e', he⟩ := hagrees
      rw [he]
      exact iff_of_false (by rintro ⟨r, h⟩; cases h) (by rintro ⟨r, h⟩; cases h)
    | ok r =>
      rw [hl] at hagrees
      obtain ⟨rest, hr⟩ := hagrees
      exact iff_of_true ⟨_, hr⟩ ⟨r, rfl⟩
  rw [hbuf, hloop]
  simp only [true_implies]
  rfl

/-- An escape that is cut off leads past the NUL, and one that is no number leaves what is
written undetermined. -/
theorem escape_faults : unmimeBuffer (strcpy (bytes "ab%4")) = .error .pastEnd ∧
    unmimeBuffer (strcpy (bytes "ab%zz")) = .error .uninitialised := by
  decide

end Unmime

end CenterIM.MimeBuffers
