import CenterIM.StrText

/-!
# Opening a URL

`execaction("openurl", url)` escapes the quotes of the URL and puts it for `$url$` in the
command that the user has configured. The loops count their turns; no result means that
the turns were not enough.
-/
namespace CenterIM.OpenUrl
open ByteText StrText

def quote : Byte := 39
def dquote : Byte := 34
def placeholder : Str := bytes "$url$"

/-- `url.find(c, pos)`. -/
def findFrom (c : Byte) (url : Str) (pos : ℕ) : Option ℕ :=
  (find [c] (url.drop pos)).map (· + pos)

/-- `snprintf(enc, 4, "%%%02X", c)` for a quote. -/
def enc (c : Byte) : Str := [37, hexDigit (c >>> 4 &&& 15), hexDigit (c &&& 15)]

/-- The loop that escapes quotes: single ones are looked for first. -/
def quoteLoop : ℕ → Str → ℕ → Option Str
  | 0, _, _ => none
  | n + 1, url, pos =>
    match (findFrom quote url pos).or (findFrom dquote url pos) with
    | none => some url
    | some fnd =>
      quoteLoop n (url.take fnd ++ enc (url.getD fnd nul) ++ url.drop (fnd + 1)) (fnd + 3)

def substLoop (url : Str) : ℕ → Str → Option Str
  | 0, _ => none
  | n + 1, torun =>
    match find placeholder torun with
    | none => some torun
    | some npos => substLoop url n (torun.take npos ++ url ++ torun.drop (npos + 5))

/-- The command that `execaction(name, param)` gives to the shell. -/
def execaction (actions : Str → Str) (n : ℕ) (name param : Str) : Option Str :=
  if name = bytes "openurl" then do
    let url ← quoteLoop n param 0
    substLoop url n (actions name)
  else some (actions name)

def quoted (url : Str) : Str := url.flatMap fun c => if c = quote ∨ c = dquote then enc c else [c]

/-- What the loop makes of a URL: a double quote before a single one stays. -/
def escaped : Str → Str
  | [] => []
  | c :: s => (if c = quote ∨ c = dquote ∧ quote ∉ s then enc c else [c]) ++ escaped s

section Loop

variable {c d : Byte} {a s : Str}

/-- The place of a character among those after `pos`. -/
theorem findFrom_char (done : Str) (h : c ∉ a) :
    findFrom c (done ++ (a ++ c :: s)) done.length = some (done.length + a.length) := by
  rw [findFrom, List.drop_left, find_char h]
  simp [Nat.add_comm]

theorem findFrom_none (done : Str) (h : c ∉ s) : findFrom c (done ++ s) done.length = none := by
  rw [findFrom, List.drop_left, find_char_none h]
  rfl

theorem quoteLoop_step (n : ℕ) (done : Str)
    (h : (findFrom quote (done ++ (a ++ c :: s)) done.length).or
      (findFrom dquote (done ++ (a ++ c :: s)) done.length) = some (done.length + a.length)) :
    quoteLoop (n + 1) (done ++ (a ++ c :: s)) done.length =
      quoteLoop n ((done ++ (a ++ enc c)) ++ s) (done ++ (a ++ enc c)).length := by
  have htake : (done ++ (a ++ c :: s)).take (done.length + a.length) = done ++ a := by
    rw [← List.append_assoc, ← List.length_append, List.take_left]
  have hdrop : (done ++ (a ++ c :: s)).drop (done.length + a.length + 1) = s := by
    rw [← List.append_assoc, ← List.length_append, List.drop_append]
    simp
  have hget : (done ++ (a ++ c :: s)).getD (done.length + a.length) nul = c := by
    rw [← List.append_assoc, ← List.length_append]
    simp
  have hlen : (done ++ (a ++ enc c)).length = done.length + a.length + 3 := by
    simp [enc, Nat.add_assoc]
  rw [quoteLoop, h]
  simp only [htake, hdrop, hget, hlen]
  simp

theorem escaped_before (hq : quote ∈ s) (h : quote ∉ a) : escaped (a ++ s) = a ++ escaped s := by
  induction a with
  | nil => rfl
  | cons d a ih =>
    simp only [List.mem_cons, not_or] at h
    rw [List.cons_append, escaped, ih h.2, if_neg]
    · rfl
    · rintro (hd | ⟨-, hn⟩)
      · exact h.1 hd.symm
      · exact hn (List.mem_append.mpr (Or.inr hq))

/-- Without single quotes nothing before the first double one is escaped. -/
theorem escaped_plain (hq : quote ∉ a) (hd : dquote ∉ a) : escaped (a ++ s) = a ++ escaped s := by
  induction a with
  | nil => rfl
  | cons e a ih =>
    simp only [List.mem_cons, not_or] at hq hd
    rw [List.cons_append, escaped, ih hq.2 hd.2, if_neg]
    · rfl
    · rintro (h | ⟨h, -⟩)
      · exact hq.1 h.symm
      · exact hd.1 h.symm

/-- The loop, started behind `done`, escapes what follows. -/
theorem quoteLoop_eq (done s : Str) (n : ℕ) (hn : s.length < n) :
    quoteLoop n (done ++ s) done.length = some (done ++ escaped s) := by
  induction n generalizing done s with
  | zero => omega
  | succ n ih =>
    by_cases hq : quote ∈ s
    · obtain ⟨a, t, rfl, ha⟩ := List.eq_append_cons_of_mem hq
      have hfind := findFrom_char (s := t) done ha
      have hshort : t.length < n := by simp at hn; omega
      have hesc : escaped (quote :: t) = enc quote ++ escaped t := by simp [escaped]
      rw [quoteLoop_step n done (by rw [hfind]; rfl), ih _ t hshort, escaped_before (by simp) ha,
        hesc]
      simp
    · by_cases hd : dquote ∈ s
      · obtain ⟨a, t, rfl, ha⟩ := List.eq_append_cons_of_mem hd
        have hfind := findFrom_char (s := t) done ha
        have hnone := findFrom_none done hq
        have hshort : t.length < n := by simp at hn; omega
        have haq : quote ∉ a := fun h => hq (List.mem_append.mpr (Or.inl h))
        have htq : quote ∉ t := fun h => hq (by simp [h])
        have hesc : escaped (dquote :: t) = enc dquote ++ escaped t := by simp [escaped, htq]
        rw [quoteLoop_step n done (by rw [hnone, hfind]; rfl), ih _ t hshort,
          escaped_plain haq ha, hesc]
        simp
      · have hesc := escaped_plain (s := []) hq hd
        simp only [List.append_nil, escaped] at hesc
        rw [quoteLoop, findFrom_none done hq, findFrom_none done hd, hesc]
        rfl

end Loop

/-- The loop ends, with the text of `escaped`, and says nothing else. -/
theorem quoteLoop_some (url : Str) (n : ℕ) {r : Str} (h : quoteLoop n url 0 = some r) :
    r = escaped url := by
  have hmono : ∀ (m : ℕ) (u : Str) (pos : ℕ), quoteLoop m u pos = some r →
      ∀ k, m ≤ k → quoteLoop k u pos = some r := by
    intro m
    induction m with
    | zero =>
      intro u pos hr
      simp [quoteLoop] at hr
    | succ m ih =>
      intro u pos hr k hk
      obtain ⟨k, rfl⟩ := Nat.exists_eq_add_of_lt hk
      rw [quoteLoop] at hr ⊢
      split at hr
      · exact hr
      · exact ih _ _ hr _ (by omega)
  have hend := quoteLoop_eq [] url (max n (url.length + 1)) (by omega)
  have hlong := hmono n url 0 h _ (le_max_left n (url.length + 1))
  rw [List.nil_append, List.length_nil, hlong] at hend
  simpa using hend

theorem quoted_cons (c : Byte) (s : Str) :
    quoted (c :: s) = (if c = quote ∨ c = dquote then enc c else [c]) ++ quoted s := by
  simp [quoted]

/-- All quotes are escaped if and only if no double one comes before a single one. -/
theorem escaped_eq_quoted_iff (url : Str) :
    escaped url = quoted url ↔ ¬ [dquote, quote].Sublist url := by
  induction url with
  | nil => simp [escaped, quoted]
  | cons c s ih =>
    rw [escaped, quoted_cons, List.sublist_cons_iff]
    by_cases hc : c = dquote ∧ quote ∈ s
    · obtain ⟨rfl, hq⟩ := hc
      have hkeep : ¬ (dquote = quote ∨ dquote = dquote ∧ quote ∉ s) := by
        rintro (h | h)
        · exact absurd h (by decide)
        · exact h.2 hq
      rw [if_neg hkeep, if_pos (Or.inr rfl)]
      constructor
      · intro h
        exact absurd (List.cons.inj h).1 (by decide)
      · intro h
        exact absurd (Or.inr ⟨[quote], rfl, List.singleton_sublist.mpr hq⟩) h
    · have hif : (c = quote ∨ c = dquote ∧ quote ∉ s) ↔ (c = quote ∨ c = dquote) := by tauto
      have htail : (∃ r, [dquote, quote] = c :: r ∧ r.Sublist s) ↔ False := by
        refine iff_false_intro ?_
        rintro ⟨r, hr, hs⟩
        obtain ⟨rfl, rfl⟩ := List.cons.inj hr
        exact hc ⟨rfl, List.singleton_sublist.mp hs⟩
      rw [if_congr hif rfl rfl, List.append_cancel_left_eq, ih, htail, or_false]

theorem quoted_no_quotes (url : Str) : quote ∉ quoted url ∧ dquote ∉ quoted url := by
  induction url with
  | nil => simp [quoted]
  | cons c s ih =>
    obtain ⟨hq, hd⟩ := ih
    rw [quoted_cons]
    have hc : ∀ d, d = quote ∨ d = dquote →
        d ∉ (if c = quote ∨ c = dquote then enc c else [c]) := by
      intro d hd
      split_ifs with h
      · rcases h with rfl | rfl <;> rcases hd with rfl | rfl <;> decide
      · rintro hm
        rw [List.mem_singleton.mp hm] at hd
        exact h hd
    simp only [List.mem_append, not_or]
    exact ⟨⟨hc _ (Or.inl rfl), hq⟩, hc _ (Or.inr rfl), hd⟩

/-- The URL that is put in the command has no quotes and is otherwise the URL received. -/
def Quoted (url : Str) : Prop :=
  ∃ n r, quoteLoop n url 0 = some r ∧ quote ∉ r ∧ dquote ∉ r ∧ r = quoted url

theorem url_quoted_iff (url : Str) : Quoted url ↔ ¬ [dquote, quote].Sublist url := by
  rw [← escaped_eq_quoted_iff]
  constructor
  · rintro ⟨n, r, hr, -, -, rfl⟩
    exact (quoteLoop_some url n hr).symm
  · intro h
    refine ⟨url.length + 1, quoted url, ?_, (quoted_no_quotes url).1, (quoted_no_quotes url).2, rfl⟩
    have hloop := quoteLoop_eq [] url _ (Nat.lt_succ_self url.length)
    rw [h] at hloop
    exact hloop

theorem url_not_quoted :
    ¬ Quoted (bytes "http://x/\"; reboot; '") ∧
      quoteLoop 3 (bytes "http://x/\"; reboot; '") 0 = some (bytes "http://x/\"; reboot; %27") := by
  refine ⟨?_, by decide⟩
  rintro ⟨n, r, hr, -, hd, -⟩
  rw [quoteLoop_some _ n hr] at hd
  exact hd (by decide)

end CenterIM.OpenUrl
