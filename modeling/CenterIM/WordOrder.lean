import CenterIM.StrText

/-!
# Taking the words of a text from either end

`getword` takes the first word off a string and `getrword` the last one. Until the string is
empty the first gives the runs of characters that are no delimiters; the second gives them in
the other order, unless it takes a repeated word for the only one. A set of delimiters is a
C string.
-/
namespace CenterIM.WordOrder
open ByteText StrText

/-- The words that are got until the string is empty; no result means that the turns were not
enough. -/
def words (get : Str → Str × Str) : ℕ → Str → Option (List Str)
  | 0, _ => none
  | n + 1, base =>
    if base = [] then some []
    else (words get n (get base).2).map ((get base).1 :: ·)

def runs (delim s : Str) : List Str := (s.splitOnP (· ∈ delim)).filter (· ≠ [])

def Agree (delim s : Str) : Prop :=
  (∃ n, words (getword · delim) n s = some (runs delim s)) ∧
    ∃ n, words (getrword · delim) n s = some (runs delim s).reverse

/-- The text begins with a word, and the next word is the same. -/
def Stutters (delim s : Str) : Prop :=
  (∀ c, s.head? = some c → c ∉ delim) ∧ ∃ w ws, runs delim s = w :: w :: ws

section Runs

variable {delim s t w : Str} {d : Byte}

theorem runs_append (hd : d ∈ delim) : runs delim (s ++ d :: t) = runs delim s ++ runs delim t := by
  rw [runs, List.splitOnP_append_cons s t (by simpa using hd), List.filter_append, runs, runs]

theorem runs_cons (hd : d ∈ delim) : runs delim (d :: t) = runs delim t :=
  runs_append (s := []) hd

theorem runs_word (hw : ∀ c ∈ w, c ∉ delim) (hne : w ≠ []) : runs delim w = [w] := by
  rw [runs, List.splitOnP_eq_singleton fun c hc => by simpa using hw c hc]
  simp [hne]

theorem runs_leadcut : runs delim (leadcut s delim) = runs delim s := by
  induction s with
  | nil => rfl
  | cons c s ih =>
    by_cases hc : c ∈ delim
    · rw [runs_cons hc, ← ih, leadcut, List.dropWhile_cons_of_pos (by simpa using hc), leadcut]
    · rw [leadcut, List.dropWhile_cons_of_neg (by simpa using hc)]

theorem runs_trailcut : runs delim (trailcut s delim) = runs delim s := by
  induction s using List.reverseRecOn with
  | nil => rfl
  | append_singleton s c ih =>
    by_cases hc : c ∈ delim
    · have hcut : trailcut (s ++ [c]) delim = trailcut s delim :=
        List.rdropWhile_concat_pos _ _ _ (by simpa using hc)
      rw [hcut, ih, runs_append hc]
      exact (List.append_nil _).symm
    · have hkeep : trailcut (s ++ [c]) delim = s ++ [c] :=
        List.rdropWhile_concat_neg _ _ _ (by simpa using hc)
      rw [hkeep]

theorem trailcut_prefix : trailcut s delim <+: s := List.rdropWhile_prefix _ s

theorem runs_eq_nil (h : runs delim s = []) : ∀ c ∈ s, c ∈ delim := by
  induction s with
  | nil => simp
  | cons c s ih =>
    by_cases hc : c ∈ delim
    · rw [runs_cons hc] at h
      intro e he
      obtain rfl | he := List.mem_cons.mp he
      · exact hc
      · exact ih h e he
    · rw [runs, List.splitOnP_cons_eq_if_modifyHead, if_neg (by simpa using hc)] at h
      obtain ⟨x, xs, hx⟩ := List.exists_cons_of_ne_nil
        (List.splitOnP_ne_nil (fun a => decide (a ∈ delim)) s)
      rw [hx] at h
      simp at h

end Runs

section Ends

variable {delim s p w : Str}

theorem inWord_iff {c : Byte} (hc : c ≠ nul) : inWord delim c = true ↔ c ∉ delim := by
  simp [inWord, hc]

/-- A text that does not begin with a delimiter is a word, or begins with one. -/
theorem first_word (hs : nul ∉ s) (hne : s ≠ []) (hhead : ∀ c, s.head? = some c → c ∉ delim) :
    ∃ w, w ≠ [] ∧ (∀ c ∈ w, inWord delim c = true) ∧
      (s = w ∨ ∃ d ∈ delim, ∃ t, s = w ++ d :: t) := by
  have happ := List.takeWhile_append_dropWhile (p := inWord delim) (l := s)
  refine ⟨s.takeWhile (inWord delim), ?_, fun c hc => List.mem_takeWhile_imp hc, ?_⟩
  · obtain ⟨c, t, rfl⟩ := List.exists_cons_of_ne_nil hne
    have hc : inWord delim c = true :=
      (inWord_iff (ne_of_mem_of_not_mem List.mem_cons_self hs)).mpr (hhead c rfl)
    rw [List.takeWhile_cons_of_pos hc]
    exact List.cons_ne_nil _ _
  · cases hr : s.dropWhile (inWord delim) with
    | nil =>
      rw [hr, List.append_nil] at happ
      exact Or.inl happ.symm
    | cons d t =>
      have hd := List.head?_dropWhile_not (inWord delim) s
      rw [hr] at hd happ
      have hmem : d ∈ s := happ ▸ List.mem_append_right _ List.mem_cons_self
      have hin : ¬ inWord delim d = true := by simpa using hd
      rw [inWord_iff (ne_of_mem_of_not_mem hmem hs), not_not] at hin
      exact Or.inr ⟨d, hin, t, happ.symm⟩

theorem free_of_inWord (hw : ∀ c ∈ w, inWord delim c = true) : ∀ c ∈ w, c ∉ delim := by
  intro c hc
  have h := hw c hc
  simp only [inWord, decide_eq_true_eq] at h
  exact h.1

theorem leadcut_eq_nil (h : leadcut s delim = []) : runs delim s = [] := by
  rw [← runs_leadcut, h]
  rfl

theorem trailcut_eq_nil (h : runs delim s = []) : trailcut s delim = [] := by
  rw [trailcut, List.rdropWhile_eq_nil_iff]
  intro c hc
  simpa using runs_eq_nil h c hc

/-- What the first word leaves is empty or has a word, and has the other runs. -/
theorem getword_runs (hs : nul ∉ s) (hne : runs delim s ≠ []) :
    ∃ w r, getword s delim = (w, r) ∧ runs delim s = w :: runs delim r ∧ nul ∉ r ∧
      (r = [] ∨ runs delim r ≠ []) ∧ r.length < s.length := by
  have hu : nul ∉ leadcut s delim := fun hm => hs (leadcut_subset s delim hm)
  have hle : (leadcut s delim).length ≤ s.length := (List.dropWhile_suffix _).length_le
  obtain ⟨w, hw, hin, hword | ⟨d, hd, t, hword⟩⟩ :=
    first_word hu (fun h => hne (leadcut_eq_nil h)) (leadcut_head s delim)
  · refine ⟨w, [], ?_, ?_, List.not_mem_nil, Or.inl rfl, ?_⟩
    · rw [← getword_leadcut, hword, getword_last hin hw]
    · rw [← runs_leadcut, hword, runs_word (free_of_inWord hin) hw]
      rfl
    · rw [hword] at hle
      have := List.length_pos_of_ne_nil hw
      rw [List.length_nil]
      omega
  · refine ⟨w, leadcut t delim, ?_, ?_, ?_, ?_, ?_⟩
    · rw [← getword_leadcut, hword, getword_word hin hw hd]
    · rw [← runs_leadcut, hword, runs_append hd, runs_word (free_of_inWord hin) hw, runs_leadcut]
      rfl
    · intro hm
      apply hu
      rw [hword]
      exact List.mem_append_right _ (List.mem_cons_of_mem d (leadcut_subset t delim hm))
    · by_cases ht : leadcut t delim = []
      · exact Or.inl ht
      · refine Or.inr fun hnil => ht ?_
        rw [runs_leadcut] at hnil
        rw [leadcut, List.dropWhile_eq_nil_iff]
        intro c hc
        simpa using runs_eq_nil hnil c hc
    · have htl : (leadcut t delim).length ≤ t.length := (List.dropWhile_suffix _).length_le
      rw [hword, List.length_append, List.length_cons] at hle
      omega

/-- A text that does not end with a delimiter is a word, or ends with one. -/
theorem last_word (hs : nul ∉ s) (hne : s ≠ []) (hcut : trailcut s delim = s) :
    ∃ w, w = s.rtakeWhile (inWord delim) ∧ w ≠ [] ∧ (∀ c ∈ w, inWord delim c = true) ∧
      (s = w ∨ ∃ d ∈ delim, ∃ t, s = t ++ d :: w) := by
  have happ := List.rdropWhile_append_rtakeWhile (p := inWord delim) (l := s)
  refine ⟨_, rfl, ?_, fun c hc => List.mem_rtakeWhile_imp hc, ?_⟩
  · rw [Ne, List.rtakeWhile_eq_nil_iff, not_forall]
    have hlast := List.rdropWhile_eq_self_iff.mp hcut hne
    have hmem : s.getLast hne ∈ s := List.getLast_mem hne
    refine ⟨hne, fun hin => hin ?_⟩
    rw [inWord_iff (ne_of_mem_of_not_mem hmem hs)]
    simpa using hlast
  · obtain hr | ⟨t, d, hr⟩ := (s.rdropWhile (inWord delim)).eq_nil_or_concat
    · rw [hr, List.nil_append] at happ
      exact Or.inl happ.symm
    · rw [hr, List.concat_eq_append, List.append_assoc] at happ
      have hd := List.rdropWhile_last_not (inWord delim) s (by simp [hr])
      simp only [hr, List.concat_eq_append, List.getLast_append_singleton] at hd
      have hmem : d ∈ s := happ ▸ List.mem_append_right _ List.mem_cons_self
      rw [inWord_iff (ne_of_mem_of_not_mem hmem hs), not_not] at hd
      exact Or.inr ⟨d, hd, t, happ.symm⟩

/-- What is in front of the last word: a text that does not end with a delimiter, and has the
other runs. If it is the same word it is lost. -/
theorem getrword_runs (hs : nul ∉ s) (hne : runs delim s ≠ []) :
    ∃ p w, getrword s delim = (w, if w = p then [] else p) ∧ runs delim s = runs delim p ++ [w] ∧
      w ≠ [] ∧ (∀ c ∈ w, c ∉ delim) ∧ p <+: s ∧ p.length < s.length ∧ trailcut p delim = p := by
  have hu : trailcut s delim ≠ [] := by
    intro h
    apply hne
    rw [← runs_trailcut, h]
    rfl
  have hpre : trailcut s delim <+: s := trailcut_prefix
  have hnul : nul ∉ trailcut s delim := fun hm => hs (hpre.subset hm)
  have hcut : ∀ t : Str, trailcut (trailcut t delim) delim = trailcut t delim :=
    fun t => List.rdropWhile_idempotent _ t
  have hle := hpre.length_le
  obtain ⟨w, hw, hwne, hin, hword | ⟨d, hd, t, hword⟩⟩ := last_word hnul hu (hcut s)
  · refine ⟨[], w, ?_, ?_, hwne, free_of_inWord hin, List.nil_prefix, ?_, rfl⟩
    · simp only [getrword, ← hw, ← hword]
      simp
    · rw [← runs_trailcut, hword, runs_word (free_of_inWord hin) hwne]
      rfl
    · have := List.length_pos_of_ne_nil hwne
      rw [hword] at hle
      rw [List.length_nil]
      omega
  · have htp : trailcut t delim <+: t := trailcut_prefix
    have htle := htp.length_le
    have hlen : (trailcut s delim).length = t.length + 1 + w.length := by
      rw [hword, List.length_append, List.length_cons]
      omega
    refine ⟨trailcut t delim, w, ?_, ?_, hwne, free_of_inWord hin, ?_, ?_, hcut t⟩
    · have htake : (trailcut s delim).take ((trailcut s delim).length - w.length - 1) = t := by
        rw [hlen, show t.length + 1 + w.length - w.length - 1 = t.length by omega, hword,
          List.take_left]
      simp only [getrword, ← hw, htake]
      rw [if_neg (show ¬ w.length = (trailcut s delim).length by omega)]
    · rw [← runs_trailcut, hword, runs_append hd, runs_word (free_of_inWord hin) hwne, runs_trailcut]
    · refine htp.trans (List.IsPrefix.trans ?_ hpre)
      rw [hword]
      exact List.prefix_append _ _
    · omega

end Ends

section Both

variable {delim s : Str}

theorem words_nil (get : Str → Str × Str) (n : ℕ) : words get (n + 1) [] = some [] := rfl

theorem words_cons {get : Str → Str × Str} {w r : Str} (hne : s ≠ []) (hget : get s = (w, r))
    (ws : List Str) :
    (∃ n, words get n s = some (w :: ws)) ↔ ∃ n, words get n r = some ws := by
  constructor
  · intro ⟨n, hn⟩
    cases n with
    | zero => cases hn
    | succ n =>
      rw [words, if_neg hne, hget] at hn
      obtain ⟨vs, hvs, heq⟩ := Option.map_eq_some_iff.mp hn
      obtain ⟨-, rfl⟩ := List.cons.inj heq
      exact ⟨n, hvs⟩
  · intro ⟨n, hn⟩
    refine ⟨n + 1, ?_⟩
    rw [words, if_neg hne, hget, hn]
    rfl

theorem words_getword (hs : nul ∉ s) (h : s = [] ∨ runs delim s ≠ []) :
    ∃ n, words (getword · delim) n s = some (runs delim s) := by
  induction hn : s.length using Nat.strong_induction_on generalizing s with
  | _ n ih =>
    by_cases hne : s = []
    · subst hne
      exact ⟨1, words_nil _ 0⟩
    · obtain ⟨w, r, hget, hruns, hnul, hr, hlt⟩ := getword_runs hs (h.resolve_left hne)
      rw [hruns, words_cons hne hget]
      exact ih r.length (by omega) hnul hr rfl

/-- A word that begins a text and is its only one is the whole text, up to delimiters behind it. -/
theorem eq_of_runs {p w : Str} (hp : nul ∉ p) (hcut : trailcut p delim = p)
    (hhead : ∀ c, p.head? = some c → c ∉ delim) (hruns : runs delim p = [w]) : p = w := by
  have hne : p ≠ [] := by
    rintro rfl
    cases hruns
  obtain ⟨v, hv, hin, hword | ⟨d, hd, t, hword⟩⟩ := first_word hp hne hhead
  · rw [hword, runs_word (free_of_inWord hin) hv] at hruns
    rw [hword, (List.cons.inj hruns).1]
  · rw [hword, runs_append hd, runs_word (free_of_inWord hin) hv] at hruns
    have ht : runs delim t = [] := (List.cons.inj hruns).2
    have hlast := List.rdropWhile_eq_self_iff.mp hcut hne
    have hmem : p.getLast hne ∈ d :: t := by
      have hsub : (d :: t) <:+ p := hword ▸ List.suffix_append v (d :: t)
      rw [← hsub.getLast (List.cons_ne_nil d t)]
      exact List.getLast_mem _
    refine absurd ?_ hlast
    obtain hd' | hm := List.mem_cons.mp hmem
    · simpa [hd'] using hd
    · simpa using runs_eq_nil ht _ hm

/-- A text in front of its last word begins with a repeated word if the whole does, unless it is
the last word itself. -/
theorem stutters_iff {p w : Str} (hs : nul ∉ s) (hp : p <+: s) (hcut : trailcut p delim = p)
    (hruns : runs delim s = runs delim p ++ [w]) (hne : w ≠ p) :
    Stutters delim s ↔ Stutters delim p := by
  have hhead : p ≠ [] → p.head? = s.head? := by
    intro hpne
    obtain ⟨t, rfl⟩ := hp
    exact (List.head?_append_of_ne_nil p hpne).symm
  constructor
  · intro ⟨hfirst, x, ws, hx⟩
    rw [hruns] at hx
    have hpne : p ≠ [] := by
      intro h
      rw [h] at hx
      cases hx
    rw [← hhead hpne] at hfirst
    refine ⟨hfirst, x, ?_⟩
    match hr : runs delim p with
    | [] =>
      rw [hr] at hx
      cases hx
    | [a] =>
      rw [hr] at hx
      obtain ⟨rfl, hx⟩ := List.cons.inj hx
      obtain ⟨rfl, -⟩ := List.cons.inj hx
      have hnul : nul ∉ p := fun hm => hs (hp.subset hm)
      exact absurd (eq_of_runs hnul hcut hfirst hr).symm hne
    | a :: b :: r =>
      rw [hr] at hx
      obtain ⟨rfl, hx⟩ := List.cons.inj hx
      obtain ⟨rfl, -⟩ := List.cons.inj hx
      exact ⟨r, rfl⟩
  · intro ⟨hfirst, x, ws, hx⟩
    have hpne : p ≠ [] := by
      rintro rfl
      cases hx
    rw [hhead hpne] at hfirst
    refine ⟨hfirst, x, ws ++ [w], ?_⟩
    rw [hruns, hx]
    rfl

theorem words_getrword (hs : nul ∉ s) (h : s = [] ∨ runs delim s ≠ []) :
    (∃ n, words (getrword · delim) n s = some (runs delim s).reverse) ↔ ¬ Stutters delim s := by
  induction hn : s.length using Nat.strong_induction_on generalizing s with
  | _ n ih =>
    by_cases hne : s = []
    · subst hne
      refine ⟨fun _ ⟨_, w, ws, hw⟩ => ?_, fun _ => ⟨1, words_nil _ 0⟩⟩
      cases hw
    · obtain ⟨p, w, hget, hruns, hw, hfree, hpre, hlt, hcut⟩ :=
        getrword_runs hs (h.resolve_left hne)
      have hrev : (runs delim s).reverse = w :: (runs delim p).reverse := by
        rw [hruns, List.reverse_append]
        rfl
      rw [hrev, words_cons hne hget]
      by_cases hwp : w = p
      · -- nothing is left of a repeated word
        have hone : runs delim p = [w] := by
          rw [← hwp]
          exact runs_word hfree hw
        rw [if_pos hwp, hone]
        constructor
        · intro ⟨m, hm⟩
          cases m with
          | zero => cases hm
          | succ m => cases hm
        · intro hno
          refine absurd ⟨fun c hc => ?_, w, [], by rw [hruns, hone]; rfl⟩ hno
          obtain ⟨t, rfl⟩ := hpre
          rw [List.head?_append_of_ne_nil p (hwp ▸ hw), ← hwp] at hc
          exact hfree c (List.mem_of_mem_head? hc)
      · have hnul : nul ∉ p := fun hm => hs (hpre.subset hm)
        have hp : p = [] ∨ runs delim p ≠ [] := by
          by_cases hr : runs delim p = []
          · exact Or.inl (by rw [← hcut, trailcut_eq_nil hr])
          · exact Or.inr hr
        rw [if_neg hwp, stutters_iff hs hpre hcut hruns hwp]
        exact ih p.length (by omega) hnul hp rfl

end Both

theorem runs_ne_nil_iff {delim s : Str} : runs delim s ≠ [] ↔ ∃ c ∈ s, c ∉ delim := by
  constructor
  · intro h
    by_contra hno
    push Not at hno
    apply h
    rw [← runs_leadcut, leadcut, List.dropWhile_eq_nil_iff.mpr fun c hc => by simpa using hno c hc]
    rfl
  · intro hex h
    obtain ⟨c, hc, hd⟩ := hex
    exact hd (runs_eq_nil h c hc)

/-- Both directions give the runs just when the text is not made of delimiters alone and its
first word, with which it begins, is not repeated at once. -/
theorem agree_iff (delim s : Str) (_ : nul ∉ delim) (hs : nul ∉ s) :
    Agree delim s ↔ (s = [] ∨ ∃ c ∈ s, c ∉ delim) ∧ ¬ Stutters delim s := by
  rw [← runs_ne_nil_iff]
  constructor
  · intro ⟨⟨n, hn⟩, hback⟩
    have hword : s = [] ∨ runs delim s ≠ [] := by
      refine or_iff_not_imp_left.mpr fun hne hnil => ?_
      rw [hnil] at hn
      cases n with
      | zero => cases hn
      | succ n =>
        rw [words, if_neg hne] at hn
        obtain ⟨ws, -, hws⟩ := Option.map_eq_some_iff.mp hn
        cases hws
    exact ⟨hword, (words_getrword hs hword).mp hback⟩
  · intro ⟨hword, hno⟩
    exact ⟨words_getword hs hword, (words_getrword hs hword).mpr hno⟩

theorem agree_two : Agree wordDelim (bytes "one  two") := by
  refine (agree_iff wordDelim (bytes "one  two") (by decide) (by decide)).mpr ⟨Or.inr ⟨111, by decide⟩, ?_⟩
  intro ⟨_, w, ws, hws⟩
  have hruns : runs wordDelim (bytes "one  two") = [bytes "one", bytes "two"] := by decide
  rw [hruns] at hws
  obtain ⟨rfl, hws⟩ := List.cons.inj hws
  exact absurd (List.cons.inj hws).1 (by decide)

/-- The first of two equal words is lost. -/
theorem repeated_word_lost : ¬ ∀ delim s : Str, nul ∉ delim → nul ∉ s → Agree delim s := by
  intro h
  have hruns : runs wordDelim (bytes "a a") = [bytes "a", bytes "a"] := by decide
  have hne : runs wordDelim (bytes "a a") ≠ [] := by
    rw [hruns]
    exact List.cons_ne_nil _ _
  have hnul : nul ∉ bytes "a a" := by decide
  have hagree : Agree wordDelim (bytes "a a") := h wordDelim (bytes "a a") (by decide) hnul
  refine (words_getrword hnul (Or.inr hne)).mp hagree.2 ⟨?_, bytes "a", [], hruns⟩
  intro c hc
  obtain rfl := Option.some.inj hc
  decide

end CenterIM.WordOrder
