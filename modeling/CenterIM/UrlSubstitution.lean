import CenterIM.OpenUrl
import CenterIM.XmlTree

/-!
# Replacing the placeholder

The loop looks for `$url$` from the start of the text it has just changed. The pieces of the
template between its placeholders say what it should make, and where it goes astray.
-/
namespace CenterIM.UrlSubstitution
open ByteText OpenUrl

/-- The template before its first placeholder, and after each of them; `k` characters are
skipped. -/
def pieces : ℕ → Str → Str × List Str
  | _, [] => ([], [])
  | k + 1, _ :: s => pieces k s
  | 0, c :: s =>
    if placeholder.isPrefixOf (c :: s) then ([], (pieces 4 s).1 :: (pieces 4 s).2)
    else (c :: (pieces 0 s).1, (pieces 0 s).2)

def filled (u : Str) (p : Str × List Str) : Str := p.1 ++ p.2.flatMap (u ++ ·)

/-- With the URL in the place of one placeholder after another, none appears in what is done so
far, nor across the start of the next one. -/
def Clean (url : Str) : Str → List Str → Prop
  | done, [] => ¬ placeholder <:+: done
  | done, a :: ps => ¬ placeholder <:+: done ++ bytes "$url" ∧ Clean url (done ++ (url ++ a)) ps

instance (url : Str) : ∀ (done : Str) (ps : List Str), Decidable (Clean url done ps)
  | _, [] => inferInstanceAs (Decidable (¬ _))
  | done, a :: ps =>
    have := instDecidableClean url (done ++ (url ++ a)) ps
    inferInstanceAs (Decidable (_ ∧ _))

theorem pieces_skip (k : ℕ) (s : Str) : pieces k s = pieces 0 (s.drop k) := by
  induction s generalizing k with
  | nil => cases k <;> rfl
  | cons c s ih =>
    cases k with
    | zero => rfl
    | succ k => exact ih k

theorem pieces_template (s : Str) : filled placeholder (pieces 0 s) = s := by
  induction hn : s.length using Nat.strong_induction_on generalizing s with
  | _ n ih =>
    cases s with
    | nil => rfl
    | cons c t =>
      rw [pieces]
      split_ifs with h
      · obtain ⟨rest, hrest⟩ := List.isPrefixOf_iff_prefix.mp h
        have hdrop : t.drop 4 = rest := by
          have hd := congrArg (List.drop 5) hrest
          simpa [placeholder, bytes] using hd.symm
        have hi := ih rest.length (by rw [← hdrop, ← hn]; simp) rest rfl
        rw [pieces_skip, hdrop, ← hrest]
        simpa [filled] using hi
      · have hi := ih t.length (by simp at hn; omega) t rfl
        simpa [filled] using hi

section Find

variable {pat s t : Str} {i : ℕ}

/-- A pattern is found where it stands when no other occurrence ends before it does. -/
theorem find_behind (hne : pat ≠ []) (h : ¬ pat <:+: s ++ pat.dropLast) :
    find pat (s ++ (pat ++ t)) = some s.length := by
  obtain ⟨i, hi, hle⟩ := find_isSome_of_prefix (p := pat) (s := s ++ (pat ++ t)) (j := s.length)
    (by simp) (by simp)
  rcases Nat.eq_or_lt_of_le hle with rfl | hlt
  · exact hi
  · exfalso
    obtain ⟨v, hv, -⟩ := find_some hi
    have hpos := List.length_pos_iff.mpr hne
    have hpre : (s ++ (pat ++ t)).take i ++ pat <+: s ++ pat.dropLast := by
      have hall : s ++ pat.dropLast <+: s ++ (pat ++ t) :=
        (List.prefix_append_right_inj s).mpr ((List.dropLast_prefix pat).trans
          (List.prefix_append pat t))
      refine List.prefix_of_prefix_length_le ⟨v, by rw [List.append_assoc, ← hv]⟩ hall ?_
      simp only [List.length_append, List.length_take, List.length_dropLast]
      omega
    exact h ((List.suffix_append _ pat).isInfix.trans hpre.isInfix)

theorem not_infix_of_find (hne : pat ≠ []) (h : find pat (s ++ (pat ++ t)) = some s.length) :
    ¬ pat <:+: s ++ pat.dropLast := by
  rintro ⟨a, b, hab⟩
  have hpos := List.length_pos_iff.mpr hne
  have hlen := congrArg List.length hab
  simp only [List.length_append, List.length_dropLast] at hlen
  refine find_first h (j := a.length) (by omega) ?_
  have hall : s ++ pat.dropLast <+: s ++ (pat ++ t) :=
    (List.prefix_append_right_inj s).mpr ((List.dropLast_prefix pat).trans
      (List.prefix_append pat t))
  obtain ⟨v, hv⟩ := hall
  rw [← hv, ← hab]
  simp

theorem find_eq_none (h : ¬ pat <:+: s) : find pat s = none := by
  cases hf : find pat s with
  | none => rfl
  | some i =>
    obtain ⟨v, hv, -⟩ := find_some hf
    exact absurd ⟨s.take i, v, by rw [List.append_assoc, ← hv]⟩ h

theorem not_infix_of_none (h : find pat s = none) : ¬ pat <:+: s := by
  rintro ⟨a, b, rfl⟩
  exact find_none h a.length (by simp) (by simp)

end Find

section Loop

variable {url : Str}

theorem substLoop_step (n : ℕ) {s : Str} (t : Str)
    (h : find placeholder (s ++ (placeholder ++ t)) = some s.length) :
    substLoop url (n + 1) (s ++ (placeholder ++ t)) = substLoop url n (s ++ (url ++ t)) := by
  have hdrop : (s ++ (placeholder ++ t)).drop (s.length + 5) = t := by
    rw [show s.length + 5 = (s ++ placeholder).length by simp [placeholder, bytes], ← List.append_assoc,
      List.drop_left]
  rw [substLoop, h]
  simp only [List.take_left, hdrop, List.append_assoc]

theorem substLoop_clean {n : ℕ} {s r : Str} (h : substLoop url n s = some r) :
    ¬ placeholder <:+: r := by
  induction n generalizing s with
  | zero => simp [substLoop] at h
  | succ n ih =>
    rw [substLoop] at h
    split at h
    · next hf =>
      obtain rfl := Option.some.inj h
      exact not_infix_of_none hf
    · exact ih h

theorem substLoop_of_clean {done : Str} {ps : List Str} (h : Clean url done ps) :
    substLoop url (ps.length + 1) (done ++ ps.flatMap (placeholder ++ ·)) =
      some (done ++ ps.flatMap (url ++ ·)) := by
  induction ps generalizing done with
  | nil =>
    have hf := find_eq_none (s := done) h
    simp [substLoop, hf]
  | cons a ps ih =>
    obtain ⟨hfirst, hrest⟩ := h
    have hf := find_behind (t := a ++ ps.flatMap (placeholder ++ ·)) (by decide) hfirst
    have hi := ih hrest
    simp only [List.flatMap_cons, List.append_assoc, List.length_cons] at hi ⊢
    rw [substLoop_step _ _ hf, hi]

theorem find_placeholder {s t : Str} {k : ℕ} (h : find placeholder (s ++ (placeholder ++ t)) = some k) :
    k = s.length ∨ k + 5 ≤ s.length ∨ ∃ x, s = x ++ bytes "$url" ∧ x.length = k := by
  obtain ⟨i, hi, hle⟩ := find_isSome_of_prefix (p := placeholder)
    (s := s ++ (placeholder ++ t)) (j := s.length) (by simp) (by simp)
  obtain rfl : i = k := Option.some.inj (hi.symm.trans h)
  by_cases hfar : i + 5 ≤ s.length
  · exact Or.inr (Or.inl hfar)
  obtain ⟨v, hv, -⟩ := find_some hi
  rw [List.take_append_of_le_length hle] at hv
  have hlen : (s.take i).length = i := by simp [hle]
  have hover : placeholder[s.length - i]? = some 36 := by
    have hs : (s ++ (placeholder ++ t))[s.length]? = some 36 := by simp [placeholder, bytes]
    rw [hv, List.getElem?_append_right (by omega), hlen,
      List.getElem?_append_left (by simp [placeholder, bytes]; omega)] at hs
    exact hs
  have hborder : ∀ j < 5, placeholder[j]? = some 36 → j = 0 ∨ j = 4 := by decide
  rcases hborder _ (by omega) hover with h0 | h4
  · left
    omega
  · right
    right
    refine ⟨s.take i, ?_, hlen⟩
    have htake := congrArg (List.take s.length) hv
    rw [List.take_left, List.take_append, List.take_of_length_le (by omega), hlen, h4,
      List.take_append_of_le_length (by decide)] at htake
    exact htake

/-- A turn that takes the end of one placeholder for the start of the next. -/
theorem substLoop_overlap (n : ℕ) {x t : Str}
    (h : find placeholder ((x ++ bytes "$url") ++ (placeholder ++ t)) = some x.length) :
    substLoop url (n + 1) ((x ++ bytes "$url") ++ (placeholder ++ t)) =
      substLoop url n (x ++ (url ++ (bytes "url$" ++ t))) := by
  have hsame : (x ++ bytes "$url") ++ (placeholder ++ t) =
      x ++ (placeholder ++ (bytes "url$" ++ t)) := by
    simp [placeholder, bytes]
  rw [hsame] at h ⊢
  exact substLoop_step n _ h

/-- The first place at which two texts differ, where the second one has a `$`. -/
def Astray (s e : Str) : Prop :=
  ∃ d : ℕ, (∀ i < d, s[i]? = e[i]?) ∧ e[d]? = some 36 ∧ s[d]? ≠ some 36

theorem not_astray_self (s : Str) : ¬ Astray s s := by
  rintro ⟨d, -, he, hs⟩
  exact hs he

/-- Where the text starts with a `$` and that is replaced, the difference stays or comes earlier. -/
theorem astray_at {s s' e : Str} (h : Astray s e) (k : ℕ) (hk : s[k]? = some 36)
    (hbefore : ∀ i < k, s'[i]? = s[i]?) (hat : s'[k]? ≠ some 36) : Astray s' e := by
  obtain ⟨d, hsame, hed, hsd⟩ := h
  rcases Nat.lt_or_ge k d with hkd | hdk
  · refine ⟨k, fun i hi => ?_, ?_, hat⟩
    · rw [hbefore i hi, hsame i (by omega)]
    · rw [← hsame k hkd, hk]
  · have hne : d ≠ k := fun he => hsd (he ▸ hk)
    refine ⟨d, fun i hi => ?_, hed, ?_⟩
    · rw [hbefore i (by omega), hsame i hi]
    · rw [hbefore d (by omega)]
      exact hsd

theorem find_dollar {s : Str} {k : ℕ} (h : find placeholder s = some k) :
    s[k]? = some 36 ∧ k + 5 ≤ s.length := by
  obtain ⟨v, hv, hk⟩ := find_some h
  have hlen : (s.take k).length = k := by simp [hk]
  constructor
  · rw [hv, List.getElem?_append_right (by omega), hlen]
    simp [placeholder, bytes]
  · have hl := congrArg List.length hv
    simp only [List.length_append, hlen] at hl
    have h5 : placeholder.length = 5 := by decide
    omega

/-- A URL that starts with another character never brings the text back. -/
theorem substLoop_astray {c : Byte} {t : Str} (hc : c ≠ 36) {n : ℕ} {s e : Str} (h : Astray s e) :
    substLoop (c :: t) n s ≠ some e := by
  induction n generalizing s with
  | zero => simp [substLoop]
  | succ n ih =>
    rw [substLoop]
    cases hf : find placeholder s with
    | none =>
      intro he
      obtain rfl := Option.some.inj he
      exact not_astray_self s h
    | some k =>
      obtain ⟨hk, hle⟩ := find_dollar hf
      have hlen : (s.take k).length = k := by simp; omega
      refine ih (astray_at h k hk (fun i hi => ?_) ?_)
      · rw [List.append_assoc, List.getElem?_append_left (by omega), List.getElem?_take_of_lt hi]
      · rw [List.append_assoc, List.getElem?_append_right (by omega), hlen]
        simpa using hc

/-- For an empty URL: the part of the text before the placeholders that are left, against the
text it should be. -/
def Behind (s e : Str) : Prop := s.length < e.length ∨ s.length = e.length ∧ Astray s e

theorem behind_append {s e : Str} (h : Behind s e) (a : Str) : Behind (s ++ a) (e ++ a) := by
  rcases h with h | ⟨hl, d, hsame, hed, hsd⟩
  · left
    simpa using h
  · right
    have hd : d < e.length := by
      by_contra hn
      rw [List.getElem?_eq_none (by omega)] at hed
      cases hed
    refine ⟨by simp [hl], d, fun i hi => ?_, ?_, ?_⟩
    · rw [List.getElem?_append_left (by omega), List.getElem?_append_left (by omega), hsame i hi]
    · rw [List.getElem?_append_left hd, hed]
    · rwa [List.getElem?_append_left (by omega)]

theorem behind_overlap {x e : Str} (h : Behind (x ++ bytes "$url") e) :
    Behind (x ++ bytes "url$") e := by
  rcases h with h | ⟨hl, hastray⟩
  · left
    simpa [bytes] using h
  · right
    refine ⟨by simpa [bytes] using hl, ?_⟩
    refine astray_at hastray x.length (by simp [bytes]) (fun i hi => ?_) (by simp [bytes])
    rw [List.getElem?_append_left hi, List.getElem?_append_left hi]

/-- The text never catches up: each turn takes one placeholder away, and none is left over. -/
theorem substLoop_behind {n : ℕ} {s e : Str} {p : List Str} (h : Behind s e) :
    substLoop [] n (s ++ p.flatMap (placeholder ++ ·)) ≠ some (e ++ p.flatMap ([] ++ ·)) := by
  induction n generalizing s e p with
  | zero => simp [substLoop]
  | succ n ih =>
    cases hf : find placeholder (s ++ p.flatMap (placeholder ++ ·)) with
    | none =>
      rw [substLoop, hf]
      cases p with
      | cons a p =>
        intro _
        refine not_infix_of_none hf ⟨s, a ++ p.flatMap (placeholder ++ ·), ?_⟩
        simp
      | nil =>
        intro he
        have heq : s = e := by simpa using he
        subst heq
        rcases h with h | ⟨-, h⟩
        · omega
        · exact not_astray_self s h
    | some k =>
      have hshort : s.length ≤ e.length := by
        rcases h with h | ⟨h, -⟩ <;> omega
      cases p with
      | nil =>
        have hle := (find_dollar hf).2
        rw [substLoop, hf]
        simp only [List.flatMap_nil, List.append_nil] at hle ⊢
        have hi := ih (s := s.take k ++ s.drop (k + 5)) (e := e) (p := [])
          (Or.inl (by simp; omega))
        simpa using hi
      | cons a p =>
        have hcons : s ++ (a :: p).flatMap (placeholder ++ ·) =
            s ++ (placeholder ++ (a ++ p.flatMap (placeholder ++ ·))) := by simp
        have hgoal : e ++ (a :: p).flatMap ([] ++ ·) = (e ++ a) ++ p.flatMap ([] ++ ·) := by simp
        rw [hcons] at hf ⊢
        rcases find_placeholder hf with rfl | hfar | ⟨x, rfl, rfl⟩
        · have hi := ih (p := p) (behind_append h a)
          rw [substLoop_step n _ hf, hgoal]
          simpa using hi
        · have hi := ih (s := s.take k ++ s.drop (k + 5)) (e := e) (p := a :: p)
            (Or.inl (by simp; omega))
          rw [substLoop, hf]
          simp only [List.take_append_of_le_length (show k ≤ s.length by omega),
            List.drop_append_of_le_length hfar]
          simpa using hi
        · have hi := ih (p := p) (behind_append (behind_overlap h) a)
          rw [substLoop_overlap n hf, hgoal]
          simpa using hi

/-- The loop makes what it should only if no placeholder appears on the way. -/
theorem clean_of_substLoop {n : ℕ} {done : Str} {ps : List Str}
    (h : substLoop url n (done ++ ps.flatMap (placeholder ++ ·)) =
      some (done ++ ps.flatMap (url ++ ·))) : Clean url done ps := by
  induction ps generalizing done n with
  | nil => simpa [Clean] using substLoop_clean h
  | cons a ps ih =>
    have hclean := substLoop_clean h
    have hcons : done ++ (a :: ps).flatMap (placeholder ++ ·) =
        done ++ (placeholder ++ (a ++ ps.flatMap (placeholder ++ ·))) := by simp
    have hgoal : done ++ (a :: ps).flatMap (url ++ ·) =
        (done ++ (url ++ a)) ++ ps.flatMap (url ++ ·) := by simp
    rw [hcons] at h
    cases n with
    | zero => simp [substLoop] at h
    | succ n =>
      obtain ⟨k, hf, -⟩ := find_isSome_of_prefix (p := placeholder)
        (s := done ++ (placeholder ++ (a ++ ps.flatMap (placeholder ++ ·)))) (j := done.length)
        (by simp) (by simp)
      rcases find_placeholder hf with rfl | hfar | ⟨x, rfl, rfl⟩
      · refine ⟨not_infix_of_find (by decide) hf, ?_⟩
        rw [substLoop_step n _ hf, hgoal] at h
        exact ih (by simpa using h)
      · exfalso
        obtain ⟨v, hv, -⟩ := find_some hf
        rw [List.take_append_of_le_length (by omega)] at hv
        have hpre : done.take k ++ placeholder <+: done := by
          refine List.prefix_of_prefix_length_le ⟨v, by rw [List.append_assoc, ← hv]⟩
            (List.prefix_append done _) ?_
          have h5 : placeholder.length = 5 := by decide
          simp only [List.length_append, List.length_take, h5]
          omega
        exact hclean (((List.suffix_append _ placeholder).isInfix.trans hpre.isInfix).trans
          (List.prefix_append done _).isInfix)
      · exfalso
        rw [substLoop_overlap n hf] at h
        cases url with
        | nil =>
          have hbehind : Behind (x ++ bytes "url$") (x ++ bytes "$url") := by
            refine Or.inr ⟨by simp [bytes], x.length, fun i hi => ?_, ?_, ?_⟩
            · simp [List.getElem?_append_left hi]
            · simp [bytes]
            · simp [bytes]
          refine substLoop_behind (n := n) (p := ps) (behind_append hbehind a) ?_
          rw [hgoal] at h
          simpa using h
        | cons c t =>
          by_cases hc : c = 36
          · refine hclean ⟨x, t ++ a ++ ps.flatMap ((c :: t) ++ ·), ?_⟩
            rw [hc]
            simp [placeholder, bytes]
          · refine substLoop_astray hc ?_ h
            refine ⟨x.length, fun i hi => ?_, ?_, ?_⟩
            · simp [List.getElem?_append_left hi]
            · simp [bytes]
            · simpa using hc

end Loop

section Received

variable {s s' : Str}

inductive Masks : Str → Str → Prop
  | nil : Masks [] []
  | same (c : Byte) {s s' : Str} : Masks s s' → Masks (c :: s) (c :: s')
  | esc {c : Byte} {s s' : Str} : c = quote ∨ c = dquote → Masks s s' →
      Masks (c :: s) (enc c ++ s')

theorem masks_refl (s : Str) : Masks s s := by
  induction s with
  | nil => exact .nil
  | cons c s ih => exact .same c ih

theorem masks_append {t t' : Str} (h : Masks s s') (ht : Masks t t') :
    Masks (s ++ t) (s' ++ t') := by
  induction h with
  | nil => exact ht
  | same c _ ih => exact .same c ih
  | esc hc _ ih =>
    rw [List.append_assoc]
    exact .esc hc ih

theorem masks_escaped (url : Str) : Masks url (escaped url) := by
  induction url with
  | nil => exact .nil
  | cons c s ih =>
    rw [escaped]
    split_ifs with h
    · exact .esc (h.imp id And.left) ih
    · exact .same c ih

/-- The characters of a pattern that escaping neither takes away nor brings in. -/
def Unescaped (c : Byte) : Prop := c ≠ quote ∧ c ≠ dquote ∧ c ≠ 37 ∧ c ≠ 50 ∧ c ≠ 55

theorem masks_prefix {pat : Str} (hp : ∀ c ∈ pat, Unescaped c) (h : Masks s s') :
    pat <+: s ↔ pat <+: s' := by
  induction h generalizing pat with
  | nil => rfl
  | same c _ ih =>
    cases pat with
    | nil => simp
    | cons d pat =>
      rw [List.cons_prefix_cons, List.cons_prefix_cons, ih fun e he => hp e (by simp [he])]
  | @esc c s s' hc _ ih =>
    cases pat with
    | nil => simp
    | cons d pat =>
      obtain ⟨hq, hd, h37, -⟩ := hp d (by simp)
      have hl : ¬ d :: pat <+: c :: s := by
        rw [List.cons_prefix_cons]
        rintro ⟨rfl, -⟩
        exact hc.elim hq hd
      have hr : ¬ d :: pat <+: enc c ++ s' := by
        rw [enc, List.cons_append, List.cons_prefix_cons]
        exact fun h => h37 h.1
      exact iff_of_false hl hr

theorem masks_part {pat : Str} (hne : pat ≠ []) (hp : ∀ c ∈ pat, Unescaped c) (h : Masks s s') :
    pat <:+: s ↔ pat <:+: s' := by
  obtain ⟨d, pat, rfl⟩ := List.exists_cons_of_ne_nil hne
  obtain ⟨hq, hd, h37, h50, h55⟩ := hp d (by simp)
  induction h with
  | nil => rfl
  | same c hs ih =>
    rw [List.infix_cons_iff, List.infix_cons_iff, ih, masks_prefix hp (.same c hs)]
  | @esc c s s' hc hs ih =>
    have hl : ¬ d :: pat <+: c :: s := by
      rw [List.cons_prefix_cons]
      rintro ⟨rfl, -⟩
      exact hc.elim hq hd
    have hr : d :: pat <:+: enc c ++ s' ↔ d :: pat <:+: s' := by
      have henc : enc c = [37, 50, 55] ∨ enc c = [37, 50, 50] := by
        rcases hc with rfl | rfl <;> decide
      rcases henc with he | he <;>
        simp [he, List.infix_cons_iff, List.cons_prefix_cons, h37, h50, h55]
    rw [List.infix_cons_iff, ih, hr]
    exact or_iff_right hl

/-- Whether a placeholder appears can be told from the URL as it was received. -/
theorem clean_masks {url url' done done' : Str} {p : List Str} (hu : Masks url url')
    (hd : Masks done done') : Clean url done p ↔ Clean url' done' p := by
  have hpat : placeholder ≠ [] ∧ ∀ c ∈ placeholder, Unescaped c := by
    simp [placeholder, bytes, Unescaped, quote, dquote]
  induction p generalizing done done' with
  | nil => exact not_congr (masks_part hpat.1 hpat.2 hd)
  | cons a p ih =>
    have hnext := masks_append hd (masks_append hu (masks_refl a))
    have hstart := masks_append hd (masks_refl (bytes "$url"))
    exact and_congr (not_congr (masks_part hpat.1 hpat.2 hstart)) (ih hnext)

end Received

/-- The command ends, and is the template with the escaped URL for each placeholder. -/
def Substituted (template url : Str) : Prop :=
  ∃ n, execaction (fun _ => template) n (bytes "openurl") url =
    some (filled (escaped url) (pieces 0 template))

theorem execaction_openurl (actions : Str → Str) (n : ℕ) (url : Str) :
    execaction actions n (bytes "openurl") url =
      (quoteLoop n url 0).bind fun u => substLoop u n (actions (bytes "openurl")) := by
  rw [execaction, if_pos rfl]
  rfl

theorem substLoop_more {n m : ℕ} {url s r : Str} (h : substLoop url n s = some r) (hm : n ≤ m) :
    substLoop url m s = some r := by
  induction n generalizing s m with
  | zero => simp [substLoop] at h
  | succ n ih =>
    obtain ⟨m, rfl⟩ := Nat.exists_eq_add_of_lt hm
    rw [substLoop] at h ⊢
    split at h
    · exact h
    · exact ih h (by omega)

theorem substituted_iff (template url : Str) :
    Substituted template url ↔ Clean url (pieces 0 template).1 (pieces 0 template).2 := by
  have hmasks := clean_masks (p := (pieces 0 template).2) (masks_escaped url)
    (masks_refl (pieces 0 template).1)
  rw [hmasks]
  constructor
  · rintro ⟨n, h⟩
    rw [execaction_openurl] at h
    obtain ⟨u, hu, hs⟩ := Option.bind_eq_some_iff.mp h
    rw [quoteLoop_some url n hu] at hs
    have hpieces : substLoop (escaped url) n (filled placeholder (pieces 0 template)) =
        some (filled (escaped url) (pieces 0 template)) := by
      rw [pieces_template]
      exact hs
    exact clean_of_substLoop hpieces
  · intro h
    have hloop := substLoop_of_clean h
    have hquote := quoteLoop_eq [] url (max (url.length + 1) ((pieces 0 template).2.length + 1))
      (by omega)
    refine ⟨max (url.length + 1) ((pieces 0 template).2.length + 1), ?_⟩
    rw [execaction_openurl]
    simp only [List.nil_append, List.length_nil] at hquote
    rw [hquote, Option.bind_some]
    have hmore := substLoop_more hloop (le_max_right (url.length + 1) _)
    have htemplate := pieces_template template
    rw [filled] at htemplate
    rw [htemplate] at hmore
    exact hmore

/-- A URL with the placeholder in it is put into itself for ever. -/
theorem placeholder_url (n : ℕ) : substLoop placeholder n (bytes "open $url$") = none := by
  induction n with
  | zero => rfl
  | succ n ih =>
    have hf : find placeholder (bytes "open " ++ (placeholder ++ [])) =
        some (bytes "open ").length := by decide
    have hs : substLoop placeholder (n + 1) (bytes "open " ++ (placeholder ++ [])) =
        substLoop placeholder n (bytes "open " ++ (placeholder ++ [])) := substLoop_step n [] hf
    rw [show bytes "open " ++ (placeholder ++ []) = bytes "open $url$" by decide] at hs
    rw [hs, ih]

theorem not_substituted : ¬ Substituted (bytes "open $url$") (bytes "$url$") ∧
    ∀ n, execaction (fun _ => bytes "open $url$") n (bytes "openurl") (bytes "$url$") = none := by
  have hnone : ∀ n, execaction (fun _ => bytes "open $url$") n (bytes "openurl") (bytes "$url$") =
      none := by
    intro n
    rw [execaction_openurl]
    refine Option.bind_eq_none_iff.mpr fun u hu => ?_
    rw [quoteLoop_some _ n hu, show escaped (bytes "$url$") = placeholder by decide]
    exact placeholder_url n
  refine ⟨?_, hnone⟩
  rintro ⟨n, h⟩
  rw [hnone n] at h
  cases h

end CenterIM.UrlSubstitution
