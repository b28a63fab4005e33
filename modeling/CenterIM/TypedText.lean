import CenterIM.DisplayLines

/-!
# What typing does to the text

A character that is typed changes the text by that character exactly when the lines that are
wrapped because of it come out with their breaks where the text has them.
-/
namespace CenterIM.TypedText
open ByteText TextEditor DisplayLines

def chars (t : Str) : Str := t.filter (· ≠ lf)

def DelimAt (p : Str) (i : ℕ) : Prop := ∃ c, p[i]? = some c ∧ isDelim c = true

/-- The place is within the width, and a word comes behind it. -/
def Breakable (w : ℕ) (p : Str) (i : ℕ) : Prop := i < w ∧ ∃ c ∈ p.drop i, isDelim c = false

/-- A line that is too long is broken behind its last delimiter that is within the width and has a
word behind it; when there is none, behind the first delimiter; and without any delimiter before
the last character. -/
def BreakPlace (w : ℕ) (p : Str) (i : ℕ) : Prop :=
  ((∀ j, ¬DelimAt p j) ∧ i + 2 = p.length) ∨
    DelimAt p i ∧ (Breakable w p i ∨ ∀ j < i, ¬DelimAt p j) ∧
      ∀ j > i, DelimAt p j → ¬Breakable w p j

def FirstPart (w : ℕ) (p n : Str) : Prop := ∃ i, BreakPlace w p i ∧ n = p.take (i + 1)

/-- A piece of text `t`, at the end of which there is a break or none, flows into the lines
after it: a piece that fits has no break inside and the line ends like the text; of a piece
that does not fit the first part has a break after it just when the text has it there, and
the remainder flows together with the next line. -/
inductive Flows (w : ℕ) : Str → Bool → List Str → Prop
  | fits {t : Str} {b : Bool} {rest : List Str} : lf ∉ t → t.length ≤ w →
      (rest = [] ∨ hard w t = b) → Flows w t b rest
  | next {t t' n : Str} {b : Bool} {q : Str} {rest : List Str} : w < (chars t).length →
      FirstPart w (chars t) n → t = n ++ brk (hard w n) ++ t' →
      Flows w (t' ++ brk b ++ q) (hard w q) rest → Flows w t b (q :: rest)
  | last {t t' n : Str} {b : Bool} : w < (chars t).length → FirstPart w (chars t) n →
      t = n ++ brk (hard w n) ++ t' → Flows w t' b [] → Flows w t b []

section Break
variable {n : Str}

theorem nextDelim_none {i : ℕ} (h : nextDelim n i = none) {j : ℕ} (hj : i ≤ j) : ¬DelimAt n j := by
  rintro ⟨c, hc, hd⟩
  have hall : ∀ c ∈ n.drop i, isDelim c = false := by simpa [nextDelim] using h
  have hm : c ∈ n.drop i := by
    refine List.mem_of_getElem? (i := j - i) ?_
    rw [List.getElem?_drop, show i + (j - i) = j by omega]
    exact hc
  rw [hall c hm] at hd
  cases hd

theorem nextDelim_some {i j : ℕ} (h : nextDelim n i = some j) :
    i ≤ j ∧ DelimAt n j ∧ ∀ k, i ≤ k → k < j → ¬DelimAt n k := by
  obtain ⟨k, hk, rfl⟩ := Option.map_eq_some_iff.mp h
  obtain ⟨hlt, hd, hno⟩ := List.findIdx?_eq_some_iff_getElem.mp hk
  rw [List.length_drop] at hlt
  refine ⟨by omega, ⟨_, ?_, hd⟩, fun m hm hmk => ?_⟩
  · rw [List.getElem_drop, List.getElem?_eq_getElem (by omega)]
    congr 2
    omega
  · rintro ⟨c, hc, hdc⟩
    obtain ⟨hm', hget⟩ := List.getElem?_eq_some_iff.mp hc
    have hlen : m - i < (n.drop i).length := by
      rw [List.length_drop]
      omega
    refine hno (m - i) (by omega) ?_
    have heq : (n.drop i)[m - i] = c := by
      rw [List.getElem_drop, ← hget]
      congr 1
      omega
    rw [heq]
    exact hdc

theorem delimAt_lt {i : ℕ} (h : DelimAt n i) : i < n.length := by
  obtain ⟨c, hc, -⟩ := h
  exact (List.getElem?_eq_some_iff.mp hc).1

/-- The loop stops at a delimiter that is allowed, or where it began, and the one behind it is not
allowed. -/
theorem lastSub_spec (ok : ℕ → Bool) {fuel sub : ℕ} (hf : n.length ≤ sub + fuel) (hd : DelimAt n sub) :
    let a := lastSub n ok fuel sub
    DelimAt n a ∧ (a = sub ∨ ok a = true) ∧
      ∀ j > a, DelimAt n j → ∃ o, a < o ∧ o ≤ j ∧ ok o = false := by
  induction fuel generalizing sub with
  | zero => exact absurd (delimAt_lt hd) (by omega)
  | succ fuel ih =>
    simp only [lastSub]
    cases hn : nextDelim n (sub + 1) with
    | none => exact ⟨hd, .inl rfl, fun j hj hdj => absurd hdj (nextDelim_none hn hj)⟩
    | some osub =>
      obtain ⟨hle, hdo, hno⟩ := nextDelim_some hn
      dsimp only
      by_cases hok : ok osub = true
      · rw [if_pos hok]
        obtain ⟨h1, h2, h3⟩ := ih (by omega) hdo
        refine ⟨h1, .inr ?_, h3⟩
        rcases h2 with h2 | h2
        · rw [h2]
          exact hok
        · exact h2
      · rw [if_neg hok]
        refine ⟨hd, .inl rfl, fun j hj hdj => ⟨osub, by omega, ?_, Bool.eq_false_iff.mpr hok⟩⟩
        by_contra hlt
        exact hno j hj (by omega) hdj

theorem Breakable.mono {w : ℕ} {p : Str} {i j : ℕ} (h : Breakable w p j) (hij : i ≤ j) :
    Breakable w p i := by
  obtain ⟨hj, c, hc, hd⟩ := h
  exact ⟨by omega, c, List.drop_subset_drop_left p hij hc, hd⟩

theorem breakable_iff {w : ℕ} {p : Str} {i : ℕ} :
    (!(p.drop i).all isDelim && decide (i < w)) = true ↔ Breakable w p i := by
  simp [Breakable, and_comm]

/-- `wrapline` finds the place. -/
theorem breakPlace_cutAt (w : ℕ) {p : Str} (hp : 2 ≤ p.length) : BreakPlace w p (cutAt w p) := by
  rw [cutAt]
  cases h : nextDelim p 0 with
  | none => exact .inl ⟨fun j => nextDelim_none h (Nat.zero_le j), by dsimp only; omega⟩
  | some sub =>
    obtain ⟨-, hd, hno⟩ := nextDelim_some h
    obtain ⟨h1, h2, h3⟩ := lastSub_spec
      (fun osub => !(p.drop osub).all isDelim && decide (osub < w)) (Nat.le_add_left p.length sub) hd
    dsimp only
    refine .inr ⟨h1, ?_, fun j hj hdj hb => ?_⟩
    · rcases h2 with h2 | h2
      · right
        rw [h2]
        exact fun j hj => hno j (Nat.zero_le j) hj
      · exact .inl (breakable_iff.mp h2)
    · obtain ⟨o, -, hoj, hok⟩ := h3 j hj hdj
      exact Bool.eq_false_iff.mp hok (breakable_iff.mpr (hb.mono hoj))

theorem breakPlace_unique {w : ℕ} {p : Str} {i j : ℕ} (hi : BreakPlace w p i) (hj : BreakPlace w p j) :
    i = j := by
  have hlt : ∀ {i j}, DelimAt p i → i < j → (∀ k > i, DelimAt p k → ¬Breakable w p k) →
      DelimAt p j → ¬(Breakable w p j ∨ ∀ k < j, ¬DelimAt p k) := by
    intro i j hdi hij hlast hdj hor
    rcases hor with hb | hfirst
    · exact hlast j hij hdj hb
    · exact hfirst i hij hdi
  rcases hi with ⟨hno, hi⟩ | ⟨hdi, hori, hlasti⟩ <;> rcases hj with ⟨hno', hj⟩ | ⟨hdj, horj, hlastj⟩
  · omega
  · exact absurd hdj (hno j)
  · exact absurd hdi (hno' i)
  · rcases Nat.lt_trichotomy i j with h | h | h
    · exact absurd horj (hlt hdi h hlasti hdj)
    · exact h
    · exact absurd hori (hlt hdj h hlastj hdi)

end Break

def cutLine (w : ℕ) (p : Str) : Str := p.take (cutAt w p + 1)

def sep (w : ℕ) (p : Str) : Str := p.drop (cutAt w p + 1)

theorem firstPart_iff {w : ℕ} {p n : Str} (hp : 2 ≤ p.length) : FirstPart w p n ↔ n = cutLine w p := by
  constructor
  · rintro ⟨i, hi, rfl⟩
    rw [cutLine, breakPlace_unique hi (breakPlace_cutAt w hp)]
  · rintro rfl
    exact ⟨cutAt w p, breakPlace_cutAt w hp, rfl⟩

@[simp] theorem chars_append (s t : Str) : chars (s ++ t) = chars s ++ chars t := List.filter_append ..

theorem chars_of_not_mem {t : Str} (h : lf ∉ t) : chars t = t :=
  List.filter_eq_self.mpr fun c hc => by
    rw [decide_eq_true_eq]
    rintro rfl
    exact h hc

@[simp] theorem chars_brk (b : Bool) : chars (brk b) = [] := by cases b <;> rfl

theorem lf_not_mem_chars (t : Str) : lf ∉ chars t := by simp [chars]

/-- A piece of text equals a line with the break that `save` puts after it, and what follows is
the same: then there is no break inside, and the text has the same break. -/
theorem piece_eq {w : ℕ} {t : Str} {b : Bool} {rest : List Str} {h : Bool}
    (hb : t.getLast? = some lf → b = true)
    (he : chars t ++ after w h rest = t ++ after w b rest) : lf ∉ t ∧ (rest = [] ∨ h = b) := by
  by_cases hr : rest = []
  · subst hr
    simp only [after_nil, List.append_nil] at he
    refine ⟨?_, .inl rfl⟩
    rw [← he]
    exact lf_not_mem_chars t
  · have hlen := congrArg List.length he
    have hle : (chars t).length ≤ t.length := List.length_filter_le ..
    simp only [after, if_neg hr, List.length_append] at hlen
    have hplain : (chars t).length = t.length → lf ∉ t := fun hl hm => by
      have hall := List.length_filter_eq_length_iff.mp hl lf hm
      simp at hall
    cases h <;> cases b
    · exact ⟨hplain (by omega), .inr rfl⟩
    · simp only [brk, Bool.false_eq_true, if_false, if_true, List.length_nil, List.length_singleton] at hlen
      omega
    · exfalso
      simp only [after, if_neg hr, brk, Bool.false_eq_true, if_false, if_true, List.nil_append,
        ← List.append_assoc] at he
      have ht := List.append_cancel_right he
      rw [← ht] at hb
      simp at hb
    · exact ⟨hplain (by omega), .inr rfl⟩

theorem cutLine_sep (w : ℕ) (p : Str) : cutLine w p ++ sep w p = p := List.take_append_drop _ _

theorem wrap_induction (w : ℕ) {P : Str → List Str → Prop}
    (fits : ∀ p rest, ¬w < p.length → P p rest)
    (next : ∀ p q rest, w < p.length → P (sep w p ++ q) rest → P p (q :: rest))
    (last : ∀ p, w < p.length → P (sep w p) [] → P p []) (p : Str) (rest : List Str) :
    P p rest := by
  induction rest generalizing p with
  | nil =>
    induction hn : p.length using Nat.strong_induction_on generalizing p with
    | _ n ih =>
      by_cases hw : w < p.length
      · refine last p hw (ih _ ?_ _ rfl)
        rw [sep, List.length_drop]
        omega
      · exact fits p [] hw
  | cons q rest ih =>
    by_cases hw : w < p.length
    · exact next p q rest hw (ih _)
    · exact fits p _ hw

theorem wrapline_fits {w : ℕ} {p : Str} (h : ¬w < p.length) (rest : List Str) (px py : ℕ) :
    wrapline w (p :: rest) px py = (p :: rest, px, py) := by
  rw [wrapline, if_neg h]

theorem wrapline_stay {w : ℕ} {p : Str} (h : w < p.length) (rest : List Str) {px : ℕ}
    (hx : ¬(cutLine w p).length ≤ px) (py : ℕ) : wrapline w (p :: rest) px py =
      (cutLine w p :: (wrapline w (prepend (sep w p) rest) 0 0).1, px, py) := by
  rw [wrapline, if_pos h]
  exact if_neg hx

theorem wrapline_move {w : ℕ} {p : Str} (h : w < p.length) (rest : List Str) {px : ℕ}
    (hx : (cutLine w p).length ≤ px) (py : ℕ) : wrapline w (p :: rest) px py =
      (let r := wrapline w (prepend (sep w p) rest) (px - (cutLine w p).length) (py + 1)
      (cutLine w p :: r.1, r.2)) := by
  rw [wrapline, if_pos h]
  exact if_pos hx

theorem wrapline_lines (w : ℕ) (p : Str) (rest : List Str) (px py : ℕ) :
    (wrapline w (p :: rest) px py).1 = (wrapline w (p :: rest) 0 0).1 := by
  have hmove : ∀ p rest, w < p.length →
      (∀ px py, (wrapline w (prepend (sep w p) rest) px py).1 =
        (wrapline w (prepend (sep w p) rest) 0 0).1) →
      ∀ px py, (wrapline w (p :: rest) px py).1 =
        cutLine w p :: (wrapline w (prepend (sep w p) rest) 0 0).1 := by
    intro p rest hw hrest px py
    by_cases hx : (cutLine w p).length ≤ px
    · rw [wrapline_move hw rest hx]
      exact congrArg _ (hrest _ _)
    · rw [wrapline_stay hw rest hx]
  induction p, rest using wrap_induction w generalizing px py with
  | fits p rest hw => rw [wrapline_fits hw, wrapline_fits hw]
  | next p q rest hw ih => rw [hmove p (q :: rest) hw ih, hmove p (q :: rest) hw ih]
  | last p hw ih => rw [hmove p [] hw ih, hmove p [] hw ih]

theorem wrapline_cut {w : ℕ} {p : Str} (h : w < p.length) (rest : List Str) (px py : ℕ) :
    (wrapline w (p :: rest) px py).1 =
      cutLine w p :: (wrapline w (prepend (sep w p) rest) 0 0).1 := by
  by_cases hx : (cutLine w p).length ≤ px
  · rw [wrapline_move h rest hx]
    cases rest with
    | nil => exact congrArg _ (wrapline_lines ..)
    | cons q rest => exact congrArg _ (wrapline_lines ..)
  · rw [wrapline_stay h rest hx]

theorem wrapline_ne_nil (w : ℕ) (p : Str) (rest : List Str) (px py : ℕ) :
    (wrapline w (p :: rest) px py).1 ≠ [] := by
  by_cases hw : w < p.length
  · rw [wrapline_cut hw]
    exact List.cons_ne_nil _ _
  · rw [wrapline_fits hw]
    exact List.cons_ne_nil _ _

theorem text_wrapline_cut {w : ℕ} {p : Str} (h : w < p.length) (rest : List Str) (px py : ℕ) :
    text w (wrapline w (p :: rest) px py).1 = cutLine w p ++ brk (hard w (cutLine w p)) ++
      text w (wrapline w (prepend (sep w p) rest) 0 0).1 := by
  have hne : (wrapline w (prepend (sep w p) rest) 0 0).1 ≠ [] := by
    cases rest with
    | nil => exact wrapline_ne_nil w _ _ _ _
    | cons q rest => exact wrapline_ne_nil w _ _ _ _
  rw [wrapline_cut h, text_cons, after, if_neg hne, List.append_assoc]

/-- A line that is cut off and has a break after it is not the whole line. -/
theorem hard_cutLine {w : ℕ} {p : Str} (hw : 2 ≤ w) (h : w < p.length) (hh : hard w (cutLine w p) = true) :
    (cutLine w p).length < p.length := by
  by_contra hle
  have hplace := breakPlace_cutAt w (show 2 ≤ p.length by omega)
  have hlen : p.length ≤ cutAt w p + 1 := by
    rw [cutLine, List.length_take] at hle
    omega
  have hwhole : cutLine w p = p := List.take_of_length_le hlen
  rcases hplace with ⟨-, hi⟩ | ⟨hd, hor, -⟩
  · omega
  · have hlt := delimAt_lt hd
    -- nothing is behind the last character, so it is the only delimiter
    have hfirst : ∀ j < cutAt w p, ¬DelimAt p j := by
      refine hor.resolve_left ?_
      rintro ⟨hiw, -⟩
      omega
    have hshift : shifted p = p := by
      refine shifted_of_head fun hhead => hfirst 0 (by omega) ⟨blank, ?_, rfl⟩
      rw [← List.head?_eq_getElem?]
      exact hhead
    rw [hwhole, hard_iff, hshift] at hh
    rcases hh with hnil | ⟨-, hshort⟩
    · rw [hnil, List.length_nil] at h
      omega
    · omega

/-- The line that is cut off the characters of a piece, with its break, is not longer than the
piece. -/
theorem cut_le {w : ℕ} {t : Str} (hw : 2 ≤ w) (h : w < (chars t).length) :
    (cutLine w (chars t) ++ brk (hard w (cutLine w (chars t)))).length ≤ t.length := by
  have hle : (chars t).length ≤ t.length := List.length_filter_le ..
  have hn : (cutLine w (chars t)).length ≤ (chars t).length := by
    rw [cutLine, List.length_take]
    exact min_le_right ..
  rw [List.length_append]
  cases hh : hard w (cutLine w (chars t)) with
  | false =>
    simp only [brk, Bool.false_eq_true, if_false, List.length_nil]
    omega
  | true =>
    have := hard_cutLine hw h hh
    simp only [brk, if_true, List.length_singleton]
    omega

theorem chars_rest {w : ℕ} {t t' : Str}
    (h : t = cutLine w (chars t) ++ brk (hard w (cutLine w (chars t))) ++ t') :
    chars t' = sep w (chars t) := by
  have hc := congrArg chars h
  have hn : chars (cutLine w (chars t)) = cutLine w (chars t) :=
    chars_of_not_mem fun hm => lf_not_mem_chars t (List.mem_of_mem_take hm)
  rw [chars_append, chars_append, chars_brk, List.append_nil, hn] at hc
  exact List.append_cancel_left (hc.symm.trans (cutLine_sep w (chars t)).symm)

/-- A piece that is longer than the width starts with the line that is cut off it, when the
text of the wrapped lines is what it was. -/
theorem piece_cut {w : ℕ} (hw : 2 ≤ w) {t u v : Str} (h : w < (chars t).length)
    (he : cutLine w (chars t) ++ brk (hard w (cutLine w (chars t))) ++ u = t ++ v) :
    ∃ t', t = cutLine w (chars t) ++ brk (hard w (cutLine w (chars t))) ++ t' ∧ u = t' ++ v ∧
      chars t' = sep w (chars t) := by
  obtain ⟨t', ht'⟩ := List.prefix_of_prefix_length_le (List.prefix_append _ u)
    (he ▸ List.prefix_append t v) (cut_le hw h)
  refine ⟨t', ht'.symm, ?_, chars_rest ht'.symm⟩
  have he' : cutLine w (chars t) ++ brk (hard w (cutLine w (chars t))) ++ u =
      cutLine w (chars t) ++ brk (hard w (cutLine w (chars t))) ++ t' ++ v := by
    rw [ht']
    exact he
  rw [List.append_assoc _ t' v] at he'
  exact List.append_cancel_left he'

theorem getLast_join {t q : Str} {b : Bool} (hq : lf ∉ q) (w : ℕ)
    (h : (t ++ brk b ++ q).getLast? = some lf) : hard w q = true := by
  by_cases hn : q = []
  · rw [hn, hard_nil]
  · rw [List.getLast?_append_of_ne_nil _ hn] at h
    exact absurd (List.mem_of_getLast? h) hq

/-- The text of the wrapped lines is the text of the piece and of the lines after it exactly
when the piece flows. -/
theorem text_wrapline_iff {w : ℕ} (hw2 : 2 ≤ w) {r : List Str} (hrest : ∀ l ∈ r, lf ∉ l) {t : Str} {b : Bool}
    (hb : r ≠ [] → t.getLast? = some lf → b = true) :
    text w (wrapline w (chars t :: r) 0 0).1 = t ++ after w b r ↔ Flows w t b r := by
  generalize hp : chars t = p
  induction p, r using wrap_induction w generalizing t b with
  | fits p rest hw =>
    subst hp
    rw [wrapline_fits hw, text_cons]
    refine ⟨fun he => ?_, fun h => ?_⟩
    · obtain ⟨hlf, hend⟩ : lf ∉ t ∧ (rest = [] ∨ hard w (chars t) = b) := by
        by_cases hr : rest = []
        · subst hr
          have he' : chars t ++ after w true [] = t ++ after w true [] := he
          exact ⟨(piece_eq (fun _ => rfl) he').1, .inl rfl⟩
        · exact piece_eq (hb hr) he
      rw [chars_of_not_mem hlf] at hw hend
      exact .fits hlf (by omega) hend
    · cases h with
      | fits hlf _ hend =>
        rw [chars_of_not_mem hlf]
        rcases hend with rfl | rfl <;> rfl
      | next hlong => exact absurd hlong hw
      | last hlong => exact absurd hlong hw
  | next p q rest hw ih =>
    subst hp
    have hq : lf ∉ q := hrest q (by simp)
    have hstep : ∀ t', chars t' = sep w (chars t) →
        (text w (wrapline w (prepend (sep w (chars t)) (q :: rest)) 0 0).1 =
          t' ++ after w b (q :: rest) ↔ Flows w (t' ++ brk b ++ q) (hard w q) rest) := by
      intro t' ht'
      rw [← ih (fun l hl => hrest l (by simp [hl])) (fun _ h => getLast_join hq w h)
        (by simp [ht', chars_of_not_mem hq])]
      rw [after_cons, text_cons, prepend, List.append_assoc, List.append_assoc]
    rw [text_wrapline_cut hw]
    refine ⟨fun he => ?_, fun h => ?_⟩
    · obtain ⟨t', ht, hu, hc⟩ := piece_cut hw2 hw he
      exact .next hw ((firstPart_iff (by omega)).mpr rfl) ht ((hstep t' hc).mp hu)
    · cases h with
      | fits hlf hle => exact absurd hw (by rw [chars_of_not_mem hlf]; omega)
      | @next _ t' n _ _ _ _ hn ht h =>
        obtain rfl := (firstPart_iff (by omega)).mp hn
        rw [(hstep t' (chars_rest ht)).mpr h, ← List.append_assoc, ← ht]
  | last p hw ih =>
    subst hp
    have hstep : ∀ t', chars t' = sep w (chars t) →
        (text w (wrapline w (prepend (sep w (chars t)) []) 0 0).1 = t' ++ after w b [] ↔
          Flows w t' b []) := fun t' ht' => ih hrest (fun h => absurd rfl h) ht'
    rw [text_wrapline_cut hw]
    refine ⟨fun he => ?_, fun h => ?_⟩
    · obtain ⟨t', ht, hu, hc⟩ := piece_cut hw2 hw he
      exact .last hw ((firstPart_iff (by omega)).mpr rfl) ht ((hstep t' hc).mp hu)
    · cases h with
      | fits hlf hle => exact absurd hw (by rw [chars_of_not_mem hlf]; omega)
      | @last _ t' n _ _ hn ht h =>
        obtain rfl := (firstPart_iff (by omega)).mp hn
        rw [(hstep t' (chars_rest ht)).mpr h, ← List.append_assoc, ← ht]

/-- The cursor, given as a place in wrapped lines, is at this place of their text. -/
def At (w : ℕ) (lines : List Str) (col line n : ℕ) : Prop :=
  line < lines.length ∧ (textBefore w (lines.take line)).length + col = n ∧
    col ≤ (lines.getD line []).length

theorem at_cons {w : ℕ} {n : Str} {lines : List Str} {col line k : ℕ} (hn : hard w n = false)
    (h : At w lines col line k) : At w (n :: lines) col (line + 1) (n.length + k) := by
  obtain ⟨h1, h2, h3⟩ := h
  refine ⟨Nat.succ_lt_succ h1, ?_, h3⟩
  rw [List.take_succ_cons, textBefore_cons, hn]
  simp only [brk, Bool.false_eq_true, if_false, List.append_nil, List.length_append]
  omega

theorem at_append {w : ℕ} {p lines : List Str} {col line n : ℕ} (h : At w lines col line n) :
    At w (p ++ lines) col (p.length + line) ((textBefore w p).length + n) := by
  obtain ⟨h1, h2, h3⟩ := h
  refine ⟨by rw [List.length_append]; omega, ?_, ?_⟩
  · rw [List.take_length_add_append, textBefore, List.flatMap_append, List.length_append, ← textBefore,
      ← textBefore]
    omega
  · rw [List.getD_append_right _ _ _ _ (Nat.le_add_right _ _), Nat.add_sub_cancel_left]
    exact h3

/-- A line that is cut off in front of the cursor has no break after it. -/
theorem cut_before_cursor {w : ℕ} {n t' u v : Str} (he : n ++ brk (hard w n) ++ t' = u ++ v)
    (hu : lf ∉ u) (hv : v.head? ≠ some lf) (hx : n.length ≤ u.length) :
    hard w n = false ∧ ∃ u', u = n ++ u' ∧ t' = u' ++ v := by
  obtain ⟨u', hu'⟩ := List.prefix_of_prefix_length_le
    (by rw [List.append_assoc]; exact List.prefix_append n _) (he ▸ List.prefix_append u v) hx
  have hrest : brk (hard w n) ++ t' = u' ++ v := by
    rw [← hu', List.append_assoc, List.append_assoc] at he
    exact List.append_cancel_left he
  have hn : hard w n = false := by
    by_contra hn
    rw [Bool.not_eq_false] at hn
    rw [hn] at hrest
    cases u' with
    | nil => exact hv (by rw [← List.nil_append v, ← hrest]; rfl)
    | cons c u' =>
      have hc : lf = c := (List.cons.inj hrest).1
      exact hu (by rw [← hu', ← hc]; simp)
  refine ⟨hn, u', hu'.symm, ?_⟩
  rw [hn] at hrest
  exact hrest

/-- What is typed goes along with the text that is wrapped: `u` is the text in front of the
cursor, `v` what is after it. -/
theorem cursor_wrapline {w : ℕ} (hw2 : 2 ≤ w) {rest : List Str} (hrest : ∀ l ∈ rest, lf ∉ l) {t u v : Str}
    {b : Bool} (hflow : Flows w t b rest) (ht : t = u ++ v) (hu : lf ∉ u) (hv : v.head? ≠ some lf)
    (hend : v = [] → rest = [] ∨ (chars t).length ≤ w ∨ (b = false ∧ (chars t).length ≤ w + 1))
    (py : ℕ) : ∃ j, (wrapline w (chars t :: rest) u.length py).2.2 = py + j ∧
      At w (wrapline w (chars t :: rest) u.length py).1
        (wrapline w (chars t :: rest) u.length py).2.1 j u.length := by
  induction hflow generalizing u v py with
  | @fits t b rest hlf hle hend' =>
    have hw : ¬w < (chars t).length := by
      rw [chars_of_not_mem hlf]
      omega
    rw [wrapline_fits hw]
    refine ⟨0, rfl, Nat.succ_pos _, Nat.zero_add _, ?_⟩
    rw [chars_of_not_mem hlf, ht]
    simp
  | @next t t' n b q rest hw hn hcut hflow ih =>
    obtain rfl := (firstPart_iff (by omega)).mp hn
    by_cases hx : (cutLine w (chars t)).length ≤ u.length
    · obtain ⟨hsoft, u', rfl, ht'⟩ := cut_before_cursor (hcut.symm.trans ht) hu hv hx
      have hq : lf ∉ q := hrest q (by simp)
      have hc : chars (t' ++ brk b ++ q) = sep w (chars t) ++ q := by
        simp [chars_rest hcut, chars_of_not_mem hq]
      have hv' : (v ++ (brk b ++ q)).head? ≠ some lf := by
        cases v with
        | cons c v => exact hv
        | nil =>
          obtain ⟨rfl, -⟩ : b = false ∧ _ := ((hend rfl).resolve_left (by simp)).resolve_left (by omega)
          intro h
          exact hq (List.mem_of_mem_head? h)
      have hend' : v ++ (brk b ++ q) = [] →
          rest = [] ∨ (chars (t' ++ brk b ++ q)).length ≤ w ∨
            (hard w q = false ∧ (chars (t' ++ brk b ++ q)).length ≤ w + 1) := by
        intro h
        obtain ⟨hvn, hbq⟩ := List.append_eq_nil_iff.mp h
        obtain ⟨-, hlen⟩ := ((hend hvn).resolve_left (by simp)).resolve_left (by omega)
        refine .inr (.inl ?_)
        rw [hc, (List.append_eq_nil_iff.mp hbq).2, List.append_nil, sep, List.length_drop]
        omega
      obtain ⟨j, hj, hat⟩ := ih (fun l hl => hrest l (by simp [hl])) (u := u') (v := v ++ (brk b ++ q))
        (by rw [ht']; simp) (fun h => hu (by simp [h])) hv' hend' (py + 1)
      have hx' : (cutLine w (chars t) ++ u').length - (cutLine w (chars t)).length = u'.length := by simp
      rw [wrapline_move hw _ hx, hx']
      rw [hc] at hj hat
      refine ⟨j + 1, hj.trans (by omega), ?_⟩
      rw [List.length_append]
      exact at_cons hsoft hat
    · rw [wrapline_stay hw _ hx]
      exact ⟨0, rfl, Nat.succ_pos _, Nat.zero_add _, by simp at hx ⊢; omega⟩
  | @last t t' n b hw hn hcut hflow ih =>
    obtain rfl := (firstPart_iff (by omega)).mp hn
    by_cases hx : (cutLine w (chars t)).length ≤ u.length
    · obtain ⟨hsoft, u', rfl, ht'⟩ := cut_before_cursor (hcut.symm.trans ht) hu hv hx
      obtain ⟨j, hj, hat⟩ := ih hrest ht' (fun h => hu (by simp [h])) hv (fun _ => .inl rfl) (py + 1)
      have hx' : (cutLine w (chars t) ++ u').length - (cutLine w (chars t)).length = u'.length := by simp
      rw [wrapline_move hw _ hx, hx']
      rw [chars_rest hcut] at hj hat
      refine ⟨j + 1, hj.trans (by omega), ?_⟩
      rw [List.length_append]
      exact at_cons hsoft hat
    · rw [wrapline_stay hw _ hx]
      exact ⟨0, rfl, Nat.succ_pos _, Nat.zero_add _, by simp at hx ⊢; omega⟩

/-- The cursor of a display line that is wrapped stays in front of its first character. -/
theorem wrapline_start {w : ℕ} {p : Str} (hp : p ≠ []) (rest : List Str) (py : ℕ) :
    (wrapline w (p :: rest) 0 py).2 = (0, py) := by
  by_cases hw : w < p.length
  · rw [wrapline_stay hw rest fun hx => ?_]
    have hlen := Nat.le_zero.mp hx
    rw [cutLine, List.length_take] at hlen
    have := List.length_pos_iff.mpr hp
    omega
  · rw [wrapline_fits hw]

theorem lf_not_mem_cutLine (w : ℕ) (t : Str) : lf ∉ cutLine w (chars t) := fun hm =>
  lf_not_mem_chars t (List.mem_of_mem_take hm)

/-- A line that is cut off a text does not reach over a break of it. -/
theorem cut_before_break {w : ℕ} {n t' u v : Str} (hn : lf ∉ n) (he : n ++ brk (hard w n) ++ t' = u ++ lf :: v)
    (hu : lf ∉ u) :
    ∃ u', u = n ++ u' ∧ ((hard w n = false ∧ t' = u' ++ lf :: v) ∨ (hard w n = true ∧ u' = [])) := by
  have hle : n.length ≤ u.length := by
    by_contra hlt
    have hpre : u ++ [lf] <+: n := by
      refine List.prefix_of_prefix_length_le ⟨v, ?_⟩ ⟨brk (hard w n) ++ t', rfl⟩ ?_
      · rw [← List.append_assoc, he, List.append_assoc, List.singleton_append]
      · rw [List.length_append, List.length_singleton]
        omega
    exact hn (hpre.subset (by simp))
  obtain ⟨u', hu'⟩ := List.prefix_of_prefix_length_le
    (by rw [List.append_assoc]; exact List.prefix_append n _) (he ▸ List.prefix_append u (lf :: v)) hle
  have hrest : brk (hard w n) ++ t' = u' ++ lf :: v := by
    rw [← hu', List.append_assoc, List.append_assoc] at he
    exact List.append_cancel_left he
  refine ⟨u', hu'.symm, ?_⟩
  cases hh : hard w n with
  | false =>
    rw [hh] at hrest
    exact .inl ⟨rfl, hrest⟩
  | true =>
    refine .inr ⟨rfl, ?_⟩
    rw [hh] at hrest
    cases u' with
    | nil => rfl
    | cons c u' =>
      have hc : lf = c := (List.cons.inj hrest).1
      exact absurd (by rw [← hu', ← hc]; simp) hu

/-- A cursor at the end of a line that is cut off goes to the next one, over the break. -/
theorem cursor_over {w : ℕ} (hw2 : 2 ≤ w) {p : Str} (hw : w < p.length) (hh : hard w (cutLine w p) = true)
    (rest : List Str) (py : ℕ) :
    ∃ j, (wrapline w (p :: rest) (cutLine w p).length py).2.2 = py + j ∧
      At w (wrapline w (p :: rest) (cutLine w p).length py).1
        (wrapline w (p :: rest) (cutLine w p).length py).2.1 j ((cutLine w p).length + 1) := by
  have hsep : sep w p ≠ [] := by
    have hlt := hard_cutLine hw2 hw hh
    intro he
    have hlen := congrArg List.length (cutLine_sep w p)
    rw [he, List.append_nil] at hlen
    omega
  obtain ⟨p', rest', hp', hne⟩ : ∃ p' rest', prepend (sep w p) rest = p' :: rest' ∧ p' ≠ [] := by
    cases rest with
    | nil => exact ⟨_, _, rfl, hsep⟩
    | cons q rest => exact ⟨_, _, rfl, by simp [hsep]⟩
  rw [wrapline_move hw rest (Nat.le_refl _), Nat.sub_self, hp']
  obtain ⟨x, tail, hx⟩ := List.exists_cons_of_ne_nil (wrapline_ne_nil w p' rest' 0 (py + 1))
  simp only [wrapline_start hne, hx]
  refine ⟨1, rfl, by simp, ?_, Nat.zero_le _⟩
  rw [List.take_succ_cons, textBefore_cons, hh]
  simp [brk, textBefore]

/-- What is typed in front of a break goes behind it when the text is wrapped up to there. -/
theorem cursor_past {w : ℕ} (hw2 : 2 ≤ w) {rest : List Str} {t u v : Str} {b : Bool}
    (hrest : ∀ l ∈ rest, lf ∉ l) (hflow : Flows w t b rest) (ht : t = u ++ lf :: v) (hu : lf ∉ u) (py : ℕ) :
    ∃ j, (wrapline w (chars t :: rest) u.length py).2.2 = py + j ∧
      At w (wrapline w (chars t :: rest) u.length py).1
        (wrapline w (chars t :: rest) u.length py).2.1 j (u.length + 1) := by
  induction hflow generalizing u v py with
  | fits hlf _ _ => exact absurd (by rw [ht]; simp) hlf
  | @next t t' n b q rest hw hn hcut hflow ih =>
    obtain rfl := (firstPart_iff (by omega)).mp hn
    have hq : lf ∉ q := hrest q (by simp)
    have hc : chars (t' ++ brk b ++ q) = sep w (chars t) ++ q := by
      simp [chars_rest hcut, chars_of_not_mem hq]
    obtain ⟨u', rfl, ⟨hsoft, ht'⟩ | ⟨hhard, rfl⟩⟩ := cut_before_break (lf_not_mem_cutLine w t)
      (hcut.symm.trans ht) hu
    · obtain ⟨j, hj, hat⟩ := ih (fun l hl => hrest l (by simp [hl])) (u := u') (v := v ++ (brk b ++ q))
        (by rw [ht']; simp) (fun h => hu (by simp [h])) (py + 1)
      have hx : (cutLine w (chars t)).length ≤ (cutLine w (chars t) ++ u').length := by simp
      have hx' : (cutLine w (chars t) ++ u').length - (cutLine w (chars t)).length = u'.length := by simp
      rw [wrapline_move hw _ hx, hx']
      rw [hc] at hj hat
      refine ⟨j + 1, hj.trans (by omega), ?_⟩
      rw [List.length_append, Nat.add_assoc]
      exact at_cons hsoft hat
    · rw [List.append_nil]
      exact cursor_over hw2 hw hhard _ py
  | @last t t' n b hw hn hcut hflow ih =>
    obtain rfl := (firstPart_iff (by omega)).mp hn
    obtain ⟨u', rfl, ⟨hsoft, ht'⟩ | ⟨hhard, rfl⟩⟩ := cut_before_break (lf_not_mem_cutLine w t)
      (hcut.symm.trans ht) hu
    · obtain ⟨j, hj, hat⟩ := ih hrest ht' (fun h => hu (by simp [h])) (py + 1)
      have hx : (cutLine w (chars t)).length ≤ (cutLine w (chars t) ++ u').length := by simp
      have hx' : (cutLine w (chars t) ++ u').length - (cutLine w (chars t)).length = u'.length := by simp
      rw [wrapline_move hw _ hx, hx']
      rw [chars_rest hcut] at hj hat
      refine ⟨j + 1, hj.trans (by omega), ?_⟩
      rw [List.length_append, Nat.add_assoc]
      exact at_cons hsoft hat
    · rw [List.append_nil]
      exact cursor_over hw2 hw hhard _ py

/-- What is typed at the end of a line with a break after it, so that the line is wrapped, is not
right in front of the cursor. -/
theorem cursor_end {w : ℕ} (hw2 : 2 ≤ w) {rest : List Str} {t : Str} {b : Bool}
    (hrest : ∀ l ∈ rest, lf ∉ l) (hflow : Flows w t b rest) (hlf : lf ∉ t) (hw : w < (chars t).length)
    (hb : b = true) (hne : rest ≠ []) (py : ℕ) :
    ∃ j, (wrapline w (chars t :: rest) t.length py).2.2 = py + j ∧
      At w (wrapline w (chars t :: rest) t.length py).1
        (wrapline w (chars t :: rest) t.length py).2.1 j (t.length + 1) := by
  cases hflow with
  | fits _ hle _ => exact absurd hw (by rw [chars_of_not_mem hlf]; omega)
  | last _ _ _ _ => exact absurd rfl hne
  | @next t t' n b q rest _ hn hcut hflow =>
    obtain rfl := (firstPart_iff (by omega)).mp hn
    subst hb
    have hsoft : hard w (cutLine w (chars t)) = false := by
      by_contra hh
      rw [Bool.not_eq_false] at hh
      refine hlf ?_
      rw [hcut, hh]
      simp [brk]
    have hq : lf ∉ q := hrest q (by simp)
    have ht' : lf ∉ t' := fun hm => hlf (by rw [hcut]; simp [hm])
    have hc : chars (t' ++ brk true ++ q) = sep w (chars t) ++ q := by
      simp [chars_rest hcut, chars_of_not_mem hq]
    have hlen : t.length = (cutLine w (chars t)).length + t'.length := by
      conv_lhs => rw [hcut, hsoft]
      simp [brk]
    obtain ⟨j, hj, hat⟩ := cursor_past hw2 (fun l hl => hrest l (by simp [hl])) hflow
      (u := t') (v := q) (by simp [brk]) ht' (py + 1)
    rw [hc] at hj hat
    have hx' : t.length - (cutLine w (chars t)).length = t'.length := by omega
    rw [wrapline_move hw _ (by omega), hx']
    refine ⟨j + 1, hj.trans (by omega), ?_⟩
    rw [hlen, Nat.add_assoc]
    exact at_cons hsoft hat

def shown (e : Editor) : Str := untab (save e.width e.lines [lf])

def place (e : Editor) : ℕ := (textBefore e.width (e.lines.take e.line)).length + e.col

/-- An editor with lines that fit, without tabs, and a cursor inside one of them. -/
structure Valid (e : Editor) : Prop where
  width : 2 ≤ e.width
  lines : Shown e.lines
  fits : ∀ l ∈ e.lines, l.length ≤ e.width
  line : e.line < e.lines.length
  col : e.col ≤ (e.lines.getD e.line []).length

/-- The text has one more character, and the cursor is right after it. -/
def Inserted (e : Editor) (k : Byte) (e' : Editor) : Prop :=
  shown e' = (shown e).take (place e) ++ k :: (shown e).drop (place e) ∧ place e' = place e + 1

def current (e : Editor) : Str := e.lines.getD e.line []

def typed (e : Editor) (k : Byte) : Str := (current e).take e.col ++ k :: (current e).drop e.col

/-- When typing a character inserts it: the line with the character flows, and at the end of a line
with a break after it there is room for the character. -/
def InsertFlows (e : Editor) (k : Byte) : Prop :=
  Flows e.width (typed e k) (hard e.width (current e)) (e.lines.drop (e.line + 1)) ∧
    (e.col = (current e).length → hard e.width (current e) = true → e.lines.drop (e.line + 1) ≠ [] →
      (current e).length < e.width)

theorem setpos_at (e : Editor) {col line n : ℕ} (h : At e.width e.lines col line n) :
    (e.setpos col line).lines = e.lines ∧ (e.setpos col line).width = e.width ∧
      (e.setpos col line).col = col ∧ (e.setpos col line).line = line := by
  obtain ⟨h1, -, h3⟩ := h
  have hlt : ¬(line : ℤ) ≥ e.lines.length := by omega
  have hneg : ¬(line : ℤ) < 0 := by omega
  simp only [Editor.setpos, if_neg hlt, if_neg hneg, Int.toNat_natCast]
  by_cases hwin : (e.sx : ℤ) ≤ col ∧ (col : ℤ) < e.sx + (e.width + 1)
  · simp [hwin]
  · have hcol : ¬(col : ℤ) > (e.lines.getD line []).length := by omega
    simp only [if_neg hwin, if_neg hcol, and_self]

/-- What holds of every character that is wrapped holds of every character after it. -/
theorem forall_wrapline {P : Byte → Prop} (w : ℕ) (p : Str) (rest : List Str) (px py : ℕ)
    (h : ∀ l ∈ p :: rest, ∀ c ∈ l, P c) : ∀ l ∈ (wrapline w (p :: rest) px py).1, ∀ c ∈ l, P c := by
  rw [wrapline_lines]
  induction p, rest using wrap_induction w with
  | fits p rest hw =>
    rw [wrapline_fits hw]
    exact h
  | next p q rest hw ih =>
    have hp := h p (by simp)
    have hq := h q (by simp)
    rw [wrapline_cut hw, List.forall_mem_cons]
    refine ⟨fun c hc => hp c (List.mem_of_mem_take hc), ih ?_⟩
    rw [List.forall_mem_cons]
    refine ⟨fun c hc => ?_, fun l hl => h l (by simp [hl])⟩
    rcases List.mem_append.mp hc with hc | hc
    · exact hp c (List.mem_of_mem_drop hc)
    · exact hq c hc
  | last p hw ih =>
    have hp := h p (by simp)
    rw [wrapline_cut hw, List.forall_mem_cons]
    refine ⟨fun c hc => hp c (List.mem_of_mem_take hc), ih ?_⟩
    simp only [List.forall_mem_cons, List.not_mem_nil, false_implies, implies_true, and_true]
    exact fun c hc => hp c (List.mem_of_mem_drop hc)

theorem lines_split {e : Editor} (h : e.line < e.lines.length) :
    e.lines = e.lines.take e.line ++ current e :: e.lines.drop (e.line + 1) := by
  rw [current, List.getD_eq_getElem _ _ h, List.getElem_cons_drop, List.take_append_drop]

theorem shown_split {e : Editor} (h : Valid e) :
    shown e = textBefore e.width (e.lines.take e.line) ++ (current e ++
      after e.width (hard e.width (current e)) (e.lines.drop (e.line + 1))) := by
  rw [shown, untab_save _ h.lines]
  conv_lhs => rw [lines_split h.line]
  rw [text_append _ _ (List.cons_ne_nil _ _), text_cons]

theorem setpos_lines (e : Editor) (col line : ℤ) :
    (e.setpos col line).lines = e.lines ∧ (e.setpos col line).width = e.width := by
  unfold Editor.setpos
  dsimp only
  split_ifs <;> exact ⟨rfl, rfl⟩

theorem inschar_wrap {e : Editor} {k : Byte} (hw : e.width < (typed e k).length) :
    e.inschar k =
      (let r := wrapline e.width (typed e k :: e.lines.drop (e.line + 1)) (e.col + 1) e.line
      { e with lines := e.lines.take e.line ++ r.1 }.setpos r.2.1 r.2.2) := if_pos hw

theorem inschar_room {e : Editor} {k : Byte} (hw : ¬e.width < (typed e k).length) :
    e.inschar k = { e with lines := e.lines.set e.line (typed e k), col := e.col + 1 } := if_neg hw

theorem inschar_lines {e : Editor} (h : Valid e) (k : Byte) :
    (e.inschar k).width = e.width ∧ (e.inschar k).lines = e.lines.take e.line ++
      (wrapline e.width (typed e k :: e.lines.drop (e.line + 1)) 0 0).1 := by
  by_cases hw : e.width < (typed e k).length
  · rw [inschar_wrap hw, ← wrapline_lines _ _ _ (e.col + 1) e.line]
    obtain ⟨hl, hwid⟩ := setpos_lines { e with lines := e.lines.take e.line ++
      (wrapline e.width (typed e k :: e.lines.drop (e.line + 1)) (e.col + 1) e.line).1 }
      (wrapline e.width (typed e k :: e.lines.drop (e.line + 1)) (e.col + 1) e.line).2.1
      (wrapline e.width (typed e k :: e.lines.drop (e.line + 1)) (e.col + 1) e.line).2.2
    exact ⟨hwid, hl⟩
  · rw [inschar_room hw, wrapline_fits hw]
    exact ⟨rfl, List.set_eq_take_append_cons_drop .. |>.trans (if_pos h.line)⟩

def InLine (c : Byte) : Prop := c ≠ tab ∧ c ≠ lf

theorem inLine_of_shown {lines : List Str} (h : Shown lines) : ∀ l ∈ lines, ∀ c ∈ l, InLine c :=
  fun l hl _ hc => ⟨fun he => (h l hl).1 (he ▸ hc), fun he => (h l hl).2 (he ▸ hc)⟩

theorem shown_of_inLine {lines : List Str} (h : ∀ l ∈ lines, ∀ c ∈ l, InLine c) : Shown lines :=
  fun l hl => ⟨fun hc => (h l hl _ hc).1 rfl, fun hc => (h l hl _ hc).2 rfl⟩

theorem inLine_of_le {k : Byte} (hk : 32 ≤ k) : InLine k := by
  constructor <;> (rintro rfl; exact absurd hk (by decide))

theorem current_mem {e : Editor} (h : Valid e) : current e ∈ e.lines := by
  rw [current, List.getD_eq_getElem _ _ h.line]
  exact List.getElem_mem _

theorem inLine_typed {e : Editor} (h : Valid e) {k : Byte} (hk : 32 ≤ k) :
    ∀ c ∈ typed e k, InLine c := by
  have hcur := inLine_of_shown h.lines _ (current_mem h)
  intro c hc
  rcases List.mem_append.mp hc with hc | hc
  · exact hcur c (List.mem_of_mem_take hc)
  · rcases List.mem_cons.mp hc with rfl | hc
    · exact inLine_of_le hk
    · exact hcur c (List.mem_of_mem_drop hc)

theorem shown_inschar {e : Editor} (h : Valid e) {k : Byte} (hk : 32 ≤ k) :
    shown (e.inschar k) = textBefore e.width (e.lines.take e.line) ++
      text e.width (wrapline e.width (typed e k :: e.lines.drop (e.line + 1)) 0 0).1 := by
  obtain ⟨hwid, hl⟩ := inschar_lines h k
  have hshown : Shown (e.inschar k).lines := by
    rw [hl]
    intro l hm
    rcases List.mem_append.mp hm with hm | hm
    · exact h.lines l (List.mem_of_mem_take hm)
    · refine shown_of_inLine (forall_wrapline _ _ _ 0 0 ?_) l hm
      rw [List.forall_mem_cons]
      exact ⟨inLine_typed h hk, fun l hl => inLine_of_shown h.lines l (List.mem_of_mem_drop hl)⟩
  rw [shown, hwid, untab_save _ hshown, hl, text_append _ _ (wrapline_ne_nil _ _ _ _ _)]

theorem place_le {e : Editor} (h : Valid e) : (shown e).take (place e) =
      textBefore e.width (e.lines.take e.line) ++ (current e).take e.col ∧
    (shown e).drop (place e) = (current e).drop e.col ++
      after e.width (hard e.width (current e)) (e.lines.drop (e.line + 1)) := by
  have hcol : e.col ≤ (current e).length := h.col
  rw [shown_split h, place]
  simp only [List.take_length_add_append, List.drop_length_add_append,
    List.take_append_of_le_length hcol, List.drop_append_of_le_length hcol, and_self]

theorem typed_length {e : Editor} (h : Valid e) (k : Byte) :
    (typed e k).length = (current e).length + 1 := by
  have hcol : e.col ≤ (current e).length := h.col
  simp only [typed, List.length_append, List.length_take, List.length_cons, List.length_drop]
  omega

/-- The cursor after a character was typed for which the line is wrapped. -/
theorem place_wrap {e : Editor} (h : Valid e) {k : Byte} (hw : e.width < (typed e k).length) {j n : ℕ}
    (hj : (wrapline e.width (typed e k :: e.lines.drop (e.line + 1)) (e.col + 1) e.line).2.2 = e.line + j)
    (hat : At e.width (wrapline e.width (typed e k :: e.lines.drop (e.line + 1)) (e.col + 1) e.line).1
      (wrapline e.width (typed e k :: e.lines.drop (e.line + 1)) (e.col + 1) e.line).2.1 j n) :
    place (e.inschar k) = (textBefore e.width (e.lines.take e.line)).length + n := by
  have hat' := at_append (p := e.lines.take e.line) hat
  have hpre : (e.lines.take e.line).length = e.line := by
    rw [List.length_take]
    have := h.line
    omega
  rw [hpre] at hat'
  obtain ⟨h1, h2, h3, h4⟩ := setpos_at { e with lines := e.lines.take e.line ++ (wrapline e.width
    (typed e k :: e.lines.drop (e.line + 1)) (e.col + 1) e.line).1 } hat'
  rw [inschar_wrap hw]
  simp only [hj, place, h1, h2, h3, h4]
  exact hat'.2.1

/-- The cursor is right after the character, except where the line was wrapped at its end and its
break is between them. -/
theorem place_inschar {e : Editor} (h : Valid e) {k : Byte} (hk : 32 ≤ k)
    (hf : Flows e.width (typed e k) (hard e.width (current e)) (e.lines.drop (e.line + 1))) :
    place (e.inschar k) = place e + 1 ↔
      (e.col = (current e).length → hard e.width (current e) = true → e.lines.drop (e.line + 1) ≠ [] →
        (current e).length < e.width) := by
  have hcol : e.col ≤ (current e).length := h.col
  have htake : ((current e).take e.col).length = e.col := by
    rw [List.length_take]
    omega
  have hlen := typed_length h k
  have hfit : (current e).length ≤ e.width := h.fits _ (current_mem h)
  have hrest : ∀ l ∈ e.lines.drop (e.line + 1), lf ∉ l := fun l hl => (h.lines l (List.mem_of_mem_drop hl)).2
  have hlf : lf ∉ typed e k := fun hm => (inLine_typed h hk lf hm).2 rfl
  have hchars := chars_of_not_mem hlf
  by_cases hw : e.width < (typed e k).length
  · have hu : lf ∉ (current e).take e.col ++ [k] := fun hm => hlf <| by
      rw [typed]
      rcases List.mem_append.mp hm with hm | hm
      · exact List.mem_append_left _ hm
      · rw [List.mem_singleton.mp hm]
        simp
    by_cases hbreak : e.col = (current e).length ∧ hard e.width (current e) = true ∧
        e.lines.drop (e.line + 1) ≠ []
    · obtain ⟨hend, hhard, hne⟩ := hbreak
      refine iff_of_false ?_ fun hroom => absurd (hroom hend hhard hne) (by omega)
      have htyped : typed e k = (current e).take e.col ++ [k] := by
        rw [typed, List.drop_of_length_le (by omega)]
      obtain ⟨j, hj, hat⟩ := cursor_end h.width hrest hf hlf (by rwa [hchars]) hhard hne e.line
      have hpx : (typed e k).length = e.col + 1 := by omega
      rw [hpx, hchars] at hj hat
      rw [place_wrap h hw hj hat, place]
      omega
    · have hv : ((current e).drop e.col).head? ≠ some lf := fun hh =>
        (h.lines _ (current_mem h)).2 (List.mem_of_mem_drop (List.mem_of_mem_head? hh))
      have hroom : e.col = (current e).length → hard e.width (current e) = true →
          e.lines.drop (e.line + 1) ≠ [] → (current e).length < e.width :=
        fun h1 h2 h3 => absurd ⟨h1, h2, h3⟩ hbreak
      refine iff_of_true ?_ hroom
      have hend : (current e).drop e.col = [] → e.lines.drop (e.line + 1) = [] ∨
          (chars (typed e k)).length ≤ e.width ∨
            (hard e.width (current e) = false ∧ (chars (typed e k)).length ≤ e.width + 1) := by
        intro hnil
        have hcolEnd : e.col = (current e).length := by
          have := List.drop_eq_nil_iff.mp hnil
          omega
        by_cases hne : e.lines.drop (e.line + 1) = []
        · exact .inl hne
        · refine .inr (.inr ⟨Bool.eq_false_iff.mpr fun hh => hbreak ⟨hcolEnd, hh, hne⟩, ?_⟩)
          rw [hchars]
          omega
      obtain ⟨j, hj, hat⟩ := cursor_wrapline h.width hrest hf (by simp [typed]) hu hv hend e.line
      rw [hchars, List.length_append, htake, List.length_singleton] at hj hat
      rw [place_wrap h hw hj hat, place, Nat.add_assoc]
  · have hplace : place (e.inschar k) = place e + 1 := by
      rw [inschar_room hw]
      simp [place, List.take_set_of_le]
      omega
    exact iff_of_true hplace fun _ _ _ => by omega

theorem inserted_iff {e : Editor} (h : Valid e) {k : Byte} (hk : 32 ≤ k) :
    Inserted e k (e.inschar k) ↔ InsertFlows e k := by
  have hlf : lf ∉ typed e k := fun hm => (inLine_typed h hk lf hm).2 rfl
  have hiff := text_wrapline_iff h.width (t := typed e k) (b := hard e.width (current e))
    (r := e.lines.drop (e.line + 1)) (fun l hl => (h.lines l (List.mem_of_mem_drop hl)).2)
    fun _ hlast => absurd (List.mem_of_getLast? hlast) hlf
  rw [chars_of_not_mem hlf] at hiff
  obtain ⟨htake, hdrop⟩ := place_le h
  have htext : shown (e.inschar k) = (shown e).take (place e) ++ k :: (shown e).drop (place e) ↔
      Flows e.width (typed e k) (hard e.width (current e)) (e.lines.drop (e.line + 1)) := by
    rw [shown_inschar h hk, htake, hdrop, ← hiff, List.append_assoc]
    rw [List.append_cancel_left_eq]
    simp only [typed, List.append_assoc, List.cons_append]
  rw [Inserted, InsertFlows, htext]
  exact and_congr_right fun hf => place_inschar h hk hf

end CenterIM.TypedText
