import CenterIM.TextEditor

/-!
# The text that the display lines stand for

What `save` gives, with the blanks that it writes as tabs put back, is the display lines with
a line break after each hard one but the last.
-/
namespace CenterIM.DisplayLines
open ByteText TextEditor

/-- A display line without the blanks that `save` writes as tabs. -/
def shifted (p : Str) : Str := (tabify p.length p).2

/-- Does `save` break the line after this display line? -/
def hard (w : ℕ) (p : Str) : Bool := breaksAfter w (shifted p)

def brk (b : Bool) : Str := if b then [lf] else []

def text (w : ℕ) : List Str → Str
  | [] => []
  | [p] => p
  | p :: q :: rest => p ++ brk (hard w p) ++ text w (q :: rest)

/-- What follows a display line after which there is a break or none. -/
def after (w : ℕ) (b : Bool) (rest : List Str) : Str :=
  if rest = [] then [] else brk b ++ text w rest

def textBefore (w : ℕ) (lines : List Str) : Str := lines.flatMap fun l => l ++ brk (hard w l)

/-- The tabs of a text as the blanks that they stand for. -/
def untab (s : Str) : Str := s.flatMap fun c => if c = tab then List.replicate TAB_SIZE blank else [c]

@[simp] theorem after_nil (w : ℕ) (b : Bool) : after w b [] = [] := rfl

@[simp] theorem after_cons (w : ℕ) (b : Bool) (q : Str) (rest : List Str) :
    after w b (q :: rest) = brk b ++ text w (q :: rest) := rfl

theorem text_cons (w : ℕ) (p : Str) (rest : List Str) :
    text w (p :: rest) = p ++ after w (hard w p) rest := by
  cases rest with
  | nil => simp [text]
  | cons q rest => simp [text]

theorem textBefore_cons (w : ℕ) (p : Str) (ls : List Str) :
    textBefore w (p :: ls) = p ++ brk (hard w p) ++ textBefore w ls := rfl

theorem text_append (w : ℕ) (pre : List Str) {ls : List Str} (h : ls ≠ []) :
    text w (pre ++ ls) = textBefore w pre ++ text w ls := by
  induction pre with
  | nil => rfl
  | cons p pre ih =>
    have hne : pre ++ ls ≠ [] := by simp [h]
    rw [List.cons_append, text_cons, after, if_neg hne, ih, textBefore_cons]
    simp

theorem brk_inj {a b : Bool} (s : Str) (h : brk a ++ s = brk b ++ s) : a = b := by
  have hlen := congrArg List.length h
  cases a <;> cases b <;> simp [brk] at hlen ⊢

theorem untab_append (s t : Str) : untab (s ++ t) = untab s ++ untab t := List.flatMap_append

theorem untab_of_not_mem {s : Str} (h : tab ∉ s) : untab s = s := by
  induction s with
  | nil => rfl
  | cons c s ih =>
    simp only [List.mem_cons, not_or] at h
    have hc : c ≠ tab := fun he => h.1 he.symm
    rw [untab, List.flatMap_cons, if_neg hc]
    exact congrArg (c :: ·) (ih h.2)

theorem tabify_spec {fuel : ℕ} {p : Str} (h : p.length ≤ fuel) :
    ∃ k, p = List.replicate (TAB_SIZE * k) blank ++ (tabify fuel p).2 ∧
      (tabify fuel p).1 = List.replicate k tab ∧
      ((tabify fuel p).2.takeWhile (· = blank)).length < TAB_SIZE := by
  induction fuel generalizing p with
  | zero =>
    obtain rfl := List.eq_nil_of_length_eq_zero (Nat.le_zero.mp h)
    exact ⟨0, rfl, rfl, by decide⟩
  | succ fuel ih =>
    by_cases hb : (p.takeWhile (· = blank)).length ≥ TAB_SIZE
    · have hpre : p.take TAB_SIZE = List.replicate TAB_SIZE blank := by
        have htw := List.takeWhile_prefix (· = blank) (l := p)
        rw [List.prefix_iff_eq_take] at htw
        have htake : p.take TAB_SIZE = (p.takeWhile (· = blank)).take TAB_SIZE := by
          rw [htw, List.take_take, min_eq_left hb]
        refine List.eq_replicate_iff.mpr ⟨?_, fun c hc => ?_⟩
        · rw [htake, List.length_take, min_eq_left hb]
        · rw [htake] at hc
          simpa using List.mem_takeWhile_imp (List.mem_of_mem_take hc)
      have hlen : (p.drop TAB_SIZE).length ≤ fuel := by
        rw [List.length_drop]
        have : 0 < TAB_SIZE := by decide
        omega
      obtain ⟨k, hk, htabs, hfew⟩ := ih hlen
      simp only [tabify, if_pos hb]
      refine ⟨k + 1, ?_, by rw [htabs]; rfl, hfew⟩
      conv_lhs => rw [← List.take_append_drop TAB_SIZE p, hpre, hk]
      rw [← List.append_assoc, ← List.replicate_add, Nat.mul_succ, Nat.add_comm]
    · simp only [tabify, if_neg hb]
      exact ⟨0, rfl, rfl, by omega⟩

theorem shifted_spec (p : Str) : ∃ k, p = List.replicate (TAB_SIZE * k) blank ++ shifted p ∧
    ((shifted p).takeWhile (· = blank)).length < TAB_SIZE := by
  obtain ⟨k, hk, -, hfew⟩ := tabify_spec (Nat.le_refl p.length)
  exact ⟨k, hk, hfew⟩

@[simp] theorem hard_nil (w : ℕ) : hard w [] = true := rfl

/-- A line that does not begin with a blank is looked at as it is. -/
theorem shifted_of_head {p : Str} (h : p.head? ≠ some blank) : shifted p = p := by
  obtain ⟨k, hk, -⟩ := shifted_spec p
  cases k with
  | zero => exact hk.symm
  | succ k =>
    rw [hk] at h
    exact absurd rfl h

theorem shifted_of_short {p : Str} (h : p.length < TAB_SIZE) : shifted p = p := by
  obtain ⟨k, hk, -⟩ := shifted_spec p
  have hlen := congrArg List.length hk
  rw [List.length_append, List.length_replicate] at hlen
  obtain rfl : k = 0 := by
    simp only [TAB_SIZE] at h hlen
    omega
  exact hk.symm

theorem shifted_eq_nil {p : Str} :
    shifted p = [] ↔ ∃ k, p = List.replicate (TAB_SIZE * k) blank := by
  obtain ⟨k, hk, hfew⟩ := shifted_spec p
  refine ⟨fun h => ⟨k, by rw [h, List.append_nil] at hk; exact hk⟩, fun ⟨n, hn⟩ => ?_⟩
  have hall : ∀ c ∈ shifted p, c = blank := by
    intro c hc
    have hm : c ∈ p := by
      rw [hk]
      exact List.mem_append_right _ hc
    rw [hn] at hm
    exact List.eq_of_mem_replicate hm
  have htake : (shifted p).takeWhile (· = blank) = shifted p :=
    List.takeWhile_eq_self_iff.mpr fun c hc => decide_eq_true (hall c hc)
  have hlen := congrArg List.length hk
  have hblanks := congrArg List.length hn
  rw [List.length_append, List.length_replicate] at hlen
  rw [List.length_replicate] at hblanks
  rw [htake] at hfew
  refine List.eq_nil_of_length_eq_zero ?_
  simp only [TAB_SIZE] at hlen hblanks hfew
  omega

theorem hard_iff (w : ℕ) (p : Str) : hard w p = true ↔
    shifted p = [] ∨ p.getLast? ≠ some blank ∧ (shifted p).length < w := by
  obtain ⟨k, hk, -⟩ := shifted_spec p
  rw [hard, breaksAfter, Bool.or_eq_true, Bool.and_eq_true, beq_iff_eq, bne_iff_ne, decide_eq_true_eq]
  by_cases hs : shifted p = []
  · simp [hs]
  · have hlast : p.getLast? = (shifted p).getLast? := by
      conv_lhs => rw [hk, List.getLast?_append_of_ne_nil _ hs]
    rw [hlast]

def Shown (lines : List Str) : Prop := ∀ l ∈ lines, tab ∉ l ∧ lf ∉ l

instance (lines : List Str) : Decidable (Shown lines) :=
  inferInstanceAs (Decidable (∀ l ∈ lines, tab ∉ l ∧ lf ∉ l))

theorem untab_replicate (k : ℕ) : untab (List.replicate k tab) = List.replicate (TAB_SIZE * k) blank := by
  induction k with
  | zero => rfl
  | succ k ih =>
    have hcons : untab (tab :: List.replicate k tab) =
        List.replicate TAB_SIZE blank ++ untab (List.replicate k tab) := rfl
    rw [List.replicate_succ, hcons, ih, ← List.replicate_add, Nat.mul_succ, Nat.add_comm]

/-- A display line as `save` writes it. -/
theorem untab_line {p : Str} (h : tab ∉ p ∧ lf ∉ p) (rest : List Str) :
    untab ((tabify p.length p).1 ++
      if rest = [] ∧ (tabify p.length p).2 = [lf] then [] else (tabify p.length p).2) = p := by
  obtain ⟨k, hk, htabs, -⟩ := tabify_spec (Nat.le_refl p.length)
  have hsub : ∀ c ∈ (tabify p.length p).2, c ∈ p := by
    intro c hc
    rw [hk]
    exact List.mem_append_right _ hc
  have hne : (tabify p.length p).2 ≠ [lf] := fun he => h.2 (hsub lf (by simp [he]))
  rw [if_neg fun hc => hne hc.2, untab_append, untab_of_not_mem fun hc => h.1 (hsub _ hc), htabs,
    untab_replicate]
  exact hk.symm

theorem untab_saveLoop (w : ℕ) (prev : Str) {lines : List Str} (h : Shown lines) :
    untab (saveLoop w [lf] prev lines) = after w (breaksAfter w prev) lines := by
  induction lines generalizing prev with
  | nil => rfl
  | cons p rest ih =>
    have hp := h p List.mem_cons_self
    have hbrk : untab (if breaksAfter w prev then [lf] else []) = brk (breaksAfter w prev) := by
      cases breaksAfter w prev <;> rfl
    simp only [saveLoop]
    rw [untab_append, ih _ fun l hl => h l (List.mem_cons_of_mem _ hl), List.append_assoc,
      untab_append, hbrk, untab_line hp, after_cons, text_cons, List.append_assoc]
    rfl

/-- What `save` writes is the text of the display lines. -/
theorem untab_save (w : ℕ) {lines : List Str} (h : Shown lines) :
    untab (save w lines [lf]) = text w lines := by
  cases lines with
  | nil => rfl
  | cons p rest =>
    simp only [save]
    rw [untab_append, untab_saveLoop w _ fun l hl => h l (List.mem_cons_of_mem _ hl),
      untab_line (h p List.mem_cons_self), text_cons]
    rfl

end CenterIM.DisplayLines
