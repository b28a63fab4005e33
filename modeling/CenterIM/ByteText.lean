import Mathlib

/-!
# Byte strings

Text is a list of bytes, as the C and C++ string types hold it. This file has the
lines of a text, its newline-terminated form, and the first occurrence of one text
in another, with the rules by which they compose.
-/
namespace CenterIM.ByteText

abbrev Byte := UInt8

abbrev Str := List Byte

instance : LawfulBEq Str := inferInstance

abbrev nul : Byte := 0
abbrev tab : Byte := 9
abbrev lf : Byte := 10
abbrev ff : Byte := 12
abbrev cr : Byte := 13
abbrev blank : Byte := 32

def bytes (s : String) : Str := s.toList.map fun c => UInt8.ofNat c.toNat

/-- The text a C string holds: everything before its first NUL. -/
def cstr (buf : Str) : Str := buf.takeWhile (· ≠ nul)

theorem nul_not_mem_cstr (buf : Str) : nul ∉ cstr buf := fun h => by
  simpa using List.mem_takeWhile_imp h

theorem cstr_eq_self {s : Str} (h : nul ∉ s) : cstr s = s := by
  apply List.takeWhile_eq_self_iff.mpr
  intro c hc
  have hn : c ≠ nul := fun he => h (he ▸ hc)
  simpa using hn

/-- A line of text: no newline, and no NUL to end a C string early. -/
def Plain (l : Str) : Prop := lf ∉ l ∧ nul ∉ l

instance (l : Str) : Decidable (Plain l) := inferInstanceAs (Decidable (_ ∧ _))

/-- The pieces of a text between its newlines; the last one is not terminated. -/
def lines (s : Str) : List Str := s.splitOn lf

/-- Every line followed by a newline, as repeated output to a stream leaves it. -/
def unlines (ls : List Str) : Str := ls.flatMap (· ++ [lf])

@[simp] theorem unlines_nil : unlines [] = [] := rfl

@[simp] theorem unlines_cons (l : Str) (ls : List Str) :
    unlines (l :: ls) = l ++ lf :: unlines ls := by simp [unlines]

@[simp] theorem unlines_append (ks ls : List Str) :
    unlines (ks ++ ls) = unlines ks ++ unlines ls := by simp [unlines]

theorem lines_ne_nil (s : Str) : lines s ≠ [] := List.splitOnP_ne_nil _ _

@[simp] theorem lines_nil : lines [] = [[]] := rfl

@[simp] theorem lines_lf (s : Str) : lines (lf :: s) = [] :: lines s := by
  simp [lines, List.splitOn, List.splitOnP_cons_eq_if_modifyHead]

theorem lines_cons {c : Byte} (hc : c ≠ lf) (s : Str) :
    lines (c :: s) = (lines s).modifyHead (c :: ·) := by
  simp [lines, List.splitOn, List.splitOnP_cons_eq_if_modifyHead, hc]

theorem lines_of_not_mem {l : Str} (h : lf ∉ l) : lines l = [l] := by
  induction l with
  | nil => rfl
  | cons c l ih =>
    simp only [List.mem_cons, not_or] at h
    rw [lines_cons (Ne.symm h.1), ih h.2]
    rfl

theorem lines_append_lf (l s : Str) : lines (l ++ lf :: s) = lines l ++ lines s := by
  induction l with
  | nil => simp
  | cons c l ih =>
    by_cases hc : c = lf
    · subst hc
      simp [ih]
    · have hne := lines_ne_nil l
      rw [List.cons_append, lines_cons hc, lines_cons hc, ih]
      cases hl : lines l with
      | nil => exact absurd hl hne
      | cons k ks => rfl

theorem lines_line {l : Str} (h : lf ∉ l) (s : Str) : lines (l ++ lf :: s) = l :: lines s := by
  simp [lines_append_lf, lines_of_not_mem h]

theorem mem_lines_not_lf {s l : Str} (h : l ∈ lines s) : lf ∉ l := by
  induction s generalizing l with
  | nil =>
    simp only [lines_nil, List.mem_singleton] at h
    subst l
    simp
  | cons c s ih =>
    by_cases hc : c = lf
    · subst hc
      simp only [lines_lf, List.mem_cons] at h
      rcases h with rfl | h
      · simp
      · exact ih h
    · rw [lines_cons hc] at h
      cases hs : lines s with
      | nil => exact absurd hs (lines_ne_nil s)
      | cons k ks =>
        rw [hs] at h ih
        simp only [List.modifyHead_cons, List.mem_cons] at h
        rcases h with rfl | h
        · simpa using ⟨Ne.symm hc, ih (l := k) (by simp)⟩
        · exact ih (by simp [h])

theorem mem_lines_mem {s l : Str} {c : Byte} (h : l ∈ lines s) (hc : c ∈ l) : c ∈ s := by
  induction s generalizing l with
  | nil =>
    simp only [lines_nil, List.mem_singleton] at h
    subst l
    exact hc
  | cons d s ih =>
    by_cases hd : d = lf
    · subst hd
      simp only [lines_lf, List.mem_cons] at h
      rcases h with rfl | h
      · simp at hc
      · exact List.mem_cons_of_mem _ (ih h hc)
    · rw [lines_cons hd] at h
      cases hs : lines s with
      | nil => exact absurd hs (lines_ne_nil s)
      | cons k ks =>
        rw [hs] at h ih
        simp only [List.modifyHead_cons, List.mem_cons] at h
        rcases h with rfl | h
        · rcases List.mem_cons.mp hc with rfl | hc
          · simp
          · exact List.mem_cons_of_mem _ (ih (l := k) (by simp) hc)
        · exact List.mem_cons_of_mem _ (ih (by simp [h]) hc)

theorem plain_of_mem_lines {s l : Str} (hs : nul ∉ s) (h : l ∈ lines s) : Plain l :=
  ⟨mem_lines_not_lf h, fun hn => hs (mem_lines_mem h hn)⟩

/-- A newline-terminated text has its own lines and one empty unterminated rest. -/
theorem lines_unlines_append {ls : List Str} (h : ∀ l ∈ ls, lf ∉ l) (s : Str) :
    lines (unlines ls ++ s) = ls ++ lines s := by
  induction ls with
  | nil => simp
  | cons l ls ih =>
    have hl : lf ∉ l := h l (by simp)
    have hls : ∀ k ∈ ls, lf ∉ k := fun k hk => h k (by simp [hk])
    simp only [unlines_cons, List.append_assoc, List.cons_append]
    rw [lines_line hl, ih hls]

theorem lines_unlines {ls : List Str} (h : ∀ l ∈ ls, lf ∉ l) : lines (unlines ls) = ls ++ [[]] := by
  simpa using lines_unlines_append h []

theorem unlines_lines (s : Str) : unlines (lines s) = s ++ [lf] := by
  induction s with
  | nil => rfl
  | cons c s ih =>
    by_cases hc : c = lf
    · subst hc
      simp [ih]
    · rw [lines_cons hc]
      cases hs : lines s with
      | nil => exact absurd hs (lines_ne_nil s)
      | cons k ks =>
        rw [hs] at ih
        simpa using ih

theorem lines_length_le (s : Str) : (lines s).length ≤ s.length + 1 := by
  induction s with
  | nil => simp
  | cons c s ih =>
    by_cases hc : c = lf
    · subst hc
      simpa using ih
    · rw [lines_cons hc]
      simp only [List.length_modifyHead, List.length_cons]
      omega

theorem lines_inj {s t : Str} (h : lines s = lines t) : s = t := by
  have hu := congrArg unlines h
  rw [unlines_lines, unlines_lines] at hu
  exact List.append_cancel_right hu

/-- The first place where `pat` occurs in a text. -/
def find (pat : Str) : Str → Option ℕ
  | [] => if pat = [] then some 0 else none
  | c :: s => if pat.isPrefixOf (c :: s) then some 0 else (find pat s).map (· + 1)

theorem find_some {pat s : Str} {i : ℕ} (h : find pat s = some i) :
    ∃ v, s = s.take i ++ (pat ++ v) ∧ i ≤ s.length := by
  induction s generalizing i with
  | nil =>
    simp only [find] at h
    split_ifs at h with hp
    exact ⟨[], by simp_all⟩
  | cons c s ih =>
    simp only [find] at h
    split_ifs at h with hp
    · obtain ⟨v, hv⟩ := List.isPrefixOf_iff_prefix.mp hp
      obtain rfl := (Option.some.inj h).symm
      exact ⟨v, by simp [hv], by simp⟩
    · obtain ⟨j, hj, rfl⟩ := Option.map_eq_some_iff.mp h
      obtain ⟨v, hv, hl⟩ := ih hj
      refine ⟨v, ?_, by simpa using hl⟩
      simp only [List.take_succ_cons, List.cons_append]
      exact congrArg (c :: ·) hv

/-- Nothing earlier than the place found begins with the pattern. -/
theorem find_first {pat s : Str} {i j : ℕ} (h : find pat s = some i) (hj : j < i) :
    ¬ pat <+: s.drop j := by
  induction s generalizing i j with
  | nil =>
    simp only [find] at h
    split_ifs at h
    obtain rfl := (Option.some.inj h).symm
    omega
  | cons c s ih =>
    simp only [find] at h
    split_ifs at h with hp
    · obtain rfl := (Option.some.inj h).symm
      omega
    · obtain ⟨k, hk, rfl⟩ := Option.map_eq_some_iff.mp h
      cases j with
      | zero => simpa [List.isPrefixOf_iff_prefix] using hp
      | succ j => simpa using ih hk (j := j) (by omega)

theorem find_none {pat s : Str} (h : find pat s = none) (j : ℕ) (hj : j ≤ s.length) :
    ¬ pat <+: s.drop j := by
  induction s generalizing j with
  | nil =>
    simp only [find] at h
    split_ifs at h with hp
    simpa using hp
  | cons c s ih =>
    simp only [find] at h
    split_ifs at h with hp
    cases j with
    | zero => simpa [List.isPrefixOf_iff_prefix] using hp
    | succ j => exact ih (by simpa using h) j (by simpa using hj)

theorem find_isSome_of_prefix {p s : Str} {j : ℕ} (hj : j ≤ s.length) (h : p <+: s.drop j) :
    ∃ i, find p s = some i ∧ i ≤ j := by
  cases hf : find p s with
  | none => exact absurd h (find_none hf j hj)
  | some i =>
    refine ⟨i, rfl, ?_⟩
    by_contra hij
    exact find_first hf (not_le.mp hij) h

theorem find_append {pat a : Str} {i : ℕ} (h : find pat a = some i) (b : Str) :
    find pat (a ++ b) = some i := by
  induction a generalizing i with
  | nil =>
    simp only [find] at h
    split_ifs at h with hp
    obtain rfl := Option.some.inj h
    subst hp
    cases b with
    | nil => rfl
    | cons c b => simp [find]
  | cons c a ih =>
    simp only [find] at h
    rw [List.cons_append, find]
    split_ifs at h with hp
    · have hpre := (List.isPrefixOf_iff_prefix.mp hp).trans (List.prefix_append (c :: a) b)
      rw [← h]
      exact if_pos (List.isPrefixOf_iff_prefix.mpr hpre)
    · obtain ⟨j, hj, rfl⟩ := Option.map_eq_some_iff.mp h
      rw [ih hj, if_neg]
      · rfl
      · intro hpre
        obtain ⟨v, hv, -⟩ := find_some hj
        have hlen : pat.length ≤ (c :: a).length := by
          rw [hv]
          simp only [List.length_cons, List.length_append]
          omega
        have hl := List.isPrefixOf_iff_prefix.mp hpre
        refine hp (List.isPrefixOf_iff_prefix.mpr ?_)
        exact List.prefix_of_prefix_length_le hl (List.prefix_append (c :: a) b) hlen

theorem find_char_none {c : Byte} {s : Str} (h : c ∉ s) : find [c] s = none := by
  induction s with
  | nil => rfl
  | cons d s ih =>
    simp only [List.mem_cons, not_or] at h
    simp [find, h.1, ih h.2]

theorem find_char {c : Byte} {a s : Str} (h : c ∉ a) : find [c] (a ++ c :: s) = some a.length := by
  induction a with
  | nil => simp [find]
  | cons d a ih =>
    simp only [List.mem_cons, not_or] at h
    simp [find, h.1, ih h.2]

end CenterIM.ByteText
