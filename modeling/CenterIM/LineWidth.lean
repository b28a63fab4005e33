import CenterIM.LoadedText

/-!
# Lines of a limited width

Breaking a text into lines of a width ends from width two on, and each line of the text is
broken into parts that fit.
-/
namespace CenterIM.LineWidth
open ByteText LoadedText

variable {w : ℕ}

theorem pieces_flatten (w : ℕ) (l : Str) : (pieces w l).flatten = l := by
  induction hn : l.length using Nat.strong_induction_on generalizing l with
  | _ n ih =>
    by_cases h : 0 < w ∧ w < l.length
    · have hpos := breakAt_pos (l := l) h.1
      have hlt : (l.drop (breakAt w l)).length < n := by
        rw [List.length_drop]
        omega
      rw [pieces_long h.1 h.2, List.flatten_cons, ih _ hlt _ rfl]
      exact List.take_append_drop _ l
    · rw [pieces, dif_neg h]
      exact List.append_nil l

theorem pieces_ne_nil (w : ℕ) (l : Str) : pieces w l ≠ [] := by
  rw [pieces]
  split_ifs
  · exact List.cons_ne_nil _ _
  · exact List.cons_ne_nil _ _

theorem pieces_fit (hw : 1 < w) (l : Str) : ∀ p ∈ pieces w l, p.length ≤ w := by
  induction hn : l.length using Nat.strong_induction_on generalizing l with
  | _ n ih =>
    by_cases h : w < l.length
    · have hpos := breakAt_pos (l := l) (show 0 < w by omega)
      have hlt : (l.drop (breakAt w l)).length < n := by
        rw [List.length_drop]
        omega
      have hfit : breakAt w l ≤ w := by
        by_contra hgt
        have hone := (breakAt_gt (show 0 < w by omega) (not_le.mp hgt)).1
        omega
      rw [pieces_long (show 0 < w by omega) h]
      intro p hp
      obtain rfl | hp := List.mem_cons.mp hp
      · rw [List.length_take]
        omega
      · exact ih _ hlt _ rfl p hp
    · rw [pieces_short (not_lt.mp h)]
      intro p hp
      rw [List.mem_singleton.mp hp]
      exact not_lt.mp h

/-- Breaking a text ends, with lines of the width; those of each line make it up. -/
theorem breakintolines_fit (text : Str) (w : ℕ) (hw : 2 ≤ w) :
    ∃ n lst, breakintolines w n text = some lst ∧ (∀ l ∈ lst, l.length ≤ w) ∧
      ∃ groups : List (List Str), lst = groups.flatten ∧ (∀ g ∈ groups, g ≠ []) ∧
        groups.map List.flatten = textLines text := by
  have hpos : 0 < w := by omega
  have hruns : Runs w 0 (textLines text) ((textLines text).flatMap (pieces w)) :=
    (runs_iff hpos [] (textLines text) (fun l hl => absurd hl (by simp))).mpr
      ⟨allEnd_wide hw true _, rfl⟩
  obtain ⟨n, hn⟩ := hruns
  refine ⟨n, _, ?_, ?_, (textLines text).map (pieces w), List.flatMap_def, ?_, ?_⟩
  · rw [breakintolines, if_pos hpos]
    exact hn
  · intro l hl
    obtain ⟨k, -, hk⟩ := List.mem_flatMap.mp hl
    exact pieces_fit hw k l hk
  · intro g hg
    obtain ⟨k, -, rfl⟩ := List.mem_map.mp hg
    exact pieces_ne_nil w k
  · rw [List.map_map]
    exact (List.map_congr_left fun k _ => pieces_flatten w k).trans (List.map_id _)

theorem breakintolines_words :
    ∃ n lst, breakintolines 5 n (bytes "one two\nthree four") = some lst ∧
      (∀ l ∈ lst, l.length ≤ 5) ∧ ∃ groups : List (List Str), lst = groups.flatten ∧
        (∀ g ∈ groups, g ≠ []) ∧ groups.map List.flatten = textLines (bytes "one two\nthree four") :=
  breakintolines_fit (bytes "one two\nthree four") 5 (by decide)

end CenterIM.LineWidth
