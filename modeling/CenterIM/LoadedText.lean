import CenterIM.DisplayLines
import CenterIM.StrText

/-!
# Loading a text into the editor

`load` breaks the lines of a text that are too long for the width, and `save` tells the
breaks that were made from those of the text by the form of the display lines. The loops
count their turns; no result means that the turns were not enough.
-/
namespace CenterIM.LoadedText
open ByteText StrText TextEditor DisplayLines

/-- `rtabmargin(false, curpos)`. -/
def rtabmargin (curpos : ℕ) : ℕ := (curpos / TAB_SIZE + 1) * TAB_SIZE

def tabsLoop : ℕ → Str → Str
  | 0, sub => sub
  | n + 1, sub =>
    match find [tab] sub with
    | none => sub
    | some dpos =>
      tabsLoop n (sub.take dpos ++ List.replicate (rtabmargin dpos - dpos) blank ++
        sub.drop (dpos + 1))

/-- The loop over the lines of a text; a line break at the end begins no line. -/
def linesLoop : ℕ → Str → List Str
  | 0, _ => []
  | n + 1, text =>
    if text = [] then []
    else
      match find [lf] text with
      | some npos => text.take npos :: linesLoop n (text.drop (npos + 1))
      | none => [text]

/-- `breakintolines(text, lst)`. -/
def textLines (text : Str) : List Str :=
  (linesLoop text.length text).map fun sub =>
    let sub := sub.filter (· ≠ cr)
    tabsLoop sub.length sub

def breakAt (linelen : ℕ) (l : Str) : ℕ :=
  match rfind blank (l.take linelen) with
  | some dpos => (if dpos ≠ 0 then dpos else 1) + 1
  | none => linelen

/-- The loop of `breakintolines(text, lst, linelen)`: after a break it starts again, and goes
on with the second line. -/
def breakLoop (linelen : ℕ) : ℕ → ℕ → List Str → Option (List Str)
  | 0, _, _ => none
  | n + 1, i, lst =>
    match lst[i]? with
    | none => some lst
    | some l =>
      if linelen < l.length then
        breakLoop linelen n 1 (lst.take i ++
          l.take (breakAt linelen l) :: l.drop (breakAt linelen l) :: lst.drop (i + 1))
      else breakLoop linelen n (i + 1) lst

def breakintolines (linelen n : ℕ) (text : Str) : Option (List Str) :=
  if 0 < linelen then breakLoop linelen n 0 (textLines text) else some (textLines text)

/-- `texteditor::load` in wrap mode. -/
def load (w n : ℕ) (text : Str) : Option (List Str) :=
  (breakintolines w n text).map fun lst => lst.map cstr ++ [[]]

/-- The same text up to one line break at the end. -/
def Same (s t : Str) : Prop := s = t ∨ s = t ++ [lf] ∨ t = s ++ [lf]

section Lines

theorem tabsLoop_plain (n : ℕ) {sub : Str} (h : tab ∉ sub) : tabsLoop n sub = sub := by
  cases n with
  | zero => rfl
  | succ n =>
    rw [tabsLoop, find_char_none h]

theorem linesLoop_mem {n : ℕ} {text l : Str} (h : l ∈ linesLoop n text) :
    lf ∉ l ∧ ∀ c ∈ l, c ∈ text := by
  induction n generalizing text with
  | zero => cases h
  | succ n ih =>
    rw [linesLoop] at h
    split_ifs at h with hne
    · cases h
    by_cases hlf : lf ∈ text
    · obtain ⟨a, s, rfl, ha⟩ := List.eq_append_cons_of_mem hlf
      rw [find_char ha] at h
      obtain rfl | h := List.mem_cons.mp h
      · rw [List.take_left]
        exact ⟨ha, fun c hc => List.mem_append_left _ hc⟩
      · obtain ⟨hl, hsub⟩ := ih h
        exact ⟨hl, fun c hc => List.mem_of_mem_drop (hsub c hc)⟩
    · rw [find_char_none hlf] at h
      obtain rfl := List.mem_singleton.mp h
      exact ⟨hlf, fun c hc => hc⟩

/-- The lines of a text without tabs and carriage returns are its own. -/
theorem textLines_eq {text : Str} (htab : tab ∉ text) (hcr : cr ∉ text) :
    textLines text = linesLoop text.length text := by
  have hmap : ∀ l ∈ linesLoop text.length text,
      (tabsLoop (l.filter (· ≠ cr)).length (l.filter (· ≠ cr))) = l := by
    intro l hl
    have hsub := (linesLoop_mem hl).2
    have hfilter : l.filter (· ≠ cr) = l := by
      refine List.filter_eq_self.mpr fun c hc => ?_
      have hne : c ≠ cr := fun he => hcr (he ▸ hsub c hc)
      simpa using hne
    rw [hfilter]
    exact tabsLoop_plain _ fun hm => htab (hsub tab hm)
  rw [textLines]
  exact (List.map_congr_left hmap).trans (List.map_id _)

end Lines

section Cut

variable {w : ℕ} {l : Str}

theorem breakAt_pos (hw : 0 < w) : 0 < breakAt w l := by
  rw [breakAt]
  split <;> omega

theorem rfind_lt {dpos : ℕ} (h : rfind blank (l.take w) = some dpos) : dpos < w ∧ dpos < l.length := by
  have hget := (rfind_some h).1
  obtain ⟨hlt, -⟩ := List.getElem?_eq_some_iff.mp hget
  rw [List.length_take] at hlt
  omega

theorem breakAt_le (hw : 0 < w) (hl : w < l.length) : breakAt w l ≤ l.length := by
  rw [breakAt]
  split
  · rename_i dpos h
    have := rfind_lt h
    split_ifs <;> omega
  · omega

theorem breakAt_gt (hw : 0 < w) (h : w < breakAt w l) :
    w = 1 ∧ breakAt w l = 2 ∧ rfind blank (l.take w) = some 0 := by
  rw [breakAt] at h ⊢
  split at h
  · rename_i dpos hd
    have := rfind_lt hd
    split_ifs at h with h0
    · omega
    · push Not at h0
      subst h0
      rw [hd]
      exact ⟨by omega, rfl, rfl⟩
  · omega

theorem getLast?_take {k : ℕ} (hk : 0 < k) (hl : k ≤ l.length) :
    (l.take k).getLast? = l[k - 1]? := by
  rw [List.getLast?_eq_getElem?, List.length_take, min_eq_left hl,
    List.getElem?_take_of_lt (by omega)]

/-- The blanks within the width are at the start, and are just one, or come by eights. -/
def BlankStart (w : ℕ) (l : Str) : Prop :=
  ∃ m, 0 < m ∧ m ≤ w ∧ l.take m = List.replicate m blank ∧ blank ∉ (l.take w).drop m ∧
    (m = 1 ∧ 2 < w ∨ TAB_SIZE ∣ m)

/-- The blanks at the start end with the last one within the width. -/
theorem blankStart_iff {d : ℕ} (h : rfind blank (l.take w) = some d) :
    BlankStart w l ↔
      l.take (d + 1) = List.replicate (d + 1) blank ∧ (d = 0 ∧ 2 < w ∨ TAB_SIZE ∣ d + 1) := by
  have hlt := rfind_lt h
  obtain ⟨hget, hafter⟩ := rfind_some h
  constructor
  · rintro ⟨m, hm, hmw, hblank, hno, hnumber⟩
    have hdm : d < m := by
      by_contra hdm
      refine hno (List.mem_of_getElem? (i := d - m) ?_)
      rw [List.getElem?_drop, show m + (d - m) = d by omega]
      exact hget
    have hmd : m ≤ d + 1 := by
      by_contra hmd
      have hlen := congrArg List.length hblank
      rw [List.length_take, List.length_replicate] at hlen
      have hm1 : l[m - 1]? = some blank := by
        rw [← List.getElem?_take_of_lt (by omega : m - 1 < m), hblank,
          List.getElem?_replicate_of_lt (by omega)]
      refine hafter (List.mem_of_getElem? (i := m - 1 - (d + 1)) ?_)
      rw [List.getElem?_drop, show d + 1 + (m - 1 - (d + 1)) = m - 1 by omega,
        List.getElem?_take_of_lt (by omega)]
      exact hm1
    obtain rfl : m = d + 1 := by omega
    exact ⟨hblank, hnumber.imp_left fun h => ⟨by omega, h.2⟩⟩
  · rintro ⟨hblank, hnumber⟩
    exact ⟨d + 1, Nat.succ_pos d, hlt.1, hblank, hafter, hnumber.imp_left fun h => ⟨by omega, h.2⟩⟩

theorem not_blankStart (h : rfind blank (l.take w) = none) : ¬BlankStart w l := by
  rintro ⟨m, hm, hmw, hblank, -⟩
  refine rfind_none.mp h ?_
  have hmem : blank ∈ l.take m := by
    rw [hblank, List.mem_replicate]
    exact ⟨by omega, rfl⟩
  exact List.take_subset_take_left l hmw hmem

theorem hard_word (hw : 0 < w) (hl : w < l.length) (h : rfind blank (l.take w) = none) :
    hard w (l.take w) = false := by
  have hlen : (l.take w).length = w := by
    rw [List.length_take]
    exact min_eq_left (by omega)
  have hshift : shifted (l.take w) = l.take w :=
    shifted_of_head fun hh => rfind_none.mp h (List.mem_of_mem_head? hh)
  rw [← Bool.not_eq_true, hard_iff, hshift, hlen]
  rintro (hnil | ⟨-, hlt⟩)
  · rw [hnil, List.length_nil] at hlen
    omega
  · omega

/-- The break after the first part of a line is taken for one of the text when the blanks within
the width are at the start and one, or by eights. -/
theorem hard_take (hw : 0 < w) (hl : w < l.length) :
    hard w (l.take (breakAt w l)) = true ↔ BlankStart w l := by
  rw [breakAt]
  cases h : rfind blank (l.take w) with
  | none =>
    dsimp only
    rw [hard_word hw hl h]
    exact iff_of_false Bool.false_ne_true (not_blankStart h)
  | some d =>
    have hlt := rfind_lt h
    obtain ⟨hget, hafter⟩ := rfind_some h
    rw [List.getElem?_take_of_lt hlt.1] at hget
    rw [blankStart_iff h]
    by_cases h0 : d = 0
    · subst h0
      have hfirst : l.take 1 = List.replicate 1 blank := by
        rw [List.take_one, List.head?_eq_getElem?, hget]
        rfl
      have hlen : (l.take 2).length = 2 := by
        rw [List.length_take]
        omega
      have hshift : shifted (l.take 2) = l.take 2 := shifted_of_short (by rw [hlen]; decide)
      have hne : l.take 2 ≠ [] := fun he => by simp [he] at hlen
      simp only [ne_eq, not_true, if_false]
      rw [hard_iff, hshift, hlen]
      simp only [hne, false_or, Nat.zero_add, hfirst, true_and]
      constructor
      · exact fun h => .inl h.2
      · rintro (hw2 | h8)
        · refine ⟨fun hlast => hafter ?_, hw2⟩
          rw [getLast?_take (by omega) (by omega)] at hlast
          refine List.mem_of_getElem? (i := 0) ?_
          rw [List.getElem?_drop, List.getElem?_take_of_lt (by omega)]
          exact hlast
        · exact absurd h8 (by decide)
    · have hlast : (l.take (d + 1)).getLast? = some blank := by
        rw [getLast?_take (by omega) (by omega)]
        exact hget
      simp only [ne_eq, h0, not_false_eq_true, if_true]
      rw [hard_iff, shifted_eq_nil]
      simp only [hlast, ne_eq, not_true, false_and, or_false]
      constructor
      · rintro ⟨k, hk⟩
        have hlen := congrArg List.length hk
        rw [List.length_take, List.length_replicate, min_eq_left (by omega)] at hlen
        exact ⟨by rw [hk, hlen], .inr ⟨k, hlen⟩⟩
      · rintro ⟨hblank, hfalse | ⟨k, hk⟩⟩
        · exact hfalse.elim
        · exact ⟨k, by rw [hblank, hk]⟩

end Cut

def pieces (w : ℕ) (l : Str) : List Str :=
  if _ : 0 < w ∧ w < l.length then l.take (breakAt w l) :: pieces w (l.drop (breakAt w l)) else [l]
termination_by l.length
decreasing_by
  have hpos := breakAt_pos (l := l) (‹0 < w ∧ w < l.length›).1
  rw [List.length_drop]
  omega

def lastPiece (w : ℕ) (l : Str) : Str :=
  if _ : 0 < w ∧ w < l.length then lastPiece w (l.drop (breakAt w l)) else l
termination_by l.length
decreasing_by
  have hpos := breakAt_pos (l := l) (‹0 < w ∧ w < l.length›).1
  rw [List.length_drop]
  omega

/-- The breaks that the loop makes in a line are not taken for breaks of the text: of no rest
that is too long the blanks within the width are at the start and one, or by eights. -/
def Soft (w : ℕ) (l : Str) : Prop :=
  if _ : 0 < w ∧ w < l.length then ¬BlankStart w l ∧ Soft w (l.drop (breakAt w l))
  else True
termination_by l.length
decreasing_by
  have hpos := breakAt_pos (l := l) (‹0 < w ∧ w < l.length›).1
  rw [List.length_drop]
  omega

/-- The loop comes to the end of a line. A line of width one with a blank at its start is not
broken any further; only the first line of a text is not looked at again. -/
def Ends (w : ℕ) (first : Bool) (l : Str) : Prop :=
  if _ : 0 < w ∧ w < l.length then
    (first = true ∨ breakAt w l ≤ w) ∧ Ends w false (l.drop (breakAt w l))
  else True
termination_by l.length
decreasing_by
  have hpos := breakAt_pos (l := l) (‹0 < w ∧ w < l.length›).1
  rw [List.length_drop]
  omega

/-- The loop comes to the end of the lines from the one at `i` on. -/
def AllEnd (w : ℕ) (first : Bool) : List Str → Prop
  | [] => True
  | l :: ls => Ends w first l ∧ AllEnd w false ls

section Loop

variable {w i : ℕ} {lst : List Str} {l : Str} {r : List Str}

def Runs (w i : ℕ) (lst r : List Str) : Prop := ∃ n, breakLoop w n i lst = some r

theorem runs_step {j : ℕ} {lst' : List Str}
    (h : ∀ n, breakLoop w (n + 1) i lst = breakLoop w n j lst') :
    Runs w i lst r ↔ Runs w j lst' r := by
  constructor
  · rintro ⟨n, hn⟩
    cases n with
    | zero => cases hn
    | succ n => exact ⟨n, by rw [← h]; exact hn⟩
  · rintro ⟨n, hn⟩
    exact ⟨n + 1, by rw [h]; exact hn⟩

theorem runs_end (h : lst.length ≤ i) : Runs w i lst r ↔ r = lst := by
  have hget : lst[i]? = none := List.getElem?_eq_none h
  constructor
  · rintro ⟨n, hn⟩
    cases n with
    | zero => cases hn
    | succ n =>
      rw [breakLoop, hget] at hn
      exact (Option.some.inj hn).symm
  · rintro rfl
    exact ⟨1, by rw [breakLoop, hget]⟩

theorem runs_pass (hget : lst[i]? = some l) (hl : l.length ≤ w) :
    Runs w i lst r ↔ Runs w (i + 1) lst r := by
  refine runs_step fun n => ?_
  rw [breakLoop, hget]
  exact if_neg (by omega)

theorem runs_break (hget : lst[i]? = some l) (hl : w < l.length) :
    Runs w i lst r ↔
      Runs w 1 (lst.take i ++ l.take (breakAt w l) :: l.drop (breakAt w l) :: lst.drop (i + 1)) r := by
  refine runs_step fun n => ?_
  rw [breakLoop, hget]
  exact if_pos hl

theorem runs_skip (pre mid ls : List Str) (h : ∀ l ∈ mid, l.length ≤ w) :
    Runs w pre.length (pre ++ (mid ++ ls)) r ↔
      Runs w (pre.length + mid.length) (pre ++ (mid ++ ls)) r := by
  induction mid generalizing pre with
  | nil => rfl
  | cons m mid ih =>
    have hget : (pre ++ (m :: mid ++ ls))[pre.length]? = some m := by simp
    have hrest := ih (pre ++ [m]) fun l hl => h l (List.mem_cons_of_mem _ hl)
    simp only [List.length_append, List.length_cons, List.length_nil, List.append_assoc,
      List.cons_append, List.nil_append, Nat.zero_add] at hrest hget ⊢
    rw [runs_pass hget (h m List.mem_cons_self), hrest,
      show pre.length + 1 + mid.length = pre.length + (mid.length + 1) by omega]

/-- A line of width one with a blank at its start, behind the first line, is broken for ever. -/
theorem runs_never (hw : 0 < w) {j : ℕ} (hij : i ≤ j) (hj : 0 < j) (hget : lst[j]? = some l)
    (hl : w < l.length) (hbig : w < breakAt w l) : ¬ Runs w i lst r := by
  rintro ⟨n, hn⟩
  induction n generalizing i j lst l with
  | zero => cases hn
  | succ n ih =>
    obtain ⟨hjlen, -⟩ := List.getElem?_eq_some_iff.mp hget
    have hi : i < lst.length := by omega
    rw [breakLoop, List.getElem?_eq_getElem hi] at hn
    dsimp only at hn
    have htake : (lst.take i).length = i := by
      rw [List.length_take]
      omega
    obtain rfl | hlt := Nat.eq_or_lt_of_le hij
    · have hli : lst[i] = l := by
        rw [List.getElem?_eq_getElem hi] at hget
        exact Option.some.inj hget
      rw [hli, if_pos hl] at hn
      obtain ⟨hw1, h2, hblank⟩ := breakAt_gt hw hbig
      have hfirst : (l.take (breakAt w l)).take w = l.take w := by
        rw [List.take_take, min_eq_left (by omega)]
      have hsame : breakAt w (l.take (breakAt w l)) = breakAt w l := by
        rw [breakAt, hfirst, breakAt]
      refine ih (l := l.take (breakAt w l)) hj hj ?_ ?_ (by rw [hsame]; exact hbig) hn
      · rw [List.getElem?_append_right (by omega), htake]
        simp
      · rw [List.length_take, min_eq_left (breakAt_le hw hl)]
        exact hbig
    · split_ifs at hn with hlong
      · refine ih (i := 1) (j := j + 1) (l := l) (by omega) (by omega) ?_ hl hbig hn
        rw [List.getElem?_append_right (by omega), htake,
          show j + 1 - i = (j - i - 1) + 1 + 1 by omega, List.getElem?_cons_succ,
          List.getElem?_cons_succ, List.getElem?_drop, show i + 1 + (j - i - 1) = j by omega]
        exact hget
      · exact ih hlt hj hget hl hbig hn

theorem flatMap_pieces_cons (l : Str) (ls : List Str) :
    (l :: ls).flatMap (pieces w) = pieces w l ++ ls.flatMap (pieces w) := List.flatMap_cons

theorem pieces_short (hl : l.length ≤ w) : pieces w l = [l] := by
  rw [pieces, dif_neg (by omega)]

theorem pieces_long (hw : 0 < w) (hl : w < l.length) :
    pieces w l = l.take (breakAt w l) :: pieces w (l.drop (breakAt w l)) := by
  rw [pieces, dif_pos ⟨hw, hl⟩]

theorem tail_short {pre : List Str} {p : Str} (hpre : ∀ l ∈ pre.tail, l.length ≤ w)
    (hp : pre ≠ [] → p.length ≤ w) : ∀ l ∈ (pre ++ [p]).tail, l.length ≤ w := by
  intro l hl
  cases pre with
  | nil => cases hl
  | cons q pre =>
    rw [List.cons_append, List.tail_cons] at hl
    obtain hl | hl := List.mem_append.mp hl
    · exact hpre l hl
    · rw [List.mem_singleton.mp hl]
      exact hp (List.cons_ne_nil q pre)

/-- What the loop gives from a place on behind which all lines but the first fit the width. -/
theorem runs_iff (hw : 0 < w) (pre ls : List Str) (hpre : ∀ l ∈ pre.tail, l.length ≤ w) :
    Runs w pre.length (pre ++ ls) r ↔
      AllEnd w pre.isEmpty ls ∧ r = pre ++ ls.flatMap (pieces w) := by
  induction hn : (ls.map fun l => l.length + 1).sum using Nat.strong_induction_on
    generalizing pre ls with
  | _ n ih =>
    cases ls with
    | nil =>
      rw [runs_end (by simp)]
      simp [AllEnd]
    | cons l ls =>
      rw [List.map_cons, List.sum_cons] at hn
      have hget : (pre ++ l :: ls)[pre.length]? = some l := by simp
      have happ : pre ++ l :: ls = (pre ++ [l]) ++ ls := by simp
      have hfalse : (pre ++ [l]).isEmpty = false := by simp
      by_cases hl : w < l.length
      · rw [AllEnd, Ends, dif_pos ⟨hw, hl⟩, flatMap_pieces_cons, pieces_long hw hl]
        have hdrop : (pre ++ l :: ls).drop (pre.length + 1) = ls := by
          rw [List.drop_append]
          simp
        by_cases hgood : pre.isEmpty = true ∨ breakAt w l ≤ w
        · rw [runs_break hget hl, List.take_left, hdrop]
          set piece : Str := l.take (breakAt w l) with hpiece
          set rest : Str := l.drop (breakAt w l) with hrest
          have hfits : pre ≠ [] → piece.length ≤ w := by
            intro hne
            have hle := hgood.resolve_left (by simp [hne])
            rw [hpiece, List.length_take]
            exact min_le_of_left_le hle
          have hsmall : ((rest :: ls).map fun l => l.length + 1).sum < n := by
            have hpos := breakAt_pos (l := l) hw
            rw [List.map_cons, List.sum_cons, hrest, List.length_drop]
            omega
          have hrec := ih _ hsmall (pre ++ [piece]) (rest :: ls) (tail_short hpre hfits) rfl
          have hskip : Runs w 1 (pre ++ piece :: rest :: ls) r ↔
              Runs w (pre ++ [piece]).length ((pre ++ [piece]) ++ rest :: ls) r := by
            cases pre with
            | nil => rfl
            | cons p pre =>
              have h := runs_skip (r := r) [p] (pre ++ [piece]) (rest :: ls)
                (tail_short hpre hfits)
              simp only [List.length_cons, List.length_nil, List.length_append, List.append_assoc,
                List.cons_append, List.nil_append, Nat.zero_add] at h ⊢
              rw [h, show 1 + (pre.length + 1) = pre.length + 1 + 1 by omega]
          have hfalse' : (pre ++ [piece]).isEmpty = false := by simp
          rw [hskip, hrec, AllEnd, flatMap_pieces_cons, hfalse']
          simp only [hgood, true_and, and_assoc, List.append_assoc, List.cons_append,
            List.nil_append]
        · have hpos : 0 < pre.length := by
            cases pre with
            | nil => simp at hgood
            | cons p pre => simp
          have hbig : w < breakAt w l := by
            by_contra h
            exact hgood (Or.inr (by omega))
          have hnever := runs_never (r := r) hw le_rfl hpos hget hl hbig
          simp only [hgood, false_and, iff_false]
          exact hnever
      · have hshort : l.length ≤ w := by omega
        have hrec := ih ((ls.map fun l => l.length + 1).sum) (by omega) (pre ++ [l]) ls
          (tail_short hpre fun _ => hshort) rfl
        rw [List.length_append, List.length_singleton, ← happ, hfalse] at hrec
        rw [runs_pass hget hshort, hrec, AllEnd, Ends, dif_neg (by omega), flatMap_pieces_cons,
          pieces_short hshort]
        simp

end Loop

def Upto (s t : Str) : Prop :=
  ∃ i j, s ++ List.replicate i lf = t ++ List.replicate j lf

section Breaks

variable {w : ℕ} {l s t : Str}

theorem Same.upto (h : Same s t) : Upto s t := by
  obtain rfl | rfl | rfl := h
  · exact ⟨0, 0, rfl⟩
  · exact ⟨0, 1, by simp⟩
  · exact ⟨1, 0, by simp⟩

theorem Same.append (h : Same s t) (a : Str) : Same (a ++ s) (a ++ t) := by
  obtain rfl | rfl | rfl := h
  · exact Or.inl rfl
  · exact Or.inr (Or.inl (List.append_assoc a t [lf]).symm)
  · exact Or.inr (Or.inr (List.append_assoc a s [lf]).symm)

theorem upto_append (a : Str) : Upto (a ++ s) (a ++ t) ↔ Upto s t := by
  simp only [Upto, List.append_assoc, List.append_cancel_left_eq]

theorem upto_cons (c : Byte) : Upto (c :: s) (c :: t) ↔ Upto s t := upto_append [c]

/-- A text that goes on and one that has a line break there differ. -/
theorem not_upto_cons {c : Byte} (hc : c ≠ lf) : ¬ Upto (lf :: s) (c :: t) := by
  rintro ⟨i, j, h⟩
  exact hc (List.cons.inj h).1.symm

theorem textBefore_append (w : ℕ) (a b : List Str) :
    textBefore w (a ++ b) = textBefore w a ++ textBefore w b := List.flatMap_append

theorem textBefore_pieces_short (hl : l.length ≤ w) :
    textBefore w (pieces w l) = l ++ brk (hard w l) := by
  rw [pieces_short hl]
  simp [textBefore]

theorem lastPiece_short (hl : l.length ≤ w) : lastPiece w l = l := by
  rw [lastPiece, dif_neg (by omega)]

theorem lastPiece_long (hw : 0 < w) (hl : w < l.length) :
    lastPiece w l = lastPiece w (l.drop (breakAt w l)) := by
  rw [lastPiece, dif_pos ⟨hw, hl⟩]

/-- When the breaks within a line are not taken for breaks of the text, its display lines
stand for it. -/
theorem textBefore_pieces (hw : 0 < w) (h : Soft w l) :
    textBefore w (pieces w l) = l ++ brk (hard w (lastPiece w l)) := by
  induction hn : l.length using Nat.strong_induction_on generalizing l with
  | _ n ih =>
    by_cases hl : w < l.length
    · rw [Soft, dif_pos ⟨hw, hl⟩] at h
      have hpos := breakAt_pos (l := l) hw
      have hsoft : hard w (l.take (breakAt w l)) = false := by
        rw [← Bool.not_eq_true, hard_take hw hl]
        exact h.1
      have hrest := ih (l.drop (breakAt w l)).length (by rw [List.length_drop]; omega) h.2 rfl
      rw [pieces_long hw hl, textBefore_cons, hsoft, hrest, lastPiece_long hw hl, brk,
        if_neg Bool.false_ne_true, List.append_nil, ← List.append_assoc, List.take_append_drop]
    · rw [textBefore_pieces_short (by omega), lastPiece_short (by omega)]

theorem upto_pieces (hw : 0 < w) (hl : lf ∉ l)
    (h : Upto (textBefore w (pieces w l) ++ s) (l ++ t)) :
    Soft w l ∧ Upto (brk (hard w (lastPiece w l)) ++ s) t := by
  induction hn : l.length using Nat.strong_induction_on generalizing l with
  | _ n ih =>
    by_cases hlong : w < l.length
    · have hpos := breakAt_pos (l := l) hw
      have hsplit : l ++ t = l.take (breakAt w l) ++ (l.drop (breakAt w l) ++ t) := by
        rw [← List.append_assoc, List.take_append_drop]
      have hrest : lf ∉ l.drop (breakAt w l) := fun hm => hl (List.mem_of_mem_drop hm)
      rw [pieces_long hw hlong, textBefore_cons, hsplit, List.append_assoc, List.append_assoc,
        upto_append] at h
      have hsoft : hard w (l.take (breakAt w l)) = false := by
        rw [← Bool.not_eq_true]
        intro hhard
        obtain ⟨m, hm, hmw, -, -, hnumber⟩ := (hard_take hw hlong).mp hhard
        have hw2 : 2 < w := hnumber.elim (·.2) fun h8 => by
          have hle8 := Nat.le_of_dvd hm h8
          simp only [TAB_SIZE] at hle8
          omega
        have hle : breakAt w l ≤ w := by
          by_contra hgt
          have := (breakAt_gt hw (not_le.mp hgt)).1
          omega
        obtain ⟨c, rest, hc⟩ : ∃ c rest, l.drop (breakAt w l) = c :: rest := by
          refine List.exists_cons_of_ne_nil fun hnil => ?_
          have := List.drop_eq_nil_iff.mp hnil
          omega
        rw [hhard, hc] at h
        exact not_upto_cons (fun he => hrest (by rw [hc, he]; simp)) h
      rw [hsoft, brk, if_neg Bool.false_ne_true, List.nil_append] at h
      obtain ⟨h1, h2⟩ := ih (l.drop (breakAt w l)).length (by rw [List.length_drop]; omega)
        hrest h rfl
      rw [Soft, dif_pos ⟨hw, hlong⟩, lastPiece_long hw hlong]
      refine ⟨⟨fun hblank => ?_, h1⟩, h2⟩
      rw [(hard_take hw hlong).mpr hblank] at hsoft
      cases hsoft
    · rw [textBefore_pieces_short (by omega), List.append_assoc, upto_append] at h
      rw [Soft, dif_neg (by omega), lastPiece_short (by omega)]
      exact ⟨trivial, h⟩

/-- The breaks of a text are found again: those within a line are not taken for its own, and
the last display line of a line shows its break when a line that is not empty follows. -/
def Kept (w : ℕ) : List Str → Prop
  | [] => True
  | l :: ls =>
    Soft w l ∧ ((∃ k ∈ ls, k ≠ []) → hard w (lastPiece w l) = true) ∧ Kept w ls

theorem linesLoop_fuel {n m : ℕ} (hn : s.length ≤ n) (hm : s.length ≤ m) :
    linesLoop n s = linesLoop m s := by
  induction n generalizing m s with
  | zero =>
    obtain rfl := List.eq_nil_of_length_eq_zero (Nat.le_zero.mp hn)
    cases m <;> rfl
  | succ n ih =>
    cases m with
    | zero =>
      obtain rfl := List.eq_nil_of_length_eq_zero (Nat.le_zero.mp hm)
      rfl
    | succ m =>
      rw [linesLoop, linesLoop]
      by_cases hlf : lf ∈ s
      · obtain ⟨a, t, rfl, ha⟩ := List.eq_append_cons_of_mem hlf
        have hdrop : ((a ++ lf :: t).drop (a.length + 1)).length = t.length := by
          rw [List.length_drop, List.length_append, List.length_cons]
          omega
        rw [List.length_append, List.length_cons] at hn hm
        rw [find_char ha]
        dsimp only
        rw [ih (m := m) (by rw [hdrop]; omega) (by rw [hdrop]; omega)]
      · rw [find_char_none hlf]

def linesOf (s : Str) : List Str := linesLoop s.length s

theorem linesOf_last (hne : l ≠ []) (hl : lf ∉ l) : linesOf l = [l] := by
  obtain ⟨c, r, rfl⟩ := List.exists_cons_of_ne_nil hne
  rw [linesOf, List.length_cons, linesLoop, if_neg hne, find_char_none hl]

theorem linesOf_cons (hl : lf ∉ l) : linesOf (l ++ lf :: s) = l :: linesOf s := by
  have hlen : (l ++ lf :: s).length = (l.length + s.length) + 1 := by
    rw [List.length_append, List.length_cons]
    omega
  have hdrop : (l ++ lf :: s).drop (l.length + 1) = s := by
    rw [List.drop_append]
    simp
  rw [linesOf, hlen, linesLoop, if_neg (by simp), find_char hl]
  dsimp only
  rw [List.take_left, hdrop, linesOf, linesLoop_fuel (by omega) le_rfl]

/-- A text is empty, or one line, or a line with a break after it and more. -/
theorem text_cases (s : Str) :
    s = [] ∨ (s ≠ [] ∧ lf ∉ s) ∨ ∃ l t, s = l ++ lf :: t ∧ lf ∉ l ∧ t.length < s.length := by
  by_cases hlf : lf ∈ s
  · obtain ⟨l, t, rfl, hl⟩ := List.eq_append_cons_of_mem hlf
    refine Or.inr (Or.inr ⟨l, t, rfl, hl, ?_⟩)
    rw [List.length_append, List.length_cons]
    omega
  · by_cases hne : s = []
    · exact Or.inl hne
    · exact Or.inr (Or.inl ⟨hne, hlf⟩)

def saved (w : ℕ) (ls : List Str) : Str := textBefore w (ls.flatMap (pieces w))

theorem saved_cons (w : ℕ) (l : Str) (ls : List Str) :
    saved w (l :: ls) = textBefore w (pieces w l) ++ saved w ls := by
  rw [saved, flatMap_pieces_cons, textBefore_append, saved]

theorem saved_empty_line (w : ℕ) (ls : List Str) : saved w ([] :: ls) = lf :: saved w ls := by
  rw [saved_cons, textBefore_pieces_short (Nat.zero_le w)]
  rfl

theorem pieces_head (hw : 0 < w) (c : Byte) (r : Str) :
    ∃ x, textBefore w (pieces w (c :: r)) = c :: x := by
  by_cases hl : w < (c :: r).length
  · obtain ⟨n, hn⟩ : ∃ n, breakAt w (c :: r) = n + 1 :=
      ⟨breakAt w (c :: r) - 1, by have := breakAt_pos (l := c :: r) hw; omega⟩
    rw [pieces_long hw hl, textBefore_cons, hn, List.take_succ_cons]
    exact ⟨_, rfl⟩
  · rw [textBefore_pieces_short (by omega)]
    exact ⟨_, rfl⟩

theorem saved_blank (h : ∀ k ∈ linesOf s, k = []) :
    ∃ m, s = List.replicate m lf ∧ saved w (linesOf s) = List.replicate m lf := by
  induction hn : s.length using Nat.strong_induction_on generalizing s with
  | _ n ih =>
    obtain rfl | ⟨hne, hs⟩ | ⟨l, t, rfl, hl, hlt⟩ := text_cases s
    · exact ⟨0, rfl, rfl⟩
    · rw [linesOf_last hne hs] at h
      exact absurd (h s List.mem_cons_self) hne
    · rw [linesOf_cons hl] at h ⊢
      obtain rfl := h l List.mem_cons_self
      obtain ⟨m, hm, hsaved⟩ := ih t.length (by omega)
        (fun k hk => h k (List.mem_cons_of_mem _ hk)) rfl
      refine ⟨m + 1, ?_, ?_⟩
      · rw [List.replicate_succ, ← hm]
        rfl
      · rw [saved_empty_line, hsaved, List.replicate_succ]

theorem kept_blank {ls : List Str} (h : ∀ k ∈ ls, k = []) : Kept w ls := by
  induction ls with
  | nil => trivial
  | cons l ls ih =>
    obtain rfl := h l List.mem_cons_self
    have hrest : ∀ k ∈ ls, k = [] := fun k hk => h k (List.mem_cons_of_mem _ hk)
    refine ⟨?_, fun ⟨k, hk, hne⟩ => absurd (hrest k hk) hne, ih hrest⟩
    rw [Soft, dif_neg (by simp)]
    trivial

theorem not_upto_break (hw : 0 < w) (h : ∃ k ∈ linesOf s, k ≠ []) :
    ¬ Upto (saved w (linesOf s)) (lf :: s) := by
  have hhead : ∀ (l : Str) (x y : Str), l ≠ [] → lf ∉ l →
      ¬ Upto (textBefore w (pieces w l) ++ x) (lf :: y) := by
    intro l x y hne hl
    obtain ⟨c, r, rfl⟩ := List.exists_cons_of_ne_nil hne
    obtain ⟨z, hz⟩ := pieces_head hw c r
    rw [hz]
    rintro ⟨i, j, heq⟩
    exact hl (by simp [(List.cons.inj heq).1])
  induction hn : s.length using Nat.strong_induction_on generalizing s with
  | _ n ih =>
    obtain rfl | ⟨hne, hs⟩ | ⟨l, t, rfl, hl, hlt⟩ := text_cases s
    · obtain ⟨k, hk, -⟩ := h
      cases hk
    · rw [linesOf_last hne hs, saved_cons]
      exact hhead s _ _ hne hs
    · rw [linesOf_cons hl] at h ⊢
      by_cases hne : l = []
      · subst hne
        obtain ⟨k, hk, hkne⟩ := h
        have hk : k ∈ linesOf t := (List.mem_cons.mp hk).resolve_left hkne
        rw [saved_empty_line, List.nil_append, upto_cons]
        exact ih t.length (by omega) ⟨k, hk, hkne⟩ rfl
      · rw [saved_cons]
        exact hhead l _ _ hne hl

theorem kept_of_upto (hw : 0 < w) (h : Upto (saved w (linesOf s)) s) : Kept w (linesOf s) := by
  induction hn : s.length using Nat.strong_induction_on generalizing s with
  | _ n ih =>
    obtain rfl | ⟨hne, hs⟩ | ⟨l, t, rfl, hl, hlt⟩ := text_cases s
    · trivial
    · rw [linesOf_last hne hs] at h ⊢
      have hsoft : Upto (textBefore w (pieces w s) ++ []) (s ++ []) := by
        rw [List.append_nil, List.append_nil]
        rw [saved_cons] at h
        simpa [saved, textBefore] using h
      exact ⟨(upto_pieces hw hs hsoft).1, fun ⟨k, hk, _⟩ => absurd hk (by simp), trivial⟩
    · rw [linesOf_cons hl] at h ⊢
      rw [saved_cons] at h
      obtain ⟨hsoft, hrest⟩ := upto_pieces hw hl h
      cases hb : hard w (lastPiece w l) with
      | true =>
        rw [hb] at hrest
        have hnext : Upto (saved w (linesOf t)) t := (upto_cons lf).mp hrest
        exact ⟨hsoft, fun _ => hb, ih t.length (by omega) hnext rfl⟩
      | false =>
        rw [hb] at hrest
        have hblank : ∀ k ∈ linesOf t, k = [] := by
          by_contra hno
          push Not at hno
          exact not_upto_break hw hno hrest
        exact ⟨hsoft, fun ⟨k, hk, hkne⟩ => absurd (hblank k hk) hkne, kept_blank hblank⟩

theorem same_of_kept (hw : 0 < w) (h : Kept w (linesOf s)) : Same (saved w (linesOf s)) s := by
  induction hn : s.length using Nat.strong_induction_on generalizing s with
  | _ n ih =>
    obtain rfl | ⟨hne, hs⟩ | ⟨l, t, rfl, hl, hlt⟩ := text_cases s
    · exact Or.inl rfl
    · rw [linesOf_last hne hs] at h ⊢
      rw [saved_cons, textBefore_pieces hw h.1]
      cases hard w (lastPiece w s) with
      | true => exact Or.inr (Or.inl (by simp [saved, textBefore, brk]))
      | false => exact Or.inl (by simp [saved, textBefore, brk])
    · rw [linesOf_cons hl] at h ⊢
      obtain ⟨hsoft, hhard, hkept⟩ := h
      rw [saved_cons, textBefore_pieces hw hsoft, List.append_assoc]
      refine Same.append ?_ l
      cases hb : hard w (lastPiece w l) with
      | true => exact Same.append (ih t.length (by omega) hkept rfl) [lf]
      | false =>
        have hblank : ∀ k ∈ linesOf t, k = [] := by
          by_contra hno
          push Not at hno
          rw [hhard hno] at hb
          cases hb
        obtain ⟨m, hm, hsaved⟩ := saved_blank (w := w) hblank
        rw [hsaved, hm]
        refine Or.inr (Or.inr ?_)
        rw [brk, if_neg Bool.false_ne_true, List.nil_append, ← List.replicate_succ,
          ← List.replicate_succ']

end Breaks

section Load

variable {w : ℕ} {t : Str}

theorem mem_pieces {l p : Str} (hp : p ∈ pieces w l) : ∀ c ∈ p, c ∈ l := by
  induction hn : l.length using Nat.strong_induction_on generalizing l with
  | _ n ih =>
    rw [pieces] at hp
    split_ifs at hp with h
    · have hpos := breakAt_pos (l := l) h.1
      obtain rfl | hp := List.mem_cons.mp hp
      · exact fun c hc => List.mem_of_mem_take hc
      · exact fun c hc => List.mem_of_mem_drop
          (ih (l.drop (breakAt w l)).length (by rw [List.length_drop]; omega) hp rfl c hc)
    · obtain rfl := List.mem_singleton.mp hp
      exact fun c hc => hc

theorem load_iff (hw : 0 < w) (htab : tab ∉ t) (hcr : cr ∉ t) {ds : List Str} :
    (∃ n, load w n t = some ds) ↔
      AllEnd w true (linesOf t) ∧ ds = ((linesOf t).flatMap (pieces w)).map cstr ++ [[]] := by
  have hruns : ∀ lst, Runs w 0 (linesOf t) lst ↔
      AllEnd w true (linesOf t) ∧ lst = (linesOf t).flatMap (pieces w) := fun lst =>
    runs_iff hw [] (linesOf t) (fun l hl => absurd hl (by simp))
  simp only [load, breakintolines, if_pos hw, textLines_eq htab hcr, Option.map_eq_some_iff]
  constructor
  · rintro ⟨n, lst, hn, rfl⟩
    obtain ⟨hend, rfl⟩ := (hruns lst).mp ⟨n, hn⟩
    exact ⟨hend, rfl⟩
  · rintro ⟨hend, rfl⟩
    obtain ⟨n, hn⟩ := (hruns _).mpr ⟨hend, rfl⟩
    exact ⟨n, _, hn, rfl⟩

theorem untab_save_loaded (htab : tab ∉ t) :
    untab (save w (((linesOf t).flatMap (pieces w)).map cstr ++ [[]]) [lf]) =
      textBefore w (((linesOf t).flatMap (pieces w)).map cstr) := by
  have hshown : Shown (((linesOf t).flatMap (pieces w)).map cstr ++ [[]]) := by
    intro l hl
    obtain hl | hl := List.mem_append.mp hl
    · obtain ⟨p, hp, rfl⟩ := List.mem_map.mp hl
      obtain ⟨k, hk, hpk⟩ := List.mem_flatMap.mp hp
      obtain ⟨hklf, hkt⟩ := linesLoop_mem hk
      have hsub : ∀ c ∈ cstr p, c ∈ k := fun c hc =>
        mem_pieces hpk c ((List.takeWhile_sublist _).subset hc)
      exact ⟨fun hm => htab (hkt _ (hsub _ hm)), fun hm => hklf (hsub _ hm)⟩
    · rw [List.mem_singleton.mp hl]
      simp
  rw [untab_save w hshown, text_append w _ (List.cons_ne_nil _ _), text, List.append_nil]

theorem nul_not_mem_textBefore (w : ℕ) (ls : List Str) : nul ∉ textBefore w (ls.map cstr) := by
  intro hm
  obtain ⟨l, hl, hn⟩ := List.mem_flatMap.mp hm
  obtain ⟨p, -, rfl⟩ := List.mem_map.mp hl
  obtain hn | hn := List.mem_append.mp hn
  · exact nul_not_mem_cstr p hn
  · rw [brk] at hn
    split_ifs at hn
    · exact absurd hn (by decide)
    · cases hn

theorem map_cstr_pieces (hnul : nul ∉ t) :
    ((linesOf t).flatMap (pieces w)).map cstr = (linesOf t).flatMap (pieces w) := by
  have hself : ∀ p ∈ (linesOf t).flatMap (pieces w), cstr p = p := by
    intro p hp
    obtain ⟨k, hk, hpk⟩ := List.mem_flatMap.mp hp
    exact cstr_eq_self fun hm => hnul ((linesLoop_mem hk).2 _ (mem_pieces hpk _ hm))
  exact (List.map_congr_left hself).trans (List.map_id _)

/-- Loading and saving gives the text back just when it has no NUL, the loop ends, and its
breaks are found again. -/
theorem load_save_iff (hw : 0 < w) (htab : tab ∉ t) (hcr : cr ∉ t) :
    (∃ n ds, load w n t = some ds ∧ Same (untab (save w ds [lf])) t) ↔
      nul ∉ t ∧ AllEnd w true (linesOf t) ∧ Kept w (linesOf t) := by
  constructor
  · rintro ⟨n, ds, hload, hsame⟩
    obtain ⟨hend, rfl⟩ := (load_iff hw htab hcr).mp ⟨n, hload⟩
    rw [untab_save_loaded htab] at hsame
    have hnul : nul ∉ t := by
      intro hm
      have hno := nul_not_mem_textBefore w ((linesOf t).flatMap (pieces w))
      obtain h | h | h := hsame
      · exact hno (by rw [h]; exact hm)
      · exact hno (by rw [h]; exact List.mem_append_left _ hm)
      · rw [h] at hm
        obtain hm | hm := List.mem_append.mp hm
        · exact hno hm
        · exact absurd hm (by decide)
    rw [map_cstr_pieces hnul] at hsame
    exact ⟨hnul, hend, kept_of_upto hw hsame.upto⟩
  · rintro ⟨hnul, hend, hkept⟩
    obtain ⟨n, hn⟩ := (load_iff hw htab hcr).mpr ⟨hend, rfl⟩
    refine ⟨n, _, hn, ?_⟩
    rw [untab_save_loaded htab, map_cstr_pieces hnul]
    exact same_of_kept hw hkept

end Load

theorem ends_wide {w : ℕ} (hw : 1 < w) (first : Bool) (l : Str) : Ends w first l := by
  induction hn : l.length using Nat.strong_induction_on generalizing l first with
  | _ n ih =>
    rw [Ends]
    split_ifs with h
    · have hpos := breakAt_pos (l := l) h.1
      have hle : breakAt w l ≤ w := by
        by_contra hgt
        have := (breakAt_gt h.1 (not_le.mp hgt)).1
        omega
      exact ⟨Or.inr hle, ih _ (by rw [List.length_drop]; omega) false _ rfl⟩

theorem allEnd_wide {w : ℕ} (hw : 1 < w) (first : Bool) (ls : List Str) : AllEnd w first ls := by
  induction ls generalizing first with
  | nil => trivial
  | cons l ls ih => exact ⟨ends_wide hw first l, ih false⟩

/-- An indented line that is broken after a blank. -/
theorem load_save_words :
    ∃ n ds, load 12 n (bytes "         ab cd\nx") = some ds ∧
      Same (untab (save 12 ds [lf])) (bytes "         ab cd\nx") := by
  refine (load_save_iff (by decide) (by decide) (by decide)).mpr
    ⟨by decide, allEnd_wide (by decide) true _, ?_⟩
  have hlines : linesOf (bytes "         ab cd\nx") = [bytes "         ab cd", bytes "x"] := by decide
  have hlast : lastPiece 12 (bytes "         ab cd") = bytes "cd" := by
    rw [lastPiece_long (by decide) (by decide)]
    exact lastPiece_short (by decide)
  have hfind : rfind blank ((bytes "         ab cd").take 12) = some 11 := by decide
  rw [hlines]
  refine ⟨?_, fun _ => by rw [hlast]; decide, ?_, fun ⟨k, hk, _⟩ => absurd hk (by simp), trivial⟩
  · rw [Soft, dif_pos (by decide), Soft, dif_neg (by decide), blankStart_iff hfind]
    exact ⟨by decide, trivial⟩
  · rw [Soft, dif_neg (by decide)]
    trivial

theorem breakLoop_mono {w n m i : ℕ} {lst r : List Str} (h : breakLoop w n i lst = some r)
    (hle : n ≤ m) : breakLoop w m i lst = some r := by
  induction n generalizing m i lst with
  | zero => cases h
  | succ n ih =>
    obtain ⟨k, rfl⟩ : ∃ k, m = k + 1 := ⟨m - 1, by omega⟩
    rw [breakLoop] at h ⊢
    cases hget : lst[i]? with
    | none =>
      rw [hget] at h
      exact h
    | some l =>
      rw [hget] at h
      dsimp only at h ⊢
      split_ifs at h ⊢
      · exact ih h (by omega)
      · exact ih h (by omega)

theorem load_mono {w n m : ℕ} {t : Str} {ds : List Str} (h : load w n t = some ds) (hle : n ≤ m) :
    load w m t = some ds := by
  rw [load, breakintolines] at h ⊢
  split_ifs at h ⊢
  · obtain ⟨lst, hlst, rfl⟩ := Option.map_eq_some_iff.mp h
    rw [breakLoop_mono hlst hle]
    rfl
  · exact h

/-- A word that is too long, behind a blank, gets a line break after its first letter. -/
theorem blank_word :
    ¬ ∃ n ds, load 5 n (bytes " abcdefg\nx") = some ds ∧
      Same (untab (save 5 ds [lf])) (bytes " abcdefg\nx") := by
  rintro ⟨n, ds, hload, hsame⟩
  have hten : load 5 10 (bytes " abcdefg\nx") =
      some [bytes " a", bytes "bcdef", bytes "g", bytes "x", []] := by decide
  have hmax := load_mono hload (Nat.le_max_left n 10)
  rw [load_mono hten (Nat.le_max_right n 10), Option.some.injEq] at hmax
  rw [← hmax] at hsame
  revert hsame
  unfold Same
  decide

end CenterIM.LoadedText
