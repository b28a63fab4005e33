import CenterIM.ByteText

/-!
# Tab margins

`rtabmargin` and `ltabmargin` of kkstrtext, which find the tab stop that the cursor can jump to
over blanks, and the moves and deletions of the editor that rely on them. A cursor position is
at most the length of the text.
-/
namespace CenterIM.TabMargins
open ByteText

/-- `TAB_SIZE`. -/
abbrev tabSize : ℕ := 8

/-- `strspn(p, " ")`. -/
def strspn (p : Str) : ℕ := (p.takeWhile (· = blank)).length

/-- `rtabmargin(fake, curpos, p)`; `none` is the null pointer. -/
def rtabmargin (fake : Bool) (curpos : ℕ) (p : Option Str) : ℤ :=
  let half := (curpos / (tabSize / 2) + 1) * (tabSize / 2)
  let full := (curpos / tabSize + 1) * tabSize
  match p with
  | none => if fake then half else full
  | some p =>
    if curpos ≠ p.length then
      let n := strspn (p.drop curpos)
      let ret : ℤ := if fake ∧ half - curpos ≤ n then half else -1
      if full - curpos ≤ n then full else ret
    else
      let fake := fake && strspn p == p.length
      if fake then half else full

/-- `for(; (*cp == ' ') && (cp != p); cp--) n++;`, with `cp` as an index. -/
def blanksBefore (p : Str) : ℕ → ℕ
  | 0 => 0
  | cp + 1 => if p.getD (cp + 1) nul = blank then blanksBefore p cp + 1 else 0

/-- What `ltabmargin` has in `n` after that loop. -/
def countBlanks (p : Str) : ℕ → ℕ
  | 0 => 0
  | cp + 1 => (if p.getD cp nul = blank then 1 else 0) + blanksBefore p cp

/-- `if((ret = curpos-n) != 0) ret++;`. -/
def behind (ret : ℤ) : ℤ := if ret ≠ 0 then ret + 1 else ret

/-- `ltabmargin(fake, curpos, p)`. -/
def ltabmargin (fake : Bool) (curpos : ℕ) (p : Option Str) : ℤ :=
  let half : ℤ := ↑(curpos / (tabSize / 2) * (tabSize / 2))
  let full : ℤ := ↑(curpos / tabSize * tabSize)
  match p with
  | none => if fake then half else full
  | some p =>
    let start : ℤ := curpos - countBlanks p curpos
    -- the half margin is overwritten in both branches that follow
    let _ret := if fake ∧ half ≤ start then behind start else -1
    if full ≤ start then behind start else full

/-- Only blanks from `i` up to before `j`. -/
def Blanks (p : Str) (i j : ℕ) : Prop := ∀ m, i ≤ m → m < j → p.getD m nul = blank

/-- What is asked of `rtabmargin` before the end of the text. -/
def RightOk (fake : Bool) (p : Str) (curpos : ℕ) : Prop :=
  curpos < p.length → rtabmargin fake curpos (some p) = -1 ∨
    ∃ r : ℕ, rtabmargin fake curpos (some p) = r ∧ curpos < r ∧
      (tabSize ∣ r ∨ fake = true ∧ tabSize / 2 ∣ r) ∧ Blanks p curpos r

/-- What is asked of `ltabmargin`. -/
def LeftOk (fake : Bool) (p : Str) (curpos : ℕ) : Prop :=
  curpos ≤ p.length → ltabmargin fake curpos (some p) = curpos + 1 ∧ ¬ Blanks p (curpos - 1) curpos ∨
    ∃ r : ℕ, ltabmargin fake curpos (some p) = r ∧ r ≤ curpos ∧ Blanks p r curpos

/-- Before the first tab stop, behind nothing but blanks and one other character at the start. -/
def Indented (p : Str) (curpos : ℕ) : Prop :=
  2 ≤ curpos ∧ curpos < tabSize ∧ p.getD 0 nul ≠ blank ∧ Blanks p 1 curpos

theorem strspn_getD {q : Str} {m : ℕ} (h : m < strspn q) : q.getD m nul = blank := by
  induction q generalizing m with
  | nil => simp [strspn] at h
  | cons c q ih =>
    by_cases hc : c = blank
    · cases m with
      | zero => exact hc
      | succ m =>
        have hrest : m < strspn q := by simpa [strspn, hc] using h
        simpa using ih hrest
    · simp [strspn, hc] at h

theorem strspn_blanks {p : Str} {curpos r : ℕ} (h : r - curpos ≤ strspn (p.drop curpos)) :
    Blanks p curpos r := by
  intro m hm hr
  have hblank := @strspn_getD (p.drop curpos) (m - curpos) (by omega)
  rw [List.getD_eq_getElem?_getD, List.getElem?_drop] at hblank
  rw [List.getD_eq_getElem?_getD, ← hblank]
  congr 2
  omega

theorem rtabmargin_ok (fake : Bool) (p : Str) (curpos : ℕ) : RightOk fake p curpos := by
  intro hlt
  have hhalf : curpos < (curpos / (tabSize / 2) + 1) * (tabSize / 2) := by
    rw [show tabSize / 2 = 4 from rfl]
    omega
  have hfull : curpos < (curpos / tabSize + 1) * tabSize := by
    rw [show tabSize = 8 from rfl]
    omega
  by_cases h8 : (curpos / tabSize + 1) * tabSize - curpos ≤ strspn (p.drop curpos)
  · have hr : rtabmargin fake curpos (some p) = ((curpos / tabSize + 1) * tabSize : ℕ) := by
      simp only [rtabmargin, if_pos hlt.ne]
      exact if_pos h8
    exact .inr ⟨_, hr, hfull, .inl (Nat.dvd_mul_left _ _), strspn_blanks h8⟩
  · have hr : rtabmargin fake curpos (some p) =
        if fake = true ∧ (curpos / (tabSize / 2) + 1) * (tabSize / 2) - curpos ≤
            strspn (p.drop curpos) then
          (((curpos / (tabSize / 2) + 1) * (tabSize / 2) : ℕ) : ℤ)
        else -1 := by
      simp only [rtabmargin, if_pos hlt.ne]
      exact if_neg h8
    split_ifs at hr with h4
    · exact .inr ⟨_, hr, hhalf, .inr ⟨h4.1, Nat.dvd_mul_left _ _⟩, strspn_blanks h4.2⟩
    · exact .inl hr

/-- The loop stops at the start or at a character that is no blank. -/
theorem blanksBefore_spec (p : Str) (cp : ℕ) : blanksBefore p cp ≤ cp ∧
    Blanks p (cp - blanksBefore p cp + 1) (cp + 1) ∧
    (cp - blanksBefore p cp = 0 ∨ p.getD (cp - blanksBefore p cp) nul ≠ blank) := by
  induction cp with
  | zero => exact ⟨le_rfl, fun m hm hlt => by omega, .inl rfl⟩
  | succ cp ih =>
    obtain ⟨hle, hblanks, hstop⟩ := ih
    rw [blanksBefore]
    split_ifs with hb
    · have hsub : cp + 1 - (blanksBefore p cp + 1) = cp - blanksBefore p cp := by omega
      rw [hsub]
      refine ⟨by omega, fun m hm hlt => ?_, hstop⟩
      by_cases hm' : m = cp + 1
      · rw [hm', hb]
      · exact hblanks m hm (by omega)
    · exact ⟨Nat.zero_le _, fun m hm hlt => by omega, .inr hb⟩

/-- With a blank before the cursor, `ltabmargin` counts from a place `q`, at the start or at a
character that is no blank, behind which there are blanks only. -/
theorem countBlanks_blank {p : Str} {cp : ℕ} (hb : p.getD cp nul = blank) :
    ∃ q ≤ cp, (((cp + 1 : ℕ) : ℤ) - countBlanks p (cp + 1)) = q ∧ Blanks p (q + 1) (cp + 1) ∧
      (q = 0 ∨ p.getD q nul ≠ blank) := by
  obtain ⟨hle, hblanks, hstop⟩ := blanksBefore_spec p cp
  refine ⟨cp - blanksBefore p cp, Nat.sub_le _ _, ?_, hblanks, hstop⟩
  rw [countBlanks, if_pos hb]
  omega

theorem countBlanks_other {p : Str} {cp : ℕ} (hb : p.getD cp nul ≠ blank) :
    countBlanks p (cp + 1) = 0 := by
  rw [countBlanks, if_neg hb]
  cases cp with
  | zero => rfl
  | succ cp => rw [blanksBefore, if_neg hb]

/-- What `ltabmargin` returns, counted from that place. -/
theorem ltabmargin_blank (fake : Bool) {p : Str} {cp q : ℕ}
    (hq : (((cp + 1 : ℕ) : ℤ) - countBlanks p (cp + 1)) = q) :
    ltabmargin fake (cp + 1) (some p) =
      if (cp + 1) / tabSize * tabSize ≤ q then behind q else ((cp + 1) / tabSize * tabSize : ℕ) := by
  simp only [ltabmargin, hq, Nat.cast_le]

/-- Of a text that is indented by one character the start is returned. -/
theorem ltabmargin_indented (fake : Bool) {p : Str} {curpos : ℕ} (h : Indented p curpos) :
    ltabmargin fake curpos (some p) = 0 := by
  obtain ⟨h2, h8, -, hbl⟩ := h
  obtain ⟨cp, rfl⟩ : ∃ cp, curpos = cp + 1 := ⟨curpos - 1, by omega⟩
  obtain ⟨q, hle, hq, -, hstop⟩ := countBlanks_blank (hbl cp (by omega) (Nat.lt_succ_self cp))
  have hq0 : q = 0 := by
    by_contra hne
    exact hstop.resolve_left hne (hbl q (Nat.pos_of_ne_zero hne) (by omega))
  subst hq0
  have hfirst : (cp + 1) / tabSize = 0 := Nat.div_eq_of_lt h8
  rw [ltabmargin_blank fake hq, hfirst, Nat.zero_mul, if_pos le_rfl]
  rfl

/-- Otherwise `ltabmargin` passes over blanks only. -/
theorem ltabmargin_ok (fake : Bool) {p : Str} {curpos : ℕ} (h : ¬ Indented p curpos) :
    LeftOk fake p curpos := by
  intro _
  cases curpos with
  | zero =>
    have hmargin : ltabmargin fake 0 (some p) = (0 : ℕ) := by simp [ltabmargin, behind, countBlanks]
    exact .inr ⟨0, hmargin, le_rfl, fun m hm hlt => absurd hlt (Nat.not_lt_zero m)⟩
  | succ cp =>
    by_cases hb : p.getD cp nul = blank
    · obtain ⟨q, hle, hq, hblanks, hstop⟩ := countBlanks_blank hb
      have hmargin := ltabmargin_blank fake hq
      split_ifs at hmargin with hfull
      · by_cases hq0 : q = 0
        · -- the start of the text is returned, so there has to be a blank
          subst hq0
          have h8 : cp + 1 < tabSize := by
            rw [show tabSize = 8 from rfl] at hfull ⊢
            omega
          have hp0 : p.getD 0 nul = blank := by
            by_contra hp0
            have hcp0 : cp ≠ 0 := fun he => hp0 (he ▸ hb)
            exact h ⟨by omega, h8, hp0, hblanks⟩
          refine .inr ⟨0, hmargin, Nat.zero_le _, fun m _ hlt => ?_⟩
          rcases Nat.eq_zero_or_pos m with rfl | hpos
          · exact hp0
          · exact hblanks m hpos hlt
        · rw [behind, if_pos (by exact_mod_cast hq0)] at hmargin
          exact .inr ⟨q + 1, hmargin, Nat.succ_le_succ hle, hblanks⟩
      · have hle' : (cp + 1) / tabSize * tabSize ≤ cp + 1 := Nat.div_mul_le_self _ _
        exact .inr ⟨_, hmargin, hle', fun m hm hlt => hblanks m (by omega) hlt⟩
    · have hmargin : ltabmargin fake (cp + 1) (some p) = ((cp + 1 : ℕ) : ℤ) + 1 := by
        have hq : (((cp + 1 : ℕ) : ℤ) - countBlanks p (cp + 1)) = (cp + 1 : ℕ) := by
          rw [countBlanks_other hb]
          rfl
        rw [ltabmargin_blank fake hq, if_pos (Nat.div_mul_le_self _ _), behind, if_pos (by omega)]
      exact .inl ⟨hmargin, fun hbl => hb (hbl cp le_rfl (Nat.lt_succ_self cp))⟩

theorem Indented.le_length {p : Str} {curpos : ℕ} (h : Indented p curpos) : curpos ≤ p.length := by
  by_contra hlt
  have hlast := h.2.2.2 (curpos - 1) (by have := h.1; omega) (by have := h.1; omega)
  rw [List.getD_eq_default _ _ (by omega)] at hlast
  exact absurd hlast (by decide)

theorem leftOk_iff (fake : Bool) (p : Str) (curpos : ℕ) :
    LeftOk fake p curpos ↔ ¬ Indented p curpos := by
  constructor
  · intro hok hind
    have hzero := ltabmargin_indented fake hind
    rcases hok hind.le_length with ⟨hr, -⟩ | ⟨r, hr, -, hbl⟩
    · rw [hzero] at hr
      omega
    · rw [hzero] at hr
      obtain rfl : r = 0 := by omega
      exact hind.2.2.1 (hbl 0 le_rfl (by have := hind.1; omega))
  · exact ltabmargin_ok fake

/-- The column at which the window begins, and the place of the cursor in the window. -/
structure Cursor where
  sx : ℕ
  x : ℕ
  deriving DecidableEq

/-- `CURCOL`. -/
abbrev Cursor.col (c : Cursor) : ℕ := c.sx + c.x

/-- Between two keys the cursor is in the window, which has `w` columns. -/
structure Resting (w : ℕ) extends Cursor where
  inWindow : x < w

/-- `setpos` within a line of this length. -/
def Cursor.setpos (w len col : ℕ) (c : Cursor) : Cursor :=
  if c.sx ≤ col ∧ col < c.sx + w then ⟨c.sx, col - c.sx⟩
  else
    let col := min col len
    if w ≤ col then ⟨col - w / 2, w / 2⟩ else ⟨0, col⟩

/-- `fix_x(tab)`. The length that `strspn` returns is not less than a negative number of columns
for the processor. The margin is put into `x` as it is. -/
def Cursor.fix_x (tab : Bool) (w abscol : ℕ) (p : Str) (c : Cursor) : Cursor :=
  let c : Cursor :=
    if c.col > p.length then
      let sx := if p.length < c.sx then p.length / (w - 1) else c.sx
      ⟨sx, p.length - sx⟩
    else if abscol ≥ c.sx + w then c.setpos w p.length abscol
    else c
  let rm := rtabmargin true c.col (some p)
  if tab ∧ 0 < c.col ∧ p.getD (c.col - 1) nul = blank ∧
      (0 ≤ rm - c.col ∧ rm - c.col ≤ strspn (p.drop c.col)) ∧
      (c.col : ℤ) ≠ ltabmargin true rm.toNat (some p) then
    { c with x := rm.toNat }
  else c

/-- What `edmove` does at its end for a cursor to the right of the window, with `updatecursor`. -/
def Cursor.scroll (w : ℕ) (c : Cursor) : Cursor :=
  if w ≤ c.x then
    let sx := c.sx + w / 3
    ⟨sx, min (c.col - sx) (w - 1)⟩
  else c

/-- The left arrow in `edmove`, in a line that the cursor does not leave: the column. At the left
edge the window goes along. -/
def keyLeft (tab : Bool) (w : ℕ) (p : Str) (c : Cursor) : ℕ :=
  if c.x ≠ 0 then
    let c : Cursor := { c with x := c.x - 1 }
    let lm := ltabmargin true c.col (some p)
    let moved :=
      if c.col ≠ 0 ∧ tab ∧ lm ≠ -1 ∧ (c.col : ℤ) + 1 ≠ lm ∧ p.getD c.col nul = blank then
        c.setpos w p.length lm.toNat
      else c
    (moved.scroll w).col
  else c.col - 1

/-- The right arrow in `edmove`, before the end of the line. -/
def keyRight (tab : Bool) (w abscol : ℕ) (p : Str) (c : Cursor) : Cursor :=
  (({ c with x := c.x + 1 } : Cursor).fix_x tab w abscol p).scroll w

/-- What `eddel` makes of a line when the cursor is in it. -/
def eddelLine (usetabs : Bool) (p : Str) (col : ℕ) : Str :=
  let rm := rtabmargin true col (some p)
  let todelete := if usetabs ∧ rm ≠ -1 then rm.toNat - col else 1
  p.take col ++ p.drop (col + todelete)

/-- Where the right arrow comes to before it looks for tabs. -/
abbrev stepped (w abscol : ℕ) (p : Str) (c : Cursor) : Cursor :=
  ({ c with x := c.x + 1 } : Cursor).fix_x false w abscol p

/-- With tabs an arrow comes to where it comes to without them, or else goes over blanks only,
and a deletion of more than one character deletes blanks only. -/
def MovesOk (w abscol : ℕ) (p : Str) (c : Cursor) : Prop :=
  (c.col ≤ p.length → keyLeft true w p c = keyLeft false w p c ∨
      Blanks p (keyLeft true w p c) c.col) ∧
    (c.col < p.length →
      (keyRight true w abscol p c).col = (keyRight false w abscol p c).col ∨
        Blanks p ((stepped w abscol p c).col - 1) (keyRight true w abscol p c).col) ∧
    (c.col < p.length → ∃ n, eddelLine true p c.col = p.take c.col ++ p.drop (c.col + n) ∧
      (n = 1 ∨ Blanks p c.col (c.col + n)))

/-- Behind a blank, `r` is the next tab stop, or else the next half of one but not from a tab
stop, that is reached over blanks. -/
def TabJump (p : Str) (col r : ℕ) : Prop :=
  0 < col ∧ p.getD (col - 1) nul = blank ∧ Blanks p col r ∧
    (r = (col / tabSize + 1) * tabSize ∨ r = (col / (tabSize / 2) + 1) * (tabSize / 2) ∧
      ¬Blanks p col ((col / tabSize + 1) * tabSize) ∧ ¬tabSize ∣ col)

/-- The left arrow goes over the character at the start of the line. -/
def LeftBad (p : Str) (c : Cursor) : Prop :=
  c.x ≠ 0 ∧ Indented p (c.col - 1) ∧ p.getD (c.col - 1) nul = blank

/-- From `c` the cursor jumps to the tab stop `r`, but `r` becomes its place in the window, and
on the way to the column there is something else than blanks. -/
def RightBad (w : ℕ) (p : Str) (c : Cursor) : Prop :=
  ∃ r, TabJump p c.col r ∧ ¬Blanks p r (({ c with x := r } : Cursor).scroll w).col

theorem LeftBad.le_length {p : Str} {c : Cursor} (h : LeftBad p c) : c.col ≤ p.length := by
  by_contra hlt
  have hlast := h.2.2
  rw [List.getD_eq_default _ _ (by omega)] at hlast
  exact absurd hlast (by decide)

theorem Blanks.succ {p : Str} {i j : ℕ} (h : Blanks p i j) (hb : p.getD j nul = blank) :
    Blanks p i (j + 1) := by
  intro m hm hlt
  rcases Nat.lt_succ_iff_lt_or_eq.mp hlt with hlt | rfl
  · exact h m hm hlt
  · exact hb

theorem Blanks.mono {p : Str} {i j k l : ℕ} (h : Blanks p i j) (hik : i ≤ k) (hlj : l ≤ j) :
    Blanks p k l :=
  fun m hm hlt => h m (hik.trans hm) (hlt.trans_le hlj)

theorem Blanks.trans {p : Str} {i j k : ℕ} (h : Blanks p i j) (h' : Blanks p j k) :
    Blanks p i k := by
  intro m hm hlt
  rcases Nat.lt_or_ge m j with hj | hj
  · exact h m hm hj
  · exact h' m hj hlt

theorem Blanks.le_length {p : Str} {i j : ℕ} (h : Blanks p i j) (hij : i < j) : j ≤ p.length := by
  by_contra hlt
  have hlast := h (j - 1) (by omega) (by omega)
  rw [List.getD_eq_default _ _ (by omega)] at hlast
  exact absurd hlast (by decide)

theorem strspn_iff {p : Str} {i j : ℕ} (hij : i ≤ j) : j - i ≤ strspn (p.drop i) ↔ Blanks p i j := by
  refine ⟨strspn_blanks, fun h => ?_⟩
  by_contra hlt
  have hend : i + strspn (p.drop i) < j := by omega
  have hb := h (i + strspn (p.drop i)) (by omega) hend
  rw [List.getD_eq_getElem?_getD, ← List.getElem?_drop] at hb
  generalize p.drop i = q at hb
  induction q with
  | nil => exact absurd hb (by decide)
  | cons a q ih =>
    by_cases ha : a = blank
    · have hs : strspn (a :: q) = strspn q + 1 := by simp [strspn, ha]
      rw [hs, List.getElem?_cons_succ] at hb
      exact ih hb
    · have hs : strspn (a :: q) = 0 := by simp [strspn, ha]
      rw [hs] at hb
      exact ha (by simpa using hb)

theorem lt_stops (col : ℕ) : col < (col / tabSize + 1) * tabSize ∧
    col < (col / (tabSize / 2) + 1) * (tabSize / 2) ∧
    (col / (tabSize / 2) + 1) * (tabSize / 2) ≤ (col / tabSize + 1) * tabSize := by
  rw [show tabSize / 2 = 4 from rfl, show tabSize = 8 from rfl]
  omega

theorem rtabmargin_full {p : Str} {col : ℕ}
    (h : Blanks p col ((col / tabSize + 1) * tabSize)) :
    rtabmargin true col (some p) = ((col / tabSize + 1) * tabSize : ℕ) := by
  have hlt := (lt_stops col).1
  have hle := h.le_length hlt
  simp only [rtabmargin]
  rw [if_pos (by omega), if_pos ((strspn_iff hlt.le).mpr h)]

theorem rtabmargin_half {p : Str} {col : ℕ}
    (hfull : ¬Blanks p col ((col / tabSize + 1) * tabSize))
    (h : Blanks p col ((col / (tabSize / 2) + 1) * (tabSize / 2))) :
    rtabmargin true col (some p) = ((col / (tabSize / 2) + 1) * (tabSize / 2) : ℕ) := by
  obtain ⟨hlt, hlt', -⟩ := lt_stops col
  have hle := h.le_length hlt'
  simp only [rtabmargin]
  rw [if_pos (by omega), if_neg (mt (strspn_iff hlt.le).mp hfull),
    if_pos ⟨trivial, (strspn_iff hlt'.le).mpr h⟩]

/-- Behind a blank, the margin to the left of a place that is reached over blanks. -/
theorem ltabmargin_jump {p : Str} {col r : ℕ} (hpos : 0 < col)
    (hb : p.getD (col - 1) nul = blank) (hbl : Blanks p col r) (hlt : col < r) :
    ltabmargin true r (some p) = (r / tabSize * tabSize : ℕ) ∧ col ≤ r / tabSize * tabSize ∨
      ltabmargin true r (some p) < col ∧ r / tabSize * tabSize < col := by
  obtain ⟨cp, rfl⟩ : ∃ cp, r = cp + 1 := ⟨r - 1, by omega⟩
  obtain ⟨q, hle, hq, -, hstop⟩ := countBlanks_blank (hbl cp (by omega) (Nat.lt_succ_self cp))
  have hqcol : q + 1 < col ∨ q = 0 := by
    by_contra hq'
    have hne : p.getD q nul ≠ blank := hstop.resolve_left (by omega)
    rcases Nat.lt_or_ge q col with hlt' | hge
    · have hq1 : q = col - 1 := by omega
      exact hne (hq1 ▸ hb)
    · exact hne (hbl q hge (by omega))
  rw [ltabmargin_blank true hq]
  split_ifs with hfull
  · refine .inr ⟨?_, by omega⟩
    rw [behind]
    split_ifs <;> omega
  · by_cases hcol : col ≤ (cp + 1) / tabSize * tabSize
    · exact .inl ⟨rfl, hcol⟩
    · exact .inr ⟨by omega, by omega⟩

theorem dvd_stop (col : ℕ) : (col / tabSize + 1) * tabSize / tabSize * tabSize =
    (col / tabSize + 1) * tabSize := by
  rw [Nat.mul_div_cancel _ (by decide)]

/-- A half tab stop that is no tab stop lies in the same eight columns. -/
theorem half_stop {col : ℕ}
    (h : (col / (tabSize / 2) + 1) * (tabSize / 2) ≠ (col / tabSize + 1) * tabSize) :
    (col / (tabSize / 2) + 1) * (tabSize / 2) / tabSize * tabSize = col / tabSize * tabSize := by
  rw [show tabSize / 2 = 4 from rfl, show tabSize = 8 from rfl] at h ⊢
  omega

theorem Cursor.fix_x_tab (w abscol : ℕ) (p : Str) (c : Cursor) :
    c.fix_x true w abscol p =
      if 0 < (c.fix_x false w abscol p).col ∧
          p.getD ((c.fix_x false w abscol p).col - 1) nul = blank ∧
          (0 ≤ rtabmargin true (c.fix_x false w abscol p).col (some p) -
              (c.fix_x false w abscol p).col ∧
            rtabmargin true (c.fix_x false w abscol p).col (some p) -
              (c.fix_x false w abscol p).col ≤ strspn (p.drop (c.fix_x false w abscol p).col)) ∧
          ((c.fix_x false w abscol p).col : ℤ) ≠ ltabmargin true
            (rtabmargin true (c.fix_x false w abscol p).col (some p)).toNat (some p) then
        { c.fix_x false w abscol p with
          x := (rtabmargin true (c.fix_x false w abscol p).col (some p)).toNat }
      else c.fix_x false w abscol p := by
  simp [fix_x]

theorem rtabmargin_jump {p : Str} {col r : ℕ} (h : TabJump p col r) :
    rtabmargin true col (some p) = r ∧ col < r := by
  obtain ⟨-, -, hbl, rfl | ⟨rfl, hfull, -⟩⟩ := h
  · exact ⟨rtabmargin_full hbl, (lt_stops col).1⟩
  · exact ⟨rtabmargin_half hfull hbl, (lt_stops col).2.1⟩

theorem ltabmargin_ne {p : Str} {col r : ℕ} (h : TabJump p col r) :
    (col : ℤ) ≠ ltabmargin true r (some p) := by
  have hlt := (rtabmargin_jump h).2
  obtain ⟨hpos, hb, hbl, hr⟩ := h
  rcases ltabmargin_jump hpos hb hbl hlt with ⟨hl, hle⟩ | ⟨hl, -⟩
  · rw [hl]
    rcases hr with rfl | ⟨rfl, hfull, hdvd⟩
    · rw [dvd_stop]
      exact_mod_cast hlt.ne
    · have hne : (col / (tabSize / 2) + 1) * (tabSize / 2) ≠ (col / tabSize + 1) * tabSize :=
        fun he => hfull (he ▸ hbl)
      rw [half_stop hne]
      intro he
      exact hdvd (Dvd.intro_left _ (by exact_mod_cast he.symm))
  · exact hl.ne'

theorem Cursor.fix_x_jump {w abscol : ℕ} {p : Str} {c : Cursor} {r : ℕ}
    (h : TabJump p (c.fix_x false w abscol p).col r) :
    c.fix_x true w abscol p = { c.fix_x false w abscol p with x := r } := by
  obtain ⟨hr, hlt⟩ := rtabmargin_jump h
  have hspan := (strspn_iff hlt.le).mpr h.2.2.1
  rw [fix_x_tab, hr, Int.toNat_natCast,
    if_pos ⟨h.1, h.2.1, ⟨by omega, by omega⟩, ltabmargin_ne h⟩]

theorem Cursor.fix_x_stay {w abscol : ℕ} {p : Str} {c : Cursor}
    (h : ¬∃ r, TabJump p (c.fix_x false w abscol p).col r) :
    c.fix_x true w abscol p = c.fix_x false w abscol p := by
  rw [fix_x_tab]
  refine if_neg ?_
  generalize c.fix_x false w abscol p = s at h ⊢
  rintro ⟨hpos, hb, ⟨hle, hspan⟩, hne⟩
  obtain ⟨r, hr⟩ : ∃ r : ℕ, rtabmargin true s.col (some p) = r :=
    ⟨(rtabmargin true s.col (some p)).toNat, by omega⟩
  rw [hr] at hle hspan hne
  rw [Int.toNat_natCast] at hne
  have hle' : s.col ≤ r := by omega
  have hn : r - s.col ≤ strspn (p.drop s.col) := by omega
  have hbl := (strspn_iff hle').mp hn
  by_cases hfull : Blanks p s.col ((s.col / tabSize + 1) * tabSize)
  · exact h ⟨_, hpos, hb, hfull, .inl rfl⟩
  by_cases hhalf : Blanks p s.col ((s.col / (tabSize / 2) + 1) * (tabSize / 2))
  · have hr' : r = (s.col / (tabSize / 2) + 1) * (tabSize / 2) := by
      exact_mod_cast hr.symm.trans (rtabmargin_half hfull hhalf)
    have hstop : r ≠ (s.col / tabSize + 1) * tabSize := fun he => hfull (he ▸ hbl)
    have hlt : s.col < r := hr' ▸ (lt_stops s.col).2.1
    refine h ⟨r, hpos, hb, hbl, .inr ⟨hr', hfull, fun hdvd => hne ?_⟩⟩
    -- from a tab stop the margin to the left of the half stop is where the cursor is
    have hback : r / tabSize * tabSize = s.col := by
      rw [hr', half_stop (hr' ▸ hstop), Nat.div_mul_cancel hdvd]
    rcases ltabmargin_jump hpos hb hbl hlt with ⟨hl, -⟩ | ⟨-, hl⟩
    · rw [hl, hback]
    · exact absurd hback hl.ne
  · obtain ⟨hlt, hlt', -⟩ := lt_stops s.col
    simp only [rtabmargin] at hr
    split_ifs at hr with hend hspan8 hspan4
    · exact hfull ((strspn_iff hlt.le).mp hspan8)
    · exact hhalf ((strspn_iff hlt'.le).mp hspan4.2)
    -- at the end of the text there are no blanks ahead
    · have hr' : (s.col / (tabSize / 2) + 1) * (tabSize / 2) = r := by exact_mod_cast hr
      have hlen := hbl.le_length (hr' ▸ hlt')
      omega
    · have hr' : (s.col / tabSize + 1) * tabSize = r := by exact_mod_cast hr
      have hlen := hbl.le_length (hr' ▸ hlt)
      omega

theorem eddelLine_ok {p : Str} {col : ℕ} (h : col < p.length) :
    ∃ n, eddelLine true p col = p.take col ++ p.drop (col + n) ∧
      (n = 1 ∨ Blanks p col (col + n)) := by
  refine ⟨_, rfl, ?_⟩
  rcases rtabmargin_ok true p col h with hr | ⟨r, hr, hlt, -, hbl⟩
  · exact .inl (if_neg fun hc => hc.2 hr)
  · have hne : (r : ℤ) ≠ -1 := by omega
    refine .inr ?_
    rw [hr, if_pos ⟨rfl, hne⟩, Int.toNat_natCast, Nat.add_sub_cancel' hlt.le]
    exact hbl

theorem Cursor.scroll_of_lt {w : ℕ} {c : Cursor} (h : c.x < w) : c.scroll w = c :=
  if_neg (Nat.not_le.mpr h)

theorem Cursor.scroll_le (w : ℕ) (c : Cursor) : (c.scroll w).col ≤ c.col := by
  rw [scroll]
  split_ifs with h
  · simp only [col]
    omega
  · exact le_rfl

/-- `setpos` to a place in the line is exact and ends in the window. -/
theorem Cursor.setpos_spec {w len col : ℕ} (hw : 0 < w) (h : col ≤ len) (c : Cursor) :
    (c.setpos w len col).col = col ∧ (c.setpos w len col).x < w := by
  simp only [setpos, min_eq_left h]
  split_ifs with hin hout <;> simp only [Cursor.col] <;> omega

theorem keyRight_iff (w abscol : ℕ) (p : Str) (c : Cursor) :
    ((keyRight true w abscol p c).col = (keyRight false w abscol p c).col ∨
        Blanks p ((stepped w abscol p c).col - 1) (keyRight true w abscol p c).col) ↔
      ¬RightBad w p (stepped w abscol p c) := by
  rw [keyRight, keyRight]
  by_cases hjump : ∃ r, TabJump p (stepped w abscol p c).col r
  · obtain ⟨r, hr⟩ := hjump
    obtain ⟨hmargin, hlt⟩ := rtabmargin_jump hr
    have hbehind : Blanks p ((stepped w abscol p c).col - 1) r := by
      intro m hm hmr
      rcases Nat.lt_or_ge m (stepped w abscol p c).col with hlast | hge
      · exact (show m = (stepped w abscol p c).col - 1 by omega) ▸ hr.2.1
      · exact hr.2.2.1 m hge hmr
    rw [Cursor.fix_x_jump hr]
    constructor
    · rintro hok ⟨r', hr', hbad⟩
      obtain rfl : r' = r := by exact_mod_cast (rtabmargin_jump hr').1.symm.trans hmargin
      rcases hok with heq | hbl
      · have hle := heq.trans_le (Cursor.scroll_le w (stepped w abscol p c))
        exact hbad fun m hm hmr => absurd (hmr.trans_le hle) (by omega)
      · exact hbad (hbl.mono (by omega) le_rfl)
    · intro hok
      exact .inr (hbehind.trans (by_contra fun hbad => hok ⟨r, hr, hbad⟩))
  · rw [Cursor.fix_x_stay hjump]
    refine iff_of_true (.inl rfl) ?_
    rintro ⟨r, hr, -⟩
    exact hjump ⟨r, hr⟩

theorem keyLeft_false {w : ℕ} (p : Str) (c : Resting w) :
    keyLeft false w p c.toCursor = c.col - 1 := by
  have hw := c.inWindow
  simp only [keyLeft, Bool.false_eq_true, false_and, and_false, if_false]
  split_ifs with hx
  · rw [Cursor.scroll_of_lt (by simp only; omega)]
    simp only [Cursor.col]
    omega
  · rfl

theorem ltabmargin_range {p : Str} {curpos : ℕ} (h : curpos ≤ p.length) :
    ltabmargin true curpos (some p) = curpos + 1 ∨
      ∃ r : ℕ, ltabmargin true curpos (some p) = r ∧ r ≤ curpos := by
  by_cases hind : Indented p curpos
  · exact .inr ⟨0, ltabmargin_indented true hind, Nat.zero_le _⟩
  · rcases ltabmargin_ok true hind h with ⟨hr, -⟩ | ⟨r, hr, hle, -⟩
    · exact .inl hr
    · exact .inr ⟨r, hr, hle⟩

theorem keyLeft_true {w : ℕ} {p : Str} (c : Resting w) (h : c.col ≤ p.length) (hx : c.x ≠ 0) :
    keyLeft true w p c.toCursor =
      if c.col - 1 ≠ 0 ∧ ltabmargin true (c.col - 1) (some p) ≠ -1 ∧
          ((c.col - 1 : ℕ) : ℤ) + 1 ≠ ltabmargin true (c.col - 1) (some p) ∧
          p.getD (c.col - 1) nul = blank then
        (ltabmargin true (c.col - 1) (some p)).toNat
      else c.col - 1 := by
  have hw := c.inWindow
  have hcol : ({ c.toCursor with x := c.x - 1 } : Cursor).col = c.col - 1 := by
    simp only [Cursor.col]
    omega
  simp only [keyLeft, if_pos hx, hcol, true_and]
  split_ifs with hjump
  · obtain ⟨-, -, hne, -⟩ := hjump
    have hle : c.col - 1 ≤ p.length := by omega
    rcases ltabmargin_range hle with hr | ⟨r, hr, hr'⟩
    · exact absurd hr.symm hne
    · rw [hr, Int.toNat_natCast]
      obtain ⟨hset, hin⟩ := Cursor.setpos_spec (Nat.zero_lt_of_lt hw) (hr'.trans hle)
        { c.toCursor with x := c.x - 1 }
      rw [Cursor.scroll_of_lt hin, hset]
  · have hin : ({ c.toCursor with x := c.x - 1 } : Cursor).x < w := by
      simp only
      omega
    rw [Cursor.scroll_of_lt hin, hcol]

theorem keyLeft_iff {w : ℕ} {p : Str} (c : Resting w) (h : c.col ≤ p.length) :
    (keyLeft true w p c.toCursor = keyLeft false w p c.toCursor ∨
        Blanks p (keyLeft true w p c.toCursor) c.col) ↔ ¬LeftBad p c.toCursor := by
  rw [keyLeft_false]
  by_cases hx : c.x = 0
  · have hkey : keyLeft true w p c.toCursor = c.col - 1 := if_neg (not_not.mpr hx)
    exact iff_of_true (.inl hkey) fun hbad => hbad.1 hx
  rw [keyLeft_true c h hx]
  by_cases hind : Indented p (c.col - 1)
  · have hpos : c.col - 1 ≠ 0 := by have := hind.1; omega
    rw [ltabmargin_indented true hind]
    by_cases hb : p.getD (c.col - 1) nul = blank
    · -- the cursor goes to the start, over the character there
      rw [if_pos ⟨hpos, by omega, by omega, hb⟩]
      refine iff_of_false ?_ (not_not.mpr ⟨hx, hind, hb⟩)
      rintro (hzero | hbl)
      · exact hpos hzero.symm
      · exact hind.2.2.1 (hbl 0 le_rfl (by omega))
    · rw [if_neg fun hc => hb hc.2.2.2]
      exact iff_of_true (.inl rfl) fun hbad => hb hbad.2.2
  · refine iff_of_true ?_ fun hbad => hind hbad.2.1
    split_ifs with hjump
    · obtain ⟨hpos, -, hne, hb⟩ := hjump
      rcases ltabmargin_ok true hind (by omega) with ⟨hr, -⟩ | ⟨r, hr, -, hbl⟩
      · exact absurd hr.symm hne
      · rw [hr, Int.toNat_natCast]
        have hlast := hbl.succ hb
        rw [Nat.sub_add_cancel (by omega)] at hlast
        exact .inr hlast
    · exact .inl rfl

end CenterIM.TabMargins
