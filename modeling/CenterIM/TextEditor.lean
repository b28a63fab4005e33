import CenterIM.ByteText

/-!
# The text editor in wrap mode

The editor keeps the lines as they are displayed. Whether a display line ends a line of the
message is not stored: `save` takes it from the line's last character and its length.
-/
namespace CenterIM.TextEditor
open ByteText

abbrev TAB_SIZE : ℕ := 8

/-- A character of `WORD_DELIM`. -/
def isDelim (c : Byte) : Bool := c == blank || c == 44

/-- The width is `x2-x1-1`; a column is `sx + x`, a line `sy + y`. -/
structure Editor where
  width : ℕ
  lines : List Str
  sx : ℕ
  col : ℕ
  line : ℕ
  deriving DecidableEq

/-- Does `save` begin a line after the display line to which `prev` points? -/
def breaksAfter (w : ℕ) (prev : Str) : Bool :=
  prev == [] || (prev.getLast? != some blank && decide (prev.length < w))

/-- The loop of `save` that writes leading blanks as tabs, and the pointer that it moves on. -/
def tabify : ℕ → Str → Str × Str
  | 0, p => ([], p)
  | fuel + 1, p =>
    if (p.takeWhile (· = blank)).length ≥ TAB_SIZE then
      let (tabs, p) := tabify fuel (p.drop TAB_SIZE)
      (tab :: tabs, p)
    else ([], p)

/-- The lines after the first one, `prev` being the one before them without the blanks that were
written as tabs. -/
def saveLoop (w : ℕ) (linebreak : Str) : Str → List Str → Str
  | _, [] => []
  | prev, p :: rest =>
    let (tabs, q) := tabify p.length p
    (if breaksAfter w prev then linebreak else []) ++ tabs ++
      (if rest = [] ∧ q = linebreak then [] else q) ++ saveLoop w linebreak q rest

/-- `texteditor::save`. -/
def save (w : ℕ) (lines : List Str) (linebreak : Str) : Str :=
  match lines with
  | [] => []
  | p :: rest =>
    let (tabs, q) := tabify p.length p
    tabs ++ (if rest = [] ∧ q = linebreak then [] else q) ++ saveLoop w linebreak q rest

/-- `strpbrk(n + i, WORD_DELIM)`, as a place in `n`. -/
def nextDelim (n : Str) (i : ℕ) : Option ℕ := ((n.drop i).findIdx? isDelim).map (· + i)

/-- From the delimiter at `sub` on to the last one that can be reached. -/
def lastSub (n : Str) (ok : ℕ → Bool) : ℕ → ℕ → ℕ
  | 0, sub => sub
  | fuel + 1, sub =>
    match nextDelim n (sub + 1) with
    | some osub => if ok osub then lastSub n ok fuel osub else sub
    | none => sub

/-- The place after which `wrapline` cuts a line. -/
def cutAt (w : ℕ) (n : Str) : ℕ :=
  match nextDelim n 0 with
  | some sub => lastSub n (fun osub => !(n.drop osub).all isDelim && decide (osub < w)) n.length sub
  | none => n.length - 2

/-- `prepend`, on the lines from the given one on. -/
def prepend (text : Str) : List Str → List Str
  | p :: rest => (text ++ p) :: rest
  | [] => [text]

/-- `wrapline`, on the lines from the given one on. When the cursor stays in front of the cut,
the rest is wrapped with dummies in its place. -/
def wrapline (w : ℕ) (lines : List Str) (px py : ℕ) : List Str × ℕ × ℕ :=
  match lines with
  | [] => ([], px, py)
  | p :: rest =>
    if w < p.length then
      let n := p.take (cutAt w p + 1)
      let sep := p.drop (cutAt w p + 1)
      if n.length ≤ px then
        let r := wrapline w (prepend sep rest) (px - n.length) (py + 1)
        (n :: r.1, r.2)
      else (n :: (wrapline w (prepend sep rest) 0 0).1, px, py)
    else (p :: rest, px, py)
termination_by (lines.length, (lines.headD []).length)
decreasing_by
  all_goals
    cases rest with
    | nil =>
      refine Prod.Lex.right _ ?_
      simp only [prepend, List.headD_cons, List.length_drop]
      omega
    | cons q rest => exact Prod.Lex.left _ _ (Nat.lt_succ_self _)

def lastDelim (n : Str) : Option ℕ :=
  (nextDelim n 0).map fun asub => lastSub n (fun _ => true) n.length asub

/-- `mergeline` on the line with number `ln` and the lines after it. The space that is left is
compared as an unsigned number: a line over the width has room for any other. -/
def mergeline (w : ℕ) (ln : ℤ) (lines : List Str) (force : Bool) (px py : ℤ) :
    List Str × ℤ × ℤ :=
  match lines with
  | [] => ([], px, py)
  | p :: rest =>
    if p.getLast? ≠ some blank ∧ force = false then (p :: rest, px, py)
    else
      match rest with
      | [] => ([p], px, py)
      | next :: rest =>
        if next ≠ [] ∨ force = true then
          if p.length ≤ w ∧ w - p.length < next.length then
            match lastDelim (next.take (w - p.length)) with
            | some asub =>
              let newline := p ++ next.take (asub + 1)
              let (px, pxdeltamerge, py) : ℤ × ℤ × ℤ :=
                if ln = py - 1 ∧ px < asub + 1 then (px + p.length, px + p.length, py - 1)
                else if ln = py - 1 then (px - (asub + 1), px - (asub + 1), py)
                else (px, px - (asub + 1), py)
              let r := mergeline w (ln + 1) (next.drop (asub + 1) :: rest) false pxdeltamerge py
              (newline :: r.1, px, r.2.2)
            | none => (p :: next :: rest, px, py)
          else
            let (px, py) := if ln = py - 1 then (px + p.length, py - 1) else (px, py)
            let newline := p ++ next
            if newline.getLast? = some blank then mergeline w ln (newline :: rest) false px py
            else (newline :: rest, px, py)
        else (p :: next :: rest, px, py)
termination_by lines.length

/-- `setpos`; a column outside the window is cut to the line. -/
def Editor.setpos (e : Editor) (col line : ℤ) : Editor :=
  let line := if line ≥ e.lines.length then (e.lines.length : ℤ) - 1 else line
  let line := if line < 0 then 0 else line.toNat
  if (e.sx : ℤ) ≤ col ∧ col < e.sx + (e.width + 1) then { e with col := col.toNat, line }
  else
    let col := if col > (e.lines.getD line []).length then (e.lines.getD line []).length else col.toNat
    let sx := if col > e.width then col - (e.width + 1) / 2 else 0
    { e with sx, col, line }

/-- `inschar` for a character other than a tab. -/
def Editor.inschar (e : Editor) (k : Byte) : Editor :=
  let p := e.lines.getD e.line []
  let n := p.take e.col ++ k :: p.drop e.col
  if n.length > e.width then
    let (lines, cx, cy) := wrapline e.width (n :: e.lines.drop (e.line + 1)) (e.col + 1) e.line
    { e with lines := e.lines.take e.line ++ lines }.setpos cx cy
  else
    -- The right arrow, with the line already changed.
    { e with lines := e.lines.set e.line n, col := e.col + 1 }

/-- `eddel(false)`. -/
def Editor.eddel (e : Editor) : Editor :=
  let p := e.lines.getD e.line []
  if e.col < p.length then
    let lines := e.lines.set e.line (p.eraseIdx e.col)
    -- There is no line before the first one for `mergeline` to start from.
    let (lines, px, py) : List Str × ℤ × ℤ := match e.line with
      | 0 => (lines, e.col, e.line)
      | prev + 1 =>
        let r := mergeline e.width prev (lines.drop prev) false e.col e.line
        (lines.take prev ++ r.1, r.2)
    let r := mergeline e.width py (lines.drop py.toNat) false px py
    { e with lines := lines.take py.toNat ++ r.1 }.setpos r.2.1 r.2.2
  else
    let r := mergeline e.width e.line (e.lines.drop e.line) true e.col e.line
    { e with lines := e.lines.take e.line ++ r.1 }.setpos r.2.1 r.2.2

end CenterIM.TextEditor
