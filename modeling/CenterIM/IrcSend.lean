import CenterIM.Event

/-!
# Sending to IRC

`irchook::send` takes the lines of a message one after another, gives those that start with
a slash to the server as commands, and sends the others to the contact. The loop counts its
turns; no result means that the turns were not enough.
-/
namespace CenterIM.IrcSend
open ByteText StrText Contact Event

def slash : Str := bytes "/"

/-- What is called for an event. The texts are those that the callee sees: it gets a
pointer, and reads up to the first NUL. -/
inductive Call
  | firetalk_chat_send_message (nickname text : Str)
  | firetalk_im_send_message (nickname text : Str)
  | firetalk_chat_send_action (nickname text : Str)
  | firetalk_im_send_action (nickname text : Str)
  | firetalk_file_offer (nickname fname : Str)
  | rawcommand (cmd : Str)
  deriving DecidableEq, Repr

/-- A call, with the place in the text of the line that it is made for. -/
abbrev Sent := List (ℕ × Call)

section Contact

-- Has the protocol conferences?
variable (conferencing : ProtocolName → Bool)

def ischannel (cont : ImContact) : Bool :=
  decide (cont.nickname.take 1 = bytes "#") && conferencing cont.pname

def message (c : ImContact) (text : Str) : Call :=
  if ischannel conferencing c then .firetalk_chat_send_message (cstr c.nickname) text
  else .firetalk_im_send_message (cstr c.nickname) text

def action (c : ImContact) (text : Str) : Call :=
  if ischannel conferencing c then .firetalk_chat_send_action (cstr c.nickname) text
  else .firetalk_im_send_action (cstr c.nickname) text

/-- The text of a command other than `ME`. -/
def commandText (c : ImContact) (cmd text : Str) : Str :=
  if cmd = bytes "KICK" then cmd ++ [blank] ++ c.nickname ++ [blank] ++ text
  else if cmd = bytes "OP" then bytes "mode " ++ c.nickname ++ bytes " +o " ++ text
  else if cmd = bytes "DEOP" then bytes "mode " ++ c.nickname ++ bytes " -o " ++ text
  else if cmd = bytes "RAW" then text
  else cmd ++ [blank] ++ text

/-- What one turn of the loop calls for the text that it took, and whether the loop goes on
after it. -/
def sendLine (c : ImContact) (text : Str) : List Call × Bool :=
  if text.take 1 = slash then
    let w := getword (text.drop 1) wordDelim
    let cmd := up w.1
    if cmd = bytes "ME" then ([action conferencing c (cstr w.2)], false)
    else
      let text := commandText c cmd w.2
      ([.rawcommand text, message conferencing c (cstr text)], true)
  else ([message conferencing c (cstr text)], true)

-- Does the library take the call?
variable (success : Call → Bool)

def lineResult (result : Bool) (calls : List Call) : Bool :=
  calls.foldl (fun r call =>
    match call with
    | .rawcommand _ => r
    | _ => r && success call) result

/-- The loop over the lines; `from_` is the place of what is left of the text. -/
def sendLoop (c : ImContact) : ℕ → ℕ → Str → Bool → Option (Sent × Bool)
  | 0, _, _, _ => none
  | n + 1, from_, original, result =>
    if original = [] then some ([], result)
    else
      let turn (text rest : Str) (next : ℕ) : Option (Sent × Bool) :=
        let r := sendLine conferencing c text
        let sent := r.1.map fun call => (from_, call)
        if r.2 then
          (sendLoop c n next rest (lineResult success result r.1)).map fun s =>
            (sent ++ s.1, s.2)
        else some (sent, lineResult success true r.1)
      match find [lf] original with
      | some pos =>
        if 1 < pos then turn (original.take (pos - 1)) (original.drop (pos + 1)) (from_ + pos + 1)
        else sendLoop c n (from_ + pos + 1) (original.drop (pos + 1)) result
      | none => turn original [] (from_ + original.length)

-- The conversions of a text for the wire, and the contact of the list with a description.
variable (rusconv rushtmlconv : Str → Str) (clist : ImContact → Option ImContact)

def sentText (ev : ImEvent) : Str :=
  match ev.body with
  | .immessage text => rusconv text
  | .imurl url description => rushtmlconv url ++ [lf, lf] ++ rushtmlconv description
  | _ => []

/-- `irchook::send`: the calls, and the result. -/
def send (ev : ImEvent) : Option (Sent × Bool) :=
  match clist ev.contact with
  | none => some ([], false)
  | some c =>
    match ev.body with
    | .imfile files _ =>
      some (files.map fun ir => (0, .firetalk_file_offer (cstr c.nickname) (cstr ir.fname)), true)
    | _ =>
      let original := sentText rusconv rushtmlconv ev
      sendLoop conferencing success c (original.length + 1) 0 original true

/-- What a line calls for: a command with its argument, or a message with the whole line. -/
def wantedLine (c : ImContact) (line : Str) : List Call :=
  if line = [] then []
  else if line.take 1 = slash then
    let w := getword (line.drop 1) wordDelim
    if up w.1 = bytes "ME" then [action conferencing c w.2]
    else [.rawcommand (commandText c (up w.1) w.2)]
  else [message conferencing c line]

/-- The line that ends with a line feed: a carriage return before it belongs to the end. -/
def stripCR (piece : Str) : Str := if piece.getLast? = some cr then piece.dropLast else piece

/-- What the lines of a text call for, in their order. -/
def wanted (c : ImContact) : ℕ → List Str → Sent
  | _, [] => []
  | from_, [piece] => (wantedLine conferencing c piece).map fun call => (from_, call)
  | from_, piece :: ps =>
    ((wantedLine conferencing c (stripCR piece)).map fun call => (from_, call)) ++
      wanted c (from_ + piece.length + 1) ps

end Contact

/-- The loop takes `text` for the line `line`: a message must be the whole line, and a command
must be `ME`, with the same argument, and nothing after it. -/
def LineFits (text line : Str) (later : List Str) : Prop :=
  if line.take 1 = slash then
    up (getword (text.drop 1) wordDelim).1 = bytes "ME" ∧
      up (getword (line.drop 1) wordDelim).1 = bytes "ME" ∧
      cstr (getword (text.drop 1) wordDelim).2 = (getword (line.drop 1) wordDelim).2 ∧
      ∀ l ∈ later, l = []
  else text = line ∧ nul ∉ line

/-- The lines of a text, from the pieces between its line feeds. -/
def textLines : List Str → List Str
  | [] => []
  | [piece] => [piece]
  | piece :: ps => stripCR piece :: textLines ps

/-- The loop takes every line of a text whole. A line before the last one loses its last
character, and is passed over when it has no other. -/
def Fits : List Str → Prop
  | [] => True
  | [piece] => piece = [] ∨ LineFits piece piece []
  | piece :: ps =>
    (if piece.length ≤ 1 then stripCR piece = []
      else LineFits piece.dropLast (stripCR piece) (textLines ps)) ∧ Fits ps

instance (text line : Str) (later : List Str) : Decidable (LineFits text line later) := by
  unfold LineFits
  infer_instance

instance Fits.decidable : (ps : List Str) → Decidable (Fits ps)
  | [] => isTrue trivial
  | [piece] => inferInstanceAs (Decidable (piece = [] ∨ LineFits piece piece []))
  | piece :: q :: ps =>
    have := Fits.decidable (q :: ps)
    inferInstanceAs (Decidable ((if piece.length ≤ 1 then stripCR piece = []
      else LineFits piece.dropLast (stripCR piece) (textLines (q :: ps))) ∧ Fits (q :: ps)))

section Lines

variable {conferencing : ProtocolName → Bool} {c : ImContact} {text line : Str}

theorem stripCR_cases (piece : Str) :
    stripCR piece = piece ∨ piece ≠ [] ∧ stripCR piece = piece.dropLast := by
  rw [stripCR]
  split_ifs with h
  · right
    constructor
    · rintro rfl
      cases h
    · rfl
  · exact Or.inl rfl

theorem wantedLine_eq_nil : wantedLine conferencing c line = [] ↔ line = [] := by
  rw [wantedLine]
  split_ifs with h hs
  · simp [h]
  · dsimp only
    split_ifs <;> simp [h]
  · simp [h]

theorem message_inj {a b : Str} :
    message conferencing c a = message conferencing c b ↔ a = b := by
  simp only [message]
  split_ifs <;> simp

theorem action_inj {a b : Str} : action conferencing c a = action conferencing c b ↔ a = b := by
  simp only [action]
  split_ifs <;> simp

theorem action_ne_rawcommand {a b : Str} : action conferencing c a ≠ .rawcommand b := by
  simp only [action]
  split_ifs <;> simp

theorem cstr_length_le (s : Str) : (cstr s).length ≤ s.length :=
  (List.takeWhile_sublist _).length_le

theorem sendLine_me (hs : text.take 1 = slash)
    (hme : up (getword (text.drop 1) wordDelim).1 = bytes "ME") :
    sendLine conferencing c text =
      ([action conferencing c (cstr (getword (text.drop 1) wordDelim).2)], false) := by
  rw [sendLine, if_pos hs]
  exact if_pos hme

/-- A command other than `ME` makes two calls. -/
theorem sendLine_command (hs : text.take 1 = slash)
    (hme : up (getword (text.drop 1) wordDelim).1 ≠ bytes "ME") :
    (sendLine conferencing c text).1.length = 2 := by
  rw [sendLine, if_pos hs]
  dsimp only
  rw [if_neg hme]
  rfl

theorem sendLine_message (hs : text.take 1 ≠ slash) :
    sendLine conferencing c text = ([message conferencing c (cstr text)], true) := by
  rw [sendLine, if_neg hs]

theorem wantedLine_me (hne : line ≠ []) (hs : line.take 1 = slash)
    (hme : up (getword (line.drop 1) wordDelim).1 = bytes "ME") :
    wantedLine conferencing c line =
      [action conferencing c (getword (line.drop 1) wordDelim).2] := by
  rw [wantedLine, if_neg hne, if_pos hs]
  exact if_pos hme

theorem wantedLine_command (hne : line ≠ []) (hs : line.take 1 = slash)
    (hme : up (getword (line.drop 1) wordDelim).1 ≠ bytes "ME") :
    wantedLine conferencing c line =
      [.rawcommand (commandText c (up (getword (line.drop 1) wordDelim).1)
        (getword (line.drop 1) wordDelim).2)] := by
  rw [wantedLine, if_neg hne, if_pos hs]
  exact if_neg hme

theorem wantedLine_message (hne : line ≠ []) (hs : line.take 1 ≠ slash) :
    wantedLine conferencing c line = [message conferencing c line] := by
  rw [wantedLine, if_neg hne, if_neg hs]

/-- The calls of a turn are the wanted ones, and it leaves nothing out, just when the line
fits. -/
theorem lineFits_iff (later : List Str) (hne : line ≠ [])
    (hhead : text.take 1 = line.take 1) (hlen : text.length ≤ line.length)
    (hsame : text.length = line.length → text = line) :
    ((sendLine conferencing c text).1 = wantedLine conferencing c line ∧
      ((sendLine conferencing c text).2 = false → ∀ l ∈ later, l = [])) ↔
      LineFits text line later := by
  rw [LineFits]
  by_cases hs : line.take 1 = slash
  · have hs' : text.take 1 = slash := hhead.trans hs
    rw [if_pos hs]
    by_cases hme : up (getword (text.drop 1) wordDelim).1 = bytes "ME"
    · rw [sendLine_me hs' hme]
      by_cases hme' : up (getword (line.drop 1) wordDelim).1 = bytes "ME"
      · rw [wantedLine_me hne hs hme']
        simp only [hme, hme', true_and, forall_const, List.cons.injEq, and_true, action_inj]
      · rw [wantedLine_command hne hs hme']
        simp only [hme', false_and, and_false, iff_false, not_and]
        intro h
        exact absurd (List.cons.inj h).1 action_ne_rawcommand
    · have htwo : (sendLine conferencing c text).1.length = 2 := sendLine_command hs' hme
      have hone : (wantedLine conferencing c line).length = 1 := by
        by_cases hme' : up (getword (line.drop 1) wordDelim).1 = bytes "ME"
        · rw [wantedLine_me hne hs hme']
          rfl
        · rw [wantedLine_command hne hs hme']
          rfl
      simp only [hme, false_and, iff_false, not_and]
      intro h
      rw [h, hone] at htwo
      omega
  · have hs' : text.take 1 ≠ slash := hhead ▸ hs
    rw [if_neg hs, sendLine_message hs', wantedLine_message hne hs]
    simp only [List.cons.injEq, and_true, message_inj, Bool.true_eq_false, false_implies]
    constructor
    · intro h
      have hnul : nul ∉ line := h ▸ nul_not_mem_cstr text
      have hcut := cstr_length_le text
      rw [h] at hcut
      exact ⟨hsame (Nat.le_antisymm hlen hcut), hnul⟩
    · rintro ⟨rfl, hnul⟩
      exact cstr_eq_self hnul

end Lines

section Trace

variable (conferencing : ProtocolName → Bool) (c : ImContact)

def sentLines : ℕ → List Str → Sent
  | _, [] => []
  | from_, [piece] =>
    if piece = [] then [] else (sendLine conferencing c piece).1.map fun call => (from_, call)
  | from_, piece :: ps =>
    if piece.length ≤ 1 then sentLines (from_ + piece.length + 1) ps
    else
      let r := sendLine conferencing c piece.dropLast
      (r.1.map fun call => (from_, call)) ++
        if r.2 then sentLines (from_ + piece.length + 1) ps else []

theorem sentLines_cons (from_ : ℕ) (piece q : Str) (ps : List Str) :
    sentLines conferencing c from_ (piece :: q :: ps) =
      if piece.length ≤ 1 then sentLines conferencing c (from_ + piece.length + 1) (q :: ps)
      else
        ((sendLine conferencing c piece.dropLast).1.map fun call => (from_, call)) ++
          if (sendLine conferencing c piece.dropLast).2 then
            sentLines conferencing c (from_ + piece.length + 1) (q :: ps) else [] := by
  rw [sentLines]
  simp

variable (success : Call → Bool)

/-- The loop ends, and its calls are those for the pieces of the text. -/
theorem sendLoop_lines (n from_ : ℕ) (original : Str) (result : Bool)
    (hn : original.length < n) :
    (sendLoop conferencing success c n from_ original result).map Prod.fst =
      some (sentLines conferencing c from_ (lines original)) := by
  induction n generalizing from_ original result with
  | zero => omega
  | succ n ih =>
    rw [sendLoop]
    by_cases hne : original = []
    · subst hne
      rw [if_pos rfl, lines_of_not_mem (by simp)]
      rfl
    rw [if_neg hne]
    by_cases hlf : lf ∈ original
    · obtain ⟨a, s, rfl, ha⟩ := List.eq_append_cons_of_mem hlf
      obtain ⟨q, ps, hps⟩ := List.exists_cons_of_ne_nil (lines_ne_nil s)
      have hshort : s.length < n := by
        simp only [List.length_append, List.length_cons] at hn
        omega
      have hdrop : (a ++ lf :: s).drop (a.length + 1) = s := by
        rw [List.drop_append]
        simp
      rw [find_char ha, lines_line ha, hps, sentLines_cons, ← hps]
      dsimp only
      rw [hdrop]
      by_cases hlen : 1 < a.length
      · have htake : (a ++ lf :: s).take (a.length - 1) = a.dropLast := by
          rw [List.take_append_of_le_length (by omega), List.dropLast_eq_take]
        have hlen' : ¬ a.length ≤ 1 := by omega
        rw [if_pos hlen, if_neg hlen', htake]
        by_cases hgo : (sendLine conferencing c a.dropLast).2 = true
        · rw [if_pos hgo, if_pos hgo, Option.map_map]
          have hrest := ih (from_ + a.length + 1) s
            (lineResult success result (sendLine conferencing c a.dropLast).1) hshort
          obtain ⟨r, hr, hfst⟩ := Option.map_eq_some_iff.mp hrest
          rw [hr, ← hfst]
          rfl
        · rw [if_neg hgo, if_neg hgo, List.append_nil]
          rfl
      · have hlen' : a.length ≤ 1 := by omega
        rw [if_neg hlen, if_pos hlen']
        exact ih _ s result hshort
    · rw [find_char_none hlf, lines_of_not_mem hlf, sentLines, if_neg hne]
      dsimp only
      split_ifs with hgo
      · obtain ⟨m, rfl⟩ : ∃ m, n = m + 1 := ⟨n - 1, by
          have := List.length_pos_iff.mpr hne
          omega⟩
        rw [sendLoop, if_pos rfl]
        simp
      · rfl

theorem sentLines_from (from_ : ℕ) (ps : List Str) :
    ∀ x ∈ sentLines conferencing c from_ ps, from_ ≤ x.1 := by
  induction ps generalizing from_ with
  | nil => intro x hx; cases hx
  | cons piece ps ih =>
    cases ps with
    | nil =>
      intro x hx
      rw [sentLines] at hx
      split_ifs at hx
      · cases hx
      · obtain ⟨call, -, rfl⟩ := List.mem_map.mp hx
        exact le_rfl
    | cons q ps =>
      intro x hx
      have hrest : ∀ x ∈ sentLines conferencing c (from_ + piece.length + 1) (q :: ps),
          from_ ≤ x.1 := fun x hx => by
        have := ih _ x hx
        omega
      rw [sentLines_cons] at hx
      split_ifs at hx with hlen hgo
      · exact hrest x hx
      · obtain hx | hx := List.mem_append.mp hx
        · obtain ⟨call, -, rfl⟩ := List.mem_map.mp hx
          exact le_rfl
        · exact hrest x hx
      · obtain ⟨call, -, rfl⟩ := List.mem_map.mp (by simpa using hx)
        exact le_rfl

theorem wanted_cons (from_ : ℕ) (piece q : Str) (ps : List Str) :
    wanted conferencing c from_ (piece :: q :: ps) =
      ((wantedLine conferencing c (stripCR piece)).map fun call => (from_, call)) ++
        wanted conferencing c (from_ + piece.length + 1) (q :: ps) := by
  rw [wanted]
  simp

theorem wanted_from (from_ : ℕ) (ps : List Str) :
    ∀ x ∈ wanted conferencing c from_ ps, from_ ≤ x.1 := by
  induction ps generalizing from_ with
  | nil => intro x hx; cases hx
  | cons piece ps ih =>
    intro x hx
    cases ps with
    | nil =>
      obtain ⟨call, -, rfl⟩ := List.mem_map.mp hx
      exact le_rfl
    | cons q ps =>
      rw [wanted_cons] at hx
      obtain hx | hx := List.mem_append.mp hx
      · obtain ⟨call, -, rfl⟩ := List.mem_map.mp hx
        exact le_rfl
      · have := ih _ x hx
        omega

/-- The calls of one line are told from the later ones by their place. -/
theorem sent_append_inj {from_ : ℕ} {a b : List Call} {r s : Sent}
    (hr : ∀ x ∈ r, from_ < x.1) (hs : ∀ x ∈ s, from_ < x.1) :
    (a.map fun call => (from_, call)) ++ r = (b.map fun call => (from_, call)) ++ s ↔
      a = b ∧ r = s := by
  refine ⟨fun h => ?_, fun h => by rw [h.1, h.2]⟩
  have hhere : ∀ (l : List Call) (t : Sent), (∀ x ∈ t, from_ < x.1) →
      ((l.map fun call => (from_, call)) ++ t).filter (fun x => x.1 = from_) =
        l.map fun call => (from_, call) := by
    intro l t ht
    have hnil : t.filter (fun x => x.1 = from_) = [] :=
      List.filter_eq_nil_iff.mpr fun x hx => by
        have := ht x hx
        simp
        omega
    rw [List.filter_append, hnil, List.append_nil]
    exact List.filter_eq_self.mpr fun x hx => by
      obtain ⟨call, -, rfl⟩ := List.mem_map.mp hx
      simp
  have hfirst := congrArg (List.filter fun x => decide (x.1 = from_)) h
  rw [hhere a r hr, hhere b s hs] at hfirst
  have hab : a = b := List.map_injective_iff.mpr (fun _ _ h => (Prod.mk.inj h).2) hfirst
  subst hab
  exact ⟨rfl, List.append_cancel_left h⟩

theorem wanted_eq_nil (from_ : ℕ) (ps : List Str) :
    wanted conferencing c from_ ps = [] ↔ ∀ l ∈ textLines ps, l = [] := by
  induction ps generalizing from_ with
  | nil => simp [wanted, textLines]
  | cons piece ps ih =>
    cases ps with
    | nil => simp [wanted, textLines, wantedLine_eq_nil]
    | cons q ps =>
      rw [wanted_cons, List.append_eq_nil_iff, ih, List.map_eq_nil_iff, wantedLine_eq_nil]
      simp [textLines]

theorem fits_of_empty {ps : List Str} (h : ∀ l ∈ textLines ps, l = []) : Fits ps := by
  induction ps with
  | nil => trivial
  | cons piece ps ih =>
    cases ps with
    | nil => exact Or.inl (h piece (by simp [textLines]))
    | cons q ps =>
      have hpiece : stripCR piece = [] := h _ (by simp [textLines])
      have hshort : piece.length ≤ 1 := by
        obtain heq | ⟨-, heq⟩ := stripCR_cases piece
        · rw [← heq, hpiece]
          exact Nat.zero_le 1
        · have hlast : piece.dropLast.length = piece.length - 1 := List.length_dropLast
          rw [← heq, hpiece, List.length_nil] at hlast
          omega
      refine ⟨?_, ih fun l hl => h l ?_⟩
      · rw [if_pos hshort]
        exact hpiece
      · simp only [textLines, List.mem_cons]
        exact Or.inr hl

/-- A piece without its last character, which is a line break or what is left of one. -/
theorem lineFits_piece {piece : Str} (hlen : ¬ piece.length ≤ 1) (later : List Str) :
    ((sendLine conferencing c piece.dropLast).1 = wantedLine conferencing c (stripCR piece) ∧
      ((sendLine conferencing c piece.dropLast).2 = false → ∀ l ∈ later, l = [])) ↔
      LineFits piece.dropLast (stripCR piece) later := by
  have hpos : 0 < piece.dropLast.length := by simp; omega
  have htake : piece.dropLast.take 1 = piece.take 1 := by
    rw [List.dropLast_eq_take, List.take_take]
    congr 1
    omega
  obtain heq | ⟨-, heq⟩ := stripCR_cases piece
  · rw [heq]
    refine lineFits_iff _ (by rintro rfl; simp at hlen) htake (by simp) fun h => ?_
    simp at h
    omega
  · rw [heq]
    exact lineFits_iff _ (List.length_pos_iff.mp hpos) rfl le_rfl fun _ => rfl

/-- The calls of the loop are the wanted ones just when the lines fit. -/
theorem sentLines_iff (from_ : ℕ) (ps : List Str) :
    sentLines conferencing c from_ ps = wanted conferencing c from_ ps ↔ Fits ps := by
  induction ps generalizing from_ with
  | nil => simp [sentLines, wanted, Fits]
  | cons piece ps ih =>
    cases ps with
    | nil =>
      rw [sentLines, wanted, Fits]
      by_cases hne : piece = []
      · simp [hne, wantedLine]
      · have hfit : ((sendLine conferencing c piece).1 = wantedLine conferencing c piece ∧
            ((sendLine conferencing c piece).2 = false → ∀ l ∈ ([] : List Str), l = [])) ↔
            LineFits piece piece [] := lineFits_iff [] hne rfl le_rfl fun _ => rfl
        simp only [List.not_mem_nil, false_implies, implies_true, and_true] at hfit
        rw [if_neg hne, ← hfit]
        have hinj : Function.Injective fun call : Call => (from_, call) :=
          fun _ _ h => (Prod.mk.inj h).2
        simp [hne, (List.map_injective_iff.mpr hinj).eq_iff]
    | cons q ps =>
      have hlater : ∀ x ∈ wanted conferencing c (from_ + piece.length + 1) (q :: ps),
          from_ < x.1 := fun x hx => by
        have := wanted_from conferencing c _ _ x hx
        omega
      have hsent : ∀ x ∈ sentLines conferencing c (from_ + piece.length + 1) (q :: ps),
          from_ < x.1 := fun x hx => by
        have := sentLines_from conferencing c _ _ x hx
        omega
      have hfits : Fits (piece :: q :: ps) =
          ((if piece.length ≤ 1 then stripCR piece = []
            else LineFits piece.dropLast (stripCR piece) (textLines (q :: ps))) ∧
            Fits (q :: ps)) := by
        rw [Fits]
        simp
      rw [sentLines_cons, wanted_cons, hfits, ← ih (from_ + piece.length + 1)]
      by_cases hlen : piece.length ≤ 1
      · rw [if_pos hlen, if_pos hlen]
        have hsplit := sent_append_inj (a := []) (b := wantedLine conferencing c (stripCR piece))
          hsent hlater
        rw [List.map_nil, List.nil_append] at hsplit
        rw [hsplit, eq_comm (a := ([] : List Call)), wantedLine_eq_nil]
      · rw [if_neg hlen, if_neg hlen]
        rw [← lineFits_piece conferencing c hlen]
        by_cases hgo : (sendLine conferencing c piece.dropLast).2 = true
        · rw [if_pos hgo, sent_append_inj hsent hlater]
          simp [hgo]
        · rw [if_neg hgo, sent_append_inj (by simp) hlater, eq_comm (a := ([] : Sent)),
            wanted_eq_nil]
          simp only [Bool.not_eq_true] at hgo
          simp only [hgo, forall_const, and_assoc]
          refine and_congr_right fun _ => ⟨fun h => ⟨h, ?_⟩, fun h => h.1⟩
          rw [ih]
          exact fits_of_empty h

end Trace

/-- Sending a message calls for each of its lines just what is wanted, when the lines fit. -/
theorem send_iff (conferencing : ProtocolName → Bool) (success : Call → Bool)
    (rusconv rushtmlconv : Str → Str) {clist : ImContact → Option ImContact} {ev : ImEvent}
    {c : ImContact} {text : Str} (hc : clist ev.contact = some c)
    (hbody : ev.body = .immessage text) :
    (send conferencing success rusconv rushtmlconv clist ev).map Prod.fst =
        some (wanted conferencing c 0 (lines (rusconv text))) ↔
      Fits (lines (rusconv text)) := by
  have hsent : sentText rusconv rushtmlconv ev = rusconv text := by rw [sentText, hbody]
  have hsend : send conferencing success rusconv rushtmlconv clist ev =
      sendLoop conferencing success c ((rusconv text).length + 1) 0 (rusconv text) true := by
    rw [← hsent, send, hc, hbody]
  rw [hsend, sendLoop_lines conferencing c success _ _ _ _ (Nat.lt_succ_self _),
    Option.some.injEq, sentLines_iff]

/-- A message to `bob`. -/
def toBob (text : Str) : ImEvent :=
  ⟨ImContact.ofNick (bytes "bob") .irc, .outgoing, 0, 0, false, .immessage text⟩

/-- Two lines that end with `"\r\n"`, and a `ME` command as the last one. -/
theorem send_iff_crlf :
    (send (fun _ => true) (fun _ => true) id id some (toBob (bytes "hi\x0d\nyou\x0d\n/me waves"))).map
        Prod.fst =
      some [(0, .firetalk_im_send_message (bytes "bob") (bytes "hi")),
        (4, .firetalk_im_send_message (bytes "bob") (bytes "you")),
        (9, .firetalk_im_send_action (bytes "bob") (bytes "waves"))] := by
  have hiff : (send (fun _ => true) (fun _ => true) id id some
      (toBob (bytes "hi\x0d\nyou\x0d\n/me waves"))).map Prod.fst =
        some (wanted (fun _ => true) (ImContact.ofNick (bytes "bob") .irc) 0
          (lines (id (bytes "hi\x0d\nyou\x0d\n/me waves")))) ↔
      Fits (lines (id (bytes "hi\x0d\nyou\x0d\n/me waves"))) := send_iff _ _ _ _ rfl rfl
  exact hiff.mpr (by decide)

/-- A line that ends with a line feed alone loses its last character. -/
theorem line_cut :
    (send (fun _ => true) (fun _ => true) id id some (toBob (bytes "ab\ncd"))).map Prod.fst ≠
      some (wanted (fun _ => true) (ImContact.ofNick (bytes "bob") .irc) 0
        (lines (bytes "ab\ncd"))) := by
  decide

end CenterIM.IrcSend
