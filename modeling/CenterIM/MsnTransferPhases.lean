import CenterIM.MsnTransfer

/-!
# Phases of a file transfer

The two ends go through the same phases, in whatever pieces the bytes arrive: the lines follow
each other strictly, and once the file is open at both ends, what is written and what is on the
way are together the beginning of the file. Each handler of either end keeps to the phases.
-/
namespace CenterIM.MsnTransfer
open ByteText Decimal

theorem crlf_prefix_cons {c : Byte} (h : c ≠ cr) (t : Str) :
    crlf.isPrefixOf (c :: t) = false := by
  have hb : (cr == c) = false := beq_eq_false_iff_ne.mpr fun e => h e.symm
  rw [crlf, List.isPrefixOf, hb, Bool.false_and]

theorem find_crlf_of_not_mem {s : Str} (h : cr ∉ s) (t : Str) :
    find crlf (s ++ (crlf ++ t)) = some s.length := by
  induction s with
  | nil =>
    have hp : crlf.isPrefixOf (cr :: lf :: t) = true := by simp [crlf, List.isPrefixOf]
    simp [crlf, find] at hp ⊢
  | cons c s ih =>
    have hc : c ≠ cr := fun e => h (by simp [e])
    have hs : cr ∉ s := fun e => h (by simp [e])
    rw [List.cons_append, find, crlf_prefix_cons hc, ih hs]
    rfl

theorem find_crlf_eq_none {s : Str} (h : cr ∉ s) :
    find crlf s = none ∧ find crlf (s ++ [cr]) = none := by
  induction s with
  | nil => exact ⟨rfl, by decide⟩
  | cons c s ih =>
    have hc : c ≠ cr := fun e => h (by simp [e])
    have hs : cr ∉ s := fun e => h (by simp [e])
    obtain ⟨h1, h2⟩ := ih hs
    constructor
    · rw [find, crlf_prefix_cons hc, h1]
      rfl
    · rw [List.cons_append, find, crlf_prefix_cons hc, h2]
      rfl

/-- In a buffer with the beginning of a line there is a line if it is all of it. -/
theorem getLine_of_prefix {l p q : Str} (hl : cr ∉ l) (h : p ++ q = l ++ crlf) :
    q ≠ [] ∧ getLine p = none ∨ q = [] ∧ getLine p = some (splitString l, []) := by
  rcases List.eq_nil_or_concat q with hq | ⟨q', c, hq⟩
  · right
    rw [hq, List.append_nil] at h
    have hf := find_crlf_of_not_mem hl []
    rw [List.append_nil] at hf
    refine ⟨hq, ?_⟩
    rw [getLine, h, hf]
    simp [crlf]
  · left
    rw [hq, List.concat_eq_append, ← List.append_assoc] at h
    have hcut : p ++ q' = l ++ [cr] := by
      have hd := congrArg List.dropLast h
      have hr : l ++ crlf = (l ++ [cr]) ++ [lf] := by simp [crlf]
      rwa [hr, List.dropLast_concat, List.dropLast_concat] at hd
    have hnone : find crlf p = none := by
      by_cases hlen : p.length ≤ l.length
      · have hpre : p <+: l := List.prefix_of_prefix_length_le ⟨q', hcut⟩ ⟨[cr], rfl⟩ hlen
        exact (find_crlf_eq_none fun hm => hl (hpre.subset hm)).1
      · have hlen' := congrArg List.length hcut
        simp only [List.length_append, List.length_singleton] at hlen'
        have hq' : q' = [] := List.eq_nil_of_length_eq_zero (by omega)
        rw [hq', List.append_nil] at hcut
        rw [hcut]
        exact (find_crlf_eq_none hl).2
    exact ⟨by simp [hq], by simp [getLine, hnone]⟩

theorem getLine_nil : getLine [] = none := rfl

theorem splitString_cons {w : Str} (h : blank ∉ w) (hne : w ≠ []) (s : Str) :
    splitString (w ++ blank :: s) = w :: splitString s := by
  rw [splitString, List.splitOn_append_cons_self_of_not_mem h, splitString,
    List.filter_cons_of_pos (by simpa using hne)]

theorem splitString_word {w : Str} (h : blank ∉ w) (hne : w ≠ []) : splitString w = [w] := by
  rw [splitString, List.splitOn_eq_singleton h, List.filter_cons_of_pos (by simpa using hne)]
  rfl

/-- What the receiver's file is to be: a file that is shorter than announced ends in zeros. -/
def image (m : Agreement) : Str :=
  (m.content ++ List.replicate m.fileSize 0).take m.fileSize

theorem image_length (m : Agreement) : (image m).length = m.fileSize := by
  rw [image, List.length_take, List.length_append, List.length_replicate]
  omega

theorem block_length (n : ℕ) (left : Str) : (Sender.block n left).length = n := by
  rw [Sender.block, List.length_append, List.length_take, List.length_replicate]
  omega

theorem image_take_add (m : Agreement) {d n : ℕ} (h : d + n ≤ m.fileSize) :
    (image m).take (d + n) = (image m).take d ++ Sender.block n (m.content.drop d) := by
  rw [List.take_add]
  congr 1
  rw [image, List.drop_take, List.take_take, Nat.min_eq_left (by omega), List.drop_append,
    List.take_append, List.drop_replicate, List.take_replicate, Sender.block]
  congr 2
  rw [List.length_drop]
  omega

theorem eq_of_take_image {m : Agreement} {w v : Str} {d : ℕ} (h : w ++ v = (image m).take d)
    (hw : w.length = m.fileSize) : v = [] ∧ w = image m := by
  have hlen := congrArg List.length h
  rw [List.length_append, List.length_take, image_length] at hlen
  have hv : v = [] := List.eq_nil_of_length_eq_zero (by omega)
  rw [hv, List.append_nil] at h
  rw [List.take_of_length_le (by rw [image_length]; omega)] at h
  exact ⟨hv, h⟩

/-- The lines are read as they are meant, and the size fits the counter of the sender. -/
structure Agreement.Plain (m : Agreement) : Prop where
  username : m.username ≠ [] ∧ blank ∉ m.username ∧ cr ∉ m.username
  cookie : m.cookie ≠ [] ∧ blank ∉ m.cookie ∧ cr ∉ m.cookie
  fileSize : m.fileSize < 2 ^ 32

/-- The transfer without the pieces in which it arrives. -/
structure View where
  toSender : Str
  toReceiver : Str
  sending : Option Str
  sent : ℕ
  refusedRead : Bool
  receiving : Bool
  written : Str
  received : ℕ
  arrived : Bool
  refusedWrite : Bool

def Net.view (n : Net) : View where
  toSender := n.sender.readBuffer ++ (n.back ++ n.receiver.writeBuffer)
  toReceiver := n.receiver.readBuffer ++ n.wire
  sending := n.sender.fd
  sent := n.sender.bytes_done
  refusedRead := n.sender.failed
  receiving := n.receiver.fd
  written := n.receiver.written
  received := n.receiver.bytes_done
  arrived := n.receiver.succeeded
  refusedWrite := n.receiver.failed

def View.line (toSender toReceiver : Str) (receiving : Bool) : View :=
  ⟨toSender, toReceiver, none, 0, false, receiving, [], 0, false, false⟩

def View.moving (m : Agreement) (bs : List Str) (w : Str) (d : ℕ) : View :=
  ⟨[], bs.flatMap Sender.blockBytes, some (m.content.drop d), d, false, true, w, w.length, false,
    false⟩

def View.complete (m : Agreement) : View :=
  ⟨byeLine, [], some (m.content.drop m.fileSize), m.fileSize, false, false, image m, m.fileSize,
    true, false⟩

/-- What is written and the blocks on the way are what has been sent, and the receiver does not
have all of it. -/
structure Moving (m : Agreement) (bs : List Str) (w : Str) (d : ℕ) : Prop where
  sizes : ∀ b ∈ bs, 0 < b.length ∧ b.length ≤ 5000
  file : w ++ bs.flatten = (image m).take d
  sent : d ≤ m.fileSize
  more : 0 < m.fileSize → w.length < m.fileSize

theorem Moving.start (m : Agreement) : Moving m [] [] 0 :=
  ⟨by simp, by simp, Nat.zero_le _, id⟩

inductive Phase (m : Agreement) : View → Prop
  | greeting : Phase m (.line verLine [] false)
  | greeted : Phase m (.line [] verLine false)
  | named : Phase m (.line (usrLine m) [] false)
  | offered : Phase m (.line [] (filLine m) false)
  | refusedWrite : m.canWrite = false →
      Phase m ⟨[], [], none, 0, false, false, [], 0, false, true⟩
  | asked : Phase m (.line tfrLine [] true)
  | refusedRead : m.canRead = false →
      Phase m ⟨[], [], none, 0, true, true, [], 0, false, false⟩
  | moving {bs : List Str} {w : Str} {d : ℕ} : Moving m bs w d → Phase m (.moving m bs w d)
  | arrived : Phase m (.complete m)

def Sender.answer (m : Agreement) (s : Sender) (args : List Str) : Sender × Str :=
  if args[0]? = some (bytes "VER") then (s, verLine)
  else if args[0]? = some (bytes "USR") then
    if args[2]? = some m.cookie then (s, filLine m) else ({ s with failed := true }, [])
  else if args[0]? = some (bytes "TFR") then
    if m.canRead then ({ s with fd := some m.content }, []) else ({ s with failed := true }, [])
  else (s, [])

theorem Sender.answer_readBuffer {m : Agreement} {s : Sender} {args : List Str} :
    (s.answer m args).1.readBuffer = s.readBuffer := by
  rw [Sender.answer]
  split_ifs <;> rfl

theorem Sender.handleSend_line {m : Agreement} {s : Sender} {l q : Str} (hc : s.connected = true)
    (hfd : s.fd = none) (hl : cr ∉ l) (h : s.readBuffer ++ q = l ++ crlf) :
    q ≠ [] ∧ s.handleSend m = (s, []) ∨
      q = [] ∧ s.handleSend m = ({ s with readBuffer := [] } : Sender).answer m (splitString l) := by
  have hs : s.handleSend m = s.handleSend_Negotiating m := by
    rw [Sender.handleSend, hc, hfd]
    rfl
  rw [hs, Sender.handleSend_Negotiating]
  rcases getLine_of_prefix hl h with ⟨hq, hn⟩ | ⟨hq, hy⟩
  · left
    rw [hn]
    exact ⟨hq, rfl⟩
  · right
    rw [hy]
    exact ⟨hq, rfl⟩

theorem Sender.handleSend_waiting {m : Agreement} {s : Sender} (hc : s.connected = false) :
    s.handleSend m = ({ s with connected := true }, []) := by
  rw [Sender.handleSend, hc]
  rfl

theorem Sender.handleSend_quiet {m : Agreement} {s : Sender} (hc : s.connected = true)
    (hfd : s.fd = none) (h : s.readBuffer = []) : s.handleSend m = (s, []) := by
  rw [Sender.handleSend, hc, hfd]
  simp [Sender.handleSend_Negotiating, h, getLine_nil]

theorem splitString_ver : splitString (bytes "VER MSNFTP") = [bytes "VER", bytes "MSNFTP"] := by
  decide

theorem splitString_usr {m : Agreement} (hm : m.Plain) :
    splitString (bytes "USR " ++ m.username ++ [blank] ++ m.cookie) =
      [bytes "USR", m.username, m.cookie] := by
  have hb : bytes "USR " = bytes "USR" ++ [blank] := by decide
  rw [hb]
  simp only [List.append_assoc, List.cons_append, List.nil_append]
  rw [splitString_cons (by decide) (by decide), splitString_cons hm.username.2.1 hm.username.1,
    splitString_word hm.cookie.2.1 hm.cookie.1]

theorem cr_not_mem_usr {m : Agreement} (hm : m.Plain) :
    cr ∉ bytes "USR " ++ m.username ++ [blank] ++ m.cookie := by
  have h1 : cr ∉ bytes "USR " := by decide
  have h2 : cr ∉ [blank] := by decide
  simp only [List.mem_append, not_or]
  exact ⟨⟨⟨h1, hm.username.2.2⟩, h2⟩, hm.cookie.2.2⟩

/-- While the file is sent, the next block or, after the last one, the end. -/
theorem Sender.handleSend_moving {m : Agreement} {s : Sender} {d : ℕ} (hm : m.Plain)
    (hc : s.connected = true) (hfd : s.fd = some (m.content.drop d)) (hd : s.bytes_done = d)
    (hle : d < m.fileSize) :
    ∃ n, 0 < n ∧ n ≤ 5000 ∧ d + n ≤ m.fileSize ∧ s.handleSend m =
      ({ s with fd := some (m.content.drop (d + n)), bytes_done := d + n },
        blockBytes (block n (m.content.drop d))) := by
  have hmod : (m.fileSize - d) % 2 ^ 32 = m.fileSize - d := by
    apply Nat.mod_eq_of_lt
    have := hm.fileSize
    omega
  have hs : s.handleSend m = s.handleSend_Transferring m (m.content.drop d) := by
    rw [Sender.handleSend, hc, hfd, hd]
    simp only [↓reduceIte]
    rw [if_pos (by omega)]
  refine ⟨if m.fileSize - d > MAX_FTP_BLOCK_SIZE / 4 then MAX_FTP_BLOCK_SIZE / 4
    else m.fileSize - d, ?_⟩
  rw [hs, Sender.handleSend_Transferring, hd, hmod]
  by_cases hbig : m.fileSize - d > MAX_FTP_BLOCK_SIZE / 4
  · rw [if_pos hbig, List.drop_drop]
    refine ⟨by decide, by decide, by omega, rfl⟩
  · rw [if_neg hbig, List.drop_drop]
    have hsmall : m.fileSize - d ≤ 5000 := Nat.le_of_not_gt hbig
    refine ⟨by omega, hsmall, by omega, rfl⟩

theorem Sender.handleSend_end {m : Agreement} {s : Sender} {left : Str}
    (hc : s.connected = true) (hfd : s.fd = some left) (hd : s.bytes_done = m.fileSize) :
    s.handleSend m = ({ s with succeeded := true, gone := true }, []) := by
  have hs : s.handleSend m = s.handleSend_Bye := by
    rw [Sender.handleSend, hc, hfd, hd]
    simp
  rw [hs, Sender.handleSend_Bye]

theorem senderActs_of {m : Agreement} {n : Net} {s : Sender} {out : Str}
    (h : n.sender.handleSend m = (s, out)) :
    n.senderActs m = { n with sender := s, wire := n.wire ++ out } := by
  rw [Net.senderActs, h]

theorem senderActs_view {m : Agreement} {n : Net} {s : Sender} {out : Str}
    (h : n.sender.handleSend m = (s, out)) :
    (n.senderActs m).view = { n.view with
      toSender := s.readBuffer ++ (n.back ++ n.receiver.writeBuffer)
      toReceiver := n.view.toReceiver ++ out
      sending := s.fd
      sent := s.bytes_done
      refusedRead := s.failed } := by
  rw [senderActs_of h]
  simp [Net.view]

/-- Nothing is sent and nothing changes before a line is complete. -/
theorem senderActs_line {m : Agreement} {n : Net} {l : Str} (hc : n.sender.connected = true)
    (hfd : n.sender.fd = none) (hl : cr ∉ l) (hto : n.view.toSender = l ++ crlf) :
    (n.back ++ n.receiver.writeBuffer ≠ [] ∧ (n.senderActs m).view = n.view) ∨
      ∀ s out, ({ n.sender with readBuffer := [] } : Sender).answer m (splitString l) = (s, out) →
        (n.senderActs m).view = { n.view with
          toSender := s.readBuffer
          toReceiver := n.view.toReceiver ++ out
          sending := s.fd
          sent := s.bytes_done
          refusedRead := s.failed } := by
  rcases Sender.handleSend_line (m := m) hc hfd hl hto with ⟨hq, hs⟩ | ⟨hq, hs⟩
  · left
    rw [senderActs_view hs, List.append_nil]
    exact ⟨hq, rfl⟩
  · right
    intro s out ha
    rw [ha] at hs
    rw [senderActs_view hs, hq, List.append_nil]

theorem senderActs_quiet {m : Agreement} {n : Net} (hc : n.sender.connected = true)
    (hfd : n.sender.fd = none) (hto : n.view.toSender = []) :
    (n.senderActs m).view = n.view := by
  have hb : n.sender.readBuffer = [] := List.append_eq_nil_iff.mp hto |>.1
  have hs := Sender.handleSend_quiet (m := m) hc hfd hb
  rw [senderActs_view hs, List.append_nil]
  rfl

theorem senderActs_answer {m : Agreement} {n : Net} {l : Str} {a : Bool} {s : Sender}
    {out : Str} (hc : n.sender.connected = true) (hl : cr ∉ l)
    (hv : n.view = .line (l ++ crlf) [] a)
    (ha : ({ n.sender with readBuffer := [] } : Sender).answer m (splitString l) = (s, out)) :
    (n.back ++ n.receiver.writeBuffer ≠ [] ∧ (n.senderActs m).view = n.view) ∨
      (n.senderActs m).view =
        ⟨[], out, s.fd, s.bytes_done, s.failed, a, [], 0, false, false⟩ := by
  rcases senderActs_line (m := m) hc (congrArg View.sending hv) hl (congrArg View.toSender hv)
    with hs | hs
  · exact .inl hs
  · right
    have hr : s.readBuffer = [] := by
      have hr := @Sender.answer_readBuffer m { n.sender with readBuffer := [] } (splitString l)
      rwa [ha] at hr
    rw [hs s out ha, hv, hr]
    rfl

theorem senderActs_greeting {m : Agreement} {n : Net} (hc : n.sender.connected = true)
    (hv : n.view = .line verLine [] false) :
    (n.back ++ n.receiver.writeBuffer ≠ [] ∧ (n.senderActs m).view = n.view) ∨
      (n.senderActs m).view = .line [] verLine false := by
  have hfd : n.sender.fd = none := congrArg View.sending hv
  have hd : n.sender.bytes_done = 0 := congrArg View.sent hv
  have hf : n.sender.failed = false := congrArg View.refusedRead hv
  have ha : ({ n.sender with readBuffer := [] } : Sender).answer m
      (splitString (bytes "VER MSNFTP")) = ({ n.sender with readBuffer := [] }, verLine) := by
    rw [splitString_ver]
    rfl
  have hs := senderActs_answer hc (by decide) hv ha
  rwa [hfd, hd, hf] at hs

theorem senderActs_named {m : Agreement} (hm : m.Plain) {n : Net}
    (hc : n.sender.connected = true) (hv : n.view = .line (usrLine m) [] false) :
    (n.back ++ n.receiver.writeBuffer ≠ [] ∧ (n.senderActs m).view = n.view) ∨
      (n.senderActs m).view = .line [] (filLine m) false := by
  have hfd : n.sender.fd = none := congrArg View.sending hv
  have hd : n.sender.bytes_done = 0 := congrArg View.sent hv
  have hf : n.sender.failed = false := congrArg View.refusedRead hv
  have ha : ({ n.sender with readBuffer := [] } : Sender).answer m
      (splitString (bytes "USR " ++ m.username ++ [blank] ++ m.cookie)) =
      ({ n.sender with readBuffer := [] }, filLine m) := by
    have hne : ¬ bytes "USR" = bytes "VER" := by decide
    rw [splitString_usr hm]
    simp [Sender.answer, hne]
  have hs := senderActs_answer hc (cr_not_mem_usr hm) hv ha
  rwa [hfd, hd, hf] at hs

theorem senderActs_asked {m : Agreement} {n : Net} (hc : n.sender.connected = true)
    (hv : n.view = .line tfrLine [] true) :
    (n.back ++ n.receiver.writeBuffer ≠ [] ∧ (n.senderActs m).view = n.view) ∨
      (n.senderActs m).view = if m.canRead = true then
        ⟨[], [], some m.content, 0, false, true, [], 0, false, false⟩
      else ⟨[], [], none, 0, true, true, [], 0, false, false⟩ := by
  have hfd : n.sender.fd = none := congrArg View.sending hv
  have hd : n.sender.bytes_done = 0 := congrArg View.sent hv
  have hf : n.sender.failed = false := congrArg View.refusedRead hv
  have hw : splitString (bytes "TFR") = [bytes "TFR"] := by decide
  have h1 : ¬ bytes "TFR" = bytes "VER" := by decide
  have h2 : ¬ bytes "TFR" = bytes "USR" := by decide
  by_cases hr : m.canRead = true
  · have ha : ({ n.sender with readBuffer := [] } : Sender).answer m (splitString (bytes "TFR")) =
        ({ n.sender with readBuffer := [], fd := some m.content }, []) := by
      simp [hw, Sender.answer, h1, h2, hr]
    have hs := senderActs_answer hc (by decide) hv ha
    rw [if_pos hr]
    rwa [hd, hf] at hs
  · have ha : ({ n.sender with readBuffer := [] } : Sender).answer m (splitString (bytes "TFR")) =
        ({ n.sender with readBuffer := [], failed := true }, []) := by
      simp [hw, Sender.answer, h1, h2, hr]
    have hs := senderActs_answer hc (by decide) hv ha
    rw [if_neg hr]
    rwa [hfd, hd] at hs

theorem senderActs_moving {m : Agreement} (hm : m.Plain) {n : Net} {bs : List Str} {w : Str}
    {d : ℕ} (hc : n.sender.connected = true) (h : Moving m bs w d) (hlt : d < m.fileSize)
    (hv : n.view = .moving m bs w d) :
    ∃ (d' : ℕ) (bs' : List Str), d < d' ∧ Moving m bs' w d' ∧
      (n.senderActs m).view = .moving m bs' w d' ∧
      (n.senderActs m).sender.gone = n.sender.gone := by
  have hfd : n.sender.fd = some (m.content.drop d) := congrArg View.sending hv
  have hf : n.sender.failed = false := congrArg View.refusedRead hv
  have hto : n.sender.readBuffer ++ (n.back ++ n.receiver.writeBuffer) = [] :=
    congrArg View.toSender hv
  obtain ⟨k, hpos, hk, hdk, hs⟩ := Sender.handleSend_moving hm hc hfd (congrArg View.sent hv) hlt
  refine ⟨d + k, bs ++ [Sender.block k (m.content.drop d)], by omega, ⟨?_, ?_, hdk, h.more⟩, ?_, ?_⟩
  · intro b hmem
    rcases List.mem_append.mp hmem with hmem | hmem
    · exact h.sizes b hmem
    · rw [List.mem_singleton.mp hmem, block_length]
      exact ⟨hpos, hk⟩
  · rw [List.flatten_append, ← List.append_assoc, h.file, image_take_add m hdk]
    simp
  · rw [senderActs_view hs]
    simp only [hto, hv, hf]
    simp [View.moving, List.flatMap_append]
  · rw [senderActs_of hs]

theorem senderActs_phase {m : Agreement} (hm : m.Plain) {n : Net} (h : Phase m n.view) :
    Phase m (n.senderActs m).view := by
  by_cases hc : n.sender.connected = true
  · generalize hv : n.view = v at h
    have hfd : n.sender.fd = v.sending := by rw [← hv]; rfl
    have hd : n.sender.bytes_done = v.sent := by rw [← hv]; rfl
    have hto : n.view.toSender = v.toSender := by rw [hv]
    cases h with
    | greeting =>
      rcases senderActs_greeting (m := m) hc hv with ⟨-, hs⟩ | hs
      · rw [hs, hv]
        exact .greeting
      · rw [hs]
        exact .greeted
    | greeted =>
      rw [senderActs_quiet hc hfd hto, hv]
      exact .greeted
    | named =>
      rcases senderActs_named hm hc hv with ⟨-, hs⟩ | hs
      · rw [hs, hv]
        exact .named
      · rw [hs]
        exact .offered
    | offered =>
      rw [senderActs_quiet hc hfd hto, hv]
      exact .offered
    | refusedWrite hw =>
      rw [senderActs_quiet hc hfd hto, hv]
      exact .refusedWrite hw
    | asked =>
      rcases senderActs_asked (m := m) hc hv with ⟨-, hs⟩ | hs
      · rw [hs, hv]
        exact .asked
      · rw [hs]
        by_cases hr : m.canRead = true
        · rw [if_pos hr]
          exact .moving (Moving.start m)
        · rw [if_neg hr]
          exact .refusedRead (Bool.eq_false_iff.mpr hr)
    | refusedRead hr =>
      rw [senderActs_quiet hc hfd hto, hv]
      exact .refusedRead hr
    | @moving bs w d hmv =>
      rcases Nat.lt_or_ge d m.fileSize with hlt | hge
      · obtain ⟨d', bs', -, hmv', hview, -⟩ := senderActs_moving hm hc hmv hlt hv
        rw [hview]
        exact .moving hmv'
      · have heq : n.sender.bytes_done = m.fileSize := hd.trans (Nat.le_antisymm hmv.sent hge)
        have hs := Sender.handleSend_end hc hfd heq
        rw [senderActs_view hs, List.append_nil]
        change Phase m n.view
        rw [hv]
        exact .moving hmv
    | arrived =>
      have hs := Sender.handleSend_end hc hfd hd
      rw [senderActs_view hs, List.append_nil]
      change Phase m n.view
      rw [hv]
      exact .arrived
  · have hs := Sender.handleSend_waiting (m := m) (Bool.eq_false_iff.mpr hc)
    rw [senderActs_view hs, List.append_nil]
    exact h

def Receiver.answer (m : Agreement) (r : Receiver) (args : List Str) : Receiver × Str :=
  if args[0]? = some (bytes "VER") then r.write (usrLine m)
  else if args[0]? = some (bytes "FIL") then
    if m.canWrite then ({ r with fd := true, written := [] } : Receiver).write tfrLine
    else ({ r with failed := true }, [])
  else (r, [])

theorem Receiver.write_connected {r : Receiver} (hc : r.connected = true) (s : Str) :
    r.write s = (r, s) := by
  rw [Receiver.write, if_pos hc]

theorem Receiver.handleReceive_line {m : Agreement} {r : Receiver} {l q : Str}
    (hfd : r.fd = false) (hl : cr ∉ l) (h : r.readBuffer ++ q = l ++ crlf) :
    q ≠ [] ∧ r.handleReceive m = (r, []) ∨ q = [] ∧
      r.handleReceive m = ({ r with readBuffer := [] } : Receiver).answer m (splitString l) := by
  have hs : r.handleReceive m = r.handleReceive_Negotiating m := by
    rw [Receiver.handleReceive, hfd]
    rfl
  rw [hs, Receiver.handleReceive_Negotiating]
  rcases getLine_of_prefix hl h with ⟨hq, hn⟩ | ⟨hq, hy⟩
  · left
    rw [hn]
    exact ⟨hq, rfl⟩
  · right
    rw [hy]
    exact ⟨hq, rfl⟩

theorem Receiver.handleReceive_quiet {m : Agreement} {r : Receiver} (h : r.readBuffer = []) :
    r.handleReceive m = (r, []) := by
  rw [Receiver.handleReceive]
  by_cases hfd : r.fd = true
  · rw [if_pos hfd, Receiver.handleReceive_Transferring, h]
    rfl
  · rw [if_neg hfd, Receiver.handleReceive_Negotiating, h, getLine_nil]

theorem splitString_fil (n : ℕ) : splitString (bytes "FIL " ++ decimal n) =
    [bytes "FIL", decimal n] := by
  have hb : bytes "FIL " = bytes "FIL" ++ [blank] := by decide
  have hd : blank ∉ decimal n := by
    intro h
    have hdig := isdigit_of_mem_decimal h
    revert hdig
    decide
  rw [hb]
  simp only [List.append_assoc, List.cons_append, List.nil_append]
  rw [splitString_cons (by decide) (by decide), splitString_word hd (decimal_ne_nil n)]

theorem cr_not_mem_fil (n : ℕ) : cr ∉ bytes "FIL " ++ decimal n := by
  have h1 : cr ∉ bytes "FIL " := by decide
  have h2 : cr ∉ decimal n := by
    intro h
    have hdig := isdigit_of_mem_decimal h
    revert hdig
    decide
  simp only [List.mem_append, not_or]
  exact ⟨h1, h2⟩

theorem block_size {k : ℕ} (h : k ≤ 5000) :
    (UInt8.ofNat k).toNat + 256 * (UInt8.ofNat (k / 256)).toNat = k := by
  rw [UInt8.toNat_ofNat', UInt8.toNat_ofNat']
  omega

structure Receiving (m : Agreement) (r : Receiver) (wire : Str) (bs : List Str) (d : ℕ) :
    Prop where
  connected : r.connected = true
  flushed : r.writeBuffer = []
  fd : r.fd = true
  succeeded : r.succeeded = false
  failed : r.failed = false
  bytes_done : r.bytes_done = r.written.length
  blocks : r.readBuffer ++ wire = bs.flatMap Sender.blockBytes
  sizes : ∀ b ∈ bs, 0 < b.length ∧ b.length ≤ 5000
  file : r.written ++ bs.flatten = (image m).take d
  sent : d ≤ m.fileSize

structure Arrived (m : Agreement) (r : Receiver) (out : Str) : Prop where
  out : out = byeLine
  connected : r.connected = true
  flushed : r.writeBuffer = []
  fd : r.fd = false
  succeeded : r.succeeded = true
  failed : r.failed = false
  written : r.written = image m
  bytes_done : r.bytes_done = m.fileSize
  readBuffer : r.readBuffer = []

theorem succeed_arrived {m : Agreement} {r : Receiver} {wire : Str} {bs : List Str} {d : ℕ}
    (h : Receiving m r wire bs d) (hend : r.bytes_done = m.fileSize) :
    d = m.fileSize ∧ wire = [] ∧ Arrived m r.succeed.1 r.succeed.2 := by
  have hlen : r.written.length = m.fileSize := by rw [← h.bytes_done, hend]
  obtain ⟨hv, hw⟩ := eq_of_take_image h.file hlen
  have hd : d = m.fileSize := by
    have hl := congrArg List.length h.file
    rw [hv, List.append_nil, hlen, List.length_take, image_length] at hl
    have := h.sent
    omega
  have hbs : bs = [] := by
    cases bs with
    | nil => rfl
    | cons b bs =>
      have hb := (h.sizes b (by simp)).1
      have hlv := congrArg List.length hv
      rw [List.flatten_cons, List.length_append, List.length_nil] at hlv
      omega
  have hblocks := h.blocks
  rw [hbs, List.flatMap_nil] at hblocks
  obtain ⟨hrb, hwire⟩ := List.append_eq_nil_iff.mp hblocks
  refine ⟨hd, hwire, ?_⟩
  have hs : r.succeed = ({ r with fd := false, succeeded := true }, byeLine) :=
    Receiver.write_connected (r := { r with fd := false, succeeded := true }) h.connected byeLine
  rw [hs]
  exact ⟨rfl, h.connected, h.flushed, rfl, rfl, h.failed, hw, hend, hrb⟩

theorem Receiving.next {m : Agreement} {r : Receiver} {wire : Str} {b : Str} {bs : List Str}
    {d : ℕ} (h : Receiving m r wire (b :: bs) d) {rest : Str}
    (hr : r.readBuffer = 0 :: UInt8.ofNat b.length :: UInt8.ofNat (b.length / 256) :: rest)
    (hlen : b.length ≤ rest.length) :
    rest.take b.length = b ∧ Receiving m { r with
      readBuffer := rest.drop b.length
      written := r.written ++ rest.take b.length
      bytes_done := r.bytes_done + b.length } wire bs d := by
  have hpos := (h.sizes b (by simp)).1
  have hblocks := h.blocks
  rw [hr, List.flatMap_cons, Sender.blockBytes, if_neg (by omega)] at hblocks
  simp only [List.cons_append, List.cons.injEq, true_and] at hblocks
  have htake : rest.take b.length = b := by
    have ht := congrArg (List.take b.length) hblocks
    rwa [List.take_append_of_le_length hlen, List.take_left] at ht
  have hdrop : rest.drop b.length ++ wire = bs.flatMap Sender.blockBytes := by
    have ht := congrArg (List.drop b.length) hblocks
    rwa [List.drop_append_of_le_length hlen, List.drop_left] at ht
  refine ⟨htake, h.connected, h.flushed, h.fd, h.succeeded, h.failed, ?_, hdrop, ?_, ?_, h.sent⟩
  · rw [List.length_append, htake, h.bytes_done]
  · intro b' hb'
    exact h.sizes b' (List.mem_cons_of_mem _ hb')
  · have hf := h.file
    rwa [List.flatten_cons, ← List.append_assoc, ← htake] at hf

/-- The first block is not in the buffer as long as it is too short for it. -/
theorem Receiving.wire_ne_nil {m : Agreement} {r : Receiver} {wire : Str} {b : Str}
    {bs : List Str} {d : ℕ} (h : Receiving m r wire (b :: bs) d)
    (hlen : r.readBuffer.length < 3 + b.length) : wire ≠ [] := by
  intro hw
  have hl := congrArg List.length h.blocks
  rw [hw, List.append_nil, List.flatMap_cons, List.length_append, Sender.blockBytes,
    List.length_cons, List.length_cons, List.length_cons] at hl
  omega

/-- All blocks that are complete are taken out of the buffer, the last one with the success. -/
theorem transferring_spec {m : Agreement} (fuel : ℕ) {r : Receiver} {wire : Str}
    {bs : List Str} {d : ℕ} (hfuel : r.readBuffer.length ≤ fuel) (h : Receiving m r wire bs d)
    (hmore : 0 < m.fileSize → r.written.length < m.fileSize) :
    ((Receiver.transferring m fuel r).2 = [] ∧
      (0 < m.fileSize → (Receiver.transferring m fuel r).1.written.length < m.fileSize) ∧
      ∃ bs', Receiving m (Receiver.transferring m fuel r).1 wire bs' d ∧ (bs' ≠ [] → wire ≠ [])) ∨
    d = m.fileSize ∧ wire = [] ∧
      Arrived m (Receiver.transferring m fuel r).1 (Receiver.transferring m fuel r).2 := by
  induction fuel generalizing r bs with
  | zero =>
    refine .inl ⟨rfl, hmore, bs, h, ?_⟩
    intro hbs
    obtain ⟨b, bs, rfl⟩ := List.exists_cons_of_ne_nil hbs
    exact h.wire_ne_nil (by omega)
  | succ fuel ih =>
    cases bs with
    | nil =>
      have hb := (List.append_eq_nil_iff.mp h.blocks).1
      rw [Receiver.transferring, hb]
      exact .inl ⟨rfl, hmore, [], h, fun hn => absurd rfl hn⟩
    | cons b bs =>
      obtain ⟨hpos, hle⟩ := h.sizes b (by simp)
      have hshort : r.readBuffer.length < 3 →
          ∃ bs', Receiving m r wire bs' d ∧ (bs' ≠ [] → wire ≠ []) := by
        intro hlen
        exact ⟨b :: bs, h, fun _ => h.wire_ne_nil (by omega)⟩
      rw [Receiver.transferring]
      rcases hr : r.readBuffer with _ | ⟨c0, _ | ⟨c1, _ | ⟨c2, rest⟩⟩⟩
      · exact .inl ⟨rfl, hmore, hshort (by simp [hr])⟩
      · exact .inl ⟨rfl, hmore, hshort (by simp [hr])⟩
      · exact .inl ⟨rfl, hmore, hshort (by simp [hr])⟩
      · have hhead : c0 = 0 ∧ c1 = UInt8.ofNat b.length ∧ c2 = UInt8.ofNat (b.length / 256) := by
          have hb := h.blocks
          rw [hr, List.flatMap_cons, Sender.blockBytes, if_neg (by omega)] at hb
          simp only [List.cons_append, List.cons.injEq] at hb
          exact ⟨hb.1, hb.2.1, hb.2.2.1⟩
        obtain ⟨h0, h1, h2⟩ := hhead
        rw [h0, h1, h2] at hr
        have hlr := congrArg List.length hr
        simp only [List.length_cons] at hlr
        simp only [h0, h1, h2]
        rw [if_neg (by decide), if_neg (by simp), block_size hle,
          if_neg (by unfold MAX_FTP_BLOCK_SIZE; omega)]
        by_cases hlen : rest.length < b.length
        · rw [if_pos hlen]
          exact .inl ⟨rfl, hmore, b :: bs, h, fun _ => h.wire_ne_nil (by omega)⟩
        · rw [if_neg hlen]
          obtain ⟨htake, hnext⟩ := h.next hr (by omega)
          by_cases hend : r.bytes_done + b.length = m.fileSize
          · rw [if_pos hend]
            exact .inr (succeed_arrived hnext hend)
          · rw [if_neg hend]
            apply ih _ hnext
            · intro hpos
              have hfile := congrArg List.length hnext.file
              have hsent := hnext.sent
              have hdone := hnext.bytes_done
              simp only [List.length_append, List.length_take, image_length] at hfile hdone ⊢
              omega
            · rw [List.length_drop]
              omega

theorem receiverActs_view {m : Agreement} {n : Net} {r : Receiver} {out : Str}
    (h : n.receiver.handleReceive m = (r, out)) (hw : n.receiver.writeBuffer = [])
    (hw' : r.writeBuffer = []) :
    (n.receiverActs m).view = { n.view with
      toSender := n.view.toSender ++ out
      toReceiver := r.readBuffer ++ n.wire
      receiving := r.fd
      written := r.written
      received := r.bytes_done
      arrived := r.succeeded
      refusedWrite := r.failed } := by
  rw [Net.receiverActs, h]
  simp [Net.view, hw, hw']

structure Open (r : Receiver) : Prop where
  connected : r.connected = true
  flushed : r.writeBuffer = []

theorem Receiver.write_readBuffer {r : Receiver} {s : Str} :
    (r.write s).1.readBuffer = r.readBuffer := by
  rw [Receiver.write]
  split_ifs <;> rfl

theorem Receiver.answer_readBuffer {m : Agreement} {r : Receiver} {args : List Str} :
    (r.answer m args).1.readBuffer = r.readBuffer := by
  rw [Receiver.answer]
  split_ifs
  · exact Receiver.write_readBuffer
  · exact Receiver.write_readBuffer
  · rfl
  · rfl

theorem Receiver.answer_open {m : Agreement} {r : Receiver} {args : List Str} (h : Open r) :
    Open (r.answer m args).1 := by
  rw [Receiver.answer]
  split_ifs
  · rw [Receiver.write_connected h.connected]
    exact h
  · rw [Receiver.write_connected (r := { r with fd := true, written := [] }) h.connected]
    exact ⟨h.1, h.2⟩
  · exact ⟨h.1, h.2⟩
  · exact h

theorem receiverActs_line {m : Agreement} {n : Net} {l : Str} (ho : Open n.receiver)
    (hfd : n.receiver.fd = false) (hl : cr ∉ l) (hto : n.view.toReceiver = l ++ crlf) :
    (n.wire ≠ [] ∧ (n.receiverActs m).view = n.view ∧ Open (n.receiverActs m).receiver) ∨
      ∀ r out, ({ n.receiver with readBuffer := [] } : Receiver).answer m (splitString l) = (r, out) →
        Open r → (Open (n.receiverActs m).receiver ∧ (n.receiverActs m).view = { n.view with
          toSender := n.view.toSender ++ out
          toReceiver := r.readBuffer
          receiving := r.fd
          written := r.written
          received := r.bytes_done
          arrived := r.succeeded
          refusedWrite := r.failed }) := by
  rcases Receiver.handleReceive_line (m := m) hfd hl hto with ⟨hq, hs⟩ | ⟨hq, hs⟩
  · left
    rw [receiverActs_view hs ho.flushed ho.flushed, List.append_nil, Net.receiverActs, hs]
    exact ⟨hq, rfl, ho⟩
  · right
    intro r out ha hr
    rw [ha] at hs
    rw [receiverActs_view hs ho.flushed hr.flushed, hq, List.append_nil, Net.receiverActs, hs]
    exact ⟨hr, rfl⟩

theorem receiverActs_quiet {m : Agreement} {n : Net} (ho : Open n.receiver)
    (hto : n.view.toReceiver = []) :
    (n.receiverActs m).view = n.view ∧ Open (n.receiverActs m).receiver := by
  have hb : n.receiver.readBuffer = [] := List.append_eq_nil_iff.mp hto |>.1
  have hs := Receiver.handleReceive_quiet (m := m) hb
  rw [receiverActs_view hs ho.flushed ho.flushed, List.append_nil, Net.receiverActs, hs]
  exact ⟨rfl, ho⟩

theorem Receiver.answer_ver {m : Agreement} {r : Receiver} (hc : r.connected = true) :
    r.answer m (splitString (bytes "VER MSNFTP")) = (r, usrLine m) := by
  rw [splitString_ver, Receiver.answer, List.getElem?_cons_zero, if_pos rfl,
    Receiver.write_connected hc]

theorem Receiver.answer_fil {m : Agreement} {r : Receiver} (hc : r.connected = true) :
    r.answer m (splitString (bytes "FIL " ++ decimal m.fileSize)) =
      if m.canWrite = true then ({ r with fd := true, written := [] }, tfrLine)
      else ({ r with failed := true }, []) := by
  have h1 : ¬ some (bytes "FIL") = some (bytes "VER") := by decide
  rw [splitString_fil, Receiver.answer, List.getElem?_cons_zero, if_neg h1, if_pos rfl]
  by_cases hw : m.canWrite = true
  · rw [if_pos hw, if_pos hw]
    exact Receiver.write_connected (r := { r with fd := true, written := [] }) hc tfrLine
  · rw [if_neg hw, if_neg hw]

theorem receiverActs_answer {m : Agreement} {n : Net} {l : Str} {r : Receiver} {out : Str}
    (ho : Open n.receiver) (hl : cr ∉ l) (hv : n.view = .line [] (l ++ crlf) false)
    (ha : ({ n.receiver with readBuffer := [] } : Receiver).answer m (splitString l) = (r, out)) :
    ((n.wire ≠ [] ∧ (n.receiverActs m).view = n.view) ∨ (n.receiverActs m).view =
        ⟨out, [], none, 0, false, r.fd, r.written, r.bytes_done, r.succeeded, r.failed⟩) ∧
      Open (n.receiverActs m).receiver := by
  have hopen : Open r := by
    have hr := @Receiver.answer_open m { n.receiver with readBuffer := [] } (splitString l)
      ⟨ho.1, ho.2⟩
    rwa [ha] at hr
  have hbuf : r.readBuffer = [] := by
    have hr := @Receiver.answer_readBuffer m { n.receiver with readBuffer := [] } (splitString l)
    rwa [ha] at hr
  rcases receiverActs_line (m := m) ho (congrArg View.receiving hv) hl
    (congrArg View.toReceiver hv) with ⟨hq, hs, ho'⟩ | hs
  · exact ⟨.inl ⟨hq, hs⟩, ho'⟩
  · obtain ⟨ho', hview⟩ := hs r out ha hopen
    rw [hview, hv, hbuf]
    exact ⟨.inr rfl, ho'⟩

theorem receiverActs_greeted {m : Agreement} {n : Net} (ho : Open n.receiver)
    (hv : n.view = .line [] verLine false) :
    ((n.wire ≠ [] ∧ (n.receiverActs m).view = n.view) ∨
      (n.receiverActs m).view = .line (usrLine m) [] false) ∧
      Open (n.receiverActs m).receiver := by
  have hw : n.receiver.written = [] := congrArg View.written hv
  have hd : n.receiver.bytes_done = 0 := congrArg View.received hv
  have hs : n.receiver.succeeded = false := congrArg View.arrived hv
  have hf : n.receiver.failed = false := congrArg View.refusedWrite hv
  have hfd : n.receiver.fd = false := congrArg View.receiving hv
  have ha := receiverActs_answer ho (by decide) hv
    (Receiver.answer_ver (m := m) (r := { n.receiver with readBuffer := [] }) ho.connected)
  rwa [hw, hd, hs, hf, hfd] at ha

theorem receiverActs_offered {m : Agreement} {n : Net} (ho : Open n.receiver)
    (hv : n.view = .line [] (filLine m) false) :
    ((n.wire ≠ [] ∧ (n.receiverActs m).view = n.view) ∨
      (n.receiverActs m).view = if m.canWrite = true then .line tfrLine [] true
        else ⟨[], [], none, 0, false, false, [], 0, false, true⟩) ∧
      Open (n.receiverActs m).receiver := by
  have hw : n.receiver.written = [] := congrArg View.written hv
  have hd : n.receiver.bytes_done = 0 := congrArg View.received hv
  have hs : n.receiver.succeeded = false := congrArg View.arrived hv
  have hf : n.receiver.failed = false := congrArg View.refusedWrite hv
  have hfd : n.receiver.fd = false := congrArg View.receiving hv
  have hans := Receiver.answer_fil (m := m) (r := { n.receiver with readBuffer := [] })
    ho.connected
  by_cases hcan : m.canWrite = true
  · rw [if_pos hcan] at hans ⊢
    have ha := receiverActs_answer ho (cr_not_mem_fil _) hv hans
    rwa [hd, hs, hf] at ha
  · rw [if_neg hcan] at hans ⊢
    have ha := receiverActs_answer ho (cr_not_mem_fil _) hv hans
    rwa [hw, hd, hs, hfd] at ha

theorem receiving_of_view {m : Agreement} {n : Net} {bs : List Str} {w : Str} {d : ℕ}
    (ho : Open n.receiver) (h : Moving m bs w d) (hv : n.view = .moving m bs w d) :
    Receiving m n.receiver n.wire bs d := by
  have hwr : n.receiver.written = w := congrArg View.written hv
  have hd : n.receiver.bytes_done = w.length := congrArg View.received hv
  exact ⟨ho.1, ho.2, congrArg View.receiving hv, congrArg View.arrived hv,
    congrArg View.refusedWrite hv, by rw [hd, hwr], congrArg View.toReceiver hv, h.sizes,
    by rw [hwr, h.file], h.sent⟩

/-- The receiver takes what is complete, and reports success with the last byte. -/
theorem receiverActs_moving {m : Agreement} {n : Net} {bs : List Str} {w : Str} {d : ℕ}
    (ho : Open n.receiver) (h : Moving m bs w d) (hv : n.view = .moving m bs w d) :
    ((∃ bs' w', Moving m bs' w' d ∧ (n.receiverActs m).view = .moving m bs' w' d ∧
        (bs' ≠ [] → n.wire ≠ [])) ∨
      (n.receiverActs m).view = .complete m) ∧
      Open (n.receiverActs m).receiver := by
  have hr := receiving_of_view ho h hv
  have hacts : n.receiver.handleReceive m =
      Receiver.transferring m n.receiver.readBuffer.length n.receiver := by
    rw [Receiver.handleReceive, if_pos hr.fd]
    rfl
  have hmore : 0 < m.fileSize → n.receiver.written.length < m.fileSize := by
    rw [show n.receiver.written = w from congrArg View.written hv]
    exact h.more
  rcases transferring_spec n.receiver.readBuffer.length le_rfl hr hmore with
    ⟨hout, hmore', bs', hr', hbs⟩ | ⟨hend, hwire, ha⟩
  · refine ⟨.inl ⟨bs', _, ⟨hr'.sizes, hr'.file, h.sent, hmore'⟩, ?_, hbs⟩, ?_⟩
    · rw [receiverActs_view hacts ho.2 hr'.flushed, hout, hv]
      simp only [hr'.fd, hr'.bytes_done, hr'.succeeded, hr'.failed, hr'.blocks]
      rfl
    · rw [Net.receiverActs, hacts]
      exact ⟨hr'.connected, hr'.flushed⟩
  · refine ⟨.inr ?_, ?_⟩
    · rw [receiverActs_view hacts ho.2 ha.flushed, ha.out, hv, hwire]
      simp only [ha.fd, ha.bytes_done, ha.succeeded, ha.failed, ha.written, ha.readBuffer, hend]
      rfl
    · rw [Net.receiverActs, hacts]
      exact ⟨ha.connected, ha.flushed⟩

theorem receiverActs_phase {m : Agreement} {n : Net} (ho : Open n.receiver)
    (h : Phase m n.view) : Phase m (n.receiverActs m).view ∧ Open (n.receiverActs m).receiver := by
  generalize hv : n.view = v at h
  have hto : n.view.toReceiver = v.toReceiver := by rw [hv]
  cases h with
  | greeting =>
    obtain ⟨hview, hopen⟩ := receiverActs_quiet (m := m) ho hto
    rw [hview, hv]
    exact ⟨.greeting, hopen⟩
  | greeted =>
    obtain ⟨⟨-, hs⟩ | hs, hopen⟩ := receiverActs_greeted (m := m) ho hv
    · rw [hs, hv]
      exact ⟨.greeted, hopen⟩
    · rw [hs]
      exact ⟨.named, hopen⟩
  | named =>
    obtain ⟨hview, hopen⟩ := receiverActs_quiet (m := m) ho hto
    rw [hview, hv]
    exact ⟨.named, hopen⟩
  | offered =>
    obtain ⟨⟨-, hs⟩ | hs, hopen⟩ := receiverActs_offered (m := m) ho hv
    · rw [hs, hv]
      exact ⟨.offered, hopen⟩
    · rw [hs]
      by_cases hw : m.canWrite = true
      · rw [if_pos hw]
        exact ⟨.asked, hopen⟩
      · rw [if_neg hw]
        exact ⟨.refusedWrite (Bool.eq_false_iff.mpr hw), hopen⟩
  | refusedWrite hw =>
    obtain ⟨hview, hopen⟩ := receiverActs_quiet (m := m) ho hto
    rw [hview, hv]
    exact ⟨.refusedWrite hw, hopen⟩
  | asked =>
    obtain ⟨hview, hopen⟩ := receiverActs_quiet (m := m) ho hto
    rw [hview, hv]
    exact ⟨.asked, hopen⟩
  | refusedRead hr =>
    obtain ⟨hview, hopen⟩ := receiverActs_quiet (m := m) ho hto
    rw [hview, hv]
    exact ⟨.refusedRead hr, hopen⟩
  | moving hmv =>
    obtain ⟨⟨bs', w', hmv', hs, -⟩ | hs, hopen⟩ := receiverActs_moving ho hmv hv
    · rw [hs]
      exact ⟨.moving hmv', hopen⟩
    · rw [hs]
      exact ⟨.arrived, hopen⟩
  | arrived =>
    obtain ⟨hview, hopen⟩ := receiverActs_quiet (m := m) ho hto
    rw [hview, hv]
    exact ⟨.arrived, hopen⟩

end CenterIM.MsnTransfer
