import CenterIM.HttpClient

/-!
# Reading a response line by line

What the client makes of a response with status 200 depends on the complete lines that it has
received, however they arrived; only the length that it expects does not.
-/
namespace CenterIM.HttpReading
open ByteText Decimal HttpClient

/-- The complete lines of a text, and the line that is started. -/
def full (s : Str) : List Str := (lines s).dropLast

def started (s : Str) : Str := (lines s).getLast (lines_ne_nil s)

theorem lines_eq (s : Str) : lines s = full s ++ [started s] :=
  (List.dropLast_append_getLast (lines_ne_nil s)).symm

theorem lf_not_mem_full {s l : Str} (h : l ∈ full s) : lf ∉ l :=
  mem_lines_not_lf (List.dropLast_subset _ h)

theorem lf_not_mem_started (s : Str) : lf ∉ started s :=
  mem_lines_not_lf (List.getLast_mem (lines_ne_nil s))

theorem unlines_full (s : Str) : unlines (full s) ++ started s = s := by
  have h := unlines_lines s
  rw [lines_eq, unlines_append, unlines_cons, unlines_nil, ← List.append_assoc] at h
  have h' : unlines (full s) ++ started s ++ [lf] = s ++ [lf] := by simpa using h
  exact List.append_cancel_right h'

theorem full_unlines {ls : List Str} (h : ∀ l ∈ ls, lf ∉ l) (s : Str) :
    full (unlines ls ++ s) = ls ++ full s ∧ started (unlines ls ++ s) = started s := by
  have hl := lines_eq (unlines ls ++ s)
  rw [lines_unlines_append h, lines_eq s, ← List.append_assoc] at hl
  obtain ⟨h1, h2⟩ := List.append_inj' hl rfl
  exact ⟨h1.symm, (List.cons.inj h2).1.symm⟩

theorem full_of_not_mem {s : Str} (h : lf ∉ s) : full s = [] ∧ started s = s := by
  simp [full, started, lines_of_not_mem h]

theorem full_append (s t : Str) : full (s ++ t) = full s ++ full (started s ++ t) := by
  conv_lhs => rw [← unlines_full s, List.append_assoc]
  exact (full_unlines (fun _ => lf_not_mem_full) _).1

theorem unlines_inj {ls ls' : List Str} {s s' : Str} (h : ∀ l ∈ ls, lf ∉ l) (h' : ∀ l ∈ ls', lf ∉ l)
    (hs : lf ∉ s) (hs' : lf ∉ s') (he : unlines ls ++ s = unlines ls' ++ s') : ls = ls' ∧ s = s' := by
  obtain ⟨h1, h2⟩ := full_unlines h s
  obtain ⟨h1', h2'⟩ := full_unlines h' s'
  rw [he] at h1 h2
  rw [(full_of_not_mem hs).1, List.append_nil] at h1
  rw [(full_of_not_mem hs').1, List.append_nil] at h1'
  exact ⟨h1.symm.trans h1', by rw [← (full_of_not_mem hs).2, ← h2, h2', (full_of_not_mem hs').2]⟩

structure Progress where
  state : State
  content : Str

def Progress.line (p : Progress) (l : Str) : Progress :=
  match p.state with
  | .waitingForHeader => { p with state := .receivingHeader }
  | .receivingHeader => { p with state := if l = [] then .receivingContent else .receivingHeader }
  | .receivingContent => { p with content := p.content ++ (l ++ [lf]) }
  | _ => p

def progress (ls : List Str) : Progress :=
  (ls.map HTTPClient.chop).foldl Progress.line ⟨.waitingForHeader, []⟩

theorem progress_append (ls : List Str) (l : Str) :
    progress (ls ++ [l]) = (progress ls).line (HTTPClient.chop l) := by
  simp [progress]

def fieldLength (head l : Str) (length : UInt64) : UInt64 :=
  if HTTPClient.fieldName head l = bytes "CONTENT-LENGTH:" then strtoul (HTTPClient.splitBlank l).2
  else length

def scanLength : Progress → List Str → Str → UInt64 → UInt64
  | _, [], _, length => length
  | p, l :: ls, head, length =>
    if p.state = .receivingHeader then
      scanLength (p.line l) ls (HTTPClient.fieldName head l) (fieldLength head l length)
    else scanLength (p.line l) ls head length

def StatusOk (ls : List Str) : Prop :=
  ∀ l, ls.head? = some l → (HTTPClient.splitBlank (HTTPClient.chop l)).1 ≠ none ∧
    (strtoul (HTTPClient.splitBlank (HTTPClient.chop l)).2).toUInt32 = 200

/-- A client that has received `data` of a response, and has read the lines `ls` of it, since it
was `c₀`. -/
structure Shows (c₀ : HTTPClient) (ls : List Str) (data : Str) (c : HTTPClient) : Prop where
  queue : c.queue = c₀.queue
  acks : c.acks = c₀.acks
  sent : c.sent = c₀.sent
  sock : c.sock = .connected
  recv : c.recv = ⟨data, (unlines ls).length, false⟩
  state : c.state = (progress ls).state
  content : c.content = (progress ls).content
  code : ls ≠ [] → c.code = 200

theorem parseHeader_ok {c : HTTPClient} (hcode : c.code = 200) (head l : Str) :
    c.parseHeader head l = some ({ c with
      state := if l = [] then .receivingContent else c.state
      length := fieldLength head l c.length }, HTTPClient.fieldName head l, false) := by
  have hfield : ∀ d : HTTPClient, d.code = 200 → ∀ head rest : Str,
      d.parseField head l rest = some (d, l, false) := by
    intro d hd head rest
    rw [HTTPClient.parseField, if_neg, if_neg]
    · simp [hd]
    · simp [hd]
  have hnote : ∀ head rest : Str, c.noteLength head rest =
      { c with length := if head = bytes "CONTENT-LENGTH:" then strtoul rest else c.length } := by
    intro head rest
    rw [HTTPClient.noteLength]
    split_ifs <;> rfl
  rw [HTTPClient.parseHeader, hnote, hfield]
  · simp only [Option.pure_def, Option.bind_eq_bind, Option.bind_some, true_and, fieldLength]
    split_ifs <;> rfl
  · exact hcode

theorem parseStatus_ok {c : HTTPClient} {l : Str} (h1 : (HTTPClient.splitBlank l).1 ≠ none)
    (h2 : (strtoul (HTTPClient.splitBlank l).2).toUInt32 = 200) :
    c.parseStatus l = some ({ c with code := 200, state := .receivingHeader }, false) := by
  rw [HTTPClient.parseStatus]
  generalize HTTPClient.splitBlank l = r at h1 h2
  obtain ⟨word, rest⟩ := r
  dsimp only at h1 h2 ⊢
  rw [if_neg h1, h2]
  simp

/-- Two clients that differ only in how far they have read. -/
structure Same (c d : HTTPClient) : Prop where
  queue : c.queue = d.queue
  acks : c.acks = d.acks
  sent : c.sent = d.sent
  sock : c.sock = d.sock
  recv : c.recv = d.recv

theorem parseLine_ok {c : HTTPClient} {p : Progress} (hst : c.state = p.state)
    (hcontent : c.content = p.content) {l : Str} (hcode : p.state ≠ .waitingForHeader → c.code = 200)
    (hstatus : p.state = .waitingForHeader → (HTTPClient.splitBlank l).1 ≠ none ∧
      (strtoul (HTTPClient.splitBlank l).2).toUInt32 = 200) (head : Str) :
    ∃ c' head', c.parseLine head l = some (c', head', false) ∧ Same c' c ∧ c'.state = (p.line l).state ∧
      c'.content = (p.line l).content ∧ c'.code = 200 ∧
      ∀ rest, scanLength p (l :: rest) head c.length = scanLength (p.line l) rest head' c'.length := by
  obtain ⟨state, content⟩ := p
  dsimp only at hst hcontent hcode hstatus
  rw [HTTPClient.parseLine, hst]
  cases state with
  | waitingForHeader =>
    obtain ⟨h1, h2⟩ := hstatus rfl
    simp only [parseStatus_ok h1 h2]
    exact ⟨_, _, rfl, ⟨rfl, rfl, rfl, rfl, rfl⟩, rfl, hcontent, rfl, fun rest => rfl⟩
  | receivingHeader =>
    simp only [parseHeader_ok (hcode nofun)]
    refine ⟨_, _, rfl, ⟨rfl, rfl, rfl, rfl, rfl⟩, ?_, hcontent, hcode nofun, fun rest => rfl⟩
    rw [hst]
    rfl
  | receivingContent =>
    refine ⟨_, _, rfl, ⟨rfl, rfl, rfl, rfl, rfl⟩, rfl, ?_, hcode nofun, fun rest => rfl⟩
    rw [hcontent]
    rfl
  | notConnected => exact ⟨_, _, rfl, ⟨rfl, rfl, rfl, rfl, rfl⟩, hst, hcontent, hcode nofun, fun rest => rfl⟩
  | waitingForConnect =>
    exact ⟨_, _, rfl, ⟨rfl, rfl, rfl, rfl, rfl⟩, hst, hcontent, hcode nofun, fun rest => rfl⟩

theorem line_state_ne (p : Progress) (l : Str) : (p.line l).state ≠ .waitingForHeader := by
  obtain ⟨state, content⟩ := p
  cases state <;> simp only [Progress.line] <;> try split_ifs
  all_goals simp

theorem progress_state {ls : List Str} (h : ls ≠ []) : (progress ls).state ≠ .waitingForHeader := by
  rw [← List.dropLast_append_getLast h, progress_append]
  exact line_state_ne _ _

theorem unpack_line {data l rest : Str} {n : ℕ} (hl : lf ∉ l) (h : data.drop n = l ++ lf :: rest)
    (hsize : data.length < 2 ^ 32) : Buffer.UnpackCRLFString ⟨data, n, false⟩ =
      some (l ++ [lf], ⟨data, n + (l.length + 1), false⟩) := by
  have hidx : (l ++ lf :: rest).idxOf? lf = some l.length := by
    rw [List.idxOf?_eq_some_iff]
    refine ⟨by simp, by simp, fun j hj he => hl ?_⟩
    rw [List.getElem_append_left hj] at he
    exact he ▸ List.getElem_mem _
  have hlen := congrArg List.length h
  simp only [List.length_drop, List.length_append, List.length_cons] at hlen
  have hend : ¬data.length < n + (l.length + 1) := by omega
  have htake : (l ++ lf :: rest).take (l.length + 1) = l ++ [lf] := by
    rw [List.take_length_add_append]
    rfl
  have hmod : (l.length + 1) % 2 ^ 32 = l.length + 1 := Nat.mod_eq_of_lt (by omega)
  have hmod' : (n + (l.length + 1)) % 2 ^ 32 = n + (l.length + 1) := Nat.mod_eq_of_lt (by omega)
  have hopen : ¬data.length ≤ n := by omega
  simp only [Buffer.UnpackCRLFString, Buffer.Unpack, h, hidx, Option.map_some, hmod, hmod', if_neg hopen,
    if_neg hend, htake, decide_eq_false hend, Bool.or_false]

theorem unpack_none {data : Str} {n : ℕ} (h : lf ∉ data.drop n) :
    Buffer.UnpackCRLFString ⟨data, n, false⟩ = none := by
  rw [Buffer.UnpackCRLFString, Option.map_eq_none_iff]
  exact List.idxOf?_eq_none_iff.mpr h

/-- Is the sum of the place and the size an `unsigned int` when what is left is unpacked? -/
def Unwrapped (text : Str) : Prop :=
  started text = [] ∨ (unlines (full text)).length + text.length < 2 ^ 32

instance (text : Str) : Decidable (Unwrapped text) := inferInstanceAs (Decidable (_ ∨ _))

/-- What is left is the line that is started; behind it nothing is read unless the sum wraps. -/
theorem unpack_rest {text : Str} (hsize : text.length < 2 ^ 32) :
    let r := Buffer.Unpack ⟨text, (unlines (full text)).length, false⟩ text.length
    r.1 = started text ∧ r.2.overread = decide ¬Unwrapped text := by
  have hdrop : text.drop (unlines (full text)).length = started text := by
    have h : (unlines (full text) ++ started text).drop (unlines (full text)).length = started text :=
      List.drop_left
    rwa [unlines_full] at h
  have hlen : (unlines (full text)).length + (started text).length = text.length := by
    rw [← List.length_append, unlines_full]
  have htake {n : ℕ} (h : (started text).length ≤ n) : (started text).take n = started text :=
    List.take_of_length_le h
  rw [Buffer.Unpack]
  dsimp only
  by_cases hend : text.length ≤ (unlines (full text)).length
  · have hnil : started text = [] := List.length_eq_zero_iff.mp (by omega)
    have hfits : Unwrapped text := .inl hnil
    rw [if_pos hend]
    simp [hnil, hfits]
  · have hne : started text ≠ [] := fun hn => hend (by simp [hn] at hlen; omega)
    rw [if_neg hend, hdrop]
    by_cases hsum : (unlines (full text)).length + text.length < 2 ^ 32
    · rw [Nat.mod_eq_of_lt hsum]
      refine ⟨?_, ?_⟩
      · split_ifs
        · exact htake (by rw [Nat.mod_eq_of_lt (by omega)]; omega)
        · exact htake (by omega)
      · have hfits : Unwrapped text := .inr hsum
        simp only [hfits, not_true, decide_false, Bool.false_or, decide_eq_false_iff_not]
        split_ifs
        · rw [Nat.mod_eq_of_lt (by omega : text.length - _ < 2 ^ 32)]
          omega
        · omega
    · have hwrap : ¬text.length < ((unlines (full text)).length + text.length) % 2 ^ 32 := by omega
      have hfits : ¬Unwrapped text := by
        rintro (hn | hn)
        · exact hne hn
        · exact hsum hn
      rw [if_neg hwrap]
      refine ⟨htake (by omega), ?_⟩
      simp only [hfits, not_false_eq_true, decide_true, Bool.false_or, decide_eq_true_eq]
      omega

theorem chop_concat (l : Str) : HTTPClient.chop (l ++ [lf]) = HTTPClient.chop l :=
  List.rdropWhile_concat_pos _ _ _ rfl

theorem parseLoop_shows {c₀ : HTTPClient} (more : List Str) {c : HTTPClient} {ls : List Str} {x : Str}
    (head : Str) {fuel : ℕ} (hlf : ∀ l ∈ ls ++ more, lf ∉ l) (hx : lf ∉ x)
    (hs : StatusOk (ls ++ more)) (hsize : (unlines (ls ++ more) ++ x).length < 2 ^ 32)
    (hf : more.length < fuel) (h : Shows c₀ ls (unlines (ls ++ more) ++ x) c) :
    ∃ c', HTTPClient.parseLoop fuel c head = some (c', false) ∧
      Shows c₀ (ls ++ more) (unlines (ls ++ more) ++ x) c' ∧
      c'.length = scanLength (progress ls) (more.map HTTPClient.chop) head c.length := by
  induction more generalizing c ls head fuel with
  | nil =>
    obtain ⟨fuel, rfl⟩ := Nat.exists_eq_succ_of_ne_zero (Nat.ne_zero_of_lt hf)
    have hdrop : (unlines (ls ++ []) ++ x).drop (unlines ls).length = x := by
      rw [List.append_nil, List.drop_left]
    have hnone : c.recv.UnpackCRLFString = none := by
      rw [h.recv]
      exact unpack_none (by rwa [hdrop])
    refine ⟨c, ?_, by rwa [List.append_nil] at h ⊢, rfl⟩
    rw [HTTPClient.parseLoop, hnone]
  | cons l more ih =>
    obtain ⟨fuel, rfl⟩ := Nat.exists_eq_succ_of_ne_zero (Nat.ne_zero_of_lt hf)
    have hl : lf ∉ l := hlf l (by simp)
    have hdata : ls ++ l :: more = (ls ++ [l]) ++ more := by simp
    have hlen : (unlines (ls ++ [l])).length = (unlines ls).length + (l.length + 1) := by simp
    have hdrop : (unlines (ls ++ l :: more) ++ x).drop (unlines ls).length =
        l ++ lf :: (unlines more ++ x) := by
      rw [unlines_append, List.append_assoc, List.drop_left]
      simp
    have hunpack : c.recv.UnpackCRLFString =
        some (l ++ [lf], ⟨unlines (ls ++ l :: more) ++ x, (unlines (ls ++ [l])).length, false⟩) := by
      rw [h.recv, unpack_line hl hdrop hsize, hlen]
    have hstatus : (progress ls).state = .waitingForHeader →
        (HTTPClient.splitBlank (HTTPClient.chop l)).1 ≠ none ∧
          (strtoul (HTTPClient.splitBlank (HTTPClient.chop l)).2).toUInt32 = 200 := by
      intro hw
      obtain rfl : ls = [] := by
        by_contra hne
        exact progress_state hne hw
      exact hs l rfl
    have hcode : (progress ls).state ≠ .waitingForHeader → c.code = 200 := by
      intro hw
      refine h.code ?_
      rintro rfl
      exact hw rfl
    obtain ⟨c', head', hc', hsame, hst, hcont, hcode', hscan⟩ := parseLine_ok
      (c := { c with recv := ⟨unlines (ls ++ l :: more) ++ x, (unlines (ls ++ [l])).length, false⟩, lastOperation := c.now })
      h.state h.content hcode hstatus head
    have hshows : Shows c₀ (ls ++ [l]) (unlines ((ls ++ [l]) ++ more) ++ x) c' := by
      refine ⟨hsame.queue.trans h.queue, hsame.acks.trans h.acks, hsame.sent.trans h.sent,
        hsame.sock.trans h.sock, hdata ▸ hsame.recv, ?_, ?_, fun _ => hcode'⟩
      · rw [progress_append]
        exact hst
      · rw [progress_append]
        exact hcont
    rw [hdata] at hlf hs hsize
    have hf' : more.length < fuel := by
      rw [List.length_cons] at hf
      omega
    obtain ⟨c'', hc'', hshows', hlength⟩ := ih head' hlf hs hsize hf' hshows
    refine ⟨c'', ?_, hdata ▸ hshows', ?_⟩
    · rw [HTTPClient.parseLoop, hunpack]
      simp only [chop_concat, hc', Option.bind_eq_bind, Option.bind_some]
      exact hc''
    · rw [List.map_cons, hscan, hlength, progress_append]

end CenterIM.HttpReading
