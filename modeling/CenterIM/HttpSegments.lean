import CenterIM.HttpReading

/-!
# Responses that arrive in segments

A response is delivered as a whole exactly when the client has received all of it at the first
time at which the buffer is as long as the length that was given in the same read event.
-/
namespace CenterIM.HttpSegments
open ByteText Decimal HttpClient HttpReading

/-- `max_receive_size`. -/
abbrev max_receive_size : ℕ := 4096

/-- What the calls of `recv` give of a segment. -/
def chunks : ℕ → Str → List Str
  | 0, _ => []
  | fuel + 1, s =>
    if s = [] then [] else s.take max_receive_size :: chunks fuel (s.drop max_receive_size)

theorem chunks_flatten (fuel : ℕ) {s : Str} (h : s.length ≤ fuel) : (chunks fuel s).flatten = s := by
  induction fuel generalizing s with
  | zero => simp [chunks, List.length_eq_zero_iff.mp (Nat.le_zero.mp h)]
  | succ fuel ih =>
    rw [chunks]
    split_ifs with hs
    · rw [hs]
      rfl
    · have hpos := List.length_pos_iff.mpr hs
      have hle : (s.drop max_receive_size).length ≤ fuel := by
        rw [List.length_drop, max_receive_size]
        omega
      rw [List.flatten_cons, ih hle, List.take_append_drop]

def readEvent (seg : Str) : Event :=
  .readable ((chunks seg.length seg).map .data ++ [.again])

/-- The length that is expected when a chunk was read after `text`. -/
def expected (text chunk : Str) (length : UInt64) : UInt64 :=
  scanLength (progress (full text))
    (((full (text ++ chunk)).drop (full text).length).map HTTPClient.chop) [] length

/-- The text that is received after the chunks of a segment, and whether the length that was read
with them is reached. -/
def stopsAt : Str → UInt64 → List Str → Str × Bool
  | text, _, [] => (text, false)
  | text, length, chunk :: rest =>
    let length := expected text chunk length
    if length ≠ 0 ∧ length.toNat ≤ (text ++ chunk).length then (text ++ chunk, true)
    else stopsAt (text ++ chunk) length rest

/-- The text that is received when the client stops. -/
def received : Str → List Str → Str
  | text, [] => text
  | text, seg :: segs =>
    let r := stopsAt text 0 (chunks seg.length seg)
    if r.2 then r.1 else received r.1 segs

theorem stopsAt_flatten {segs : List Str} {text : Str} {length : UInt64}
    (h : (stopsAt text length segs).2 = false) : (stopsAt text length segs).1 = text ++ segs.flatten := by
  induction segs generalizing text length with
  | nil => simp [stopsAt]
  | cons chunk rest ih =>
    simp only [stopsAt] at h ⊢
    split_ifs at h ⊢ with hstop
    rw [ih h, List.flatten_cons, List.append_assoc]

theorem stopsAt_front {whole : Str} (segs : List Str) {text : Str} {length : UInt64}
    (hp : text ++ segs.flatten <+: whole) : (stopsAt text length segs).1 <+: whole := by
  induction segs generalizing text length with
  | nil => simpa [stopsAt] using hp
  | cons chunk rest ih =>
    rw [List.flatten_cons, ← List.append_assoc] at hp
    simp only [stopsAt]
    split_ifs
    · exact (List.prefix_append _ _).trans hp
    · exact ih hp

theorem statusOk_of_le {s t : Str} (h : StatusOk (full t)) (hp : s <+: t) : StatusOk (full s) := by
  obtain ⟨u, rfl⟩ := hp
  rw [full_append] at h
  intro l hl
  refine h l ?_
  rw [List.head?_append, hl]
  rfl

theorem length_lt_of_prefix {s t : Str} (hp : s <+: t) (h : t.length < 2 ^ 32) : s.length < 2 ^ 32 :=
  lt_of_le_of_lt hp.length_le h

theorem Parse_shows {c₀ c : HTTPClient} {text chunk : Str} (hq : c₀.queue ≠ [])
    (hs : StatusOk (full (text ++ chunk))) (hsize : (text ++ chunk).length < 2 ^ 32)
    (h : Shows c₀ (full text) text c) :
    ∃ c', { c with recv := c.recv.Pack chunk }.Parse = some (c', false) ∧
      Shows c₀ (full (text ++ chunk)) (text ++ chunk) c' ∧ c'.length = expected text chunk c.length := by
  have hfull := full_append text chunk
  have hdata : unlines (full text ++ full (started text ++ chunk)) ++ started (text ++ chunk) =
      text ++ chunk := by
    rw [← hfull, unlines_full]
  have hpack : c.recv.Pack chunk = ⟨text ++ chunk, (unlines (full text)).length, false⟩ := by
    rw [h.recv]
    rfl
  have hmore : (full (started text ++ chunk)).length < (text ++ chunk).length + 1 := by
    have hle := lines_length_le (text ++ chunk)
    rw [lines_eq, hfull] at hle
    simp only [List.length_append, List.length_singleton] at hle ⊢
    omega
  have hlf : ∀ l ∈ full text ++ full (started text ++ chunk), lf ∉ l := by
    rw [← hfull]
    exact fun l => lf_not_mem_full
  have hshows : Shows c₀ (full text)
      (unlines (full text ++ full (started text ++ chunk)) ++ started (text ++ chunk))
      { c with recv := c.recv.Pack chunk } := by
    rw [hdata]
    exact ⟨h.queue, h.acks, h.sent, h.sock, hpack, h.state, h.content, h.code⟩
  obtain ⟨c', hc', hshows', hlength⟩ := parseLoop_shows _ [] hlf
    (lf_not_mem_started _) (hfull ▸ hs) (by rw [hdata]; exact hsize) hmore hshows
  rw [hdata, ← hfull] at hshows'
  refine ⟨c', ?_, hshows', ?_⟩
  · rw [HTTPClient.Parse, if_neg (by rw [h.queue]; exact hq)]
    simp only [hpack] at hc' ⊢
    exact hc'
  · rw [hlength, expected, hfull, List.drop_left]

theorem reached_iff {c₀ c : HTTPClient} {ls : List Str} {text : Str} (h : Shows c₀ ls text c)
    (hsize : text.length < 2 ^ 32) : c.lengthReached ↔ c.length ≠ 0 ∧ c.length.toNat ≤ text.length := by
  rw [HTTPClient.lengthReached, h.recv, Buffer.size, Nat.mod_eq_of_lt hsize]

theorem recvLoop_shows {c₀ : HTTPClient} (hq : c₀.queue ≠ []) {whole : Str} (hs : StatusOk (full whole))
    (hsize : whole.length < 2 ^ 32) (segs : List Str) {c : HTTPClient} {text : Str}
    (hp : text ++ segs.flatten <+: whole) (h : Shows c₀ (full text) text c) (hr : ¬c.lengthReached) :
    ∃ c', HTTPClient.recvLoop (segs.map .data ++ [.again]) c = some (c', .normally) ∧
      Shows c₀ (full (stopsAt text c.length segs).1) (stopsAt text c.length segs).1 c' ∧
      (c'.lengthReached ↔ (stopsAt text c.length segs).2 = true) := by
  induction segs generalizing c text with
  | nil => exact ⟨c, if_pos h.sock, h, by simp [stopsAt, hr]⟩
  | cons chunk rest ih =>
    rw [List.flatten_cons, ← List.append_assoc] at hp
    have hpre : text ++ chunk <+: whole := (List.prefix_append _ _).trans hp
    have hsize' := length_lt_of_prefix hpre hsize
    obtain ⟨c', hc', hshows, hlength⟩ := Parse_shows hq (statusOk_of_le hs hpre) hsize' h
    have hreach := reached_iff hshows hsize'
    rw [List.map_cons, List.cons_append, HTTPClient.recvLoop, if_pos h.sock, hc']
    simp only [Option.bind_eq_bind, Option.bind_some, stopsAt, Bool.false_eq_true, if_false]
    rw [hlength] at hreach
    by_cases hstop : c'.lengthReached
    · rw [if_pos hstop, if_pos (hreach.mp hstop)]
      exact ⟨c', rfl, hshows, by simp [hstop]⟩
    · rw [if_neg hstop, if_neg fun hn => hstop (hreach.mpr hn), ← hlength]
      exact ih hp hshows hstop

def contentOf (text : Str) : Str := (progress (full text)).content ++ started text

def answered (ev : HTTPRequestEvent) (content : Str) : HTTPRequestEvent :=
  { ev with delivered := true, finished := true, content }

/-- The request is acknowledged with the content of a text, which was read behind its end if the
sum wraps, and the connection is over. -/
structure Answered (c₀ : HTTPClient) (ev : HTTPRequestEvent) (text : Str) (c : HTTPClient) : Prop where
  acks : c.acks = c₀.acks ++ [⟨answered ev (contentOf text), c₀.sent⟩]
  overread : c.recv.overread = decide ¬Unwrapped text
  sock : c.sock = .notConnected

theorem finish_shows {c₀ c : HTTPClient} {ev : HTTPRequestEvent} {q : List HTTPRequestEvent}
    (hq : c₀.queue = ev :: q) {text : Str} (hsize : text.length < 2 ^ 32)
    (h : Shows c₀ (full text) text c) : ∃ c', c.Disconnect.finish = some c' ∧ Answered c₀ ev text c' := by
  obtain ⟨hremains, hover⟩ := unpack_rest hsize
  have hlen : Buffer.size ⟨text, (unlines (full text)).length, false⟩ = text.length := Nat.mod_eq_of_lt hsize
  have hqueue : c.queue = ev :: q := h.queue.trans hq
  simp only [HTTPClient.finish, HTTPClient.Disconnect, HTTPClient.ackFront, hqueue, h.recv, h.acks, h.sent,
    h.content, hlen, hremains]
  exact ⟨_, rfl, rfl, hover, rfl⟩

theorem readable_shows {c₀ c : HTTPClient} {ev : HTTPRequestEvent} {q : List HTTPRequestEvent}
    (hq : c₀.queue = ev :: q) {whole : Str} (hs : StatusOk (full whole)) (hsize : whole.length < 2 ^ 32)
    (segs : List Str) {text : Str} (hp : text ++ segs.flatten <+: whole)
    (h : Shows c₀ (full text) text c) :
    ∃ c', c.readable (segs.map .data ++ [.again]) = some c' ∧
      if (stopsAt text 0 segs).2 then Answered c₀ ev (stopsAt text 0 segs).1 c'
      else Shows c₀ (full (stopsAt text 0 segs).1) (stopsAt text 0 segs).1 c' := by
  have hne : c₀.queue ≠ [] := by simp [hq]
  have h0 : Shows c₀ (full text) text { c with length := 0 } :=
    ⟨h.queue, h.acks, h.sent, h.sock, h.recv, h.state, h.content, h.code⟩
  have hr : ¬{ c with length := 0 }.lengthReached := fun hn => hn.1 rfl
  obtain ⟨d, hd, hshows, hreach⟩ := recvLoop_shows hne hs hsize segs hp h0 hr
  dsimp only at hshows hreach
  rw [HTTPClient.readable, if_pos h.sock, HTTPClient.Recv, hd]
  simp only [Option.bind_eq_bind, Option.bind_some]
  by_cases hstop : d.lengthReached
  · have hfront : (stopsAt text 0 segs).1 <+: whole := stopsAt_front segs hp
    have hsize' := length_lt_of_prefix hfront hsize
    obtain ⟨c', hc', hans⟩ := finish_shows hq hsize' hshows
    simp only [if_pos hstop, if_pos (hreach.mp hstop)]
    exact ⟨c', hc', hans⟩
  · simp only [if_neg hstop, if_neg fun hn => hstop (hreach.mpr hn)]
    exact ⟨d, rfl, hshows⟩

theorem readable_closed {c₀ c : HTTPClient} {ev : HTTPRequestEvent} {q : List HTTPRequestEvent}
    (hq : c₀.queue = ev :: q) {text : Str} (hsize : text.length < 2 ^ 32)
    (h : Shows c₀ (full text) text c) : ∃ c', c.readable [.closed] = some c' ∧ Answered c₀ ev text c' := by
  have h0 : Shows c₀ (full text) text { c with length := 0 } :=
    ⟨h.queue, h.acks, h.sent, h.sock, h.recv, h.state, h.content, h.code⟩
  have hloop : HTTPClient.recvLoop [.closed] { c with length := 0 } =
      some ({ c with length := 0, sock := .notConnected }, .socketException) := if_pos h.sock
  obtain ⟨c', hc', hans⟩ := finish_shows hq hsize h0
  refine ⟨c', ?_, hans⟩
  rw [HTTPClient.readable, if_pos h.sock, HTTPClient.Recv, hloop]
  exact hc'

/-- Segments, each with the time at which it arrives, and then the end of the connection. -/
def deliver (c : HTTPClient) (segs : List (ℤ × Str)) (closed : ℤ) : Option HTTPClient := do
  let c ← segs.foldlM (fun c seg => c.handle { event := readEvent seg.2, now := seg.1 }) c
  c.handle { event := .readable [.closed], now := closed }

theorem deliver_cons (c : HTTPClient) (seg : ℤ × Str) (segs : List (ℤ × Str)) (closed : ℤ) :
    deliver c (seg :: segs) closed =
      (c.handle { event := readEvent seg.2, now := seg.1 }).bind (deliver · segs closed) := by
  rw [deliver, List.foldlM_cons]
  cases c.handle { event := readEvent seg.2, now := seg.1 } <;> rfl

theorem deliver_idle {c : HTTPClient} (h : c.sock = .notConnected) (segs : List (ℤ × Str)) (closed : ℤ) :
    ∃ c', deliver c segs closed = some c' ∧ c'.acks = c.acks ∧ c'.recv = c.recv := by
  have hidle (c : HTTPClient) (h : c.sock = .notConnected) (t : ℤ) (rs : List RecvResult) :
      c.handle { event := .readable rs, now := t } = some (c.tick { event := .readable rs, now := t }) := by
    refine if_neg fun hn => ?_
    have hs : c.sock = .connected := hn
    rw [h] at hs
    cases hs
  induction segs generalizing c with
  | nil => exact ⟨_, hidle c h closed _, rfl, rfl⟩
  | cons seg segs ih =>
    rw [deliver_cons, readEvent, hidle c h]
    exact ih h

/-- What the request is acknowledged with, and whether more was read than was received. -/
theorem deliver_shows {c₀ : HTTPClient} {ev : HTTPRequestEvent} {q : List HTTPRequestEvent}
    (hq : c₀.queue = ev :: q) {whole : Str} (hs : StatusOk (full whole)) (hsize : whole.length < 2 ^ 32)
    (segs : List (ℤ × Str)) (closed : ℤ) {c : HTTPClient} {text : Str}
    (hp : text ++ (segs.map Prod.snd).flatten <+: whole) (h : Shows c₀ (full text) text c) :
    ∃ c', deliver c segs closed = some c' ∧ c'.acks = c₀.acks ++
      [⟨answered ev (contentOf (received text (segs.map Prod.snd))), c₀.sent⟩] ∧
      c'.recv.overread = decide ¬Unwrapped (received text (segs.map Prod.snd)) := by
  have htick (c : HTTPClient) (i : Input) {ls : List Str} {text : Str} (h : Shows c₀ ls text c) :
      Shows c₀ ls text (c.tick i) :=
    ⟨h.queue, h.acks, h.sent, h.sock, h.recv, h.state, h.content, h.code⟩
  induction segs generalizing c text with
  | nil =>
    have hsize' := length_lt_of_prefix ((List.prefix_append _ _).trans hp) hsize
    obtain ⟨c', hc', hans⟩ :=
      readable_closed hq hsize' (htick c { event := .readable [.closed], now := closed } h)
    exact ⟨c', hc', hans.acks, hans.overread⟩
  | cons seg segs ih =>
    have hflat : (chunks seg.2.length seg.2).flatten = seg.2 := chunks_flatten _ le_rfl
    rw [List.map_cons, List.flatten_cons, ← List.append_assoc] at hp
    have hpre : text ++ (chunks seg.2.length seg.2).flatten <+: whole := by
      rw [hflat]
      exact (List.prefix_append _ _).trans hp
    obtain ⟨d, hd, hr⟩ := readable_shows hq hs hsize (chunks seg.2.length seg.2) hpre
      (htick c { event := readEvent seg.2, now := seg.1 } h)
    have hhandle : c.handle { event := readEvent seg.2, now := seg.1 } = some d := hd
    rw [deliver_cons, hhandle, Option.bind_some, List.map_cons, received]
    cases hstop : (stopsAt text 0 (chunks seg.2.length seg.2)).2 with
    | true =>
      rw [hstop] at hr
      have hans : Answered c₀ ev _ d := hr
      obtain ⟨c', hc', hacks, hrecv⟩ := deliver_idle hans.sock segs closed
      exact ⟨c', hc', hacks.trans hans.acks, (congrArg Buffer.overread hrecv).trans hans.overread⟩
    | false =>
      rw [hstop] at hr
      refine ih ?_ hr
      rw [stopsAt_flatten hstop, hflat]
      exact hp

end CenterIM.HttpSegments
