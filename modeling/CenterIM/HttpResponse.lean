import CenterIM.HttpSegments

/-!
# When the segmentation of a response does not matter

A well formed response with status 200 and its exact length is delivered with its whole body,
however it is cut, exactly when the client waits for all of it.
-/
namespace CenterIM.HttpResponse
open ByteText Decimal StrText HttpClient HttpReading HttpSegments

structure Field where
  name : Str
  value : Str
  deriving DecidableEq

def Field.line (f : Field) : Str := f.name ++ 58 :: f.value

structure Response where
  version : Str
  reason : Str
  fields : List Field
  body : Str
  deriving DecidableEq

def Response.status (r : Response) : Str := r.version ++ bytes " 200" ++ r.reason

/-- The lines of the header with the empty line after it. -/
def Response.header (r : Response) : List Str := r.status :: (r.fields.map Field.line ++ [[]])

def Response.text (r : Response) : Str := unlines (r.header.map (· ++ [cr])) ++ r.body

def InLine (s : Str) : Prop := cr ∉ s ∧ lf ∉ s

instance (s : Str) : Decidable (InLine s) := inferInstanceAs (Decidable (_ ∧ _))

def IsLength (n : ℕ) (value : Str) : Prop :=
  ∃ before digits after, value = before ++ digits ++ after ∧ (∀ c ∈ before ++ after, c = blank ∨ c = tab) ∧
    digits ≠ [] ∧ (∀ c ∈ digits, isdigit c = true) ∧ leadingNumber 10 digits = n

structure Response.WellFormed (r : Response) : Prop where
  version : blank ∉ r.version ∧ InLine r.version
  reason : InLine r.reason ∧ ∀ c, r.reason.head? = some c → c = blank
  name : ∀ f ∈ r.fields, f.name ≠ [] ∧ blank ∉ f.name ∧ tab ∉ f.name ∧ 58 ∉ f.name ∧ InLine f.name
  value : ∀ f ∈ r.fields, InLine f.value
  length : ∃ f, r.fields.filter (fun f => up f.name = bytes "CONTENT-LENGTH") = [f] ∧
    IsLength r.body.length f.value

def unCR (l : Str) : Str := if l.getLast? = some cr then l.dropLast else l

/-- The text with line feeds for its CRLF line ends. -/
def normalise (s : Str) : Str := unlines ((full s).map unCR) ++ started s

theorem inLine_header {r : Response} (h : r.WellFormed) : ∀ l ∈ r.header, InLine l := by
  have happ {s t : Str} (hs : InLine s) (ht : InLine t) : InLine (s ++ t) := by
    simp only [InLine, List.mem_append, not_or] at *
    exact ⟨⟨hs.1, ht.1⟩, hs.2, ht.2⟩
  intro l hl
  rcases List.mem_cons.mp hl with rfl | hl
  · exact happ (happ h.version.2 (by simp [InLine]; decide)) h.reason.1
  · rcases List.mem_append.mp hl with hl | hl
    · obtain ⟨f, hf, rfl⟩ := List.mem_map.mp hl
      refine happ (h.name f hf).2.2.2.2 ?_
      have hv := h.value f hf
      simp only [InLine, List.mem_cons, not_or] at hv ⊢
      exact ⟨⟨by decide, hv.1⟩, by decide, hv.2⟩
    · obtain rfl := List.mem_singleton.mp hl
      simp [InLine]

theorem chop_line {l : Str} (h : InLine l) : HTTPClient.chop (l ++ [cr]) = l := by
  rw [HTTPClient.chop, List.rdropWhile_concat_pos _ _ _ rfl, List.rdropWhile_eq_self_iff]
  intro hne hp
  have hm := List.getLast_mem hne
  simp only [Bool.or_eq_true, beq_iff_eq] at hp
  rcases hp with hp | hp
  · exact h.1 (hp ▸ hm)
  · exact h.2 (hp ▸ hm)

theorem chop_header {r : Response} (h : r.WellFormed) :
    (r.header.map (· ++ [cr])).map HTTPClient.chop = r.header := by
  rw [List.map_map]
  conv_rhs => rw [← List.map_id r.header]
  exact List.map_congr_left fun l hl => chop_line (inLine_header h l hl)

theorem lf_header {r : Response} (h : r.WellFormed) : ∀ l ∈ r.header.map (· ++ [cr]), lf ∉ l := by
  intro l hl
  obtain ⟨k, hk, rfl⟩ := List.mem_map.mp hl
  simp only [List.mem_append, List.mem_singleton, not_or]
  exact ⟨(inLine_header h k hk).2, by decide⟩

theorem full_text {r : Response} (h : r.WellFormed) :
    full r.text = r.header.map (· ++ [cr]) ++ full r.body ∧ started r.text = started r.body :=
  full_unlines (lf_header h) _

theorem strtoul_200 {s : Str} (h : ∀ c, s.head? = some c → c = blank) :
    strtoul (bytes "200" ++ s) = 200 := by
  have htake : (bytes "200" ++ s).takeWhile (fun c => decide (digitValue c < 10)) = bytes "200" := by
    have hdigits : ∀ c ∈ bytes "200", decide (digitValue c < 10) = true := by decide +kernel
    rw [List.takeWhile_append_of_pos hdigits]
    cases s with
    | nil => rfl
    | cons c s =>
      obtain rfl := h c rfl
      rfl
  have hnum : leadingNumber 10 (bytes "200" ++ s) = 200 := by
    rw [leadingNumber, htake]
    rfl
  have hsign : scanSign (bytes "200" ++ s) = (false, bytes "200" ++ s) := rfl
  have hbase : autoBase (bytes "200" ++ s) = (10, bytes "200" ++ s) := rfl
  rw [strtoul, hsign]
  dsimp only
  rw [hbase]
  dsimp only
  rw [hnum]
  rfl

theorem splitBlank_append {s : Str} (h : blank ∉ s) (t : Str) :
    HTTPClient.splitBlank (s ++ blank :: t) = (some s, t) := by
  have hidx : (s ++ blank :: t).idxOf? blank = some s.length := by
    rw [List.idxOf?_eq_some_iff]
    refine ⟨by simp, by simp, fun j hj he => h ?_⟩
    rw [List.getElem_append_left hj] at he
    exact he ▸ List.getElem_mem _
  have hdrop : (s ++ blank :: t).drop (s.length + 1) = t := by
    rw [List.drop_length_add_append]
    rfl
  rw [HTTPClient.splitBlank, hidx]
  simp only [List.take_left, hdrop]

theorem statusOk_text {r : Response} (h : r.WellFormed) : StatusOk (full r.text) := by
  have hline : r.status = r.version ++ blank :: (bytes "200" ++ r.reason) := by
    simp [Response.status, bytes]
  intro l hl
  rw [(full_text h).1] at hl
  obtain rfl : r.status ++ [cr] = l := Option.some.inj hl
  rw [chop_line (inLine_header h _ List.mem_cons_self), hline, splitBlank_append h.version.1,
    strtoul_200 h.reason.2]
  exact ⟨nofun, rfl⟩

theorem foldl_fields {ls : List Str} (h : ∀ l ∈ ls, l ≠ []) (content : Str) :
    ls.foldl Progress.line ⟨.receivingHeader, content⟩ = ⟨.receivingHeader, content⟩ := by
  induction ls with
  | nil => rfl
  | cons l ls ih =>
    have hl : Progress.line ⟨.receivingHeader, content⟩ l = ⟨.receivingHeader, content⟩ := by
      rw [Progress.line]
      simp only [if_neg (h l List.mem_cons_self)]
    rw [List.foldl_cons, hl]
    exact ih fun k hk => h k (List.mem_cons_of_mem _ hk)

theorem foldl_content (ls : List Str) (content : Str) :
    ls.foldl Progress.line ⟨.receivingContent, content⟩ = ⟨.receivingContent, content ++ unlines ls⟩ := by
  induction ls generalizing content with
  | nil => simp
  | cons l ls ih =>
    rw [List.foldl_cons, Progress.line, ih]
    simp

theorem fields_ne_nil {r : Response} : ∀ l ∈ r.fields.map Field.line, l ≠ [] := by
  intro l hl
  obtain ⟨f, -, rfl⟩ := List.mem_map.mp hl
  simp [Field.line]

theorem progress_body {r : Response} (h : r.WellFormed) (ls : List Str) :
    progress (r.header.map (· ++ [cr]) ++ ls) = ⟨.receivingContent, unlines (ls.map HTTPClient.chop)⟩ := by
  rw [progress, List.map_append, chop_header h, Response.header, List.cons_append, List.foldl_cons,
    List.append_assoc, List.foldl_append]
  have hstatus : Progress.line ⟨.waitingForHeader, []⟩ r.status = ⟨.receivingHeader, []⟩ := rfl
  rw [hstatus, foldl_fields fields_ne_nil, List.singleton_append, List.foldl_cons]
  have hblank : Progress.line ⟨.receivingHeader, []⟩ [] = ⟨.receivingContent, []⟩ := rfl
  rw [hblank, foldl_content, List.nil_append]

/-- Nothing of the body is read while the header is not complete. -/
theorem progress_header {r : Response} (h : r.WellFormed) {ls : List Str}
    (hp : ls <+: r.header.map (· ++ [cr])) (hlen : ls.length < r.header.length) :
    (progress ls).content = [] := by
  have hls : ls.map HTTPClient.chop = r.header.take ls.length := by
    obtain ⟨more, hmore⟩ := hp
    have hchop := chop_header h
    rw [← hmore, List.map_append] at hchop
    rw [← hchop, List.take_left' (List.length_map ..)]
  rw [progress, hls, Response.header]
  cases hk : ls.length with
  | zero => rfl
  | succ k =>
    have hk' : k ≤ (r.fields.map Field.line).length := by
      simp only [Response.header, List.length_cons, List.length_append, List.length_map, List.length_nil] at hlen
      simp only [List.length_map]
      omega
    have hstatus : Progress.line ⟨.waitingForHeader, []⟩ r.status = ⟨.receivingHeader, []⟩ := rfl
    rw [List.take_succ_cons, List.foldl_cons, hstatus, List.take_append_of_le_length hk',
      foldl_fields fun l hl => fields_ne_nil l (List.mem_of_mem_take hl)]

/-- A line loses just its own carriage return, unless it ends in two. -/
theorem chop_eq_iff {l : Str} (h : lf ∉ l) : HTTPClient.chop l = unCR l ↔ ¬[cr, cr] <:+ l := by
  rcases List.eq_nil_or_concat l with rfl | ⟨k, c, rfl⟩
  · simp [HTTPClient.chop, unCR]
  · rw [List.concat_eq_append] at *
    have hc : c ≠ lf := fun he => h (by simp [he])
    have hk : lf ∉ k := fun hm => h (by simp [hm])
    by_cases hcr : c = cr
    · subst hcr
      have hun : unCR (k ++ [cr]) = k := by simp [unCR]
      have hsuff : [cr, cr] <:+ k ++ [cr] ↔ k.getLast? = some cr := by
        rw [List.getLast?_eq_some_iff]
        constructor
        · rintro ⟨s, hs⟩
          have hs' : (s ++ [cr]) ++ [cr] = k ++ [cr] := by simpa using hs
          exact ⟨s, (List.append_cancel_right hs').symm⟩
        · rintro ⟨s, rfl⟩
          exact ⟨s, by simp⟩
      rw [hun, hsuff, HTTPClient.chop, List.rdropWhile_concat_pos _ _ _ rfl, List.rdropWhile_eq_self_iff]
      constructor
      · intro hall hlast
        have hne : k ≠ [] := by
          rintro rfl
          simp at hlast
        refine hall hne ?_
        rw [List.getLast?_eq_some_getLast hne] at hlast
        simp [Option.some.inj hlast]
      · intro hlast hne hp
        simp only [Bool.or_eq_true, beq_iff_eq] at hp
        rcases hp with hp | hp
        · exact hlast (by rw [List.getLast?_eq_some_getLast hne, hp])
        · exact hk (hp ▸ List.getLast_mem hne)
    · have hun : unCR (k ++ [c]) = k ++ [c] := by simp [unCR, hcr]
      have hchop : HTTPClient.chop (k ++ [c]) = k ++ [c] := by
        rw [HTTPClient.chop, List.rdropWhile_concat_neg]
        simp [hcr, hc]
      refine iff_of_true (hchop.trans hun.symm) ?_
      rintro ⟨s, hs⟩
      have hlast := congrArg List.getLast? hs
      rw [List.getLast?_append_of_ne_nil _ (by simp), List.getLast?_append_of_ne_nil _ (by simp)] at hlast
      exact hcr (Option.some.inj hlast).symm

theorem lf_chop {l : Str} (h : lf ∉ l) : lf ∉ HTTPClient.chop l :=
  fun hm => h ((List.rdropWhile_prefix _ _).subset hm)

theorem lf_unCR {l : Str} (h : lf ∉ l) : lf ∉ unCR l := by
  rw [unCR]
  split_ifs
  · exact fun hm => h (List.dropLast_subset _ hm)
  · exact h

/-- The content that a part of the body gives is the whole body just when it is the whole, and
no line loses more than its end. -/
theorem content_eq_iff {part body : Str} (hp : part <+: body) :
    unlines ((full part).map HTTPClient.chop) ++ started part = normalise body ↔
      part = body ∧ ∀ l ∈ full body, ¬[cr, cr] <:+ l := by
  have hchop : ∀ l ∈ (full part).map HTTPClient.chop, lf ∉ l := by
    intro l hl
    obtain ⟨k, hk, rfl⟩ := List.mem_map.mp hl
    exact lf_chop (lf_not_mem_full hk)
  have hun : ∀ l ∈ (full body).map unCR, lf ∉ l := by
    intro l hl
    obtain ⟨k, hk, rfl⟩ := List.mem_map.mp hl
    exact lf_unCR (lf_not_mem_full hk)
  constructor
  · intro he
    obtain ⟨h1, h2⟩ := unlines_inj hchop hun (lf_not_mem_started _) (lf_not_mem_started _) he
    have hlen : (full part).length = (full body).length := by
      have hl := congrArg List.length h1
      simpa using hl
    have hfull : full part = full body := by
      obtain ⟨t, rfl⟩ := hp
      rw [full_append] at hlen ⊢
      rw [List.length_append] at hlen
      have hnil : full (started part ++ t) = [] := List.length_eq_zero_iff.mp (by omega)
      rw [hnil, List.append_nil]
    have heq : part = body := by rw [← unlines_full part, ← unlines_full body, hfull, h2]
    refine ⟨heq, fun l hl => ?_⟩
    rw [heq] at h1
    exact (chop_eq_iff (lf_not_mem_full hl)).mp (List.map_inj_left.mp h1 l hl)
  · rintro ⟨rfl, hall⟩
    rw [normalise, List.map_congr_left fun l hl => (chop_eq_iff (lf_not_mem_full hl)).mpr (hall l hl)]

/-- What a received part of a response gives: the line of the header that is started, or the
lines of the body. -/
theorem contentOf_cases {r : Response} (h : r.WellFormed) {text : Str} (hp : text <+: r.text) :
    ((full text).length < r.header.length ∧ contentOf text = started text) ∨
      (r.header.length ≤ (full text).length ∧ ∃ part, part <+: r.body ∧
        text = unlines (r.header.map (· ++ [cr])) ++ part ∧
        contentOf text = unlines ((full part).map HTTPClient.chop) ++ started part) := by
  have hfull : full text <+: r.header.map (· ++ [cr]) ++ full r.body := by
    rw [← (full_text h).1]
    obtain ⟨t, ht⟩ := hp
    rw [← ht, full_append]
    exact List.prefix_append ..
  by_cases hlen : (full text).length < r.header.length
  · left
    have hpre : full text <+: r.header.map (· ++ [cr]) :=
      List.prefix_of_prefix_length_le hfull (List.prefix_append ..) (by rw [List.length_map]; omega)
    refine ⟨hlen, ?_⟩
    rw [contentOf, progress_header h hpre hlen, List.nil_append]
  · right
    obtain ⟨ls, hls⟩ := List.prefix_of_prefix_length_le (List.prefix_append ..) hfull
      (by rw [List.length_map]; omega : (r.header.map (· ++ [cr])).length ≤ (full text).length)
    have htext : text = unlines (r.header.map (· ++ [cr])) ++ (unlines ls ++ started text) := by
      conv_lhs => rw [← unlines_full text, ← hls, unlines_append, List.append_assoc]
    have hlf : ∀ l ∈ ls, lf ∉ l := fun l hl =>
      lf_not_mem_full (hls ▸ List.mem_append_right _ hl : l ∈ full text)
    obtain ⟨h1, h2⟩ := full_unlines hlf (started text)
    rw [(full_of_not_mem (lf_not_mem_started text)).1, List.append_nil] at h1
    rw [(full_of_not_mem (lf_not_mem_started text)).2] at h2
    refine ⟨by omega, unlines ls ++ started text, ?_, htext, ?_⟩
    · rw [htext, Response.text, List.prefix_append_right_inj] at hp
      exact hp
    · rw [contentOf, ← hls, progress_body h, h1, h2]

/-- The client waits for all of the response, or it stops inside the header, at a line that
looks like the body. -/
def Whole (r : Response) (segs : List Str) : Prop :=
  received [] segs = r.text ∨
    (full (received [] segs)).length < r.header.length ∧ started (received [] segs) = normalise r.body

theorem whole_iff {r : Response} (h : r.WellFormed) {segs : List Str} (hp : received [] segs <+: r.text) :
    contentOf (received [] segs) = normalise r.body ↔
      (∀ l ∈ full r.body, ¬[cr, cr] <:+ l) ∧ Whole r segs := by
  have hheader : r.header.length ≤ (full r.text).length := by
    rw [(full_text h).1, List.length_append, List.length_map]
    omega
  rw [Whole]
  generalize received [] segs = text at hp ⊢
  obtain ⟨hlen, hcontent⟩ | ⟨hlen, part, hpart, htext, hcontent⟩ := contentOf_cases h hp
  · rw [hcontent]
    constructor
    · intro he
      have hlf : lf ∉ normalise r.body := he ▸ lf_not_mem_started text
      have hnil : full r.body = [] := by
        rw [normalise] at hlf
        cases hfull : full r.body with
        | nil => rfl
        | cons l ls => simp [hfull] at hlf
      exact ⟨by simp [hnil], .inr ⟨hlen, he⟩⟩
    · rintro ⟨-, rfl | ⟨-, he⟩⟩
      · omega
      · exact he
  · rw [hcontent, content_eq_iff hpart]
    constructor
    · rintro ⟨rfl, hall⟩
      exact ⟨hall, .inl htext⟩
    · rintro ⟨hall, he | ⟨hlt, -⟩⟩
      · exact ⟨List.append_cancel_left (htext.symm.trans he), hall⟩
      · omega

theorem received_front {whole : Str} (segs : List Str) {text : Str} (hp : text ++ segs.flatten <+: whole) :
    received text segs <+: whole := by
  induction segs generalizing text with
  | nil => simpa [received] using hp
  | cons seg segs ih =>
    have hflat : (chunks seg.length seg).flatten = seg := chunks_flatten _ le_rfl
    rw [List.flatten_cons, ← List.append_assoc] at hp
    rw [received]
    cases hstop : (stopsAt text 0 (chunks seg.length seg)).2 with
    | true =>
      refine (stopsAt_front _ ?_ : _ <+: whole)
      rw [hflat]
      exact (List.prefix_append _ _).trans hp
    | false =>
      refine ih ?_
      rw [stopsAt_flatten hstop, hflat]
      exact hp

/-- A client that has sent its first request and waits for the response. -/
structure Awaiting (c : HTTPClient) (ev : HTTPRequestEvent) (q : List HTTPRequestEvent) : Prop where
  queue : c.queue = ev :: q
  sock : c.sock = .connected
  state : c.state = .waitingForHeader
  recv : c.recv = {}
  content : c.content = []

/-- The request is acknowledged with the content of what is received. -/
theorem deliver_response {r : Response} (h : r.WellFormed) (hsize : r.text.length < 2 ^ 32)
    {c : HTTPClient} {ev : HTTPRequestEvent} {q : List HTTPRequestEvent} (hc : Awaiting c ev q)
    {segs : List (ℤ × Str)} (hcut : (segs.map Prod.snd).flatten = r.text) (closed : ℤ) :
    ∃ c', deliver c segs closed = some c' ∧
      c'.acks = c.acks ++ [⟨answered ev (contentOf (received [] (segs.map Prod.snd))), c.sent⟩] ∧
      c'.recv.overread = decide ¬Unwrapped (received [] (segs.map Prod.snd)) := by
  have hshows : Shows c (full []) [] c :=
    ⟨rfl, rfl, rfl, hc.sock, hc.recv, hc.state, hc.content, fun hn => absurd rfl hn⟩
  exact deliver_shows hc.queue (statusOk_text h) hsize segs closed (by simp [hcut]) hshows

theorem answered_inj {ev : HTTPRequestEvent} {s t : Str} (h : answered ev s = answered ev t) : s = t :=
  congrArg HTTPRequestEvent.content h

/-- The request is acknowledged, with the whole body, and nothing was read behind the end of what
was received. -/
def Delivers (c : HTTPClient) (ev : HTTPRequestEvent) (r : Response) (segs : List (ℤ × Str)) (closed : ℤ) :
    Prop :=
  ∃ c', deliver c segs closed = some c' ∧ c'.acks = c.acks ++ [⟨answered ev (normalise r.body), c.sent⟩] ∧
    c'.recv.overread = false

theorem delivers_iff {r : Response} (h : r.WellFormed) (hsize : r.text.length < 2 ^ 32)
    {c : HTTPClient} {ev : HTTPRequestEvent} {q : List HTTPRequestEvent} (hc : Awaiting c ev q)
    {segs : List (ℤ × Str)} (hcut : (segs.map Prod.snd).flatten = r.text) (closed : ℤ) :
    Delivers c ev r segs closed ↔ (∀ l ∈ full r.body, ¬[cr, cr] <:+ l) ∧ Whole r (segs.map Prod.snd) ∧
      Unwrapped (received [] (segs.map Prod.snd)) := by
  rw [← and_assoc, ← whole_iff h (received_front (segs.map Prod.snd) (by rw [List.nil_append, hcut])), Delivers]
  obtain ⟨c', hc', hacks, hover⟩ := deliver_response h hsize hc hcut closed
  rw [hc']
  constructor
  · rintro ⟨_, he, hans, hfalse⟩
    obtain rfl := Option.some.inj he
    have hlast := List.append_cancel_left (hacks.symm.trans hans)
    refine ⟨answered_inj (Ack.mk.inj (List.cons.inj hlast).1).1, ?_⟩
    rw [hover] at hfalse
    simpa using hfalse
  · rintro ⟨hcontent, hfits⟩
    rw [hcontent] at hacks
    exact ⟨c', rfl, hacks, by simp [hover, hfits]⟩

/-- A response that arrives in segments is delivered like the response in one segment, and with
its whole body, exactly when no line of the body ends in two carriage returns, the client waits for
all of the response, in segments and in one, and the sum with which the last line is taken from the
buffer does not wrap. -/
theorem segments_iff {r : Response} (h : r.WellFormed) (hsize : r.text.length < 2 ^ 32)
    {c : HTTPClient} {ev : HTTPRequestEvent} {q : List HTTPRequestEvent} (hc : Awaiting c ev q)
    {segs : List (ℤ × Str)} (hcut : (segs.map Prod.snd).flatten = r.text) (closed now closed' : ℤ) :
    (Delivers c ev r segs closed ∧ Delivers c ev r [(now, r.text)] closed') ↔
    (∀ l ∈ full r.body, ¬[cr, cr] <:+ l) ∧
      (Whole r (segs.map Prod.snd) ∧ Unwrapped (received [] (segs.map Prod.snd))) ∧
      (Whole r [r.text] ∧ Unwrapped (received [] [r.text])) := by
  have hone : ([(now, r.text)].map Prod.snd).flatten = r.text := List.append_nil _
  rw [delivers_iff h hsize hc hcut, delivers_iff h hsize hc hone]
  constructor
  · rintro ⟨⟨hall, hw, hu⟩, -, hw', hu'⟩
    exact ⟨hall, ⟨hw, hu⟩, hw', hu'⟩
  · rintro ⟨hall, ⟨hw, hu⟩, hw', hu'⟩
    exact ⟨⟨hall, hw, hu⟩, hall, hw', hu'⟩

def hello : Response where
  version := bytes "HTTP/1.0"
  reason := bytes " OK"
  fields := [⟨bytes "Content-Length", bytes " 5"⟩, ⟨bytes "Content-Type", bytes " text/plain"⟩]
  body := bytes "hello"

theorem wellFormed_hello : hello.WellFormed where
  version := by decide
  reason := ⟨by decide, by rintro c ⟨⟩; rfl⟩
  name := by decide
  value := by decide
  length := ⟨⟨bytes "Content-Length", bytes " 5"⟩, by decide, [blank], bytes "5", [],
    by decide +kernel, by decide +kernel, by decide, by decide +kernel, by decide +kernel⟩

/-- A client with one request that was sent. -/
def waiting : HTTPClient :=
  { queue := [{ id := 0, url := [] }], sock := .connected, state := .waitingForHeader, sent := [0] }

theorem awaiting_waiting : Awaiting waiting { id := 0, url := [] } [] := ⟨rfl, rfl, rfl, rfl, rfl⟩

theorem segments_hello :
    Delivers waiting { id := 0, url := [] } hello [(0, hello.text.take 10), (1, hello.text.drop 10)] 2 ∧
      Delivers waiting { id := 0, url := [] } hello [(0, hello.text)] 1 := by
  have hcut : (([(0, hello.text.take 10), (1, hello.text.drop 10)] : List (ℤ × Str)).map Prod.snd).flatten =
      hello.text := by decide
  refine (segments_iff wellFormed_hello (by decide) awaiting_waiting hcut 2 0 1).mpr ?_
  exact ⟨by decide, ⟨.inl (by decide), .inr (by decide)⟩, .inl (by decide), .inr (by decide)⟩

/-- The buffer is as long as the body when only the header and a part of the body are there. -/
theorem segments_cut : hello.WellFormed ∧ Awaiting waiting { id := 0, url := [] } [] ∧
    (([(0, hello.text.take 67), (1, hello.text.drop 67)] : List (ℤ × Str)).map Prod.snd).flatten = hello.text ∧
    (deliver waiting [(0, hello.text.take 67), (1, hello.text.drop 67)] 2).map
      (fun c => c.acks.map (·.ev.content)) = some [bytes "hel"] ∧
    normalise hello.body = bytes "hello" :=
  ⟨wellFormed_hello, awaiting_waiting, by decide, by decide, by decide⟩

end CenterIM.HttpResponse
