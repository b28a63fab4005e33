import CenterIM.XmlRecord

/-!
# Framing of history records

Records are kept apart by marker lines that a text may contain too. What the reader does
with the lines after such a marker decides whether the records around it survive:
`skips` says which lines it passes over, and an event is `Clean` when it leaves only such
lines behind.
-/
namespace CenterIM.EventFraming
open ByteText Decimal LineStream StrText Contact XmlTree Event EventReader EventLines RecordText
  XmlRecord

def frame (e : ImEvent) : ImEventType × ImDirection × Int64 × Int64 :=
  (e.gettype, e.direction, e.timestamp, e.senttimestamp)

/-- The events of a file, as far as they have to come back. -/
def frames (r : Except Fault (List ImEvent)) :
    Except Fault (List (ImEventType × ImDirection × Int64 × Int64)) := r.map (List.map frame)

/-- A list of events that is read back from its file as it was written. -/
def Framed (es : List ImEvent) : Prop := frames (readAll (writeAll es)) = .ok (es.map frame)

/-- Does the reader, looking for a header at these lines, come to the next record without
having made an event of them? -/
def skips (ls : List Str) : Bool :=
  if ls = [] then true
  else
    match _h : dropMarker ls with
    | d :: t :: a :: b :: rest =>
      (headerOf d t a b).unknown &&
        if b = marker ∨ marker ∈ rest then skips (nextTry b rest)
        else lookupType t == .imeventtype_size
    | [_, t, _] => lookupType t == .imeventtype_size
    | _ => false
termination_by ls.length
decreasing_by
  have hd := dropMarker_length ls
  have hn := nextTry_length b rest
  rw [_h] at hd
  simp only [List.length_cons] at hd
  omega

/-- An event whose record can stand anywhere: an `imxmlevent` has a field and no marker in
it, and of other texts the lines after a marker are passed over. -/
def Clean (e : ImEvent) : Prop :=
  (∀ data, e.body = .imxmlevent data → xmlItems data ≠ [] ∧ marker ∉ blockPart e.body) ∧
    (marker ∈ blockPart e.body → skips (afterMarker (blockPart e.body)) = true)

theorem skips_nil : skips [] = true := by simp [skips]

theorem skips_cons {ls : List Str} (h : ls ≠ []) :
    skips ls =
      match dropMarker ls with
      | d :: t :: a :: b :: rest =>
        (headerOf d t a b).unknown &&
          if b = marker ∨ marker ∈ rest then skips (nextTry b rest)
          else lookupType t == .imeventtype_size
      | [_, t, _] => lookupType t == .imeventtype_size
      | _ => false := by
  rw [skips, if_neg h]
  split <;> rename_i he <;> simp [he]

theorem lookupDirection_marker : lookupDirection marker = .imdirection_size := by decide

theorem lookupType_marker : lookupType marker = .imeventtype_size := by decide

theorem lookupDirection_sdirection {d : ImDirection} (h : d ≠ .imdirection_size) :
    lookupDirection (sdirection d) = d := by
  cases d
  · decide
  · decide
  · exact absurd rfl h

theorem lookupType_seventtype {t : ImEventType} (h : hasBody t = true) :
    lookupType (seventtype t) = t := by
  cases t <;> first | decide | exact absurd h (by decide)

/-- The types that a line can name have a `read` of their own. -/
theorem hasBody_lookupType {l : Str} (h : lookupType l ≠ .imeventtype_size) :
    hasBody (lookupType l) = true := by
  unfold lookupType at h ⊢
  split_ifs at h ⊢ with hl
  · generalize hf : List.find? _ _ = r at h ⊢
    cases r with
    | none => exact absurd rfl h
    | some t =>
      have ht := List.find?_some hf
      have hne : seventtype t ≠ [] := by
        rw [show seventtype t = l by simpa using ht]
        exact hl
      cases t <;> first | rfl | exact absurd rfl hne
  · exact absurd rfl h

theorem not_unknown {h : Header} :
    h.unknown = false ↔ h.direction ≠ .imdirection_size ∧ h.type ≠ .imeventtype_size := by
  simp [Header.unknown]

theorem known_ne_marker {d t a b : Str} (h : (headerOf d t a b).unknown = false) : d ≠ marker := by
  rintro rfl
  exact (not_unknown.mp h).1 lookupDirection_marker

theorem dropMarker_append {R : List Str} (h : R ≠ []) (T : List Str) :
    dropMarker (R ++ T) = dropMarker R ++ T := by
  cases R with
  | nil => exact absurd rfl h
  | cons l R =>
    simp only [List.cons_append, dropMarker]
    split_ifs <;> rfl

theorem dropMarker_of_ne {d : Str} (h : d ≠ marker) (ls : List Str) :
    dropMarker (d :: ls) = d :: ls := if_neg h

theorem afterMarker_append_of_mem {ls : List Str} (h : marker ∈ ls) (T : List Str) :
    afterMarker (ls ++ T) = afterMarker ls ++ T := by
  induction ls with
  | nil => exact absurd h (by simp)
  | cons l ls ih =>
    rw [List.cons_append, afterMarker, afterMarker]
    split_ifs with hl
    · rfl
    · exact ih ((List.mem_cons.mp h).resolve_left (Ne.symm hl))

theorem afterMarker_append {ls : List Str} (h : marker ∉ ls) (T : List Str) :
    afterMarker (ls ++ T) = afterMarker T := by
  induction ls with
  | nil => rfl
  | cons l ls ih =>
    simp only [List.mem_cons, not_or] at h
    rw [List.cons_append, afterMarker, if_neg (Ne.symm h.1), ih h.2]

theorem nextTry_append {b : Str} {rest : List Str} (h : b = marker ∨ marker ∈ rest)
    (T : List Str) : nextTry b (rest ++ T) = nextTry b rest ++ T := by
  unfold nextTry
  split_ifs with hb
  · rfl
  · exact afterMarker_append_of_mem (h.resolve_left hb) T

theorem nextTry_append_of_not {b : Str} {rest : List Str} (h : ¬ (b = marker ∨ marker ∈ rest))
    (T : List Str) : nextTry b (rest ++ T) = afterMarker T := by
  rw [not_or] at h
  rw [nextTry, if_neg h.1, afterMarker_append h.2]

section
variable {ls next : List Str} {h : Header} {buf : Str} {rest : List Str}

theorem header_known (hf : fields ls = (h, buf, rest)) (hu : h.unknown = false) (fuel : ℕ) :
    header (fuel + 1) ls = (h, rest) := by
  simp [header, hf, hu]

theorem header_end (hf : fields ls = (h, buf, rest)) (hu : h.unknown = true)
    (hn : nextTry buf rest = []) (fuel : ℕ) : header (fuel + 1) ls = (h, []) := by
  simp [header, hf, hu, hn]

/-- A header that is not known leaves the search to the lines after the next marker. -/
theorem header_retry (hf : fields ls = (h, buf, rest)) (hu : h.unknown = true)
    (hn : nextTry buf rest = next) (hne : next ≠ []) :
    header (ls.length + 1) ls = header (next.length + 1) next := by
  have hlen := fields_length ls
  have hl := nextTry_length buf rest
  have hpos := List.length_pos_iff.mpr hne
  rw [hf] at hlen
  rw [hn] at hl
  simp only at hlen
  conv_lhs => rw [header]
  simp only [hf, hu, if_true, hn, if_pos hne]
  exact header_fuel (by omega) (by omega)

end

theorem readLines_congr {ls ks : List Str}
    (h : header (ls.length + 1) ls = header (ks.length + 1) ks) : readLines ls = readLines ks := by
  rw [readLines, readLines, h]

theorem events_congr {ls ks : List Str} (hl : PlainLines ls) (hk : PlainLines ks) (h1 : ls ≠ [])
    (h2 : ks ≠ []) (h : readLines ls = readLines ks) : events ls = events ks := by
  cases hr : readLines ks with
  | error e => rw [events_of_error h1 (h.trans hr), events_of_error h2 hr]
  | ok r => rw [events_of_readLines hl h1 (h.trans hr), events_of_readLines hk h2 hr]

/-- A search for a header that ends at the end of the file without a type gives nothing. -/
theorem readLines_of_end {ls : List Str} (h2 : (header (ls.length + 1) ls).2 = [])
    (h1 : (header (ls.length + 1) ls).1.type = .imeventtype_size) :
    readLines ls = .ok (none, []) := by
  have hb : hasBody .imeventtype_size = false := by decide
  have h0 : (header 1 []).1.type = .imeventtype_size ∧ (header 1 []).2 = [] := by decide
  rw [readLines]
  simp [h1, h2, hb, h0]

theorem fields_four {ls : List Str} {d t a b : Str} {rest : List Str}
    (h : dropMarker ls = d :: t :: a :: b :: rest) : fields ls = (headerOf d t a b, b, rest) := by
  simp [fields, h]

theorem ne_nil_of_dropMarker {R : List Str} (h : dropMarker R ≠ []) : R ≠ [] := by
  rintro rfl
  exact h rfl

theorem fields_append_four {R : List Str} {d t a b : Str} {rest : List Str}
    (h : dropMarker R = d :: t :: a :: b :: rest) (T : List Str) :
    fields (R ++ T) = (headerOf d t a b, b, rest ++ T) := by
  have hne := ne_nil_of_dropMarker (R := R) (by simp [h])
  exact fields_four (by rw [dropMarker_append hne, h]; rfl)

theorem fields_append_three {R : List Str} {d t a : Str} (h : dropMarker R = [d, t, a]) (b : Str)
    (T : List Str) : fields (R ++ b :: T) = (headerOf d t a b, b, T) := by
  have hne := ne_nil_of_dropMarker (R := R) (by simp [h])
  exact fields_four (by rw [dropMarker_append hne, h]; rfl)

theorem skips_cases {R : List Str} (h : skips R = true) :
    R = [] ∨
    (∃ d t a b rest, dropMarker R = d :: t :: a :: b :: rest ∧
      (headerOf d t a b).unknown = true ∧ (b = marker ∨ marker ∈ rest) ∧
      skips (nextTry b rest) = true) ∨
    (∃ d t a b rest, dropMarker R = d :: t :: a :: b :: rest ∧
      (headerOf d t a b).unknown = true ∧ ¬ (b = marker ∨ marker ∈ rest) ∧
      lookupType t = .imeventtype_size) ∨
    ∃ d t a, dropMarker R = [d, t, a] ∧ lookupType t = .imeventtype_size := by
  by_cases hR : R = []
  · exact Or.inl hR
  · rw [skips_cons hR] at h
    split at h
    case h_1 d t a b rest he =>
      rw [Bool.and_eq_true] at h
      split_ifs at h with hb
      · exact Or.inr (Or.inl ⟨d, t, a, b, rest, he, h.1, hb, h.2⟩)
      · exact Or.inr (Or.inr (Or.inl ⟨d, t, a, b, rest, he, h.1, hb, by simpa using h.2⟩))
    case h_2 d t a he =>
      exact Or.inr (Or.inr (Or.inr ⟨d, t, a, he, by simpa using h⟩))
    case h_3 => exact absurd h (by simp)

theorem headerOf_unknown_of_type {d t a b : Str} (h : lookupType t = .imeventtype_size) :
    (headerOf d t a b).unknown = true := by
  simp [Header.unknown, headerOf, h]

theorem length_nextTry_lt {R : List Str} {d t a b : Str} {rest : List Str}
    (he : dropMarker R = d :: t :: a :: b :: rest) : (nextTry b rest).length < R.length := by
  have hd := dropMarker_length R
  have hn := nextTry_length b rest
  rw [he] at hd
  simp only [List.length_cons] at hd
  omega

theorem header_skips_record {R : List Str} (hR : skips R = true) {d t a b : Str}
    (hk : (headerOf d t a b).unknown = false) (rest : List Str) :
    header ((R ++ marker :: d :: t :: a :: b :: rest).length + 1)
        (R ++ marker :: d :: t :: a :: b :: rest) = (headerOf d t a b, rest) := by
  have hd := known_ne_marker hk
  -- after the marker the header is read as it stands
  have hrec : ∀ n, header (n + 1) (d :: t :: a :: b :: rest) = (headerOf d t a b, rest) :=
    header_known (fields_four (dropMarker_of_ne hd (t :: a :: b :: rest))) hk
  have hafter : afterMarker (marker :: d :: t :: a :: b :: rest) = d :: t :: a :: b :: rest :=
    if_pos rfl
  induction hn : R.length using Nat.strong_induction_on generalizing R with
  | _ n ih =>
    rcases skips_cases hR with rfl | ⟨d', t', a', b', r', he, hu, hb, hs⟩ |
        ⟨d', t', a', b', r', he, hu, hb, -⟩ | ⟨d', t', a', he, ht⟩
    · have hdrop : dropMarker (marker :: d :: t :: a :: b :: rest) = d :: t :: a :: b :: rest := by
        simp [dropMarker]
      exact header_known (fields_four hdrop) hk _
    · rw [header_retry (fields_append_four he _) hu (nextTry_append hb _) (by simp)]
      exact ih _ (by rw [← hn]; exact length_nextTry_lt he) hs rfl
    · rw [header_retry (fields_append_four he _) hu
        ((nextTry_append_of_not hb _).trans hafter) (by simp)]
      exact hrec _
    · rw [header_retry (fields_append_three he _ _) (headerOf_unknown_of_type ht) (if_pos rfl)
        (by simp)]
      exact hrec _

theorem header_skips_end {R : List Str} (hR : skips R = true) :
    (header ((R ++ [[]]).length + 1) (R ++ [[]])).2 = [] ∧
      (header ((R ++ [[]]).length + 1) (R ++ [[]])).1.type = .imeventtype_size := by
  induction hn : R.length using Nat.strong_induction_on generalizing R with
  | _ n ih =>
    rcases skips_cases hR with rfl | ⟨d', t', a', b', r', he, hu, hb, hs⟩ |
        ⟨d', t', a', b', r', he, hu, hb, ht⟩ | ⟨d', t', a', he, ht⟩
    · decide
    · rw [header_retry (fields_append_four he _) hu (nextTry_append hb _) (by simp)]
      exact ih _ (by rw [← hn]; exact length_nextTry_lt he) hs rfl
    · rw [header_end (fields_append_four he _) hu (nextTry_append_of_not hb _)]
      exact ⟨rfl, ht⟩
    · rw [header_end (fields_append_three he _ _) (headerOf_unknown_of_type ht) rfl]
      exact ⟨rfl, ht⟩

theorem headerOf_event {e : ImEvent} (h : Persisted e) :
    headerOf (sdirection e.direction) (seventtype e.gettype) (decimalInt e.timestamp.toInt)
      (decimalInt e.senttimestamp.toInt) =
        ⟨e.direction, e.gettype, e.timestamp, e.senttimestamp⟩ := by
  simp [headerOf, lookupDirection_sdirection h.direction, lookupType_seventtype h.type,
    strtoul_decimalInt]

theorem headerOf_event_known {e : ImEvent} (h : Persisted e) :
    (headerOf (sdirection e.direction) (seventtype e.gettype) (decimalInt e.timestamp.toInt)
      (decimalInt e.senttimestamp.toInt)).unknown = false := by
  rw [headerOf_event h, not_unknown]
  exact ⟨h.direction, h.type_ne⟩

/-- The lines after a record, from which the marker of the next one has been taken. -/
theorem fileLines_tail (es : List ImEvent) : afterMarker (fileLines es) = (fileLines es).tail := by
  cases es with
  | nil => rfl
  | cons e es => rfl

theorem fileLines_ne_nil (es : List ImEvent) : fileLines es ≠ [] := by simp [fileLines]

/-- Lines that are passed over do not matter in front of records. -/
theorem events_skips {R : List Str} (hR : skips R = true) (hp : PlainLines R)
    {es : List ImEvent} (hes : ∀ e ∈ es, Persisted e) :
    events (R ++ fileLines es) = events (fileLines es) := by
  have hpl := fileLines_plain hes
  have hpr : PlainLines (R ++ fileLines es) := fun l hl =>
    (List.mem_append.mp hl).elim (hp l) (hpl l)
  apply events_congr hpr hpl (by simp [fileLines_ne_nil]) (fileLines_ne_nil es)
  cases es with
  | nil =>
    obtain ⟨h2, h1⟩ := header_skips_end hR
    obtain ⟨k2, k1⟩ := header_skips_end skips_nil
    exact (readLines_of_end h2 h1).trans (readLines_of_end k2 k1).symm
  | cons e es =>
    have hk := headerOf_event_known (hes e (by simp))
    rw [fileLines_cons_eq]
    apply readLines_congr
    exact (header_skips_record hR hk _).trans (header_skips_record skips_nil hk _).symm

/-- The records of a file after the first line has been taken from them. -/
theorem events_tail {es : List ImEvent} (hes : ∀ e ∈ es, Persisted e) :
    events (fileLines es).tail = events (fileLines es) := by
  have hpl := fileLines_plain hes
  cases es with
  | nil =>
    obtain ⟨h2, h1⟩ := header_skips_end skips_nil
    rw [events_of_readLines hpl (fileLines_ne_nil _) (readLines_of_end h2 h1)]
    rfl
  | cons e es =>
    have hk := headerOf_event_known (hes e (by simp))
    have hd := known_ne_marker hk
    rw [fileLines_cons_eq] at hpl ⊢
    apply events_congr hpl.tail hpl (by simp) (by simp)
    apply readLines_congr
    refine Eq.trans ?_ (header_skips_record skips_nil hk _).symm
    exact header_known (fields_four (dropMarker_of_ne hd _)) hk _

theorem blockLines_append (ls : List Str) (es : List ImEvent) :
    blockLines (ls ++ fileLines es) = ls.takeWhile (· ≠ marker) := by
  induction ls with
  | nil =>
    cases es with
    | nil => rfl
    | cons e es =>
      rw [List.nil_append, fileLines_cons_eq]
      exact if_pos (Or.inl rfl)
  | cons l ls ih =>
    have hne : ls ++ fileLines es ≠ [] := by simp [fileLines_ne_nil]
    rw [List.cons_append, blockLines, ih]
    by_cases hl : l = marker
    · simp [hl]
    · simp [hl, hne]

def afterBody (b : Body) (es : List ImEvent) : List Str :=
  if marker ∈ blockPart b then afterMarker (blockPart b) ++ fileLines es else (fileLines es).tail

theorem afterMarker_block (b : Body) (es : List ImEvent) :
    afterMarker (blockPart b ++ fileLines es) = afterBody b es := by
  unfold afterBody
  split_ifs with h
  · exact afterMarker_append_of_mem h _
  · rw [afterMarker_append h, fileLines_tail]

/-- The types that read a line before the block have written one. -/
theorem bodyLines_ne_nil {b : Body} (hk : ∀ type, b ≠ .imrawevent type)
    (h : readsFirst b.gettype = true) : bodyLines b ≠ [] := by
  intro he
  have hw := lines_ended (write_ended b) []
  rw [show (lines b.write).dropLast = [] from he, List.append_nil, List.nil_append] at hw
  have hnil : b.write = [] := lines_inj hw
  cases b
  case imurl => simp [Body.write] at hnil
  case imsms => simp [Body.write] at hnil
  case imauthorization => simp [Body.write] at hnil
  case imrawevent type => exact hk type rfl
  all_goals exact absurd h (by simp [Body.gettype, readsFirst])

def blockText (b : Body) : Str := ((blockPart b).takeWhile (· ≠ marker)).foldl addLine []

theorem blockText_unmarked {b : Body} (h : marker ∉ blockPart b) :
    blockText b = (blockPart b).foldl addLine [] := by
  have htake : (blockPart b).takeWhile (· ≠ marker) = blockPart b := by
    apply List.takeWhile_eq_self_iff.mpr
    intro l hl
    simpa using ne_of_mem_of_not_mem hl h
  rw [blockText, htake]

def firstLine (b : Body) : Str := if readsFirst b.gettype then (bodyLines b).headD [] else []

theorem readBodyLines_record {b : Body} (hk : ∀ type, b ≠ .imrawevent type) (es : List ImEvent) :
    readBodyLines b.gettype (bodyLines b ++ fileLines es) =
      (bodyOf b.gettype (firstLine b) (blockText b)).map fun body => (body, afterBody b es) := by
  rw [readBodyLines]
  by_cases hf : readsFirst b.gettype = true
  · have hp : blockPart b = (bodyLines b).tail := if_pos hf
    obtain ⟨l, ls, hl⟩ := List.exists_cons_of_ne_nil (bodyLines_ne_nil hk hf)
    rw [hl, List.tail_cons] at hp
    rw [if_pos hf, hl, List.cons_append, nextLine, ← afterMarker_block, blockText, firstLine,
      if_pos hf, hl, List.headD_cons, hp, block, blockLines_append]
  · have hp : blockPart b = bodyLines b := if_neg hf
    rw [if_neg hf, ← afterMarker_block, blockText, firstLine, if_neg hf, hp, block,
      blockLines_append]

theorem readLines_record {e : ImEvent} (he : Persisted e) (es : List ImEvent) :
    readLines (fileLines (e :: es)) =
      (bodyOf e.gettype (firstLine e.body) (blockText e.body)).map fun body =>
        (some (Header.event ⟨e.direction, e.gettype, e.timestamp, e.senttimestamp⟩ body),
          afterBody e.body es) := by
  have hk := headerOf_event_known he
  have hh := header_skips_record skips_nil hk (bodyLines e.body ++ fileLines es)
  rw [List.nil_append, headerOf_event he] at hh
  have hb := readBodyLines_record he.kept es
  rw [fileLines_cons_eq, readLines, hh]
  simp only [he.type, if_true]
  rw [show e.gettype = e.body.gettype from rfl, hb]
  cases bodyOf e.body.gettype (firstLine e.body) (blockText e.body) <;> rfl

theorem map_eq_ok {ε α β : Type} {f : α → β} {x : Except ε α} {b : β} (h : x.map f = .ok b) :
    ∃ a, x = .ok a ∧ f a = b := by
  cases x with
  | error e => exact absurd h (by simp [Except.map])
  | ok a => exact ⟨a, rfl, Except.ok.inj h⟩

theorem gettype_bodyOf {t : ImEventType} (ht : hasBody t = true) {first block : Str} {b : Body}
    (h : bodyOf t first block = .ok b) : b.gettype = t := by
  cases t
  case online => exact absurd ht (by decide)
  case offline => exact absurd ht (by decide)
  case imeventtype_size => exact absurd ht (by decide)
  case file =>
    obtain ⟨r, -, rfl⟩ := map_eq_ok h
    rfl
  case xml =>
    obtain ⟨r, -, rfl⟩ := map_eq_ok h
    rfl
  case sms =>
    obtain rfl := (Except.ok.inj h).symm
    unfold smsOf
    split_ifs <;> rfl
  all_goals
    obtain rfl := (Except.ok.inj h).symm
    rfl

theorem lines_join {l : Str} {ls : List Str} (hl : lf ∉ l ∧ cr ∉ l)
    (h : ∀ k ∈ ls, lf ∉ k ∧ cr ∉ k) :
    (lines (l ++ joinRest ls)).map strip = l :: ls := by
  have hs : ∀ k : Str, lf ∉ k ∧ cr ∉ k → strip k = k := by
    intro k hk
    apply List.filter_eq_self.mpr
    intro c hc
    have h1 := ne_of_mem_of_not_mem hc hk.1
    have h2 := ne_of_mem_of_not_mem hc hk.2
    simp [evlinebreak, h1, h2]
  induction ls generalizing l with
  | nil => simp [joinRest, lines_of_not_mem hl.1, hs l hl]
  | cons k ls ih =>
    have hk := h k (by simp)
    have hcr : lf ∉ l ++ [cr] := by
      simpa using ⟨hl.1, by decide⟩
    have hstrip : strip (l ++ [cr]) = l := by
      have h1 := hs l hl
      simp only [strip] at h1 ⊢
      rw [List.filter_append, h1]
      simp [evlinebreak]
    have htext : l ++ joinRest (k :: ls) = (l ++ [cr]) ++ lf :: (k ++ joinRest ls) := by
      simp [joinRest, evlinebreak, hs k hk]
    rw [htext, lines_line hcr, List.map_cons, hstrip, ih hk fun j hj => h j (by simp [hj])]

theorem unlines_dropLast_lines {ls : List Str} (h : ∀ l ∈ ls, lf ∉ l) :
    (lines (unlines ls)).dropLast = ls := by
  rw [lines_unlines h, List.dropLast_concat]

theorem splitTab_tab {a b : Str} (ha : tab ∉ a) : splitTab (a ++ tab :: b) = some (a, b) := by
  have hp : ∀ c ∈ a, decide (c ≠ tab) = true := fun c hc => by
    simpa using ne_of_mem_of_not_mem hc ha
  rw [splitTab, if_pos (by simp), List.takeWhile_append_of_pos hp, List.dropWhile_append_of_pos hp]
  simp

/-- A line for each file, with a number that scans back to its size. -/
theorem fileRecords_map {bufs : List Str} {files : List FileRecord}
    (hn : ∀ i ∈ files, nul ∉ i.fname)
    (h : bufs.map strip = files.map fun i => mime i.fname ++ tab :: decimalInt i.size.toInt) :
    fileRecords bufs = .ok files := by
  induction files generalizing bufs with
  | nil =>
    obtain rfl := List.map_eq_nil_iff.mp h
    rfl
  | cons i files ih =>
    obtain ⟨buf, bufs, rfl, hbuf, hbufs⟩ := List.map_eq_cons_iff.mp h
    have ht : tab ∉ mime i.fname := not_mem_mime (by decide) (by decide) (by decide) i.fname
    have hi := ih (fun j hj => hn j (by simp [hj])) hbufs
    have hsize : (strtoul (decimalInt i.size.toInt)).toInt64 = i.size := by
      rw [strtoul_decimalInt, Int64.toInt64_toUInt64]
    simp [fileRecords, hbuf, splitTab_tab ht, unmime_mime (hn i (by simp)), hi, hsize]

/-- The lines in the record of an `imfile`. -/
def fileBody (files : List FileRecord) (msg : Str) : List Str :=
  (124 :: mime msg) :: files.map fun i => mime i.fname ++ tab :: decimalInt i.size.toInt

theorem fileBody_plain (files : List FileRecord) (msg : Str) :
    ∀ l ∈ fileBody files msg, lf ∉ l ∧ cr ∉ l ∧ ff ∉ l := by
  have hm : ∀ s, lf ∉ mime s ∧ cr ∉ mime s ∧ ff ∉ mime s := fun s =>
    ⟨not_mem_mime (by decide) (by decide) (by decide) s,
      not_mem_mime (by decide) (by decide) (by decide) s,
      not_mem_mime (by decide) (by decide) (by decide) s⟩
  have hd : ∀ i, lf ∉ decimalInt i ∧ cr ∉ decimalInt i ∧ ff ∉ decimalInt i := fun i =>
    ⟨not_mem_decimalInt (by decide) (by decide) i, not_mem_decimalInt (by decide) (by decide) i,
      not_mem_decimalInt (by decide) (by decide) i⟩
  have hc : (lf ≠ 124 ∧ cr ≠ 124 ∧ ff ≠ 124) ∧ lf ≠ tab ∧ cr ≠ tab ∧ ff ≠ tab := by decide
  intro l hl
  rcases List.mem_cons.mp hl with rfl | hl
  · simp [hm, hc]
  · obtain ⟨i, -, rfl⟩ := List.mem_map.mp hl
    simp [hm, hd, hc]

theorem bodyLines_file (files : List FileRecord) (msg : Str) :
    bodyLines (.imfile files msg) = fileBody files msg := by
  have hw : (Body.imfile files msg).write = unlines (fileBody files msg) := by
    simp [Body.write, fileBody, unlines, bytes, List.flatMap_map]
  rw [bodyLines, hw, unlines_dropLast_lines fun l hl => (fileBody_plain files msg l hl).1]

/-- The lines that are got from the block of some lines that are not empty and have no line break
in them. -/
theorem streamLines_foldl {ls : List Str} (h : ∀ l ∈ ls, (lf ∉ l ∧ cr ∉ l) ∧ l ≠ []) :
    (streamLines (ls.foldl addLine [])).map strip = ls := by
  cases ls with
  | nil => rfl
  | cons l ls =>
    have hl := h l (List.mem_cons_self ..)
    have hls : ∀ k ∈ ls, lf ∉ k ∧ cr ∉ k := fun k hk => (h k (List.mem_cons_of_mem _ hk)).1
    have hjoin := lines_join hl.1 hls
    have hstrip : strip l = l := by
      apply List.filter_eq_self.mpr
      intro c hc
      have h1 := ne_of_mem_of_not_mem hc hl.1.1
      have h2 := ne_of_mem_of_not_mem hc hl.1.2
      simp [evlinebreak, h1, h2]
    have hblock : (l :: ls).foldl addLine [] = l ++ joinRest ls := by
      have hfirst : addLine [] l = l := by simp [addLine, hstrip]
      rw [List.foldl_cons, hfirst, foldl_addLine hl.2]
    have hlast : (lines (l ++ joinRest ls)).getLast? ≠ some [] := by
      intro he
      have hmem : strip [] ∈ l :: ls := hjoin ▸ List.mem_map_of_mem (List.mem_of_getLast? he)
      exact (h _ hmem).2 strip_nil
    rw [hblock, streamLines, if_neg hlast, hjoin]

/-- An `imfile` is read back as it was, and has no marker in its record. -/
theorem fileOf_blockText {files : List FileRecord} {msg : Str}
    (h : ∀ s ∈ texts (.imfile files msg), nul ∉ s) :
    marker ∉ blockPart (.imfile files msg) ∧
      fileOf (blockText (.imfile files msg)) = .ok (files, msg) := by
  have hp : blockPart (.imfile files msg) = fileBody files msg :=
    (if_neg (by simp [Body.gettype, readsFirst])).trans (bodyLines_file files msg)
  have hplain := fileBody_plain files msg
  have hm : marker ∉ blockPart (.imfile files msg) := by
    rw [hp]
    intro hm
    exact (hplain _ hm).2.2 (by simp)
  refine ⟨hm, ?_⟩
  have hblock : blockText (.imfile files msg) = (fileBody files msg).foldl addLine [] := by
    rw [blockText_unmarked hm, hp]
  have hlines : ∀ l ∈ fileBody files msg, (lf ∉ l ∧ cr ∉ l) ∧ l ≠ [] := by
    intro l hl
    refine ⟨⟨(hplain l hl).1, (hplain l hl).2.1⟩, ?_⟩
    rintro rfl
    rcases List.mem_cons.mp hl with h0 | h0
    · cases h0
    · obtain ⟨i, -, hi⟩ := List.mem_map.mp h0
      exact absurd hi (by simp)
  have hstream := streamLines_foldl hlines
  rw [← hblock] at hstream
  obtain ⟨l, ls, hs, hmsgline, hfiles⟩ := List.map_eq_cons_iff.mp (hstream.trans rfl)
  have hmsg : nul ∉ msg := h msg (by simp [texts])
  have hnames : ∀ i ∈ files, nul ∉ i.fname := fun i hi =>
    h i.fname (by simp [texts]; exact Or.inr ⟨i, hi, rfl⟩)
  rw [fileOf, hs]
  simp [hmsgline, unmime_mime hmsg, fileRecords_map hnames hfiles]

theorem blockPart_xml {data : OrderedMap Str Str strLt} (h : ∀ d ∈ data.entries, Ident d.1) :
    blockPart (.imxmlevent data) = lines (xmlText data) :=
  (if_neg (by simp [Body.gettype, readsFirst])).trans (bodyLines_xml h)

theorem names_xml {e : ImEvent} (he : Persisted e) {data : OrderedMap Str Str strLt}
    (hb : e.body = .imxmlevent data) : ∀ d ∈ data.entries, Ident d.1 := by
  have hn := he.names
  rw [hb] at hn
  exact fun d hd => hn d.1 (List.mem_map_of_mem hd)

theorem bodyOf_ok {e : ImEvent} (he : Persisted e) (hx : ∀ data, e.body ≠ .imxmlevent data) :
    ∃ body, bodyOf e.gettype (firstLine e.body) (blockText e.body) = .ok body := by
  have ht := he.text
  rw [show e.gettype = e.body.gettype from rfl]
  cases hb : e.body
  case imxmlevent data => exact absurd hb (hx data)
  case imrawevent type => exact absurd hb (he.kept type)
  case imfile files msg =>
    rw [hb] at ht
    obtain ⟨-, hr⟩ := fileOf_blockText ht
    exact ⟨.imfile files msg, by simp [bodyOf, Body.gettype, hr, Except.map]⟩
  all_goals exact ⟨_, rfl⟩

/-- The record of an XML event gives one if there is a field and no marker in it. -/
theorem bodyOf_xml {e : ImEvent} (he : Persisted e) {data : OrderedMap Str Str strLt}
    (hb : e.body = .imxmlevent data) :
    (∃ body, bodyOf e.gettype (firstLine e.body) (blockText e.body) = .ok body) ↔
      xmlItems data ≠ [] ∧ marker ∉ blockPart e.body := by
  have hn := names_xml he hb
  have hp := blockPart_xml hn
  have hbody : ∀ block, bodyOf .xml (firstLine (.imxmlevent data)) block =
      (xmlOf block).map .imxmlevent := fun _ => rfl
  have hblock (hm : marker ∉ lines (xmlText data)) :
      blockText (.imxmlevent data) = (lines (xmlText data)).foldl addLine [] := by
    rw [blockText_unmarked (by rwa [hp]), hp]
  rw [show e.gettype = e.body.gettype from rfl, hb, show (Body.imxmlevent data).gettype = .xml from
    rfl, hbody, hp]
  constructor
  · rintro ⟨body, hok⟩
    obtain ⟨data', hdata, -⟩ := map_eq_ok hok
    by_contra hc
    rw [not_and_or, not_not, not_not] at hc
    by_cases hm : marker ∈ lines (xmlText data)
    · rw [blockText, hp, xmlOf_marker hn hm] at hdata
      exact absurd hdata (by simp)
    · rw [hblock hm, xmlOf_empty (hc.resolve_right hm)] at hdata
      exact absurd hdata (by simp)
  · rintro ⟨hne, hm⟩
    obtain ⟨data', hd, -⟩ := xmlOf_ok hn hne
    exact ⟨.imxmlevent data', by rw [hblock hm, hd]; rfl⟩

theorem bodyOf_clean {e : ImEvent} (he : Persisted e) (hc : Clean e) :
    ∃ body, bodyOf e.gettype (firstLine e.body) (blockText e.body) = .ok body := by
  by_cases hx : ∃ data, e.body = .imxmlevent data
  · obtain ⟨data, hb⟩ := hx
    exact (bodyOf_xml he hb).mpr (hc.1 data hb)
  · exact bodyOf_ok he fun data hb => hx ⟨data, hb⟩

theorem blockPart_plain {e : ImEvent} (he : Persisted e) : PlainLines (blockPart e.body) := by
  have hb : PlainLines (bodyLines e.body) := fun l hl =>
    recLines_plain he l (List.mem_append_right _ hl)
  unfold blockPart
  split_ifs
  · exact fun l hl => hb l (List.mem_of_mem_tail hl)
  · exact hb

def readEvent (e : ImEvent) (body : Body) : ImEvent :=
  Header.event ⟨e.direction, e.gettype, e.timestamp, e.senttimestamp⟩ body

abbrev recordBody (e : ImEvent) : Except Fault Body :=
  bodyOf e.gettype (firstLine e.body) (blockText e.body)

theorem frame_readEvent {e : ImEvent} (he : Persisted e) {body : Body}
    (hb : recordBody e = .ok body) : frame (readEvent e body) = frame e := by
  have ht := gettype_bodyOf he.type hb
  simp only [frame, readEvent, Header.event, ImEvent.gettype] at ht ⊢
  rw [ht]

/-- A record that gives an event, and the events of the lines after its block. -/
theorem events_record {e : ImEvent} (he : Persisted e) {es : List ImEvent}
    (hes : ∀ d ∈ es, Persisted d) {body : Body} (hb : recordBody e = .ok body) :
    events (fileLines (e :: es)) =
      (events (afterBody e.body es)).map (readEvent e body :: ·) := by
  have hall : ∀ d ∈ e :: es, Persisted d := by simpa using ⟨he, hes⟩
  have hp := fileLines_plain hall
  have hr := readLines_record he es
  rw [show bodyOf e.gettype (firstLine e.body) (blockText e.body) = .ok body from hb] at hr
  rw [events_of_readLines hp (fileLines_ne_nil _) hr]
  rfl

/-- After the record of a clean event the reader goes on with the next record. -/
theorem events_clean {e : ImEvent} (he : Persisted e) (hc : Clean e) {es : List ImEvent}
    (hes : ∀ d ∈ es, Persisted d) {body : Body} (hb : recordBody e = .ok body) :
    events (fileLines (e :: es)) = (events (fileLines es)).map (readEvent e body :: ·) := by
  rw [events_record he hes hb, afterBody]
  split_ifs with hm
  · rw [events_skips (hc.2 hm) (blockPart_plain he).afterMarker hes]
  · rw [events_tail hes]

def ReadAs (es rs : List ImEvent) : Prop :=
  List.Forall₂ (fun e r => ∃ body, recordBody e = .ok body ∧ r = readEvent e body) es rs

theorem ReadAs.frames {es rs : List ImEvent} (h : ReadAs es rs) (hp : ∀ e ∈ es, Persisted e) :
    rs.map frame = es.map frame := by
  induction h with
  | nil => rfl
  | @cons e r es rs hr _ ih =>
    obtain ⟨body, hb, rfl⟩ := hr
    rw [List.map_cons, List.map_cons, frame_readEvent (hp e (by simp)) hb,
      ih fun d hd => hp d (by simp [hd])]

theorem ReadAs.get {es rs : List ImEvent} (h : ReadAs es rs) {i : ℕ} {e : ImEvent}
    (he : es[i]? = some e) : ∃ body, recordBody e = .ok body ∧ rs[i]? = some (readEvent e body) := by
  induction h generalizing i with
  | nil => exact absurd he (by simp)
  | cons hr _ ih =>
    cases i with
    | zero =>
      obtain rfl := Option.some.inj he
      obtain ⟨body, hb, rfl⟩ := hr
      exact ⟨body, hb, rfl⟩
    | succ i => exact ih he

/-- Clean events in front of a file are read first, whatever comes after them. -/
theorem events_append {pre : List ImEvent} (hp : ∀ e ∈ pre, Persisted e ∧ Clean e) :
    ∃ rs, ReadAs pre rs ∧ ∀ es, (∀ d ∈ es, Persisted d) →
      events (fileLines (pre ++ es)) = (events (fileLines es)).map (rs ++ ·) := by
  induction pre with
  | nil =>
    refine ⟨[], .nil, fun es _ => ?_⟩
    rw [List.nil_append]
    cases events (fileLines es) <;> rfl
  | cons e pre ih =>
    have hpre : ∀ d ∈ pre, Persisted d ∧ Clean d := fun d hd => hp d (by simp [hd])
    obtain ⟨rs, hr, hrun⟩ := ih hpre
    obtain ⟨he, hc⟩ := hp e (by simp)
    obtain ⟨body, hb⟩ := bodyOf_clean he hc
    refine ⟨readEvent e body :: rs, .cons ⟨body, hb, rfl⟩ hr, fun es hes => ?_⟩
    have hall : ∀ d ∈ pre ++ es, Persisted d := fun d hd =>
      (List.mem_append.mp hd).elim (fun h => (hpre d h).1) (hes d)
    rw [List.cons_append, events_clean he hc hall hb, hrun es hes]
    cases events (fileLines es) <;> rfl

theorem readAll_clean {es : List ImEvent} (h : ∀ e ∈ es, Persisted e ∧ Clean e) :
    ∃ rs, ReadAs es rs ∧ readAll (writeAll es) = .ok rs := by
  obtain ⟨rs, hr, hrun⟩ := events_append h
  have h0 := hrun [] (by simp)
  have hnil : events (fileLines []) = .ok [] := by
    rw [← events_tail (by simp)]
    rfl
  rw [List.append_nil, hnil] at h0
  refine ⟨rs, hr, ?_⟩
  rw [readAll_writeAll fun e he => (h e he).1, h0]
  simp [Except.map]

theorem framed_of_clean {es : List ImEvent} (h : ∀ e ∈ es, Persisted e ∧ Clean e) : Framed es := by
  obtain ⟨rs, hr, hread⟩ := readAll_clean h
  rw [Framed, hread, frames, Except.map, hr.frames fun e he => (h e he).1]

theorem frames_record {e : ImEvent} (he : Persisted e) {es : List ImEvent}
    (hes : ∀ d ∈ es, Persisted d) {body : Body} (hb : recordBody e = .ok body) :
    frames (events (fileLines (e :: es))) =
      (frames (events (afterBody e.body es))).map (frame e :: ·) := by
  rw [events_record he hes hb]
  cases events (afterBody e.body es) with
  | error f => rfl
  | ok r => simp [frames, Except.map, frame_readEvent he hb]

/-- A message without text, for the records around another one. -/
def plainMessage : ImEvent := ⟨contactroot, .incoming, 0, 0, false, .immessage []⟩

theorem plainMessage_clean : Persisted plainMessage ∧ Clean plainMessage := by
  refine ⟨⟨by decide, by simp [plainMessage], by simp [plainMessage, texts], by simp [plainMessage,
    fieldNames]⟩, by simp [plainMessage], fun hm => absurd hm (by decide)⟩

theorem fileLines_plainMessage : fileLines [plainMessage] =
    [marker, bytes "IN", bytes "MSG", bytes "0", bytes "0", [], []] := by decide

/-- A header with a type gives an event of that header, or a fault. -/
theorem frames_of_header {ls : List Str} (hp : PlainLines ls) (hne : ls ≠ [])
    (ht : hasBody (header (ls.length + 1) ls).1.type = true)
    {r : List (ImEventType × ImDirection × Int64 × Int64)} (h : frames (events ls) = .ok r) :
    ∃ f r', r = f :: r' ∧ f.2.1 = (header (ls.length + 1) ls).1.direction := by
  cases hr : readLines ls with
  | error e =>
    rw [events_of_error hne hr] at h
    exact absurd h (by simp [frames, Except.map])
  | ok q =>
    have hq := hr
    rw [readLines] at hr
    simp only [ht, if_true] at hr
    obtain ⟨b, -, rfl⟩ := map_eq_ok hr
    rw [events_of_readLines hp hne hq] at h
    obtain ⟨es, hes, rfl⟩ := map_eq_ok h
    obtain ⟨es', -, rfl⟩ := map_eq_ok hes
    exact ⟨_, es'.map frame, rfl, rfl⟩

theorem frames_of_end {ls : List Str} (hp : PlainLines ls) (hne : ls ≠ [])
    (h2 : (header (ls.length + 1) ls).2 = [])
    (h1 : (header (ls.length + 1) ls).1.type = .imeventtype_size) :
    frames (events ls) = .ok [] := by
  rw [events_of_readLines hp hne (readLines_of_end h2 h1)]
  rfl

theorem plain_append {ls ms : List Str} (hl : PlainLines ls) (hm : PlainLines ms) :
    PlainLines (ls ++ ms) := fun l h => (List.mem_append.mp h).elim (hl l) (hm l)

theorem plainMessage_lines : PlainLines (fileLines [plainMessage]) :=
  fileLines_plain (by simp [plainMessage_clean.1])

theorem last_line : PlainLines [[]] := by
  simp [PlainLines]
  decide

/-- At the end of the file there is no event where none is read back. -/
theorem not_event_at_end {R : List Str} (hp : PlainLines R) (hne : R ≠ [])
    (h1 : frames (events (R ++ [[]])) = .ok []) {h : Header} {rest : List Str}
    (hh : header ((R ++ [[]]).length + 1) (R ++ [[]]) = (h, rest)) : hasBody h.type ≠ true := by
  intro ht
  obtain ⟨f, r', hr, -⟩ := frames_of_header (plain_append hp last_line) (by simp [hne])
    (by rw [hh]; exact ht) h1
  cases hr

theorem not_swallowed {R : List Str} (hp : PlainLines R) (hne : R ≠ [])
    (h2 : frames (events (R ++ fileLines [plainMessage])) = .ok [frame plainMessage]) {h : Header}
    (hu : h.unknown = true)
    (hh : header ((R ++ fileLines [plainMessage]).length + 1) (R ++ fileLines [plainMessage]) =
      (h, [])) : ¬ (h.type ≠ .imeventtype_size → hasBody h.type = true) := by
  intro ht
  have hpl := plain_append hp plainMessage_lines
  by_cases hs : h.type = .imeventtype_size
  · have hf := frames_of_end hpl (by simp [hne]) (by rw [hh]) (by rw [hh]; exact hs)
    rw [hf] at h2
    cases h2
  · obtain ⟨f, r', hr, hd⟩ := frames_of_header hpl (by simp [hne]) (by rw [hh]; exact ht hs) h2
    have hdir : h.direction = .imdirection_size := by
      by_contra hd'
      rw [not_unknown.mpr ⟨hd', hs⟩] at hu
      cases hu
    rw [hh, hdir, ← (List.cons.inj hr).1] at hd
    exact absurd hd (by decide)

/-- With fewer than three lines of a header the message gives the others. -/
theorem not_skips_short {R : List Str} (hp : PlainLines R) (hne : R ≠ [])
    (h1 : frames (events (R ++ [[]])) = .ok [])
    (h2 : frames (events (R ++ fileLines [plainMessage])) = .ok [frame plainMessage]) :
    3 ≤ (dropMarker R).length := by
  have hdrop := dropMarker_append hne (fileLines [plainMessage])
  have hswallow : ∀ {h : Header}, h.unknown = true → _ := fun {h} hu =>
    @not_swallowed R hp hne h2 h hu
  rw [fileLines_plainMessage] at hdrop hswallow
  rcases he : dropMarker R with _ | ⟨d, _ | ⟨t, _ | ⟨a, rest⟩⟩⟩
  · exfalso
    rw [he] at hdrop
    have hu : (headerOf marker (bytes "IN") (bytes "MSG") (bytes "0")).unknown = true := by
      decide
    exact hswallow hu (header_end (fields_four hdrop) hu (by decide) _)
      (hasBody_lookupType (l := bytes "IN"))
  · exfalso
    rw [he] at hdrop
    have hu := headerOf_unknown_of_type (d := d) (a := bytes "IN") (b := bytes "MSG")
      lookupType_marker
    exact hswallow hu (header_end (fields_four hdrop) hu (by decide) _)
      (hasBody_lookupType (l := marker))
  · exfalso
    rw [he] at hdrop
    by_cases hu : (headerOf d t marker (bytes "IN")).unknown = true
    · exact hswallow hu (header_end (fields_four hdrop) hu (by decide) _) hasBody_lookupType
    · have hk := Bool.eq_false_of_not_eq_true hu
      have hf : fields (R ++ [[]]) = (headerOf d t [] [], [], []) := by
        have hd := dropMarker_append hne [[]]
        rw [he] at hd
        simp [fields, hd]
      exact not_event_at_end hp hne h1 (header_known hf hk _)
        (hasBody_lookupType (not_unknown.mp hk).2)
  · simp

/-- Lines that are not passed over either make an event of their own at the end of the
file, or damage the record of a plain message. -/
theorem not_skips {R : List Str} (hR : skips R = false) (hp : PlainLines R) :
    ¬ (frames (events (R ++ [[]])) = .ok [] ∧
      frames (events (R ++ fileLines [plainMessage])) = .ok [frame plainMessage]) := by
  induction hn : R.length using Nat.strong_induction_on generalizing R with
  | _ n ih =>
    rintro ⟨h1, h2⟩
    have hne : R ≠ [] := by
      rintro rfl
      rw [skips_nil] at hR
      cases hR
    have hno : ∀ {h rest}, header ((R ++ [[]]).length + 1) (R ++ [[]]) = (h, rest) →
        hasBody h.type = true → False := fun hh ht => not_event_at_end hp hne h1 hh ht
    have hlen := not_skips_short hp hne h1 h2
    rw [skips_cons hne] at hR
    split at hR
    case h_1 d t a b rest he =>
      by_cases hu : (headerOf d t a b).unknown = true
      · rw [hu, Bool.true_and] at hR
        split_ifs at hR with hb
        · have hn1 := header_retry (fields_append_four he [[]]) hu (nextTry_append hb _) (by simp)
          have hn2 := header_retry (fields_append_four he (fileLines [plainMessage])) hu
            (nextTry_append hb _) (by simp [fileLines_ne_nil])
          have hpn : PlainLines (nextTry b rest) := by
            have hd := hp.dropMarker
            rw [he] at hd
            exact hd.tail.tail.tail.tail.nextTry b
          refine ih _ (by rw [← hn]; exact length_nextTry_lt he) hR hpn rfl ⟨?_, ?_⟩
          · rw [← h1, events_congr (plain_append hpn last_line) (plain_append hp last_line)
              (by simp) (by simp) (readLines_congr hn1.symm)]
          · rw [← h2, events_congr (plain_append hpn plainMessage_lines)
              (plain_append hp plainMessage_lines) (by simp [fileLines_ne_nil]) (by simp [hne])
              (readLines_congr hn2.symm)]
        · exact hno (header_end (fields_append_four he [[]]) hu (nextTry_append_of_not hb _) _)
            (hasBody_lookupType (by simpa using hR))
      · have hk := Bool.eq_false_of_not_eq_true hu
        exact hno (header_known (fields_append_four he [[]]) hk _)
          (hasBody_lookupType (not_unknown.mp hk).2)
    case h_2 d t a he =>
      have ht := hasBody_lookupType (l := t) (by simpa using hR)
      by_cases hu : (headerOf d t a []).unknown = true
      · exact hno (header_end (fields_append_three he [] []) hu rfl _) ht
      · exact hno (header_known (fields_append_three he [] []) (Bool.eq_false_of_not_eq_true hu) _)
          ht
    case h_3 h4 h3 =>
      rcases he : dropMarker R with _ | ⟨d, _ | ⟨t, _ | ⟨a, _ | ⟨b, rest⟩⟩⟩⟩
      · simp [he] at hlen
      · simp [he] at hlen
      · simp [he] at hlen
      · exact h3 d t a he
      · exact h4 d t a b rest he

theorem framed_iff {es : List ImEvent} (h : ∀ e ∈ es, Persisted e) :
    Framed es ↔ frames (events (fileLines es)) = .ok (es.map frame) := by
  rw [Framed, readAll_writeAll h]

/-- An event can stand between any clean events exactly when it is clean itself: then every
history of clean events is framed, and no other event is safe in all of them. -/
theorem history_framing (e : ImEvent) (he : Persisted e) :
    Clean e ↔ ∀ pre post, (∀ d ∈ pre ++ post, Persisted d ∧ Clean d) →
      Framed (pre ++ e :: post) := by
  constructor
  · intro hc pre post h
    apply framed_of_clean
    intro d hd
    rcases List.mem_append.mp hd with hd | hd
    · exact h d (List.mem_append_left _ hd)
    · rcases List.mem_cons.mp hd with rfl | hd
      · exact ⟨he, hc⟩
      · exact h d (List.mem_append_right _ hd)
  · intro h
    have h0 := (framed_iff (by simpa using he)).mp (h [] [] (by simp))
    have h1 := (framed_iff (by simpa using ⟨he, plainMessage_clean.1⟩)).mp
      (h [] [plainMessage] (by simpa using plainMessage_clean))
    -- the record gives an event, or reading the file would stop there
    have hb : ∃ body, bodyOf e.gettype (firstLine e.body) (blockText e.body) = .ok body := by
      cases hb : bodyOf e.gettype (firstLine e.body) (blockText e.body) with
      | ok body => exact ⟨body, rfl⟩
      | error f =>
        have hr := readLines_record he []
        rw [hb] at hr
        rw [List.nil_append, events_of_error (fileLines_ne_nil _) hr] at h0
        exact absurd h0 (by simp [frames, Except.map])
    obtain ⟨body, hb⟩ := hb
    refine ⟨fun data hx => (bodyOf_xml he hx).mp ⟨body, hb⟩, fun hm => ?_⟩
    by_contra hs
    have hrest : ∀ es, afterBody e.body es = afterMarker (blockPart e.body) ++ fileLines es :=
      fun es => if_pos hm
    rw [List.nil_append, frames_record he (by simp) hb, hrest] at h0
    rw [List.nil_append, frames_record he (by simpa using plainMessage_clean.1) hb, hrest] at h1
    obtain ⟨r0, hr0, hc0⟩ := map_eq_ok h0
    obtain ⟨r1, hr1, hc1⟩ := map_eq_ok h1
    refine not_skips (Bool.eq_false_of_not_eq_true hs) (blockPart_plain he).afterMarker ⟨?_, ?_⟩
    · rw [← fileLines_nil, hr0, (List.cons.inj hc0).2]
      rfl
    · rw [hr1, (List.cons.inj hc1).2]
      rfl

/-- A message of several lines, a marker among them; what follows the marker is no header. -/
def quoting : ImEvent :=
  ⟨contactroot, .outgoing, 7, 8, false,
    .immessage (bytes "the log says\n\n" ++ [ff] ++ bytes "\nIN\nor OUT\nno record\n")⟩

def link : ImEvent :=
  ⟨contactroot, .incoming, 5, 5, false, .imurl (bytes "http://a.b/") (bytes "look\nhere")⟩

/-- A request with the lines of a header in its text. -/
def request : ImEvent :=
  ⟨contactroot, .incoming, 9, 9, false, .imauthorization (bytes "IN\nMSG\n1\n1\nadd me") .Request⟩

theorem quoting_clean : Persisted quoting ∧ Clean quoting := by
  refine ⟨⟨by decide, by simp [quoting], ?_, by simp [quoting, fieldNames]⟩, by simp [quoting],
    fun _ => ?_⟩
  · simp only [quoting, texts]
    decide
  · have ha : afterMarker (blockPart quoting.body) =
        [bytes "IN", bytes "or OUT", bytes "no record", []] := by decide
    rw [ha, skips_cons (by simp)]
    decide

theorem link_clean : Persisted link ∧ Clean link := by
  refine ⟨⟨by decide, by simp [link], ?_, by simp [link, fieldNames]⟩, by simp [link],
    fun hm => absurd hm (by decide)⟩
  simp only [link, texts]
  decide

theorem request_clean : Persisted request ∧ Clean request := by
  refine ⟨⟨by decide, by simp [request], ?_, by simp [request, fieldNames]⟩, by simp [request],
    fun hm => absurd hm (by decide)⟩
  simp only [request, texts]
  decide

/-- The quoted log between a link and a request. -/
theorem history_framing_quoting : Clean quoting ∧ Framed [link, quoting, request] := by
  have hc := quoting_clean
  exact ⟨hc.2, (history_framing quoting hc.1).mp hc.2 [link] [request]
    (by simpa using ⟨link_clean, request_clean⟩)⟩

/-- A message whose text holds a marker line and, after it, the lines of another record. -/
def forgery : ImEvent :=
  ⟨contactroot, .incoming, 5, 5, false, .immessage (bytes "hi\n" ++ [ff] ++ bytes "\nOUT\nMSG\n1\n1\nyes")⟩

/-- One message is written, two are read. -/
theorem history_not_framed : Persisted forgery ∧ ¬ Framed [forgery] ∧
    frames (readAll (writeAll [forgery])) =
      .ok [(.message, .incoming, 5, 5), (.message, .outgoing, 1, 1)] := by
  have hp : Persisted forgery :=
    ⟨by decide, by simp [forgery], by simp [forgery, texts]; decide, by simp [forgery, fieldNames]⟩
  have hr : frames (readAll (writeAll [forgery])) =
      .ok [(.message, .incoming, 5, 5), (.message, .outgoing, 1, 1)] := by decide +kernel
  refine ⟨hp, fun hf => ?_, hr⟩
  rw [Framed, hr] at hf
  exact absurd (congrArg List.length (Except.ok.inj hf)) (by decide)

end CenterIM.EventFraming
