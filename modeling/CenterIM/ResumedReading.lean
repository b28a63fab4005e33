import CenterIM.EventFraming
import CenterIM.HistoryFile

/-!
# Reading a history from some place in it

The chat view reads the end of a history file from an offset that may lie inside a record. What
is left of that record is passed over when it has enough lines for a header, and these make none.
-/
namespace CenterIM.ResumedReading
open ByteText Decimal LineStream StrText Contact XmlTree Event EventReader EventLines RecordText
  XmlRecord EventFraming HistoryFile

def headerEnd (f : IStream) : ℕ := (readHeader (f.size + 1) f).2.size

/-- The loop of `getevents` up to the end of the file, where each event is given with what was
left of the stream behind its header. -/
def eventLoopAt : ℕ → IStream → Option (Except Fault (List (ℕ × ImEvent)))
  | 0, _ => none
  | fuel + 1, f =>
    if f.eof then some (.ok [])
    else
      match eventread f with
      | .error e => some (.error e)
      | .ok (rev, g) =>
        (eventLoopAt fuel g).map (·.map ((rev.toList.map fun r => (headerEnd f, r)) ++ ·))

/-- The records that start at an offset or behind it. -/
def recordsFrom : List ImEvent → ℕ → List ImEvent
  | [], _ => []
  | e :: es, k => if k = 0 then e :: es else recordsFrom es (k - e.write.length)

/-- What is left of the record that the offset lies in. -/
def cutText : List ImEvent → ℕ → Str
  | [], _ => []
  | e :: es, k =>
    if k = 0 then []
    else if k < e.write.length then e.write.drop k
    else cutText es (k - e.write.length)

def cutLines (es : List ImEvent) (k : ℕ) : List Str := (lines (cutText es k)).dropLast

/-- A file is well formed when its records can be read, and every marker starts one. -/
structure WellFormed (e : ImEvent) : Prop where
  persisted : Persisted e
  fields : ∀ data, e.body = .imxmlevent data → xmlItems data ≠ []
  marked : marker ∉ bodyLines e.body

def Found : List ImEvent → List (ℕ × ImEvent) → Prop
  | [], rs => rs = []
  | e :: es, rs => ∃ body rest, recordBody e = .ok body ∧
      rs = ((e.body.write ++ writeAll es).length + 1, readEvent e body) :: rest ∧ Found es rest

/-- The loop ends, and has read the records that start at the offset or behind it. -/
def Resumes (es : List ImEvent) (k : ℕ) : Prop :=
  ∃ n rs, eventLoopAt n (IStream.ofContent ((writeAll es).drop k)) = some (.ok rs) ∧
    Found (recordsFrom es k) rs

/-- The lines that are left of a record are passed over: at the end of the file the second of
them, not counting a marker in front, names no type; before another record there are three at
least, and the first two name no direction or no type. -/
def PassedOver (R : List Str) : List ImEvent → Prop
  | [] => lookupType ((dropMarker R).getD 1 []) = .imeventtype_size
  | _ :: _ =>
    3 ≤ (dropMarker R).length ∧
      (lookupDirection ((dropMarker R).getD 0 []) = .imdirection_size ∨
        lookupType ((dropMarker R).getD 1 []) = .imeventtype_size)

section Lines

variable {ls : List Str}

def loopAt : ℕ → List Str → Option (Except Fault (List (ℕ × ImEvent)))
  | 0, _ => none
  | fuel + 1, ls =>
    if ls = [] then some (.ok [])
    else
      match readLines ls with
      | .error e => some (.error e)
      | .ok (rev, rest) =>
        (loopAt fuel rest).map
          (·.map ((rev.toList.map fun r => ((ofLines (header (ls.length + 1) ls).2).size, r)) ++ ·))

theorem eventLoopAt_lines (h : PlainLines ls) (n : ℕ) : eventLoopAt n (ofLines ls) = loopAt n ls := by
  induction n generalizing ls with
  | zero => rfl
  | succ n ih =>
    rw [eventLoopAt, loopAt, ofLines_eof, eventread_lines h, headerEnd, readHeader_size h]
    by_cases hne : ls = []
    · simp [hne]
    · simp only [List.isEmpty_iff, hne, if_false]
      cases hr : readLines ls with
      | error e => rfl
      | ok r =>
        obtain ⟨rev, rest⟩ := r
        simp only [Except.map, ih (readLines_rest h hne hr).1]

def Gives (ls : List Str) (r : Except Fault (List (ℕ × ImEvent))) : Prop := ∃ n, loopAt n ls = some r

theorem gives_nil (r : Except Fault (List (ℕ × ImEvent))) : Gives [] r ↔ r = .ok [] := by
  constructor
  · rintro ⟨_ | n, h⟩
    · cases h
    · exact (Option.some.inj h).symm
  · rintro rfl
    exact ⟨1, rfl⟩

theorem gives_of_readLines (hne : ls ≠ []) {rev : Option ImEvent} {rest : List Str}
    (hr : readLines ls = .ok (rev, rest)) (r : Except Fault (List (ℕ × ImEvent))) :
    Gives ls r ↔ ∃ r', Gives rest r' ∧
      r = r'.map ((rev.toList.map fun r => ((ofLines (header (ls.length + 1) ls).2).size, r)) ++ ·) := by
  constructor
  · rintro ⟨_ | n, h⟩
    · cases h
    · rw [loopAt, if_neg hne, hr] at h
      obtain ⟨r', hr', rfl⟩ := Option.map_eq_some_iff.mp h
      exact ⟨r', ⟨n, hr'⟩, rfl⟩
  · rintro ⟨r', ⟨n, hn⟩, rfl⟩
    refine ⟨n + 1, ?_⟩
    rw [loopAt, if_neg hne, hr]
    exact Option.map_eq_some_iff.mpr ⟨r', hn, rfl⟩

theorem gives_of_error (hne : ls ≠ []) {e : Fault} (hr : readLines ls = .error e)
    (r : Except Fault (List (ℕ × ImEvent))) : Gives ls r ↔ r = .error e := by
  constructor
  · rintro ⟨_ | n, h⟩
    · cases h
    · rw [loopAt, if_neg hne, hr] at h
      exact (Option.some.inj h).symm
  · rintro rfl
    exact ⟨1, by rw [loopAt, if_neg hne, hr]⟩

theorem size_cons (l : Str) (ls : List Str) :
    (ofLines (l :: ls)).size = l.length + 1 + (ofLines ls).size := by
  cases ls with
  | nil => simp [ofLines, IStream.size, List.intercalate]
  | cons k ls =>
    rw [ofLines_cons_cons]
    have heof : (ofLines (k :: ls)).eof = false := rfl
    simp only [IStream.size, heof, Bool.false_eq_true, if_false, List.length_append, List.length_cons]
    omega

theorem size_append (ks ls : List Str) :
    (ofLines (ks ++ ls)).size = (ofLines ks).size + (ofLines ls).size := by
  induction ks with
  | nil => simp [IStream.size]
  | cons k ks ih =>
    rw [List.cons_append, size_cons, size_cons, ih]
    omega

theorem size_le_of_suffix {ks ls : List Str} (h : ks <:+ ls) : (ofLines ks).size ≤ (ofLines ls).size := by
  obtain ⟨js, rfl⟩ := h
  rw [size_append]
  omega

theorem size_lines (s : Str) : (ofLines (lines s)).size = s.length + 1 := by
  rw [ofLines_lines]
  rfl

theorem afterMarker_suffix (ls : List Str) : afterMarker ls <:+ ls := by
  induction ls with
  | nil => exact List.suffix_rfl
  | cons l ls ih =>
    rw [afterMarker]
    split_ifs
    · exact List.suffix_cons l ls
    · exact ih.trans (List.suffix_cons l ls)

theorem dropMarker_suffix (ls : List Str) : dropMarker ls <:+ ls := by
  cases ls with
  | nil => exact List.suffix_rfl
  | cons l ls =>
    rw [dropMarker]
    split_ifs
    · exact List.suffix_cons l ls
    · exact List.suffix_rfl

theorem fields_suffix (ls : List Str) : (fields ls).2.2 <:+ ls := by
  refine List.IsSuffix.trans ?_ (dropMarker_suffix ls)
  rw [fields]
  rcases dropMarker ls with _ | ⟨d, _ | ⟨t, _ | ⟨a, _ | ⟨b, rest⟩⟩⟩⟩
  · exact List.nil_suffix
  · exact List.nil_suffix
  · exact List.nil_suffix
  · exact List.nil_suffix
  · exact ⟨[d, t, a, b], rfl⟩

theorem nextTry_suffix (buf : Str) (ls : List Str) : nextTry buf ls <:+ ls := by
  rw [nextTry]
  split_ifs
  · exact List.suffix_rfl
  · exact afterMarker_suffix ls

theorem header_suffix (fuel : ℕ) (ls : List Str) : (header fuel ls).2 <:+ ls := by
  induction fuel generalizing ls with
  | zero => exact List.suffix_rfl
  | succ fuel ih =>
    have hf := fields_suffix ls
    have hn := nextTry_suffix (fields ls).2.1 (fields ls).2.2
    rw [header]
    dsimp only
    split_ifs
    · exact (ih _).trans (hn.trans hf)
    · exact hn.trans hf
    · exact hf

/-- A search for a header ends with a type, or at the end of the file. -/
theorem header_type (fuel : ℕ) (ls : List Str) (h : ls.length < fuel) :
    hasBody (header fuel ls).1.type = true ∨
      ((header fuel ls).1.type = .imeventtype_size ∧ (header fuel ls).2 = []) := by
  induction fuel generalizing ls with
  | zero => exact absurd h (Nat.not_lt_zero _)
  | succ fuel ih =>
    have htype : (fields ls).1.type ≠ .imeventtype_size → hasBody (fields ls).1.type = true := by
      obtain ⟨t, ht⟩ : ∃ t, (fields ls).1.type = lookupType t := by
        rw [fields]
        rcases dropMarker ls with _ | ⟨d, _ | ⟨t, _ | ⟨a, _ | ⟨b, rest⟩⟩⟩⟩
        · exact ⟨[], rfl⟩
        · exact ⟨d, rfl⟩
        · exact ⟨t, rfl⟩
        · exact ⟨t, rfl⟩
        · exact ⟨t, rfl⟩
      rw [ht]
      exact hasBody_lookupType
    have hlen := fields_length ls
    have hnext := nextTry_length (fields ls).2.1 (fields ls).2.2
    rw [header]
    dsimp only
    split_ifs with hu hne
    · have hpos := List.length_pos_iff.mpr hne
      exact ih _ (by omega)
    · by_cases ht : (fields ls).1.type = .imeventtype_size
      · exact Or.inr ⟨ht, not_not.mp hne⟩
      · exact Or.inl (htype ht)
    · exact Or.inl (htype (not_unknown.mp (Bool.eq_false_of_not_eq_true hu)).2)

theorem gives_first (hne : ls ≠ []) {rs : List (ℕ × ImEvent)} (h : Gives ls (.ok rs)) :
    (hasBody (header (ls.length + 1) ls).1.type = false ∧ rs = []) ∨
      (hasBody (header (ls.length + 1) ls).1.type = true ∧
        ∃ ev rest, rs = ((ofLines (header (ls.length + 1) ls).2).size, ev) :: rest) := by
  rcases header_type (ls.length + 1) ls (Nat.lt_succ_self _) with ht | ⟨ht, hend⟩
  · refine Or.inr ⟨ht, ?_⟩
    cases hr : readLines ls with
    | error e =>
      cases (gives_of_error hne hr _).mp h
    | ok p =>
      obtain ⟨rev, rest⟩ := p
      obtain ⟨r', -, hrs⟩ := (gives_of_readLines hne hr _).mp h
      rw [readLines] at hr
      dsimp only at hr
      rw [if_pos ht] at hr
      obtain ⟨q, -, hq⟩ := map_eq_ok hr
      obtain ⟨rfl, -⟩ := Prod.mk.inj hq
      cases r' with
      | error e => cases hrs
      | ok rs' => exact ⟨_, rs', Except.ok.inj hrs⟩
  · have hnone := readLines_of_end hend ht
    obtain ⟨r', hr', hrs⟩ := (gives_of_readLines hne hnone _).mp h
    rw [(gives_nil r').mp hr'] at hrs
    refine Or.inl ⟨?_, Except.ok.inj hrs⟩
    rw [ht]
    rfl

end Lines

section Records

variable {ls R : List Str} {e : ImEvent} {es : List ImEvent} {rs : List (ℕ × ImEvent)}

theorem not_mem_blockPart (h : WellFormed e) : marker ∉ blockPart e.body := by
  rw [blockPart]
  split_ifs
  · exact fun hm => h.marked (List.mem_of_mem_tail hm)
  · exact h.marked

theorem recordBody_ok (h : WellFormed e) : ∃ body, recordBody e = .ok body :=
  bodyOf_clean h.persisted
    ⟨fun data hd => ⟨h.fields data hd, not_mem_blockPart h⟩, fun hm => absurd hm (not_mem_blockPart h)⟩

theorem size_record (h : ∀ d ∈ es, WellFormed d) (e : ImEvent) :
    (ofLines (bodyLines e.body ++ fileLines es)).size = (e.body.write ++ writeAll es).length + 1 := by
  rw [← size_lines, lines_ended (write_ended e.body),
    lines_writeAll fun d hd => (h d hd).persisted.type_ne]
  rfl

theorem size_tail_lt (es : List ImEvent) (ks : List Str) :
    (ofLines (fileLines es).tail).size < (ofLines (ks ++ fileLines es)).size := by
  obtain ⟨l, ls, hl⟩ := List.exists_cons_of_ne_nil (fileLines_ne_nil es)
  rw [size_append, hl, List.tail_cons, size_cons]
  omega

abbrev recordHeader (e : ImEvent) : Header := ⟨e.direction, e.gettype, e.timestamp, e.senttimestamp⟩

theorem header_record (he : Persisted e) (es : List ImEvent) :
    header ((fileLines (e :: es)).length + 1) (fileLines (e :: es)) =
        (recordHeader e, bodyLines e.body ++ fileLines es) ∧
      ∀ n, header (n + 1) (fileLines (e :: es)).tail =
        (recordHeader e, bodyLines e.body ++ fileLines es) := by
  have hk := headerOf_event_known he
  have hd := known_ne_marker hk
  have hrec := header_skips_record skips_nil hk (bodyLines e.body ++ fileLines es)
  have hknown := header_known (fields_four (dropMarker_of_ne hd
    (seventtype e.gettype :: decimalInt e.timestamp.toInt :: decimalInt e.senttimestamp.toInt ::
      (bodyLines e.body ++ fileLines es)))) hk
  rw [List.nil_append, headerOf_event he, ← fileLines_cons_eq] at hrec
  refine ⟨hrec, fun n => ?_⟩
  rw [fileLines_cons_eq, List.tail_cons, hknown, headerOf_event he]

/-- A record whose header is found is read, and the records after it follow. -/
theorem gives_record (he : WellFormed e) (hes : ∀ d ∈ es, WellFormed d) (hne : ls ≠ [])
    (hh : header (ls.length + 1) ls = (recordHeader e, bodyLines e.body ++ fileLines es)) {body : Body}
    (hb : recordBody e = .ok body) (hg : Gives (fileLines es).tail (.ok rs)) :
    Gives ls (.ok (((e.body.write ++ writeAll es).length + 1, readEvent e body) :: rs)) := by
  have hread : readLines ls = .ok (some (readEvent e body), (fileLines es).tail) := by
    rw [readLines_congr (hh.trans (header_record he.persisted es).1.symm),
      readLines_record he.persisted,
      show bodyOf e.gettype (firstLine e.body) (blockText e.body) = .ok body from hb, afterBody,
      if_neg (not_mem_blockPart he)]
    rfl
  refine (gives_of_readLines hne hread _).mpr ⟨.ok rs, hg, ?_⟩
  rw [hh, size_record hes]
  rfl

theorem gives_end (hne : ls ≠ []) (h2 : (header (ls.length + 1) ls).2 = [])
    (h1 : (header (ls.length + 1) ls).1.type = .imeventtype_size) : Gives ls (.ok []) :=
  (gives_of_readLines hne (readLines_of_end h2 h1) _).mpr ⟨.ok [], (gives_nil _).mpr rfl, rfl⟩

theorem gives_records (h : ∀ e ∈ es, WellFormed e) :
    ∃ rs, Found es rs ∧ Gives (fileLines es) (.ok rs) ∧ Gives (fileLines es).tail (.ok rs) := by
  induction es with
  | nil =>
    obtain ⟨h2, h1⟩ := header_skips_end skips_nil
    exact ⟨[], rfl, gives_end (fileLines_ne_nil []) h2 h1, (gives_nil _).mpr rfl⟩
  | cons e es ih =>
    have hes : ∀ d ∈ es, WellFormed d := fun d hd => h d (by simp [hd])
    have he := h e (by simp)
    obtain ⟨rs, hfound, -, htail⟩ := ih hes
    obtain ⟨body, hb⟩ := recordBody_ok he
    have hh := header_record he.persisted es
    refine ⟨_, ⟨body, rs, hb, rfl, hfound⟩, ?_, ?_⟩
    · exact gives_record he hes (fileLines_ne_nil _) hh.1 hb htail
    · exact gives_record he hes (by rw [fileLines_cons_eq]; exact List.cons_ne_nil _ _) (hh.2 _) hb htail

/-- What is left of a record at the end of the file: the type that is found, if any, is its
second line. -/
theorem header_end_type (hR : R ≠ []) (hm : marker ∉ dropMarker R) :
    (header ((R ++ [[]]).length + 1) (R ++ [[]])).1.type = lookupType ((dropMarker R).getD 1 []) ∧
      (lookupType ((dropMarker R).getD 1 []) = .imeventtype_size →
        (header ((R ++ [[]]).length + 1) (R ++ [[]])).2 = []) := by
  obtain ⟨h, buf, rest, hf, ht, hn⟩ : ∃ h buf rest, fields (R ++ [[]]) = (h, buf, rest) ∧
      h.type = lookupType ((dropMarker R).getD 1 []) ∧ nextTry buf rest = [] := by
    have hdrop := dropMarker_append hR [[]]
    match hd : dropMarker R with
    | [] =>
      rw [hd] at hdrop
      exact ⟨headerOf [] [] [] [], [], [], by simp [fields, hdrop], rfl, rfl⟩
    | [d] =>
      rw [hd] at hdrop
      exact ⟨headerOf d [] [] [], [], [], by simp [fields, hdrop], rfl, rfl⟩
    | [d, t] =>
      rw [hd] at hdrop
      exact ⟨headerOf d t [] [], [], [], by simp [fields, hdrop], rfl, rfl⟩
    | [d, t, a] => exact ⟨headerOf d t a [], [], [], fields_append_three hd [] [], rfl, rfl⟩
    | d :: t :: a :: b :: rest =>
      rw [hd] at hm
      have hb : ¬ (b = marker ∨ marker ∈ rest) := fun h => by
        rcases h with rfl | h
        · exact hm (by simp)
        · exact hm (by simp [h])
      exact ⟨headerOf d t a b, b, rest ++ [[]], fields_append_four hd [[]], rfl,
        nextTry_append_of_not hb [[]]⟩
  by_cases hu : h.unknown = true
  · rw [header_end hf hu hn]
    exact ⟨ht, fun _ => rfl⟩
  · have hk := Bool.eq_false_of_not_eq_true hu
    rw [header_known hf hk]
    exact ⟨ht, fun hs => absurd (ht.trans hs) (not_unknown.mp hk).2⟩

/-- What is left of a record in front of another one, when it is passed over. -/
theorem header_passedOver (hm : marker ∉ dropMarker R) (h3 : 3 ≤ (dropMarker R).length)
    (hu : lookupDirection ((dropMarker R).getD 0 []) = .imdirection_size ∨
      lookupType ((dropMarker R).getD 1 []) = .imeventtype_size) (he : Persisted e) :
    header ((R ++ fileLines (e :: es)).length + 1) (R ++ fileLines (e :: es)) =
      (recordHeader e, bodyLines e.body ++ fileLines es) := by
  have hunknown : ∀ a b, (headerOf ((dropMarker R).getD 0 []) ((dropMarker R).getD 1 []) a b).unknown =
      true := fun a b => by
    simpa [Header.unknown, headerOf] using hu
  have hne : (fileLines (e :: es)).tail ≠ [] := by
    rw [fileLines_cons_eq]
    exact List.cons_ne_nil _ _
  rcases hd : dropMarker R with _ | ⟨d, _ | ⟨t, _ | ⟨a, _ | ⟨b, rest⟩⟩⟩⟩
  · simp [hd] at h3
  · simp [hd] at h3
  · simp [hd] at h3
  · rw [hd] at hunknown
    have hf := fields_append_three hd marker (fileLines (e :: es)).tail
    have hfile : marker :: (fileLines (e :: es)).tail = fileLines (e :: es) := by
      rw [fileLines_cons_eq]
      rfl
    rw [hfile] at hf
    rw [header_retry hf (hunknown a marker) (if_pos rfl) hne]
    exact (header_record he es).2 _
  · rw [hd] at hunknown hm
    have hb : ¬ (b = marker ∨ marker ∈ rest) := fun h => by
      rcases h with rfl | h
      · exact hm (by simp)
      · exact hm (by simp [h])
    rw [header_retry (fields_append_four hd _) (hunknown a b)
      ((nextTry_append_of_not hb _).trans (fileLines_tail _)) hne]
    exact (header_record he es).2 _

theorem gives_passedOver (hR : R ≠ []) (hm : marker ∉ dropMarker R) (h : ∀ d ∈ es, WellFormed d)
    (hp : PassedOver R es) : ∃ rs, Found es rs ∧ Gives (R ++ fileLines es) (.ok rs) := by
  have hne : R ++ fileLines es ≠ [] := List.append_ne_nil_of_left_ne_nil hR _
  cases es with
  | nil =>
    obtain ⟨ht, hend⟩ := header_end_type hR hm
    exact ⟨[], rfl, gives_end hne (hend hp) (ht.trans hp)⟩
  | cons e es =>
    have hes : ∀ d ∈ es, WellFormed d := fun d hd => h d (by simp [hd])
    have he := h e (by simp)
    obtain ⟨rs, hfound, -, htail⟩ := gives_records hes
    obtain ⟨body, hb⟩ := recordBody_ok he
    exact ⟨_, ⟨body, rs, hb, rfl, hfound⟩,
      gives_record he hes hne (header_passedOver hm hp.1 hp.2 he.persisted) hb htail⟩

/-- Behind an unknown header nothing is found before the next try. -/
theorem header_unknown_size {h : Header} {buf : Str} {rest next : List Str}
    (hf : fields ls = (h, buf, rest)) (hu : h.unknown = true) (hn : nextTry buf rest = next) :
    (ofLines (header (ls.length + 1) ls).2).size ≤ (ofLines next).size := by
  by_cases hne : next = []
  · rw [header_end hf hu (hn.trans hne)]
    exact Nat.zero_le _
  · rw [header_retry hf hu hn hne]
    exact size_le_of_suffix (header_suffix _ _)

theorem decimalInt_ne_marker (i : ℤ) : decimalInt i ≠ marker := fun h =>
  not_mem_decimalInt (c := ff) (by decide) (by decide) i (h ▸ List.mem_singleton_self ff)

theorem header_ne_marker (d : ImDirection) (t : ImEventType) :
    sdirection d ≠ marker ∧ seventtype t ≠ marker := by
  constructor
  · cases d <;> decide
  · cases t <;> decide

/-- From inside the header of a record the search goes on behind the record. -/
theorem nextTry_lost (he : WellFormed e) (es : List ImEvent) {buf : Str} (hbuf : buf ≠ marker)
    {ks : List Str} (hks : marker ∉ ks) :
    nextTry buf (ks ++ (bodyLines e.body ++ fileLines es)) = (fileLines es).tail := by
  have hnot : ¬ (buf = marker ∨ marker ∈ ks ++ bodyLines e.body) := by
    rintro (h | h)
    · exact hbuf h
    · exact (List.mem_append.mp h).elim hks he.marked
  rw [← List.append_assoc, nextTry_append_of_not hnot, fileLines_tail]

/-- When the rest of a record is not passed over, the header of the next one is missed, or another
is found before it. -/
theorem header_not_passedOver (hR : R ≠ []) (he : WellFormed e) (hp : ¬ PassedOver R (e :: es)) :
    (ofLines (header ((R ++ fileLines (e :: es)).length + 1) (R ++ fileLines (e :: es))).2).size ≠
      (ofLines (bodyLines e.body ++ fileLines es)).size := by
  have hdrop := dropMarker_append hR (fileLines (e :: es))
  rw [fileLines_cons_eq] at hdrop ⊢
  have hname := header_ne_marker e.direction e.gettype
  have htime := decimalInt_ne_marker e.timestamp.toInt
  have hsent := decimalInt_ne_marker e.senttimestamp.toInt
  generalize sdirection e.direction = dir, seventtype e.gettype = type,
    decimalInt e.timestamp.toInt = time, decimalInt e.senttimestamp.toInt = sent at *
  set ls := R ++ marker :: dir :: type :: time :: sent :: (bodyLines e.body ++ fileLines es)
  have hmissed : ∀ {h : Header} {buf : Str} {ks : List Str},
      fields ls = (h, buf, ks ++ (bodyLines e.body ++ fileLines es)) → h.unknown = true →
        buf ≠ marker → marker ∉ ks → (ofLines (header (ls.length + 1) ls).2).size ≠
          (ofLines (bodyLines e.body ++ fileLines es)).size := by
    intro h buf ks hf hu hbuf hks
    have hle := header_unknown_size hf hu (nextTry_lost he es hbuf hks)
    have hlt := size_tail_lt es (bodyLines e.body)
    omega
  have hearly : ∀ {h : Header} {buf l : Str} {ks : List Str},
      fields ls = (h, buf, ks ++ l :: (bodyLines e.body ++ fileLines es)) → h.unknown = false →
        (ofLines (header (ls.length + 1) ls).2).size ≠
          (ofLines (bodyLines e.body ++ fileLines es)).size := by
    intro h buf l ks hf hk
    rw [header_known hf hk, size_append, size_cons]
    omega
  match hd : dropMarker R with
  | [] =>
    rw [hd] at hdrop
    have hu : (headerOf marker dir type time).unknown = true := by
      simp [Header.unknown, headerOf, lookupDirection_marker]
    exact @hmissed _ _ [sent] (fields_four hdrop) hu htime (by simpa using hsent.symm)
  | [d] =>
    rw [hd] at hdrop
    exact @hmissed _ _ [time, sent] (fields_four hdrop)
      (headerOf_unknown_of_type lookupType_marker) hname.2
      (by simpa using ⟨htime.symm, hsent.symm⟩)
  | [d, t] =>
    rw [hd] at hdrop
    by_cases hu : (headerOf d t marker dir).unknown = true
    · exact @hmissed _ _ [type, time, sent] (fields_four hdrop) hu hname.1
        (by simpa using ⟨hname.2.symm, htime.symm, hsent.symm⟩)
    · exact @hearly _ _ _ [type, time] (fields_four hdrop) (Bool.eq_false_of_not_eq_true hu)
  | [d, t, a] =>
    have hk : (headerOf d t a marker).unknown = false := by
      rw [not_unknown]
      rw [PassedOver, hd] at hp
      simpa [headerOf] using hp
    exact @hearly _ _ _ [dir, type, time] (fields_append_three hd marker _) hk
  | d :: t :: a :: b :: rest =>
    have hk : (headerOf d t a b).unknown = false := by
      rw [not_unknown]
      rw [PassedOver, hd] at hp
      simpa [headerOf] using hp
    have hf := fields_append_four hd
      (marker :: dir :: type :: time :: sent :: (bodyLines e.body ++ fileLines es))
    exact @hearly _ _ _ (rest ++ [marker, dir, type, time]) (by simpa using hf) hk

theorem passedOver_of_gives (hR : R ≠ []) (hm : marker ∉ dropMarker R) (h : ∀ d ∈ es, WellFormed d)
    (hfound : Found es rs) (hg : Gives (R ++ fileLines es) (.ok rs)) : PassedOver R es := by
  have hfirst := gives_first (List.append_ne_nil_of_left_ne_nil hR _) hg
  cases es with
  | nil =>
    rcases hfirst with ⟨hb, -⟩ | ⟨-, ev, rest, hrs⟩
    · have ht := (header_end_type hR hm).1
      by_contra hp
      have hbody := hasBody_lookupType hp
      rw [← ht] at hbody
      exact absurd (hbody.symm.trans hb) (by decide)
    · rw [show rs = [] from hfound] at hrs
      cases hrs
  | cons e es =>
    obtain ⟨body, rest, -, hrs, -⟩ := hfound
    by_contra hp
    refine header_not_passedOver hR (h e (by simp)) hp ?_
    rw [size_record fun d hd => h d (by simp [hd])]
    rcases hfirst with ⟨-, hnil⟩ | ⟨-, ev, rest', hrs'⟩
    · rw [hnil] at hrs
      cases hrs
    · exact (Prod.mk.inj (List.cons.inj (hrs'.symm.trans hrs)).1).1

end Records

section Offset

variable {es : List ImEvent} {k : ℕ}

theorem mem_recordsFrom {e : ImEvent} (h : e ∈ recordsFrom es k) : e ∈ es := by
  induction es generalizing k with
  | nil => cases h
  | cons d es ih =>
    rw [recordsFrom] at h
    split_ifs at h
    · exact h
    · exact List.mem_cons_of_mem d (ih h)

theorem drop_writeAll (es : List ImEvent) (k : ℕ) :
    (writeAll es).drop k = cutText es k ++ writeAll (recordsFrom es k) := by
  induction es generalizing k with
  | nil => exact List.drop_nil
  | cons e es ih =>
    rw [cutText, recordsFrom]
    have hcons : writeAll (e :: es) = e.write ++ writeAll es := rfl
    by_cases h0 : k = 0
    · rw [if_pos h0, if_pos h0, h0]
      rfl
    · rw [if_neg h0, if_neg h0, hcons, List.drop_append]
      by_cases hk : k < e.write.length
      · have hfrom : recordsFrom es 0 = es := by cases es <;> rfl
        rw [if_pos hk, Nat.sub_eq_zero_of_le hk.le, hfrom, List.drop_zero]
      · rw [if_neg hk, List.drop_eq_nil_of_le (not_lt.mp hk), ih]
        rfl

theorem write_ended_event (e : ImEvent) : Ended e.write := by
  rw [ImEvent.write, writeHeader]
  apply Ended.append _ (write_ended e.body)
  split_ifs
  · exact Or.inl rfl
  · exact Or.inr ⟨_, rfl⟩

theorem cutText_ended (es : List ImEvent) (k : ℕ) : Ended (cutText es k) := by
  induction es generalizing k with
  | nil => exact Or.inl rfl
  | cons e es ih =>
    rw [cutText]
    split_ifs with h0 hk
    · exact Or.inl rfl
    · rcases write_ended_event e with hw | ⟨w, hw⟩
      · rw [hw]
        exact Or.inl List.drop_nil
      · rw [hw, List.length_append, List.length_singleton] at hk
        rw [hw, List.drop_append_of_le_length (by omega)]
        exact Or.inr ⟨_, rfl⟩
    · exact ih _

theorem tail_lines_drop (s : Str) (k : ℕ) : (lines (s.drop k)).tail <:+ (lines s).tail := by
  induction s generalizing k with
  | nil => rw [List.drop_nil]
  | cons c s ih =>
    cases k with
    | zero => exact List.suffix_rfl
    | succ k =>
      rw [List.drop_succ_cons]
      by_cases hc : c = lf
      · rw [hc, lines_lf, List.tail_cons]
        exact (ih k).trans (List.tail_suffix _)
      · rw [lines_cons hc]
        cases hl : lines s with
        | nil => exact absurd hl (lines_ne_nil s)
        | cons l ls =>
          have htail := ih k
          rwa [hl] at htail

theorem marker_not_mem_record {e : ImEvent} (h : WellFormed e) : marker ∉ (recLines e).tail := by
  have hname := header_ne_marker e.direction e.gettype
  have htime := decimalInt_ne_marker e.timestamp.toInt
  have hsent := decimalInt_ne_marker e.senttimestamp.toInt
  simp only [recLines, List.cons_append, List.nil_append, List.tail_cons, List.mem_cons, not_or]
  exact ⟨hname.1.symm, hname.2.symm, htime.symm, hsent.symm, h.marked⟩

theorem marker_not_mem_cut (h : ∀ e ∈ es, WellFormed e) (k : ℕ) : marker ∉ (cutLines es k).tail := by
  rw [cutLines, List.tail_dropLast]
  intro hm
  have hmem := List.mem_of_mem_dropLast hm
  clear hm
  induction es generalizing k with
  | nil => cases hmem
  | cons e es ih =>
    rw [cutText] at hmem
    split_ifs at hmem with h0 hk
    · cases hmem
    · have he := h e (by simp)
      have hlines := lines_write he.persisted.type_ne []
      rw [List.append_nil, lines_nil] at hlines
      have hrec := (tail_lines_drop e.write k).subset hmem
      have htail : (recLines e ++ [[]]).tail = (recLines e).tail ++ [[]] := rfl
      rw [hlines, htail] at hrec
      rcases List.mem_append.mp hrec with hrec | hrec
      · exact marker_not_mem_record he hrec
      · exact absurd hrec (by decide)
    · exact ih (fun d hd => h d (by simp [hd])) _ hmem

theorem marker_not_mem_dropMarker {R : List Str} (h : marker ∉ R.tail) : marker ∉ dropMarker R := by
  cases R with
  | nil => exact List.not_mem_nil
  | cons l R =>
    rw [dropMarker]
    split_ifs with hl
    · exact h
    · rw [List.mem_cons, not_or]
      exact ⟨Ne.symm hl, h⟩

/-- The loop on the file is the loop on the lines from the offset on. -/
theorem resumes_iff_gives (h : ∀ e ∈ es, WellFormed e) (k : ℕ) :
    Resumes es k ↔ ∃ rs, Found (recordsFrom es k) rs ∧
      Gives (cutLines es k ++ fileLines (recordsFrom es k)) (.ok rs) := by
  have hnul : nul ∉ (writeAll es).drop k := fun hm =>
    nul_not_mem_writeAll (fun e he => (h e he).persisted) (List.mem_of_mem_drop hm)
  have hlines : lines ((writeAll es).drop k) = cutLines es k ++ fileLines (recordsFrom es k) := by
    rw [drop_writeAll, lines_ended (cutText_ended es k), cutLines,
      lines_writeAll fun e he => (h e (mem_recordsFrom he)).persisted.type_ne]
  have hloop : ∀ n, eventLoopAt n (IStream.ofContent ((writeAll es).drop k)) =
      loopAt n (cutLines es k ++ fileLines (recordsFrom es k)) := fun n => by
    rw [← ofLines_lines, eventLoopAt_lines (plainLines_lines hnul), hlines]
  simp only [Resumes, hloop]
  constructor
  · rintro ⟨n, rs, hn, hf⟩
    exact ⟨rs, hf, n, hn⟩
  · rintro ⟨rs, hf, n, hn⟩
    exact ⟨n, rs, hn, hf⟩

theorem cutLines_eq_nil : cutLines es k = [] ↔ cutText es k = [] := by
  constructor
  · intro h
    rcases cutText_ended es k with hc | ⟨w, hc⟩
    · exact hc
    · rw [cutLines, hc, lines_append_lf_dropLast] at h
      exact absurd h (lines_ne_nil w)
  · intro h
    rw [cutLines, h]
    rfl

/-- Reading from an offset comes to the records behind it, each once and nothing else, exactly
when it begins with a record or passes over what is left of one. -/
theorem resumes_iff (es : List ImEvent) (h : ∀ e ∈ es, WellFormed e) (k : ℕ) :
    Resumes es k ↔ cutText es k = [] ∨ PassedOver (cutLines es k) (recordsFrom es k) := by
  have hfrom : ∀ e ∈ recordsFrom es k, WellFormed e := fun e he => h e (mem_recordsFrom he)
  have hm := marker_not_mem_dropMarker (marker_not_mem_cut h k)
  rw [resumes_iff_gives h, ← cutLines_eq_nil]
  by_cases hR : cutLines es k = []
  · rw [hR, List.nil_append]
    obtain ⟨rs, hf, hg, -⟩ := gives_records hfrom
    exact iff_of_true ⟨rs, hf, hg⟩ (Or.inl rfl)
  · rw [or_iff_right hR]
    constructor
    · intro ⟨rs, hf, hg⟩
      exact passedOver_of_gives hR hm hfrom hf hg
    · exact gives_passedOver hR hm hfrom

def note (text : Str) : ImEvent := ⟨contactroot, .incoming, 0, 0, false, .immessage text⟩

theorem note_wellFormed {text : Str} (hnul : nul ∉ text) (hm : marker ∉ bodyLines (.immessage text)) :
    WellFormed (note text) where
  persisted := ⟨ImDirection.noConfusion, by simp [note], by simpa [note, texts] using hnul,
    by simp [note, fieldNames]⟩
  fields := by simp [note]
  marked := hm

theorem hi_wellFormed : ∀ e ∈ [note (bytes "hi"), note (bytes "hi")], WellFormed e := by
  have hi : WellFormed (note (bytes "hi")) := note_wellFormed (by decide) (by decide)
  simpa using hi

/-- From behind the first marker there are enough lines to come to the second record. -/
theorem resumes_second : Resumes [note (bytes "hi"), note (bytes "hi")] 1 := by
  refine (resumes_iff _ hi_wellFormed 1).mpr (Or.inr ⟨?_, Or.inl ?_⟩)
  · decide
  · decide

/-- From inside the text of the first message the second one is missed. -/
theorem second_missed : ¬ ∀ (es : List ImEvent) (k : ℕ), (∀ e ∈ es, WellFormed e) → Resumes es k := by
  intro h
  have hi := hi_wellFormed
  obtain ⟨rs, hf, hg⟩ := (resumes_iff_gives hi 14).mp (h _ 14 hi)
  have hfrom : recordsFrom [note (bytes "hi"), note (bytes "hi")] 14 = [note (bytes "hi")] := by
    rw [recordsFrom, if_neg (by decide), recordsFrom, if_pos (by decide)]
  have hR : cutLines [note (bytes "hi"), note (bytes "hi")] 14 = [bytes "i"] := by decide
  rw [hfrom, hR] at hg
  rw [hfrom] at hf
  have hp := passedOver_of_gives (by decide) (by decide) (fun e he => hi e (by simp_all)) hf hg
  exact absurd hp.1 (by decide)

end Offset

end CenterIM.ResumedReading
