import CenterIM.HistoryScan

/-!
# Reading from the offset of the scan

`getevents` starts at the offset that `scanhistory` found. What it reads there is what a
scan of the whole file gives, except for the records in front of the offset. If the offset cuts
a record in two, what is left of it is read as a record, or takes the next record along.
-/
namespace CenterIM.HistoryFastPath
open ByteText Decimal LineStream StrText Contact Event EventReader EventLines RecordText EventFraming
  HistoryFile HistoryScan

def readBack (e : ImEvent) : ImEvent :=
  match recordBody e with
  | .ok body => readEvent e body
  | .error _ => e

def fullScan (content : Str) (c : HistoryContact) (lastread : Int64) :
    Except Fault (List ImEvent) :=
  (readAll content).map fun revs =>
    (revs.filter fun rev => lastread < rev.timestamp).map (deliver c)

/-- `getevents` on the history `hs` extended by `added` after the scan of `hs` gives what a
full scan gives. -/
def FastPathExact (hs added : List ImEvent) (c : HistoryContact) (lastread : Int64) : Prop :=
  getevents (some (writeAll (hs ++ added))) (scanhistory (some (writeAll hs)) c) lastread =
    fullScan (writeAll (hs ++ added)) c lastread

theorem readBack_timestamp (e : ImEvent) : (readBack e).timestamp = e.timestamp := by
  rw [readBack]
  cases recordBody e <;> rfl

theorem readBack_direction (e : ImEvent) : (readBack e).direction = e.direction := by
  rw [readBack]
  cases recordBody e <;> rfl

theorem ReadAs.eq_map {es rs : List ImEvent} (h : ReadAs es rs) : rs = es.map readBack := by
  induction h with
  | nil => rfl
  | cons hr _ ih =>
    obtain ⟨body, hb, rfl⟩ := hr
    rw [List.map_cons, ih, readBack, hb]

theorem readAll_readBack {hs : List ImEvent} (hc : ∀ e ∈ hs, Persisted e ∧ Clean e) :
    readAll (writeAll hs) = .ok (hs.map readBack) := by
  obtain ⟨rs, hr, hread⟩ := readAll_clean hc
  rw [hread, ReadAs.eq_map hr]

/-- The events newer than a time, as they are handed out. -/
def newer (c : HistoryContact) (lastread : Int64) (hs : List ImEvent) : List ImEvent :=
  (hs.filter fun e => lastread < e.timestamp).map fun e => deliver c (readBack e)

theorem newer_append (c : HistoryContact) (lastread : Int64) (hs added : List ImEvent) :
    newer c lastread (hs ++ added) = newer c lastread hs ++ newer c lastread added := by
  simp [newer]

theorem newer_eq_nil_iff (c : HistoryContact) (lastread : Int64) (hs : List ImEvent) :
    newer c lastread hs = [] ↔ ∀ e ∈ hs, e.timestamp ≤ lastread := by
  simp [newer, List.filter_eq_nil_iff]

theorem filter_readBack (c : HistoryContact) (lastread : Int64) (hs : List ImEvent) :
    ((hs.map readBack).filter fun rev => lastread < rev.timestamp).map (deliver c) =
      newer c lastread hs := by
  rw [newer, List.filter_map, List.map_map]
  simp only [Function.comp_def, readBack_timestamp]

theorem fullScan_clean {hs : List ImEvent} (hc : ∀ e ∈ hs, Persisted e ∧ Clean e)
    (c : HistoryContact) (lastread : Int64) :
    fullScan (writeAll hs) c lastread = .ok (newer c lastread hs) := by
  rw [fullScan, readAll_readBack hc, Except.map, filter_readBack]

theorem fullScan_writeAll {hs : List ImEvent} (hw : ∀ e ∈ hs, WellFormed e) (c : HistoryContact)
    (lastread : Int64) : fullScan (writeAll hs) c lastread = .ok (newer c lastread hs) :=
  fullScan_clean (fun e he => ⟨(hw e he).stored, (hw e he).clean⟩) c lastread

theorem getevents_writeAll {pre rest : List ImEvent} (hw : ∀ e ∈ rest, WellFormed e)
    {c : HistoryContact} (hoff : c.fhistoffset = (writeAll pre).length) {lastread : Int64}
    (hl : lastread ≠ 0) :
    getevents (some (writeAll (pre ++ rest))) c lastread = .ok (newer c lastread rest) := by
  have hdrop : (writeAll (pre ++ rest)).drop c.fhistoffset = writeAll rest := by
    rw [hoff, writeAll_append, List.drop_left]
  simp only [getevents, if_pos hl, hdrop]
  rw [← fullScan_writeAll hw]
  rfl

theorem getevents_zero {hs : List ImEvent} (hc : ∀ e ∈ hs, Persisted e ∧ Clean e)
    (c : HistoryContact) : getevents (some (writeAll hs)) c 0 = .ok (newer c 0 hs) := by
  rw [← fullScan_clean hc]
  rfl

/-- The type that the lines behind the direction name, if they name one. -/
def cutType (T : List Str) : ImEventType := lookupType (T.headD [])

/-- How many lines are read behind the direction before the reader looks for a marker. -/
def needed (type : ImEventType) : ℕ :=
  if type = .imeventtype_size then 2 else if readsFirst type then 4 else 3

/-- Does the rest of a record that is cut take the next record along? -/
def swallows (T : List Str) : Bool := decide (T.length < needed (cutType T))

/-- What the rest of a record that is cut, from its direction on, is read as. -/
def forged (T next : List Str) : Except Fault (List ImEvent) :=
  let r := fields (bytes "IN" :: (T ++ next))
  if r.1.unknown then .ok [] else (readBodyLines r.1.type r.2.2).map fun b => [r.1.event b.1]

/-- The records that are not read from the place of the scan on. -/
def hidden (hs added : List ImEvent) : List ImEvent :=
  skipped hs ++ if cut hs ≠ [] ∧ swallows (cutLines hs) then (behind hs added).take 1 else []

/-- What is read there of the record that the scan cuts, if it cuts one. -/
def forgeries (hs added : List ImEvent) : Except Fault (List ImEvent) :=
  if cut hs = [] then .ok [] else forged (cutLines hs) (fileLines (behind hs added))

theorem fields_in (L : List Str) : (fields (bytes "IN" :: L)).1.direction = .incoming ∧
    (fields (bytes "IN" :: L)).1.type = lookupType (L.headD (bytes "IN")) ∧
    (fields (bytes "IN" :: L)).2.2 = L.drop 3 := by
  have hd : ∀ ls : List Str, dropMarker (bytes "IN" :: ls) = bytes "IN" :: ls := dropMarker_of_ne (by decide)
  have hin : lookupDirection (bytes "IN") = .incoming := by decide
  rcases L with _ | ⟨t, _ | ⟨a, _ | ⟨b, L⟩⟩⟩ <;> simp [fields, hd, headerOf, hin]

theorem fields_marker {d : Str} (h : d ≠ marker) (L : List Str) :
    fields (marker :: d :: L) = fields (d :: L) := by
  rcases L with _ | ⟨t, _ | ⟨a, _ | ⟨b, L⟩⟩⟩ <;> simp [fields, dropMarker, h]

theorem unknown_in {L : List Str} :
    (fields (bytes "IN" :: L)).1.unknown = true ↔ lookupType (L.headD (bytes "IN")) = .imeventtype_size := by
  obtain ⟨hdir, htype, -⟩ := fields_in L
  simp [Header.unknown, hdir, htype]

/-- Where nothing is left of a text the next line is a marker or the last one, and neither names a
type. -/
theorem lookupType_cut (T : List Str) (es : List ImEvent) :
    lookupType ((T ++ fileLines es).headD (bytes "IN")) = cutType T := by
  cases T with
  | cons t T => rfl
  | nil =>
    cases es with
    | nil => rfl
    | cons e es => exact lookupType_marker

section
variable {T : List Str} {es : List ImEvent}

theorem marker_not_mem_recLines {e : ImEvent} (h : WellFormed e) {k : ℕ} (hk : 0 < k) :
    marker ∉ (recLines e).drop k := by
  have hff : ∀ i, decimalInt i ≠ marker := by
    intro i hi
    have hm := not_mem_decimalInt (c := ff) (by decide) (by decide) i
    rw [hi] at hm
    exact hm (by decide)
  have hdir : sdirection e.direction ≠ marker := by cases e.direction <;> decide
  have htype : seventtype e.gettype ≠ marker := by cases e.gettype <;> decide
  intro hm
  obtain ⟨k, rfl⟩ := Nat.exists_eq_succ_of_ne_zero hk.ne'
  have htail := List.mem_of_mem_drop (by simpa [recLines] using hm)
  simp only [List.mem_cons] at htail
  rcases htail with h1 | h1 | h1 | h1 | h1
  · exact hdir h1.symm
  · exact htype h1.symm
  · exact hff _ h1.symm
  · exact hff _ h1.symm
  · exact h.separate h1

/-- The lines behind the next marker, from some line of a text or of the header behind it. -/
theorem afterMarker_drop (hT : marker ∉ T) (hes : ∀ e ∈ es, WellFormed e) {k : ℕ}
    (hk : k ≤ T.length + 5) :
    afterMarker ((T ++ fileLines es).drop k) =
      (fileLines (if k ≤ T.length then es else es.drop 1)).tail := by
  split_ifs with h
  · rw [List.drop_append_of_le_length h, afterMarker_append fun hm => hT (List.mem_of_mem_drop hm),
      fileLines_tail]
  · rw [List.drop_append, List.drop_eq_nil_of_le (not_le.mp h).le, List.nil_append]
    cases es with
    | nil =>
      have hnil : ([[]] : List Str).drop (k - T.length) = [] := List.drop_eq_nil_of_le (by
        simp only [List.length_cons, List.length_nil]
        omega)
      rw [fileLines_nil, hnil]
      rfl
    | cons e es =>
      have hlen : 5 ≤ (recLines e).length := by simp [recLines]
      rw [fileLines_cons, List.drop_append_of_le_length (by omega),
        afterMarker_append (marker_not_mem_recLines (hes e (by simp)) (by omega)), fileLines_tail]
      rfl

/-- A header that is not known leaves the search to the lines behind the next marker. -/
theorem nextTry_cut (hT : marker ∉ T) (hes : ∀ e ∈ es, WellFormed e) :
    nextTry (fields (bytes "IN" :: (T ++ fileLines es))).2.1 ((T ++ fileLines es).drop 3) =
      (fileLines (if 2 ≤ T.length then es else es.drop 1)).tail := by
  have hd : ∀ ls : List Str, dropMarker (bytes "IN" :: ls) = bytes "IN" :: ls := dropMarker_of_ne (by decide)
  have hafter := afterMarker_drop hT hes (k := 3)
  have hdir : ∀ e : ImEvent, sdirection e.direction ≠ marker := by
    intro e
    cases e.direction <;> decide
  have htype : ∀ e : ImEvent, seventtype e.gettype ≠ marker := by
    intro e
    cases e.gettype <;> decide
  rcases T with _ | ⟨a, _ | ⟨b, _ | ⟨c, T⟩⟩⟩
  · have hbuf : (fields (bytes "IN" :: ([] ++ fileLines es))).2.1 ≠ marker := by
      cases es with
      | nil => decide
      | cons e es => simpa [fields, hd, fileLines_cons_eq] using htype e
    rw [nextTry, if_neg hbuf, hafter (by simp)]
    rfl
  · have hbuf : (fields (bytes "IN" :: ([a] ++ fileLines es))).2.1 ≠ marker := by
      cases es with
      | nil => simp [fields, hd]
      | cons e es => simpa [fields, hd, fileLines_cons_eq] using hdir e
    rw [nextTry, if_neg hbuf, hafter (by simp)]
    rfl
  · cases es with
    | nil =>
      have hbuf : (fields (bytes "IN" :: ([a, b] ++ fileLines []))).2.1 ≠ marker := by simp [fields, hd]
      rw [nextTry, if_neg hbuf, hafter (by simp)]
      rfl
    | cons e es => simp [fields, hd, fileLines_cons_eq, nextTry]
  · have hbuf : (fields (bytes "IN" :: ((a :: b :: c :: T) ++ fileLines es))).2.1 ≠ marker := by
      have hc : marker ≠ c := fun h => hT (by simp [h])
      simpa [fields, hd] using hc.symm
    rw [nextTry, if_neg hbuf, hafter (by simp), if_pos (by simp), if_pos (by simp)]

/-- The lines that a body leaves are those behind the next marker. -/
theorem readBodyLines_cut (hT : marker ∉ T) (hes : ∀ e ∈ es, WellFormed e) {type : ImEventType}
    {r : Body × List Str} (h : readBodyLines type ((T ++ fileLines es).drop 3) = .ok r) :
    r.2 = (fileLines (if (if readsFirst type then 4 else 3) ≤ T.length then es else es.drop 1)).tail := by
  have hnext : (nextLine ((T ++ fileLines es).drop 3) []).2 = (T ++ fileLines es).drop 4 := by
    have htail : (T ++ fileLines es).drop 4 = ((T ++ fileLines es).drop 3).tail := by
      rw [List.tail_drop]
    rw [htail]
    cases (T ++ fileLines es).drop 3 <;> rfl
  rw [readBodyLines] at h
  obtain ⟨b, -, rfl⟩ := map_eq_ok h
  cases hf : readsFirst type with
  | true =>
    simp only [if_true, hnext]
    exact afterMarker_drop hT hes (by omega)
  | false => exact afterMarker_drop hT hes (by omega)

theorem kept_of_needed {n : ℕ} (hn : needed (cutType T) = n) :
    (if n ≤ T.length then es else es.drop 1) = if swallows T then es.drop 1 else es := by
  subst hn
  simp only [swallows, decide_eq_true_eq]
  split_ifs <;> first | rfl | omega

theorem plain_cut (hp : PlainLines T) (hes : ∀ e ∈ es, Persisted e) :
    PlainLines (marker :: bytes "IN" :: (T ++ fileLines es)) := by
  intro l hl
  simp only [List.mem_cons, List.mem_append] at hl
  rcases hl with rfl | rfl | hl | hl
  · decide
  · decide
  · exact hp l hl
  · exact fileLines_plain hes l hl

/-- The events of a file from the place at which a record is cut: what its rest is read as, and the
records behind it, without the first one if that was taken along. -/
theorem events_cut (hT : marker ∉ T) (hp : PlainLines T) (hes : ∀ e ∈ es, WellFormed e) :
    events (marker :: bytes "IN" :: (T ++ fileLines es)) =
      (forged T (fileLines es)).bind fun fs =>
        (events (fileLines (if swallows T then es.drop 1 else es))).map (fs ++ ·) := by
  have hstored : ∀ e ∈ es, Persisted e := fun e he => (hes e he).stored
  have hplain := plain_cut hp hstored
  have hsame : fields (marker :: bytes "IN" :: (T ++ fileLines es)) =
      fields (bytes "IN" :: (T ++ fileLines es)) := fields_marker (by decide) _
  obtain ⟨hdir, htype, hrest⟩ := fields_in (T ++ fileLines es)
  rw [lookupType_cut] at htype
  have hunknown := unknown_in (L := T ++ fileLines es)
  rw [lookupType_cut] at hunknown
  have htry := nextTry_cut hT hes
  rw [forged]
  generalize hr : fields (bytes "IN" :: (T ++ fileLines es)) = r at *
  obtain ⟨h, buf, rest⟩ := r
  dsimp only at hdir htype hrest hunknown htry ⊢
  subst hrest
  have hkept : ∀ e ∈ (if swallows T then es.drop 1 else es), Persisted e := by
    intro e he
    split_ifs at he
    · exact hstored e (List.mem_of_mem_drop he)
    · exact hstored e he
  by_cases hu : h.unknown = true
  · have hsize := hunknown.mp hu
    have hkeep := @kept_of_needed _ es _ (show needed (cutType T) = 2 by rw [needed, if_pos hsize])
    rw [hkeep] at htry
    rw [if_pos hu, Except.bind, ← events_tail hkept, ← htry]
    have hid : ∀ x : Except Fault (List ImEvent), x.map ([] ++ ·) = x := by
      intro x
      cases x <;> rfl
    rw [hid]
    cases hn : nextTry buf ((T ++ fileLines es).drop 3) with
    | nil =>
      have hend := header_end hsame hu hn (marker :: bytes "IN" :: (T ++ fileLines es)).length
      have hread := readLines_of_end (congrArg Prod.snd hend) (by rw [hend, htype, hsize])
      rw [events_of_readLines hplain (by simp) hread]
      rfl
    | cons l ls =>
      have hretry := header_retry hsame hu hn (by simp)
      have hpl : PlainLines (l :: ls) := by
        rw [← hn, htry]
        exact fun k hk => fileLines_plain hkept k (List.mem_of_mem_tail hk)
      exact events_congr hplain hpl (by simp) (by simp) (readLines_congr hretry)
  · have hknown : h.unknown = false := by simpa using hu
    have hbody : hasBody h.type = true := by
      rw [htype]
      exact hasBody_lookupType fun hs => hu (hunknown.mpr hs)
    have hread : readLines (marker :: bytes "IN" :: (T ++ fileLines es)) =
        (readBodyLines h.type ((T ++ fileLines es).drop 3)).map fun r => (some (h.event r.1), r.2) := by
      rw [readLines, header_known hsame hknown]
      simp only [hbody, if_true]
    rw [if_neg hu]
    cases hb : readBodyLines h.type ((T ++ fileLines es).drop 3) with
    | error f =>
      rw [hb] at hread
      rw [events_of_error (by simp) hread]
      rfl
    | ok b =>
      rw [hb] at hread
      have hneeded : needed (cutType T) = if readsFirst h.type then 4 else 3 := by
        have hne : cutType T ≠ .imeventtype_size := fun hs => hu (hunknown.mpr hs)
        rw [needed, if_neg hne, ← htype]
      rw [events_of_readLines hplain (by simp) hread, readBodyLines_cut hT hes hb,
        kept_of_needed hneeded,
        events_tail hkept]
      rfl

end

/-- The events newer than a time, of those that were read. -/
def delivered (c : HistoryContact) (lastread : Int64) (revs : List ImEvent) : List ImEvent :=
  (revs.filter fun rev => lastread < rev.timestamp).map (deliver c)

theorem drop_hidden (hs added : List ImEvent) :
    (hs ++ added).drop (hidden hs added).length =
      if cut hs ≠ [] ∧ swallows (cutLines hs) then (behind hs added).drop 1 else behind hs added := by
  rw [hidden, List.length_append, ← List.drop_drop]
  change (behind hs added).drop _ = _
  split_ifs
  · cases behind hs added <;> rfl
  · rfl

theorem hidden_isPrefix (hs added : List ImEvent) : hidden hs added <+: hs ++ added := by
  obtain ⟨rest, hrest⟩ := (skipped_isPrefix hs).trans (List.prefix_append hs added)
  rw [hidden, behind, ← hrest, List.drop_left]
  apply (List.prefix_append_right_inj _).mpr
  split_ifs
  · exact List.take_prefix _ _
  · exact List.nil_prefix

/-- What is read after a scan of `hs`. -/
theorem getevents_scanned (hs added : List ImEvent) (hw : ∀ e ∈ hs ++ added, WellFormed e)
    (c : HistoryContact) {lastread : Int64} (hl : lastread ≠ 0) :
    getevents (some (writeAll (hs ++ added))) (scanhistory (some (writeAll hs)) c) lastread =
      (forgeries hs added).map fun fs => delivered c lastread fs ++ newer c lastread
        ((hs ++ added).drop (hidden hs added).length) := by
  have hhs : ∀ e ∈ hs, WellFormed e := fun e he => hw e (by simp [he])
  have hbehind : ∀ e ∈ behind hs added, WellFormed e := fun e he => hw e (List.mem_of_mem_drop he)
  have hnul : ∀ es, (∀ e ∈ es, WellFormed e) → nul ∉ writeAll es := fun es hes =>
    nul_not_mem_writeAll fun e he => recorded (hes e he).stored
  have hread : ∀ es, (∀ e ∈ es, WellFormed e) → events (fileLines es) = .ok (es.map readBack) := by
    intro es hes
    rw [← readAll_writeAll fun e he => (hes e he).stored]
    exact readAll_readBack fun e he => ⟨(hes e he).stored, (hes e he).clean⟩
  have hget : getevents (some (writeAll (hs ++ added))) (scanhistory (some (writeAll hs)) c) lastread =
      (readAll ((writeAll (hs ++ added)).drop (place (writeAll hs)))).map (delivered c lastread) := by
    simp only [getevents, if_pos hl, scanhistory_stop (hnul hs hhs)]
    rfl
  rw [hget, drop_place hs added, drop_hidden, forgeries]
  rcases cut_cases hhs with hcut | ⟨hcut, hT, hp⟩
  · rw [hcut, List.nil_append, if_pos rfl, readAll_writeAll fun e he => (hbehind e he).stored,
      hread _ hbehind, if_neg fun h => h.1 rfl]
    exact congrArg Except.ok (filter_readBack c lastread _)
  · have hne : cut hs ≠ [] := by
      rw [hcut, incomingMark_eq]
      simp
    have hlines : lines (cut hs ++ writeAll (behind hs added)) =
        marker :: bytes "IN" :: (cutLines hs ++ fileLines (behind hs added)) := by
      have hmark : cut hs ++ writeAll (behind hs added) =
          marker ++ lf :: (bytes "IN" ++ lf :: (unlines (cutLines hs) ++ writeAll (behind hs added))) := by
        rw [hcut]
        simp [incomingMark_eq, bytes]
      rw [hmark, lines_line (by decide), lines_line (by decide),
        lines_unlines_append fun l hl => (hp l hl).1,
        lines_writeAll fun e he => (hbehind e he).stored.type_ne]
    have hplain : nul ∉ cut hs ++ writeAll (behind hs added) := by
      rw [← drop_place hs added]
      exact fun hm => hnul _ hw (List.mem_of_mem_drop hm)
    rw [if_neg hne, readAll_lines hplain, hlines, events_cut hT hp hbehind]
    have hkept : ∀ e ∈ (if swallows (cutLines hs) then (behind hs added).drop 1 else behind hs added),
        WellFormed e := by
      intro e he
      split_ifs at he
      · exact hbehind e (List.mem_of_mem_drop he)
      · exact hbehind e he
    rw [hread _ hkept]
    have hif : (if cut hs ≠ [] ∧ swallows (cutLines hs) then (behind hs added).drop 1 else behind hs added) =
        if swallows (cutLines hs) then (behind hs added).drop 1 else behind hs added := by simp [hne]
    rw [hif]
    cases forged (cutLines hs) (fileLines (behind hs added)) with
    | error f => rfl
    | ok fs =>
      refine congrArg Except.ok ?_
      rw [delivered, List.filter_append, List.map_append, filter_readBack]
      rfl

/-- Reading from the place of the scan misses nothing if and only if what is read of a record that
it cuts is, newer than the time asked for, what is left out: the records that begin before the
place, and one that the rest of the cut record takes along. -/
theorem fast_path_exact (hs added : List ImEvent) (hw : ∀ e ∈ hs ++ added, WellFormed e)
    (c : HistoryContact) (lastread : Int64) (hl : lastread ≠ 0) :
    FastPathExact hs added c lastread ↔ ∃ fs, forgeries hs added = .ok fs ∧
      delivered c lastread fs = newer c lastread (hidden hs added) := by
  have hsplit : hs ++ added = hidden hs added ++ (hs ++ added).drop (hidden hs added).length :=
    (List.prefix_iff_eq_append.mp (hidden_isPrefix hs added)).symm
  have hfull : fullScan (writeAll (hs ++ added)) c lastread =
      .ok (newer c lastread (hidden hs added) ++
        newer c lastread ((hs ++ added).drop (hidden hs added).length)) := by
    rw [fullScan_writeAll hw, ← newer_append, ← hsplit]
  rw [FastPathExact, getevents_scanned hs added hw c hl, hfull]
  cases forgeries hs added with
  | error f =>
    constructor
    · intro h
      cases h
    · rintro ⟨fs, h, -⟩
      cases h
  | ok fs =>
    constructor
    · intro h
      exact ⟨fs, rfl, List.append_cancel_right (Except.ok.inj h)⟩
    · rintro ⟨_, h, heq⟩
      obtain rfl := Except.ok.inj h
      exact congrArg Except.ok (congrArg (· ++ _) heq)

/-- If the scan stops at the start of a record, nothing is missed if and only if none of the
records before it is newer than the time asked for. -/
theorem fast_path_uncut {hs added : List ImEvent} (hw : ∀ e ∈ hs ++ added, WellFormed e)
    (hcut : cut hs = []) (c : HistoryContact) {lastread : Int64} (hl : lastread ≠ 0) :
    FastPathExact hs added c lastread ↔ ∀ e ∈ skipped hs, e.timestamp ≤ lastread := by
  have hhidden : hidden hs added = skipped hs := by simp [hidden, hcut]
  rw [fast_path_exact hs added hw c lastread hl, forgeries, if_pos hcut, hhidden,
    ← newer_eq_nil_iff c lastread]
  constructor
  · rintro ⟨fs, h, heq⟩
    obtain rfl := Except.ok.inj h
    exact heq.symm
  · intro h
    exact ⟨[], rfl, h.symm⟩

/-- An incoming message with this time and text. -/
def message (timestamp : Int64) (text : Str) : ImEvent :=
  ⟨contactroot, .incoming, timestamp, timestamp, false, .immessage text⟩

/-- A text that is longer than the block in which the scan looks for the last record. -/
def longText : Str := List.replicate 64 97

theorem message_wellFormed {timestamp : Int64} {text : Str} (hn : nul ∉ text)
    (hm : marker ∉ lines text) : WellFormed (message timestamp text) := by
  have hb : bodyLines (message timestamp text).body = lines text := lines_append_lf_dropLast text
  exact ⟨⟨by simp [message], by simp [message], by simpa [message, texts] using hn,
    by simp [message, fieldNames]⟩, by simp [message], hb ▸ hm⟩

/-- Contact state before the first scan, with the last read time 4. -/
def reader : HistoryContact := ⟨contactroot, 4, 0, false, [], []⟩

/-- A history in which the scan stops inside a text, at a line that ends in a form feed. -/
def quoted : List ImEvent :=
  [message 3 (bytes "one\n\ntwo"), message 4 (longText ++ bytes "\x0c\nIN\nold\nlog\nfile")]

/-- Both records are skipped, and the lines behind the mark are not read as another one. -/
theorem fast_path_exact_quoted : cut quoted ≠ [] ∧
    FastPathExact quoted [message 9 (bytes "new\nlines")] reader 4 := by
  have hw : ∀ e ∈ quoted ++ [message 9 (bytes "new\nlines")], WellFormed e := by
    simp only [quoted, List.cons_append, List.nil_append, List.mem_cons, List.not_mem_nil, or_false,
      forall_eq_or_imp, forall_eq]
    exact ⟨message_wellFormed (by decide) (by decide),
      message_wellFormed (by decide) (by decide +kernel), message_wellFormed (by decide) (by decide)⟩
  have hcut : cut quoted ≠ [] := by decide +kernel
  refine ⟨hcut, (fast_path_exact quoted [message 9 (bytes "new\nlines")] hw reader 4 (by decide)).mpr
    ⟨[], ?_, ?_⟩⟩
  · have hunknown := unknown_in.mpr ((lookupType_cut (cutLines quoted)
      (behind quoted [message 9 (bytes "new\nlines")])).trans (by decide +kernel))
    rw [forgeries, if_neg hcut, forged, hunknown]
    rfl
  · exact ((newer_eq_nil_iff reader 4 _).mpr (by decide +kernel)).symm

theorem two_wellFormed : ∀ e ∈ [message 5 longText, message 6 []], WellFormed e := by
  simp only [List.mem_cons, List.not_mem_nil, or_false, forall_eq_or_imp, forall_eq]
  exact ⟨message_wellFormed (by decide) (by decide), message_wellFormed (by decide) (by decide)⟩

theorem fast_path_incomplete : ¬ ∀ (hs added : List ImEvent) (c : HistoryContact),
    (∀ e ∈ hs ++ added, WellFormed e) →
    (hs ++ added).Pairwise (fun d e => d.timestamp ≤ e.timestamp) → c.lastread ≠ 0 →
    FastPathExact hs added c c.lastread := by
  intro h
  have hexact := h [message 5 longText, message 6 []] [] reader two_wellFormed (by decide)
    (by decide)
  have hw : ∀ e ∈ [message 5 longText, message 6 []] ++ [], WellFormed e := two_wellFormed
  have hold := (fast_path_uncut hw (by decide) reader (by decide)).mp hexact
  -- one record is skipped, and it is newer than the time 4
  exact absurd hold (by decide)

end CenterIM.HistoryFastPath
