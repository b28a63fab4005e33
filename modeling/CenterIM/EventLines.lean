import CenterIM.EventReader

/-!
# The event reader on lines

A history file as a list of lines: what each reader takes from the lines that are left,
and that the readers on streams do just that. The results about records are proved here
on lines and carried to files by `readAll_lines`.
-/
namespace CenterIM.EventLines
open ByteText Decimal LineStream StrText Contact XmlTree Event EventReader

/-- `getstring` on lines; at the end of the file the buffer stays as it is. -/
def nextLine (ls : List Str) (rdbuf : Str) : Str × List Str :=
  match ls with
  | [] => (rdbuf, [])
  | l :: ls => (l, ls)

def afterMarker : List Str → List Str
  | [] => []
  | l :: ls => if l = marker then ls else afterMarker ls

def headerOf (d t a b : Str) : Header :=
  ⟨lookupDirection d, lookupType t, (strtoul a).toInt64, (strtoul b).toInt64⟩

def dropMarker : List Str → List Str
  | [] => []
  | l :: ls => if l = marker then ls else l :: ls

/-- `readFields` on lines: a line that is missing is taken to be the one before it. -/
def fields (ls : List Str) : Header × Str × List Str :=
  match dropMarker ls with
  | [] => (headerOf [] [] [] [], ls.headD [], [])
  | [d] => (headerOf d d d d, d, [])
  | [d, t] => (headerOf d t t t, t, [])
  | [d, t, a] => (headerOf d t a a, a, [])
  | d :: t :: a :: b :: ls => (headerOf d t a b, b, ls)

def nextTry (rdbuf : Str) (ls : List Str) : List Str := if rdbuf = marker then ls else afterMarker ls

/-- `readHeader` on lines. -/
def header : ℕ → List Str → Header × List Str
  | 0, ls => (⟨.imdirection_size, .imeventtype_size, 0, 0⟩, ls)
  | fuel + 1, ls =>
    let r := fields ls
    if r.1.unknown then
      let ls := nextTry r.2.1 r.2.2
      if ls ≠ [] then header fuel ls else (r.1, ls)
    else (r.1, r.2.2)

/-- The lines that `readblock` puts into the block. -/
def blockLines : List Str → List Str
  | [] => []
  | l :: ls => if l = marker ∨ (ls = [] ∧ l = []) then [] else l :: blockLines ls

/-- Does the `read` of this type take a line before the block? -/
def readsFirst : ImEventType → Bool
  | .url | .sms | .authorization => true
  | _ => false

def bodyOf (type : ImEventType) (first block : Str) : Except Fault Body :=
  match type with
  | .message => .ok (.immessage block)
  | .url => .ok (.imurl first block)
  | .sms => .ok (smsOf first block)
  | .authorization => .ok (.imauthorization block (strtoul first).toUInt32)
  | .email => .ok (.imemail block)
  | .notification => .ok (.imnotification block)
  | .contacts => .ok (.imcontacts (contactsOf block))
  | .file => (fileOf block).map fun r => .imfile r.1 r.2
  | .xml => (xmlOf block).map .imxmlevent
  | type => .ok (.imrawevent type)

/-- `readblock` on lines. -/
def block (ls : List Str) : Str := (blockLines ls).foldl addLine []

/-- `readBody` on lines, for the types that have a subclass. -/
def readBodyLines (type : ImEventType) (ls : List Str) : Except Fault (Body × List Str) :=
  let r := if readsFirst type then nextLine ls [] else ([], ls)
  (bodyOf type r.1 (block r.2)).map fun b => (b, afterMarker r.2)

/-- `eventread` on lines. -/
def readLines (ls : List Str) : Except Fault (Option ImEvent × List Str) :=
  let (ev, ls) := header (ls.length + 1) ls
  if hasBody ev.type then (readBodyLines ev.type ls).map fun r => (some (ev.event r.1), r.2)
  else
    let (rev, ls) := header (ls.length + 1) ls
    if rev.type = .imeventtype_size then .ok (none, ls)
    else .ok (some (rev.event (.imrawevent rev.type)), ls)

def loop : ℕ → List Str → Except Fault (List ImEvent)
  | 0, _ => .ok []
  | fuel + 1, ls =>
    if ls = [] then .ok []
    else
      match readLines ls with
      | .error e => .error e
      | .ok (rev, ls) => (loop fuel ls).map (rev.toList ++ ·)

def PlainLines (ls : List Str) : Prop := ∀ l ∈ ls, Plain l

theorem PlainLines.tail {l : Str} {ls : List Str} (h : PlainLines (l :: ls)) : PlainLines ls :=
  fun k hk => h k (by simp [hk])

theorem PlainLines.nextLine {ls : List Str} (h : PlainLines ls) (buf : Str) :
    PlainLines (nextLine ls buf).2 := by
  cases ls with
  | nil => exact h
  | cons l ls => exact h.tail

theorem PlainLines.afterMarker {ls : List Str} (h : PlainLines ls) :
    PlainLines (afterMarker ls) := by
  induction ls with
  | nil => exact h
  | cons l ls ih =>
    rw [EventLines.afterMarker]
    split_ifs
    · exact h.tail
    · exact ih h.tail

theorem plainLines_lines {s : Str} (hs : nul ∉ s) : PlainLines (lines s) :=
  fun _ hl => plain_of_mem_lines hs hl

theorem getstring_lines {ls : List Str} (h : PlainLines ls) (buf : Str) :
    getstring (ofLines ls) buf =
      (!ls.isEmpty, (nextLine ls buf).1, ofLines (nextLine ls buf).2) := by
  cases ls with
  | nil => rfl
  | cons l ls => exact getstring_ofLines (h l (by simp)) ls buf

theorem nextLine_length (ls : List Str) (buf : Str) :
    (nextLine ls buf).2.length = ls.length - 1 := by
  cases ls <;> rfl

theorem afterMarker_length (ls : List Str) : (afterMarker ls).length ≤ ls.length := by
  induction ls with
  | nil => rfl
  | cons l ls ih =>
    rw [afterMarker]
    split_ifs <;> simp only [List.length_cons] <;> omega

theorem skipToMarker_lines {fuel : ℕ} {ls : List Str} (h : PlainLines ls)
    (hf : ls.length < fuel) (buf : Str) :
    skipToMarker fuel (ofLines ls) buf =
      ofLines (nextTry buf ls) := by
  induction fuel generalizing ls buf with
  | zero => omega
  | succ fuel ih =>
    rw [skipToMarker, ofLines_eof]
    cases ls with
    | nil => simp [nextTry, afterMarker]
    | cons l ls =>
      by_cases hb : buf = marker
      · simp [nextTry, hb]
      · have hi := ih h.tail (by simpa using hf) l
        simp [nextTry, hb, getstring_lines h, nextLine, hi, afterMarker]

theorem size_lines_lt (ls : List Str) : ls.length < (ofLines ls).size + 1 := by
  have := length_le_size ls
  omega

theorem nextTry_length (buf : Str) (ls : List Str) : (nextTry buf ls).length ≤ ls.length := by
  unfold nextTry
  split_ifs
  · rfl
  · exact afterMarker_length ls

theorem PlainLines.nextTry {ls : List Str} (h : PlainLines ls) (buf : Str) :
    PlainLines (nextTry buf ls) := by
  unfold EventLines.nextTry
  split_ifs
  · exact h
  · exact h.afterMarker

theorem dropMarker_length (ls : List Str) : (dropMarker ls).length ≤ ls.length := by
  cases ls with
  | nil => rfl
  | cons l ls =>
    rw [dropMarker]
    split_ifs <;> simp

theorem PlainLines.dropMarker {ls : List Str} (h : PlainLines ls) : PlainLines (dropMarker ls) := by
  cases ls with
  | nil => exact h
  | cons l ls =>
    rw [EventLines.dropMarker]
    split_ifs
    · exact h.tail
    · exact h

theorem fields_length (ls : List Str) : (fields ls).2.2.length ≤ ls.length - 1 := by
  have hd := dropMarker_length ls
  unfold fields
  split <;> rename_i he <;> rw [he] at hd
  iterate 4 exact Nat.zero_le _
  simp only [List.length_cons] at hd ⊢
  omega

theorem fields_plain {ls : List Str} (h : PlainLines ls) : PlainLines (fields ls).2.2 := by
  have hd := h.dropMarker
  unfold fields
  split <;> rename_i he
  iterate 4 exact fun _ hl => absurd hl (by simp)
  rw [he] at hd
  exact hd.tail.tail.tail.tail

theorem readFields_rest {ls : List Str} (h : PlainLines ls) (d : Str) :
    (let (_, t, f) := getstring (ofLines ls) d
     let (_, a, f) := getstring f t
     let (_, b, f) := getstring f a
     (headerOf d t a b, b, f)) =
      match ls with
      | [] => (headerOf d d d d, d, ofLines [])
      | [t] => (headerOf d t t t, t, ofLines [])
      | [t, a] => (headerOf d t a a, a, ofLines [])
      | t :: a :: b :: ls => (headerOf d t a b, b, ofLines ls) := by
  match ls with
  | [] => rfl
  | [t] => simp [getstring_ofLines (h t (by simp))]
  | [t, a] => simp [getstring_ofLines (h t (by simp)), getstring_ofLines (h a (by simp))]
  | t :: a :: b :: ls =>
    simp [getstring_ofLines (h t (by simp)), getstring_ofLines (h a (by simp)),
      getstring_ofLines (h b (by simp))]

theorem readFields_lines {ls : List Str} (h : PlainLines ls) :
    readFields (ofLines ls) = ((fields ls).1, (fields ls).2.1, ofLines (fields ls).2.2) := by
  cases ls with
  | nil => rfl
  | cons l ls =>
    have hl := getstring_ofLines (h l (by simp)) ls []
    by_cases hm : l = marker
    · subst hm
      cases ls with
      | nil =>
        simp [readFields, fields, dropMarker, hl, headerOf]
        decide
      | cons d ls =>
        have hd := getstring_ofLines (h d (by simp)) ls marker
        have hrest := readFields_rest h.tail.tail d
        simp only [readFields, hl, hd, if_true]
        simp only [headerOf] at hrest
        rw [hrest]
        rcases ls with _ | ⟨t, _ | ⟨a, _ | ⟨b, ls⟩⟩⟩
        · rfl
        · rfl
        · rfl
        · rfl
    · have hrest := readFields_rest h.tail l
      simp only [readFields, hl, hm, if_false]
      simp only [headerOf] at hrest
      rw [hrest]
      rcases ls with _ | ⟨t, _ | ⟨a, _ | ⟨b, ls⟩⟩⟩
      · simp [fields, dropMarker, hm, headerOf]
      · simp [fields, dropMarker, hm, headerOf]
      · simp [fields, dropMarker, hm, headerOf]
      · simp [fields, dropMarker, hm, headerOf]

theorem header_length (fuel : ℕ) (ls : List Str) : (header fuel ls).2.length ≤ ls.length := by
  induction fuel generalizing ls with
  | zero => rfl
  | succ fuel ih =>
    have hf := fields_length ls
    have ha := nextTry_length (fields ls).2.1 (fields ls).2.2
    simp only [header]
    split_ifs
    · exact (ih _).trans (by omega)
    · show (nextTry _ _).length ≤ _
      omega
    · show (fields ls).2.2.length ≤ _
      omega

theorem header_plain {ls : List Str} (h : PlainLines ls) (fuel : ℕ) :
    PlainLines (header fuel ls).2 := by
  induction fuel generalizing ls with
  | zero => exact h
  | succ fuel ih =>
    have hf := fields_plain h
    simp only [header]
    split_ifs
    · exact ih (hf.nextTry _)
    · exact hf.nextTry _
    · exact hf

/-- Enough fuel is enough: each further try starts after one more marker. -/
theorem header_fuel {ls : List Str} {m n : ℕ} (hm : ls.length < m) (hn : ls.length < n) :
    header m ls = header n ls := by
  induction m generalizing ls n with
  | zero => omega
  | succ m ih =>
    obtain ⟨n, rfl⟩ : ∃ k, n = k + 1 := ⟨n - 1, by omega⟩
    have hf := fields_length ls
    have ha := nextTry_length (fields ls).2.1 (fields ls).2.2
    simp only [header]
    split_ifs with hu hne
    · have hpos := List.length_pos_iff.mpr hne
      exact ih (by omega) (by omega)
    · rfl
    · rfl

theorem readHeader_lines {ls : List Str} (h : PlainLines ls) (fuel : ℕ) :
    readHeader fuel (ofLines ls) = ((header fuel ls).1, ofLines (header fuel ls).2) := by
  induction fuel generalizing ls with
  | zero => rfl
  | succ fuel ih =>
    have hf := fields_plain h
    have hs := skipToMarker_lines hf (size_lines_lt (fields ls).2.2) (fields ls).2.1
    simp only [readHeader, readFields_lines h, hs, header, ofLines_eof]
    have hp := hf.nextTry (fields ls).2.1
    generalize nextTry (fields ls).2.1 (fields ls).2.2 = t at hp
    by_cases hu : (fields ls).1.unknown = true
    · cases t with
      | nil => simp [hu]
      | cons l t => simp [hu, ih hp]
    · simp [hu]

theorem readblockLoop_lines {fuel : ℕ} {ls : List Str} (h : PlainLines ls)
    (hf : ls.length ≤ fuel) (r : Str) :
    readblockLoop fuel (ofLines ls) r =
      ((blockLines ls).foldl addLine r, ofLines (afterMarker ls)) := by
  induction fuel generalizing ls r with
  | zero =>
    obtain rfl : ls = [] := List.length_eq_zero_iff.mp (by omega)
    rfl
  | succ fuel ih =>
    cases ls with
    | nil => rfl
    | cons l ls =>
      have hi := ih h.tail (by simpa using hf)
      simp only [readblockLoop, ofLines_cons_eof, Bool.false_eq_true, if_false,
        getstring_ofLines (h l (by simp)), blockLines, afterMarker]
      simp only [ofLines_eof, List.isEmpty_iff]
      by_cases hm : l = marker
      · simp [hm]
      · by_cases he : ls = [] ∧ l = []
        · simp [he.1, he.2, afterMarker]
        · simp only [hm, he, if_false, false_or, List.foldl_cons, hi]

theorem readblock_lines {ls : List Str} (h : PlainLines ls) :
    readblock (ofLines ls) = (block ls, ofLines (afterMarker ls)) :=
  readblockLoop_lines h (length_le_size ls) []

theorem readBody_lines {type : ImEventType} (ht : hasBody type = true) {ls : List Str}
    (h : PlainLines ls) :
    readBody type (ofLines ls) = (readBodyLines type ls).map fun r => (r.1, ofLines r.2) := by
  cases type
  case online => exact absurd ht (by decide)
  case offline => exact absurd ht (by decide)
  case imeventtype_size => exact absurd ht (by decide)
  case file =>
    simp only [readBody, readblock_lines h, readBodyLines, readsFirst, bodyOf,
      Bool.false_eq_true, if_false]
    cases fileOf (block ls) <;> rfl
  case xml =>
    simp only [readBody, readblock_lines h, readBodyLines, readsFirst, bodyOf,
      Bool.false_eq_true, if_false]
    cases xmlOf (block ls) <;> rfl
  all_goals
    simp only [readBody, getstring_lines h, readblock_lines h, readblock_lines (h.nextLine []),
      readBodyLines, readsFirst, bodyOf]
    rfl

theorem readBodyLines_plain {type : ImEventType} {ls : List Str} (h : PlainLines ls)
    {b : Body} {rest : List Str} (hr : readBodyLines type ls = .ok (b, rest)) :
    PlainLines rest ∧ rest.length ≤ ls.length := by
  have hn := nextLine_length ls []
  simp only [readBodyLines] at hr
  split_ifs at hr with hf
  · have ha := afterMarker_length (nextLine ls []).2
    cases hb : bodyOf type (nextLine ls []).1 (block (nextLine ls []).2) with
    | error e => simp [hb, Except.map] at hr
    | ok b' =>
      simp only [hb, Except.map, Except.ok.injEq, Prod.mk.injEq] at hr
      obtain ⟨-, rfl⟩ := hr
      exact ⟨(h.nextLine []).afterMarker, by omega⟩
  · have ha := afterMarker_length ls
    cases hb : bodyOf type [] (block ls) with
    | error e => simp [hb, Except.map] at hr
    | ok b' =>
      simp only [hb, Except.map, Except.ok.injEq, Prod.mk.injEq] at hr
      obtain ⟨-, rfl⟩ := hr
      exact ⟨h.afterMarker, ha⟩

theorem readHeader_size {ls : List Str} (h : PlainLines ls) :
    readHeader ((ofLines ls).size + 1) (ofLines ls) =
      ((header (ls.length + 1) ls).1, ofLines (header (ls.length + 1) ls).2) := by
  rw [readHeader_lines h, header_fuel (size_lines_lt ls) (Nat.lt_succ_self _)]

theorem eventread_lines {ls : List Str} (h : PlainLines ls) :
    eventread (ofLines ls) = (readLines ls).map fun r => (r.1, ofLines r.2) := by
  have hp := header_plain h (ls.length + 1)
  have hs := readHeader_size hp
  simp only [eventread, readHeader_size h, readLines]
  generalize header (ls.length + 1) ls = r at hp hs
  by_cases ht : hasBody r.1.type = true
  · simp only [ht, if_true, readBody_lines ht hp]
    cases readBodyLines r.1.type r.2 <;> rfl
  · rw [if_neg ht, if_neg ht, hs]
    dsimp only
    split_ifs <;> rfl

theorem header_length_lt {ls : List Str} (h : ls ≠ []) (fuel : ℕ) :
    (header (fuel + 1) ls).2.length < ls.length := by
  have hpos := List.length_pos_iff.mpr h
  have hf := fields_length ls
  have hn := nextTry_length (fields ls).2.1 (fields ls).2.2
  simp only [header]
  split_ifs
  · have := header_length fuel (nextTry (fields ls).2.1 (fields ls).2.2)
    omega
  · show (nextTry _ _).length < _
    omega
  · show (fields ls).2.2.length < _
    omega

theorem readLines_rest {ls : List Str} (h : PlainLines ls) (hne : ls ≠ []) {rev : Option ImEvent}
    {rest : List Str} (hr : readLines ls = .ok (rev, rest)) :
    PlainLines rest ∧ rest.length < ls.length := by
  have hp := header_plain h (ls.length + 1)
  have hl := header_length_lt hne ls.length
  simp only [readLines] at hr
  generalize header (ls.length + 1) ls = r at hr hp hl
  split_ifs at hr
  · cases hb : readBodyLines r.1.type r.2 with
    | error e => simp [hb, Except.map] at hr
    | ok q =>
      simp only [hb, Except.map, Except.ok.injEq, Prod.mk.injEq] at hr
      obtain ⟨-, rfl⟩ := hr
      have := readBodyLines_plain hp hb
      exact ⟨this.1, by omega⟩
  · have hm := header_length (r.2.length + 1) r.2
    simp only [Except.ok.injEq, Prod.mk.injEq] at hr
    obtain ⟨-, rfl⟩ := hr
    exact ⟨header_plain hp _, by omega⟩
  · have hm := header_length (r.2.length + 1) r.2
    simp only [Except.ok.injEq, Prod.mk.injEq] at hr
    obtain ⟨-, rfl⟩ := hr
    exact ⟨header_plain hp _, by omega⟩

theorem eventLoop_lines {ls : List Str} (h : PlainLines ls) (fuel : ℕ) :
    eventLoop fuel (ofLines ls) = loop fuel ls := by
  induction fuel generalizing ls with
  | zero => rfl
  | succ fuel ih =>
    rw [eventLoop, loop, ofLines_eof, eventread_lines h]
    by_cases hne : ls = []
    · simp [hne]
    · simp only [List.isEmpty_iff, hne, if_false]
      cases hr : readLines ls with
      | error e => rfl
      | ok r =>
        have hp := (readLines_rest h hne hr).1
        simp only [Except.map, ih hp]

theorem loop_fuel {ls : List Str} (h : PlainLines ls) {m n : ℕ} (hm : ls.length ≤ m)
    (hn : ls.length ≤ n) : loop m ls = loop n ls := by
  induction m generalizing ls n with
  | zero =>
    obtain rfl : ls = [] := List.length_eq_zero_iff.mp (by omega)
    cases n <;> rfl
  | succ m ih =>
    by_cases hne : ls = []
    · subst hne
      cases n <;> rfl
    · have hpos := List.length_pos_iff.mpr hne
      obtain ⟨n, rfl⟩ : ∃ k, n = k + 1 := ⟨n - 1, by omega⟩
      rw [loop, loop, if_neg hne, if_neg hne]
      cases hr : readLines ls with
      | error e => rfl
      | ok r =>
        obtain ⟨hp, hlt⟩ := readLines_rest h hne hr
        simp only [ih hp (n := n) (by omega) (by omega)]

def events (ls : List Str) : Except Fault (List ImEvent) := loop ls.length ls

/-- The events of a file, one record and then those of the lines after it. -/
theorem events_of_readLines {ls : List Str} (h : PlainLines ls) (hne : ls ≠ [])
    {rev : Option ImEvent} {rest : List Str} (hr : readLines ls = .ok (rev, rest)) :
    events ls = (events rest).map (rev.toList ++ ·) := by
  obtain ⟨hp, hlt⟩ := readLines_rest h hne hr
  obtain ⟨n, hn⟩ : ∃ k, ls.length = k + 1 := ⟨ls.length - 1, by omega⟩
  rw [events, hn, loop, if_neg hne, hr]
  simp only [events, loop_fuel hp (m := n) (n := rest.length) (by omega) le_rfl]

theorem events_of_error {ls : List Str} (hne : ls ≠ []) {e : Fault}
    (hr : readLines ls = .error e) : events ls = .error e := by
  obtain ⟨n, hn⟩ : ∃ k, ls.length = k + 1 :=
    ⟨ls.length - 1, by have := List.length_pos_iff.mpr hne; omega⟩
  rw [events, hn, loop, if_neg hne, hr]

theorem readAll_lines {s : Str} (hs : nul ∉ s) : readAll s = events (lines s) := by
  have hl := lines_length_le s
  rw [readAll, ← ofLines_lines, eventLoop_lines (plainLines_lines hs),
    loop_fuel (plainLines_lines hs) (by omega) le_rfl]
  rfl

end CenterIM.EventLines
