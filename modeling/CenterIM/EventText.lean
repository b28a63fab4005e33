import CenterIM.EventFraming

/-!
# Texts of history records

What comes back of the text of a message, an email, a notification, a URL or an
authorization: everything but the line breaks in front of it.
-/
namespace CenterIM.EventText
open ByteText Decimal LineStream StrText Contact XmlTree Event EventReader EventLines RecordText
  EventFraming

def blockField : Body → Option Str
  | .immessage text => some text
  | .imurl _ description => some description
  | .imauthorization text _ => some text
  | .imemail text => some text
  | .imnotification text => some text
  | _ => none

/-- The body with another text in that place. -/
def withText (b : Body) (text : Str) : Body :=
  match b with
  | .immessage _ => .immessage text
  | .imurl url _ => .imurl url text
  | .imauthorization _ authtype => .imauthorization text authtype
  | .imemail _ => .imemail text
  | .imnotification _ => .imnotification text
  | b => b

def UrlLine (b : Body) : Prop := ∀ url description, b = .imurl url description → lf ∉ url ∧ cr ∉ url

def dropCR (s : Str) : Str := s.filter (· ≠ cr)

/-- A text that does not begin with a line break. -/
def NoLeadingBreak (s : Str) : Prop := (dropCR s).head? ≠ some lf

/-- What is read at the place of an event between others. -/
def readAt (pre : List ImEvent) (e : ImEvent) (post : List ImEvent) : Option Body :=
  (readAll (writeAll (pre ++ e :: post))).toOption.bind fun es => es[pre.length]?.map ImEvent.body

theorem norm_dropCR (s : Str) : norm (dropCR s) = norm s := by
  induction s with
  | nil => rfl
  | cons c s ih =>
    by_cases hc : c = cr
    · subst hc
      rw [norm_cons, normByte_cr, List.nil_append, ← ih]
      rfl
    · have hd : dropCR (c :: s) = c :: dropCR s := by simp [dropCR, hc]
      rw [hd, norm_cons, norm_cons, ih]

theorem dropCR_norm (s : Str) : dropCR (norm s) = dropCR s := by
  induction s with
  | nil => rfl
  | cons c s ih =>
    rw [norm_cons, dropCR, List.filter_append]
    simp only [dropCR] at ih
    rw [ih]
    by_cases hl : c = lf
    · subst hl
      rw [normByte_lf]
      rfl
    · by_cases hc : c = cr
      · subst hc
        rw [normByte_cr]
        rfl
      · simp [normByte, hl, hc, dropCR]

/-- The text that is read can be told from any other, up to carriage returns. -/
theorem norm_inj {s t : Str} (h : norm s = norm t) : dropCR s = dropCR t := by
  rw [← dropCR_norm s, ← dropCR_norm t, h]

/-- The line breaks in front of a text are lost, and they are there to be lost exactly if
the text begins with one. -/
theorem norm_dropWhile_iff (s : Str) :
    norm (s.dropWhile (· ∈ evlinebreak)) = norm s ↔ NoLeadingBreak s := by
  induction s with
  | nil => simp [NoLeadingBreak, dropCR]
  | cons c s ih =>
    by_cases hl : c = lf
    · subst hl
      have hlen : (norm (s.dropWhile (· ∈ evlinebreak))).length ≤ (norm s).length := by
        have hs := List.takeWhile_append_dropWhile (p := (· ∈ evlinebreak)) (l := s)
        conv_rhs => rw [← hs, norm_append, List.length_append]
        omega
      rw [List.dropWhile_cons_of_pos (by decide)]
      constructor
      · intro h
        have hc := congrArg List.length h
        rw [norm_cons, normByte_lf, List.length_append] at hc
        simp only [evlinebreak, List.length_cons, List.length_nil] at hc hlen
        omega
      · intro h
        exact absurd rfl (h : (dropCR (lf :: s)).head? ≠ some lf)
    · by_cases hc : c = cr
      · subst hc
        rw [List.dropWhile_cons_of_pos (by decide), norm_cons, normByte_cr, List.nil_append, ih]
        rfl
      · rw [List.dropWhile_cons_of_neg (by simp [evlinebreak, hl, hc])]
        simp [NoLeadingBreak, dropCR, hl, hc]

theorem strtoul_ui2str (i : UInt32) : (strtoul (ui2str i)).toUInt32 = i := by
  have h64 : i.toInt32.toInt = i.toInt32.toInt64.toInt := by simp
  rw [ui2str, i2str, h64, strtoul_decimalInt]
  apply UInt32.toBitVec_inj.mp
  show (i.toBitVec.signExtend 64).setWidth 32 = i.toBitVec
  ext k hk
  simp [hk, BitVec.getLsbD_signExtend]
  omega

theorem ui2str_plain (i : UInt32) : Plain (ui2str i) := decimalInt_plain _

theorem blockPart_text {b : Body} {text : Str} (ht : blockField b = some text) (hu : UrlLine b) :
    blockPart b = lines text := by
  cases b
  case immessage t =>
    obtain rfl := Option.some.inj ht
    exact (if_neg (by simp [Body.gettype, readsFirst])).trans (lines_append_lf_dropLast _)
  case imemail t =>
    obtain rfl := Option.some.inj ht
    exact (if_neg (by simp [Body.gettype, readsFirst])).trans (lines_append_lf_dropLast _)
  case imnotification t =>
    obtain rfl := Option.some.inj ht
    exact (if_neg (by simp [Body.gettype, readsFirst])).trans (lines_append_lf_dropLast _)
  case imurl url description =>
    obtain rfl := Option.some.inj ht
    have hw : (Body.imurl url description).write = (url ++ lf :: description) ++ [lf] := by
      simp [Body.write]
    have hl : bodyLines (.imurl url description) = url :: lines description := by
      rw [bodyLines, hw, lines_append_lf_dropLast, lines_line (hu _ _ rfl).1]
    exact (if_pos rfl).trans (by rw [hl, List.tail_cons])
  case imauthorization t a =>
    obtain rfl := Option.some.inj ht
    have hw : (Body.imauthorization t a).write = (ui2str a ++ lf :: t) ++ [lf] := by
      simp [Body.write]
    have hl : bodyLines (.imauthorization t a) = ui2str a :: lines t := by
      rw [bodyLines, hw, lines_append_lf_dropLast, lines_line (ui2str_plain a).1]
    exact (if_pos rfl).trans (by rw [hl, List.tail_cons])
  all_goals exact absurd ht (by simp [blockField])

/-- The body that is read: the text without its leading line breaks, as a block. -/
theorem recordBody_text {e : ImEvent} {text : Str} (ht : blockField e.body = some text)
    (hu : UrlLine e.body) (hm : marker ∉ lines text) :
    recordBody e = .ok (withText e.body (norm (text.dropWhile (· ∈ evlinebreak)))) := by
  have hp := blockPart_text ht hu
  have hblock : blockText e.body = norm (text.dropWhile (· ∈ evlinebreak)) := by
    rw [blockText_unmarked (by rwa [hp]), hp, foldl_addLine_lines]
  rw [recordBody, hblock, show e.gettype = e.body.gettype from rfl]
  cases hb : e.body
  case imurl url description =>
    rw [hb] at hu
    have hw : (Body.imurl url description).write = (url ++ lf :: description) ++ [lf] := by
      simp [Body.write]
    have hl : firstLine (.imurl url description) = url :=
      (if_pos rfl).trans (by
        rw [bodyLines, hw, lines_append_lf_dropLast, lines_line (hu _ _ rfl).1, List.headD_cons])
    rw [hl]
    rfl
  case imauthorization t a =>
    have hw : (Body.imauthorization t a).write = (ui2str a ++ lf :: t) ++ [lf] := by
      simp [Body.write]
    have hl : firstLine (.imauthorization t a) = ui2str a :=
      (if_pos rfl).trans (by
        rw [bodyLines, hw, lines_append_lf_dropLast, lines_line (ui2str_plain a).1,
          List.headD_cons])
    rw [hl]
    simp [bodyOf, Body.gettype, withText, strtoul_ui2str]
  case immessage => rfl
  case imemail => rfl
  case imnotification => rfl
  all_goals
    rw [hb] at ht
    exact absurd ht (by simp [blockField])

theorem blockField_withText {b : Body} {text : Str} (ht : blockField b = some text) (s : Str) :
    blockField (withText b s) = some s := by
  cases b <;> first | rfl | exact absurd ht (by simp [blockField])

/-- An event with a text in which no line is a marker. -/
structure TextEvent (e : ImEvent) (text : Str) : Prop where
  stored : Persisted e
  field : blockField e.body = some text
  url : UrlLine e.body
  unmarked : marker ∉ lines text

theorem TextEvent.clean {e : ImEvent} {text : Str} (h : TextEvent e text) : Clean e := by
  have hp := blockPart_text h.field h.url
  refine ⟨fun data hb => ?_, fun hm => absurd (hp ▸ hm) h.unmarked⟩
  have hf := h.field
  rw [hb] at hf
  exact absurd hf (by simp [blockField])

/-- What a clean record gives is read at its place between other clean records. -/
theorem readAt_record {e : ImEvent} (he : Persisted e ∧ Clean e) {body : Body}
    (hb : recordBody e = .ok body) {pre post : List ImEvent}
    (hall : ∀ d ∈ pre ++ post, Persisted d ∧ Clean d) : readAt pre e post = some body := by
  have hes : ∀ d ∈ pre ++ e :: post, Persisted d ∧ Clean d := by
    intro d hd
    rcases List.mem_append.mp hd with hd | hd
    · exact hall d (List.mem_append_left _ hd)
    · rcases List.mem_cons.mp hd with rfl | hd
      · exact he
      · exact hall d (List.mem_append_right _ hd)
  obtain ⟨rs, hr, hread⟩ := readAll_clean hes
  have hgetpre : (pre ++ e :: post)[pre.length]? = some e := by simp
  obtain ⟨body', hb', hget⟩ := hr.get hgetpre
  have hbody := Except.ok.inj (hb'.symm.trans hb)
  have hat : readAt pre e post = rs[pre.length]?.map ImEvent.body := by
    unfold readAt
    rw [hread]
    rfl
  rw [hat, hget, ← hbody]
  rfl

/-- A record that is not understood leaves the whole file unread. -/
theorem readAt_error {e : ImEvent} (he : Persisted e) {f : Fault} (hb : recordBody e = .error f)
    {pre post : List ImEvent} (hall : ∀ d ∈ pre ++ post, Persisted d ∧ Clean d) :
    readAt pre e post = none := by
  have hpost : ∀ d ∈ e :: post, Persisted d := by
    intro d hd
    rcases List.mem_cons.mp hd with rfl | hd
    · exact he
    · exact (hall d (List.mem_append_right _ hd)).1
  have hes : ∀ d ∈ pre ++ e :: post, Persisted d := by
    intro d hd
    rcases List.mem_append.mp hd with hd | hd
    · exact (hall d (List.mem_append_left _ hd)).1
    · exact hpost d hd
  obtain ⟨rs, -, hrun⟩ := events_append fun d hd => hall d (List.mem_append_left _ hd)
  have hrec := readLines_record he post
  rw [show bodyOf e.gettype (firstLine e.body) (blockText e.body) = .error f from hb] at hrec
  rw [readAt, readAll_writeAll hes, hrun (e :: post) hpost,
    events_of_error (fileLines_ne_nil _) hrec]
  rfl

theorem readAt_text {e : ImEvent} {text : Str} (h : TextEvent e text) {pre post : List ImEvent}
    (hall : ∀ d ∈ pre ++ post, Persisted d ∧ Clean d) :
    readAt pre e post = some (withText e.body (norm (text.dropWhile (· ∈ evlinebreak)))) :=
  readAt_record ⟨h.stored, h.clean⟩ (recordBody_text h.field h.url h.unmarked) hall

/-- A text is read back, at any place in a file, exactly if it does not begin with a line
break; and texts that do not are told apart, but for carriage returns. -/
theorem text_round_trip {e : ImEvent} {text : Str} (h : TextEvent e text)
    {pre post : List ImEvent} (hall : ∀ d ∈ pre ++ post, Persisted d ∧ Clean d) :
    (readAt pre e post = some (withText e.body (norm text)) ↔ NoLeadingBreak text) ∧
      ∀ {e' text'}, TextEvent e' text' → NoLeadingBreak text → NoLeadingBreak text' →
        readAt pre e' post = readAt pre e post → dropCR text' = dropCR text := by
  constructor
  · rw [readAt_text h hall, Option.some.injEq, ← norm_dropWhile_iff]
    constructor
    · intro heq
      have hf := congrArg blockField heq
      rwa [blockField_withText h.field, blockField_withText h.field, Option.some.injEq] at hf
    · intro heq
      rw [heq]
  · intro e' text' h' hn hn' heq
    rw [readAt_text h hall, readAt_text h' hall, (norm_dropWhile_iff text).mpr hn,
      (norm_dropWhile_iff text').mpr hn', Option.some.injEq] at heq
    have hf := congrArg blockField heq
    rw [blockField_withText h.field, blockField_withText h'.field, Option.some.injEq] at hf
    exact norm_inj hf

/-- A mail with a carriage return, an empty line inside and `n` empty lines at its end. -/
def letter (n : ℕ) : ImEvent :=
  ⟨contactroot, .incoming, 6, 6, false,
    .imemail (bytes "dear you,\r\n\nsee below" ++ List.replicate n lf)⟩

theorem letter_text {n : ℕ}
    (h : marker ∉ lines (bytes "dear you,\r\n\nsee below" ++ List.replicate n lf)) :
    TextEvent (letter n) (bytes "dear you,\r\n\nsee below" ++ List.replicate n lf) := by
  refine ⟨⟨by simp [letter], by simp [letter], ?_, by simp [letter, fieldNames]⟩, rfl,
    by simp [UrlLine, letter], h⟩
  simp only [letter, texts, List.mem_singleton, forall_eq, List.mem_append, not_or]
  refine ⟨by decide, fun hn => ?_⟩
  exact absurd (List.eq_of_mem_replicate hn) (by decide)

/-- The mail with two empty lines at its end, between a link and a request; it is not taken
for the mail with one. -/
theorem text_round_trip_letter :
    readAt [link] (letter 2) [request] = some (withText (letter 2).body
      (bytes "dear you,\r\n\r\nsee below\r\n\r\n")) ∧
      readAt [link] (letter 1) [request] ≠ readAt [link] (letter 2) [request] := by
  have h2 := letter_text (n := 2) (by decide)
  have h1 := letter_text (n := 1) (by decide)
  have hn : ∀ n, NoLeadingBreak (bytes "dear you,\r\n\nsee below" ++ List.replicate n lf) := by
    intro n
    rw [NoLeadingBreak, dropCR, List.filter_append]
    exact fun h => absurd (Option.some.inj h) (by decide)
  have hall : ∀ d ∈ [link] ++ [request], Persisted d ∧ Clean d := by
    simpa using ⟨link_clean, request_clean⟩
  have h := text_round_trip h2 hall
  refine ⟨h.1.mpr (hn 2), fun heq => ?_⟩
  exact absurd (h.2 h1 (hn 2) (hn 1) heq) (by decide)

/-- A message that begins with an empty line. -/
def blankFirst : ImEvent := ⟨contactroot, .incoming, 5, 5, false, .immessage (bytes "\nhi")⟩

/-- The empty line is not read back, so the text cannot be told from one without it. -/
theorem text_not_round_trip :
    TextEvent blankFirst (bytes "\nhi") ∧
      readAt [] blankFirst [] ≠ some (withText blankFirst.body (norm (bytes "\nhi"))) ∧
      readAt [] blankFirst [] = readAt [] { blankFirst with body := .immessage (bytes "hi") } [] := by
  have ht : TextEvent blankFirst (bytes "\nhi") :=
    ⟨⟨by decide, by simp [blankFirst], by simp [blankFirst, texts]; decide,
      by simp [blankFirst, fieldNames]⟩, rfl, by simp [UrlLine, blankFirst], by decide⟩
  have ht' : TextEvent { blankFirst with body := .immessage (bytes "hi") } (bytes "hi") :=
    ⟨⟨by decide, by simp, by simp [texts]; decide, by simp [fieldNames]⟩, rfl,
      by simp [UrlLine], by decide⟩
  rw [readAt_text ht (by simp), readAt_text ht' (by simp)]
  refine ⟨ht, fun h => ?_, rfl⟩
  have hf := congrArg blockField (Option.some.inj h)
  exact absurd hf (by decide)

end CenterIM.EventText
