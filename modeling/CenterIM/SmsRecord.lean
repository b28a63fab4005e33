import CenterIM.EventText

/-!
# Records of short messages

`imsms::write` puts the phone number, if there is one, on a line in front of the text.
`imsms::read` takes the first line for a number when it begins with `+`, and puts it in front
of the rest of the text when it does not. Which pairs of a number and a text come back.
-/
namespace CenterIM.SmsRecord
open ByteText Decimal LineStream StrText Contact Event EventReader EventLines RecordText EventFraming
  EventText

def normalised (phone : Str) : Str :=
  if phone = [] then [] else if phone.take 1 ≠ bytes "+" then bytes "+" ++ phone else phone

/-- A short message whose number has no newline and whose text has no marker line. -/
structure SmsEvent (e : ImEvent) (text phone : Str) : Prop where
  direction : e.direction ≠ .imdirection_size
  body : e.body = .imsms text phone
  line : lf ∉ phone
  unmarked : marker ∉ lines text

def firstOf (text : Str) : Str := text.takeWhile (· ≠ lf)

def restOf (text : Str) : Str := text.drop ((firstOf text).length + 1)

/-- The messages that come back. With a number, the text must not begin with a newline. Without
one, its first line must be there and not look like a number, and when there is more, a newline
must not be the next thing. -/
def Restorable (text phone : Str) : Prop :=
  if phone ≠ [] then NoLeadingBreak text
  else text = [] ∨ firstOf text ≠ [] ∧ (firstOf text).take 1 ≠ bytes "+" ∧
    (lf ∉ text ∨ dropCR (restOf text) ≠ [] ∧ NoLeadingBreak (restOf text))

/-- The same number and the same text, but for carriage returns. -/
def Restored (body : Option Body) (text phone : Str) : Prop :=
  ∃ text', body = some (.imsms text' (normalised phone)) ∧ dropCR text' = dropCR text

section Texts

variable {s text : Str}

theorem dropCR_append (s t : Str) : dropCR (s ++ t) = dropCR s ++ dropCR t := List.filter_append ..

theorem firstOf_rest (h : lf ∈ text) : text = firstOf text ++ lf :: restOf text := by
  have hsplit := List.takeWhile_append_dropWhile (p := (· ≠ lf)) (l := text)
  cases hd : text.dropWhile (· ≠ lf) with
  | nil =>
    have hall := List.dropWhile_eq_nil_iff.mp hd lf h
    simp at hall
  | cons c t =>
    have hc := List.head?_dropWhile_not (· ≠ lf) text
    rw [hd] at hc hsplit
    obtain rfl : c = lf := by simpa using hc
    have htext : firstOf text ++ lf :: t = text := hsplit
    have hrest : restOf text = t := by
      calc restOf text = (firstOf text ++ lf :: t).drop ((firstOf text).length + 1) := by
            rw [htext, restOf]
        _ = t := by simp
    rw [hrest]
    exact htext.symm

theorem firstOf_self (h : lf ∉ text) : firstOf text = text := by
  apply List.takeWhile_eq_self_iff.mpr
  intro c hc
  simpa using ne_of_mem_of_not_mem hc h

theorem lf_not_mem_firstOf (text : Str) : lf ∉ firstOf text := by
  intro h
  simpa using List.mem_takeWhile_imp h

/-- The line breaks that `readblock` loses are there to be lost if the text begins with one. -/
theorem dropCR_dropWhile_iff (s : Str) :
    dropCR (norm (s.dropWhile (· ∈ evlinebreak))) = dropCR s ↔ NoLeadingBreak s := by
  rw [← norm_dropWhile_iff, dropCR_norm]
  constructor
  · intro h
    rw [← norm_dropCR, h, norm_dropCR]
  · exact norm_inj

/-- A block that is not empty has something besides carriage returns in it. -/
theorem block_eq_nil_iff (s : Str) :
    norm (s.dropWhile (· ∈ evlinebreak)) = [] ↔
      dropCR (norm (s.dropWhile (· ∈ evlinebreak))) = [] := by
  rw [dropCR_norm]
  cases hd : s.dropWhile (· ∈ evlinebreak) with
  | nil => simp [dropCR]
  | cons c t =>
    have hc := List.head?_dropWhile_not (· ∈ evlinebreak) s
    rw [hd] at hc
    have hc' : c ≠ lf ∧ c ≠ cr := by
      simp only [List.head?_cons, decide_eq_false_iff_not, evlinebreak, List.mem_cons,
        List.not_mem_nil, or_false, not_or] at hc
      exact ⟨hc.2, hc.1⟩
    refine iff_of_false ?_ ?_
    · simp [norm_cons, normByte, hc'.1, hc'.2]
    · simp [dropCR, hc'.2]

end Texts

section Plain

theorem nul_not_mem_getstringLoop (fuel : ℕ) (rest : Str) {sbuf : Str} (h : nul ∉ sbuf) :
    nul ∉ (getstringLoop fuel rest sbuf).1 := by
  induction fuel generalizing rest sbuf with
  | zero => exact h
  | succ fuel ih =>
    have hnext : ∀ buf, nul ∉ sbuf ++ cstr buf := fun buf hm =>
      (List.mem_append.mp hm).elim h (nul_not_mem_cstr buf)
    rw [getstringLoop]
    split
    · exact hnext _
    · exact hnext _
    · exact ih _ (hnext _)

/-- `getstring` never gives a NUL. -/
theorem nul_not_mem_getstring (f : IStream) {sbuf : Str} (h : nul ∉ sbuf) :
    nul ∉ (getstring f sbuf).2.1 := by
  rw [getstring]
  split_ifs
  · exact h
  · exact nul_not_mem_getstringLoop _ _ List.not_mem_nil

theorem nul_not_mem_addLine {r l : Str} (hr : nul ∉ r) (hl : nul ∉ l) : nul ∉ addLine r l := by
  have hbreak : nul ∉ evlinebreak := by decide
  rw [addLine, List.mem_append, not_or]
  constructor
  · split_ifs
    · exact fun hm => (List.mem_append.mp hm).elim hr hbreak
    · exact hr
  · exact fun hm => hl (List.mem_of_mem_filter hm)

theorem nul_not_mem_readblockLoop (fuel : ℕ) (f : IStream) {r : Str} (h : nul ∉ r) :
    nul ∉ (readblockLoop fuel f r).1 := by
  induction fuel generalizing f r with
  | zero => exact h
  | succ fuel ih =>
    have hline := @nul_not_mem_getstring f [] List.not_mem_nil
    rw [readblockLoop]
    dsimp only
    split_ifs
    · exact h
    · exact h
    · exact h
    · exact ih _ (nul_not_mem_addLine h hline)

def SmsPlain (b : Body) : Prop := ∀ text phone, b = .imsms text phone → nul ∉ text ∧ nul ∉ phone

theorem smsOf_plain {phone text : Str} (hp : nul ∉ phone) (ht : nul ∉ text) :
    SmsPlain (smsOf phone text) := by
  intro text' phone' hb
  have hnl : nul ∉ bytes "\n" := by decide
  rw [smsOf] at hb
  split_ifs at hb with hphone htext
  · obtain ⟨rfl, rfl⟩ := Body.imsms.inj hb
    simp [hp, ht, hnl]
  · obtain ⟨rfl, rfl⟩ := Body.imsms.inj hb
    exact ⟨hp, List.not_mem_nil⟩
  · obtain ⟨rfl, rfl⟩ := Body.imsms.inj hb
    exact ⟨ht, hp⟩

theorem readBody_plain {type : ImEventType} {f f' : IStream} {b : Body}
    (h : readBody type f = .ok (b, f')) : SmsPlain b := by
  intro text phone hb
  subst hb
  cases type
  case sms =>
    rw [readBody] at h
    have hsms := congrArg Prod.fst (Except.ok.inj h)
    exact smsOf_plain (nul_not_mem_getstring f List.not_mem_nil)
      (nul_not_mem_readblockLoop _ _ List.not_mem_nil) text phone hsms
  case file =>
    rw [readBody] at h
    dsimp only at h
    cases hf : fileOf (readblock f).1 with
    | error e =>
      rw [hf] at h
      cases h
    | ok r =>
      rw [hf] at h
      cases h
  case xml =>
    rw [readBody] at h
    dsimp only at h
    cases hx : xmlOf (readblock f).1 with
    | error e =>
      rw [hx] at h
      cases h
    | ok data =>
      rw [hx] at h
      cases h
  all_goals cases congrArg Prod.fst (Except.ok.inj h)

theorem eventread_plain {f f' : IStream} {rev : Option ImEvent}
    (h : eventread f = .ok (rev, f')) : ∀ e ∈ rev, SmsPlain e.body := by
  rw [eventread] at h
  dsimp only at h
  split_ifs at h with hbody hraw
  · cases hr : readBody (readHeader (f.size + 1) f).1.type (readHeader (f.size + 1) f).2 with
    | error e =>
      rw [hr] at h
      cases h
    | ok r =>
      rw [hr] at h
      obtain rfl := congrArg Prod.fst (Except.ok.inj h)
      intro e he
      obtain rfl := Option.some.inj he
      exact @readBody_plain _ _ r.2 _ hr
  · obtain rfl := congrArg Prod.fst (Except.ok.inj h)
    exact fun e he => absurd he (Option.not_mem_none e)
  · obtain rfl := congrArg Prod.fst (Except.ok.inj h)
    intro e he
    obtain rfl := Option.some.inj he
    exact fun text phone hb => by cases hb

theorem eventLoop_plain {fuel : ℕ} {f : IStream} {es : List ImEvent}
    (h : eventLoop fuel f = .ok es) : ∀ e ∈ es, SmsPlain e.body := by
  induction fuel generalizing f es with
  | zero =>
    obtain rfl := Except.ok.inj h
    exact fun e he => absurd he List.not_mem_nil
  | succ fuel ih =>
    rw [eventLoop] at h
    split_ifs at h with hend
    · obtain rfl := Except.ok.inj h
      exact fun e he => absurd he List.not_mem_nil
    · cases hr : eventread f with
      | error e =>
        rw [hr] at h
        cases h
      | ok r =>
        obtain ⟨rev, f'⟩ := r
        rw [hr] at h
        dsimp only at h
        cases hl : eventLoop fuel f' with
        | error e =>
          rw [hl] at h
          cases h
        | ok es' =>
          rw [hl] at h
          obtain rfl := Except.ok.inj h
          intro e he
          rcases List.mem_append.mp he with he | he
          · exact eventread_plain hr e (Option.mem_toList.mp he)
          · exact ih hl e he

theorem readAt_plain {pre post : List ImEvent} {e : ImEvent} {b : Body}
    (h : readAt pre e post = some b) : SmsPlain b := by
  rw [readAt] at h
  cases hr : readAll (writeAll (pre ++ e :: post)) with
  | error e =>
    rw [hr] at h
    cases h
  | ok es =>
    rw [hr] at h
    obtain ⟨r, hget, rfl⟩ := Option.map_eq_some_iff.mp h
    exact eventLoop_plain hr r (List.mem_of_getElem? hget)

end Plain

section Reading

variable {e : ImEvent} {text phone : Str}

theorem bodyLines_sms (h : lf ∉ phone) :
    bodyLines (.imsms text phone) =
      if phone = [] then lines text else normalised phone :: lines text := by
  by_cases hp : phone = []
  · subst hp
    rw [bodyLines, if_pos rfl]
    exact lines_append_lf_dropLast _
  · have hw : (Body.imsms text phone).write = (normalised phone ++ lf :: text) ++ [lf] := by
      simp [Body.write, normalised, hp]
      split <;> simp
    have hplus : lf ∉ bytes "+" := by decide
    have hline : lf ∉ normalised phone := by
      rw [normalised, if_neg hp]
      split
      · exact fun hm => (List.mem_append.mp hm).elim hplus h
      · exact h
    rw [bodyLines, hw, lines_append_lf_dropLast, lines_line hline, if_neg hp]

theorem marker_not_mem_blockPart (h : SmsEvent e text phone) : marker ∉ blockPart e.body := by
  have hp : blockPart (.imsms text phone) = (bodyLines (.imsms text phone)).tail := if_pos rfl
  rw [h.body, hp, bodyLines_sms h.line]
  split
  · exact fun hm => h.unmarked (List.mem_of_mem_tail hm)
  · exact h.unmarked

theorem SmsEvent.stored (h : SmsEvent e text phone) (hn : nul ∉ text ∧ nul ∉ phone) :
    Persisted e := by
  refine ⟨h.direction, fun type hb => ?_, fun s hs => ?_, fun n hs => ?_⟩
  · cases h.body.symm.trans hb
  · rw [h.body] at hs
    rcases List.mem_pair.mp hs with rfl | rfl
    · exact hn.1
    · exact hn.2
  · rw [h.body] at hs
    exact absurd hs List.not_mem_nil

theorem SmsEvent.clean (h : SmsEvent e text phone) : Clean e :=
  ⟨fun _ hb => absurd (h.body.symm.trans hb) nofun,
    fun hm => absurd hm (marker_not_mem_blockPart h)⟩

/-- What is read is made from the first line and the block of the others. -/
theorem readAt_sms (h : SmsEvent e text phone) (hn : nul ∉ text ∧ nul ∉ phone) {pre post : List ImEvent}
    (hall : ∀ d ∈ pre ++ post, Persisted d ∧ Clean d) :
    readAt pre e post = some (smsOf ((bodyLines e.body).headD [])
      ((bodyLines e.body).tail.foldl addLine [])) := by
  have hp : blockPart e.body = (bodyLines e.body).tail := by
    rw [h.body]
    exact if_pos rfl
  have hblock : blockText e.body = (bodyLines e.body).tail.foldl addLine [] := by
    rw [blockText_unmarked (marker_not_mem_blockPart h), hp]
  have hfirst : firstLine e.body = (bodyLines e.body).headD [] := by
    rw [h.body]
    exact if_pos rfl
  have htype : e.gettype = .sms := by
    rw [ImEvent.gettype, h.body]
    rfl
  apply readAt_record ⟨h.stored hn, h.clean⟩ _ hall
  rw [recordBody, htype, hfirst, hblock]
  rfl

theorem readAt_phone (h : SmsEvent e text phone) (hn : nul ∉ text ∧ nul ∉ phone)
    (hp : phone ≠ []) {pre post : List ImEvent}
    (hall : ∀ d ∈ pre ++ post, Persisted d ∧ Clean d) :
    readAt pre e post = some (.imsms (norm (text.dropWhile (· ∈ evlinebreak))) (normalised phone)) := by
  have hplus : bytes "+" = [43] := by decide
  have htake : (normalised phone).take 1 = bytes "+" := by
    rw [normalised, if_neg hp]
    split
    · rw [hplus]
      rfl
    · next ht => exact not_not.mp ht
  have hlines : bodyLines e.body = normalised phone :: lines text := by
    rw [h.body, bodyLines_sms h.line, if_neg hp]
  rw [readAt_sms h hn hall, hlines, List.tail_cons, List.headD_cons, foldl_addLine_lines, smsOf,
    if_neg fun hn => hn.2 htake]

theorem readAt_no_phone (h : SmsEvent e text []) (hn : nul ∉ text) {pre post : List ImEvent}
    (hall : ∀ d ∈ pre ++ post, Persisted d ∧ Clean d) :
    readAt pre e post = some (smsOf (firstOf text)
      (if lf ∈ text then norm ((restOf text).dropWhile (· ∈ evlinebreak)) else [])) := by
  have hlines : bodyLines e.body = lines text := by
    rw [h.body, bodyLines_sms h.line, if_pos rfl]
  rw [readAt_sms h ⟨hn, List.not_mem_nil⟩ hall, hlines]
  by_cases hlf : lf ∈ text
  · have hsplit : lines text = firstOf text :: lines (restOf text) := by
      conv_lhs => rw [firstOf_rest hlf, lines_line (lf_not_mem_firstOf text)]
    rw [hsplit, List.tail_cons, List.headD_cons, foldl_addLine_lines, if_pos hlf]
  · rw [lines_of_not_mem hlf, firstOf_self hlf, if_neg hlf]
    rfl

/-- The text that a record without a number gives when its first line is no number. -/
theorem restored_text_iff {l block : Str} (hplus : l.take 1 ≠ bytes "+") (hl : l ≠ []) :
    Restored (some (smsOf l block)) text [] ↔
      dropCR (if block ≠ [] then l ++ bytes "\n" ++ block else l) = dropCR text := by
  rw [smsOf, if_pos ⟨hl, hplus⟩]
  constructor
  · rintro ⟨text', hb, ht⟩
    obtain ⟨rfl, -⟩ := Body.imsms.inj (Option.some.inj hb)
    exact ht
  · exact fun ht => ⟨_, rfl, ht⟩

/-- A message with a number comes back if its text does not begin with a newline. -/
theorem restored_phone_iff (h : SmsEvent e text phone) (hn : nul ∉ text ∧ nul ∉ phone)
    (hp : phone ≠ []) {pre post : List ImEvent}
    (hall : ∀ d ∈ pre ++ post, Persisted d ∧ Clean d) :
    Restored (readAt pre e post) text phone ↔ NoLeadingBreak text := by
  rw [readAt_phone h hn hp hall, ← dropCR_dropWhile_iff]
  constructor
  · rintro ⟨text', hb, ht⟩
    obtain ⟨rfl, -⟩ := Body.imsms.inj (Option.some.inj hb)
    exact ht
  · exact fun ht => ⟨_, rfl, ht⟩

/-- A newline between the first line and the block is put there again when there is a block. -/
theorem restored_lines_iff (l rest : Str) :
    (dropCR (if norm (rest.dropWhile (· ∈ evlinebreak)) ≠ [] then
        l ++ bytes "\n" ++ norm (rest.dropWhile (· ∈ evlinebreak)) else l) =
      dropCR (l ++ lf :: rest)) ↔ dropCR rest ≠ [] ∧ NoLeadingBreak rest := by
  have hnl : bytes "\n" = [lf] := by decide
  have hline : dropCR (l ++ lf :: rest) = dropCR l ++ lf :: dropCR rest := dropCR_append l (lf :: rest)
  have hnil := block_eq_nil_iff rest
  have hlead := dropCR_dropWhile_iff rest
  generalize norm (rest.dropWhile (· ∈ evlinebreak)) = block at hnil hlead ⊢
  rw [hline, ← hlead]
  by_cases hb : block = []
  · rw [if_neg (not_not.mpr hb)]
    refine iff_of_false ?_ ?_
    · intro h
      have hlen := congrArg List.length h
      simp at hlen
    · intro ⟨hne, h⟩
      exact hne (h ▸ hnil.mp hb)
  · have hcut : dropCR (l ++ bytes "\n" ++ block) = dropCR l ++ lf :: dropCR block := by
      rw [hnl, List.append_assoc, dropCR_append]
      rfl
    rw [if_pos hb, hcut, List.append_cancel_left_eq, List.cons_inj_right]
    constructor
    · exact fun h => ⟨h ▸ fun he => hb (hnil.mpr he), h⟩
    · exact fun h => h.2

/-- An empty first line is taken for no number, and the newline behind it is lost. -/
theorem not_restored_blank {rest : Str} :
    ¬ Restored (some (smsOf [] (norm (rest.dropWhile (· ∈ evlinebreak))))) (lf :: rest) [] := by
  rintro ⟨text', hb, ht⟩
  obtain ⟨rfl, -⟩ := Body.imsms.inj (Option.some.inj hb)
  have hle : (dropCR (rest.dropWhile (· ∈ evlinebreak))).length ≤ (dropCR rest).length :=
    ((List.dropWhile_sublist _).filter _).length_le
  have hlen := congrArg List.length ht
  have hcons : dropCR (lf :: rest) = lf :: dropCR rest := rfl
  rw [dropCR_norm, hcons, List.length_cons] at hlen
  omega

/-- A message without a number comes back if its first line is there and does not look like one,
and the next line is there too if there are any. -/
theorem restored_no_phone_iff (h : SmsEvent e text []) (hn : nul ∉ text) {pre post : List ImEvent}
    (hall : ∀ d ∈ pre ++ post, Persisted d ∧ Clean d) :
    Restored (readAt pre e post) text [] ↔
      text = [] ∨ firstOf text ≠ [] ∧ (firstOf text).take 1 ≠ bytes "+" ∧
        (lf ∉ text ∨ dropCR (restOf text) ≠ [] ∧ NoLeadingBreak (restOf text)) := by
  rw [readAt_no_phone h hn hall]
  by_cases hl : firstOf text = []
  · by_cases hlf : lf ∈ text
    · have htext := firstOf_rest hlf
      rw [hl, List.nil_append] at htext
      refine iff_of_false ?_ ?_
      · rw [hl, if_pos hlf]
        conv => rhs; rw [htext]
        exact not_restored_blank
      · rintro (hn | ⟨hn, -⟩)
        · rw [hn] at hlf
          exact List.not_mem_nil hlf
        · exact hn hl
    · have htext : text = [] := (firstOf_self hlf).symm.trans hl
      rw [hl, if_neg hlf]
      exact iff_of_true ⟨[], rfl, by rw [htext]⟩ (Or.inl htext)
  · have hne : text ≠ [] := by
      rintro rfl
      exact hl rfl
    by_cases hplus : (firstOf text).take 1 = bytes "+"
    · refine iff_of_false ?_ ?_
      · rintro ⟨text', hb, -⟩
        rw [smsOf, if_neg fun hn => hn.2 hplus] at hb
        exact hl (Body.imsms.inj (Option.some.inj hb)).2
      · rintro (hn | ⟨-, hn, -⟩)
        · exact hne hn
        · exact hn hplus
    · rw [restored_text_iff hplus hl]
      simp only [hne, hl, hplus, ne_eq, not_false_eq_true, true_and, false_or]
      by_cases hlf : lf ∈ text
      · have hlines := restored_lines_iff (firstOf text) (restOf text)
        rw [← firstOf_rest hlf] at hlines
        simpa only [hlf, if_true, not_true_eq_false, false_or] using hlines
      · simp [hlf, firstOf_self hlf]

theorem Restored.plain {pre post : List ImEvent} (h : Restored (readAt pre e post) text phone) :
    nul ∉ text ∧ nul ∉ phone := by
  obtain ⟨text', hb, ht⟩ := h
  obtain ⟨htext, hphone⟩ := readAt_plain hb text' (normalised phone) rfl
  constructor
  · intro hm
    have hdrop : nul ∈ dropCR text := List.mem_filter.mpr ⟨hm, by decide⟩
    rw [← ht] at hdrop
    exact htext (List.mem_of_mem_filter hdrop)
  · intro hm
    refine hphone ?_
    rw [normalised, if_neg (List.ne_nil_of_mem hm)]
    split_ifs
    · exact List.mem_append_right _ hm
    · exact hm

/-- A short message is read back, at any place in a file, exactly if it has no NUL and is
restorable. -/
theorem sms_round_trip_iff (h : SmsEvent e text phone) {pre post : List ImEvent}
    (hall : ∀ d ∈ pre ++ post, Persisted d ∧ Clean d) :
    Restored (readAt pre e post) text phone ↔
      (nul ∉ text ∧ nul ∉ phone) ∧ Restorable text phone := by
  have hiff : nul ∉ text ∧ nul ∉ phone →
      (Restored (readAt pre e post) text phone ↔ Restorable text phone) := by
    intro hn
    unfold Restorable
    split
    · next hp => exact restored_phone_iff h hn hp hall
    · next hp =>
      obtain rfl := not_not.mp hp
      exact restored_no_phone_iff h hn.1 hall
  constructor
  · exact fun hr => ⟨hr.plain, (hiff hr.plain).mp hr⟩
  · exact fun hr => (hiff hr.1).mpr hr.2

def shortMessage (text phone : Str) : ImEvent :=
  ⟨contactroot, .outgoing, 5, 5, false, .imsms text phone⟩

theorem shortMessage_event {text phone : Str} (hp : lf ∉ phone) (hm : marker ∉ lines text) :
    SmsEvent (shortMessage text phone) text phone :=
  ⟨fun h => ImDirection.noConfusion h, rfl, hp, hm⟩

theorem sms_round_trip_two_lines :
    Restored (readAt [plainMessage] (shortMessage (bytes "a\n\nb") (bytes "49")) [])
      (bytes "a\n\nb") (bytes "49") := by
  have h : SmsEvent (shortMessage (bytes "a\n\nb") (bytes "49")) (bytes "a\n\nb") (bytes "49") :=
    shortMessage_event (by decide) (by decide)
  apply (sms_round_trip_iff h (by simpa using plainMessage_clean)).mpr
  unfold Restorable NoLeadingBreak
  decide

/-- The text of a message without a number becomes the number when it begins with `+`, and an
empty line in it is lost. -/
theorem sms_not_round_trip :
    SmsEvent (shortMessage (bytes "+1 from me") []) (bytes "+1 from me") [] ∧
      readAt [] (shortMessage (bytes "+1 from me") []) [] = some (.imsms [] (bytes "+1 from me")) ∧
      ¬ Restored (readAt [] (shortMessage (bytes "+1 from me") []) []) (bytes "+1 from me") [] ∧
      readAt [] (shortMessage (bytes "\nhi") []) [] = some (.imsms (bytes "hi") []) := by
  have hplus := @shortMessage_event (bytes "+1 from me") [] (by decide) (by decide)
  have hblank := @shortMessage_event (bytes "\nhi") [] (by decide) (by decide)
  have hread : readAt [] (shortMessage (bytes "+1 from me") []) [] =
      some (.imsms [] (bytes "+1 from me")) := by
    have hline : lf ∉ bytes "+1 from me" := by decide
    rw [readAt_no_phone hplus (by decide) (by simp), if_neg hline, firstOf_self hline, smsOf,
      if_neg (by decide)]
  refine ⟨hplus, hread, ?_, ?_⟩
  · rw [hread]
    rintro ⟨text', hb, -⟩
    exact absurd (Body.imsms.inj (Option.some.inj hb)).2 (by decide)
  · have hblock : norm ((restOf (bytes "\nhi")).dropWhile (· ∈ evlinebreak)) = bytes "hi" := by
      decide
    have hfirst : firstOf (bytes "\nhi") = [] := by decide
    rw [readAt_no_phone hblank (by decide) (by simp), if_pos (by decide), hblock, hfirst, smsOf,
      if_neg (by decide)]

end Reading

end CenterIM.SmsRecord
