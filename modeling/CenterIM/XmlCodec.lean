import CenterIM.XmlQuoting

/-!
# The codec of XML events

Which fields of an `imxmlevent` come back when its record is read: the writer and the
reader unquote once each too often, the parser drops white space in front of a value, a
line that is a marker ends the record, and a record without fields is not understood.
-/
namespace CenterIM.XmlCodec
open ByteText Decimal StrText Contact XmlTree Event EventReader EventLines RecordText XmlRecord
open EventFraming EventText XmlQuoting

def restoredValue (v : Str) : Str := readValue (norm (quote (unquote v)))

def interior (s : Str) : List Str := (lines s).tail.dropLast

/-- No white space in front of the text, of which the carriage returns do not count. -/
def NoLeadingSpace (s : Str) : Prop := ∀ c, (dropCR s).head? = some c → isspace c = false

instance (s : Str) : Decidable (NoLeadingSpace s) :=
  decidable_of_iff (∀ c ∈ (dropCR s).head?, isspace c = false) (by simp [NoLeadingSpace])

/-- No entity in the text, nor white space in front of it, nor a marker between two line
breaks. -/
def PlainValue (v : Str) : Prop :=
  NoEntity (dropCR v) ∧ NoLeadingSpace v ∧ marker ∉ interior v

instance (v : Str) : Decidable (PlainValue v) := inferInstanceAs (Decidable (_ ∧ _ ∧ _))

def filled (data : OrderedMap Str Str strLt) : List (Str × Str) :=
  data.entries.filter fun d => d.2 ≠ []

def upToCR (fields : List (Str × Str)) : List (Str × Str) :=
  fields.map fun d => (d.1, dropCR d.2)

/-- The event is read, at its place between others, with the fields that were not empty. -/
def Restored (pre : List ImEvent) (e : ImEvent) (post : List ImEvent)
    (data : OrderedMap Str Str strLt) : Prop :=
  ∃ r : OrderedMap Str Str strLt, readAt pre e post = some (.imxmlevent r) ∧
    upToCR r.entries = upToCR (filled data)

section Values

theorem norm_quote (w : Str) : norm (quote w) = quote (norm w) := by
  have hbyte : ∀ c, (quoteByte c).flatMap normByte = (normByte c).flatMap quoteByte := by
    decide +kernel
  rw [quote_eq, quote_eq]
  simp only [RecordText.norm, List.flatMap_assoc]
  exact List.flatMap_congr fun c _ => hbyte c

theorem quoteByte_space : ∀ c, isspace c = true → quoteByte c = [c] := by
  decide +kernel

theorem quoteByte_head : ∀ c, isspace c = false →
    ∃ d ∈ (quoteByte c).head?, isspace d = false := by
  decide +kernel

theorem skipWS_quote (w : Str) : skipWS (quote w) = quote (skipWS w) := by
  rw [quote_eq, quote_eq]
  induction w with
  | nil => rfl
  | cons c w ih =>
    cases hc : isspace c with
    | true =>
      have hq := quoteByte_space c hc
      simp only [skipWS] at ih ⊢
      rw [List.flatMap_cons, hq, List.singleton_append, List.dropWhile_cons_of_pos hc,
        List.dropWhile_cons_of_pos hc, ih]
    | false =>
      obtain ⟨d, hd, hs⟩ := quoteByte_head c hc
      obtain ⟨t, ht⟩ := List.head?_eq_some_iff.mp hd
      simp only [skipWS]
      rw [List.flatMap_cons, ht, List.cons_append, List.dropWhile_cons_of_neg (by simp [hs]),
        List.dropWhile_cons_of_neg (by simp [hc]), List.flatMap_cons, ht, List.cons_append]

/-- What is left of the value after both quotings: it is unquoted twice. -/
theorem restoredValue_eq (v : Str) : restoredValue v = unquote (skipWS (norm (unquote v))) := by
  rw [restoredValue, readValue, norm_quote, skipWS_quote, unquote_quote]

theorem infix_dropCR {r s : Str} (hr : cr ∉ r) (h : r <:+: s) : r <:+: dropCR s := by
  have hself : r.filter (· ≠ cr) = r := List.filter_eq_self.mpr fun c hc => by
    simpa using ne_of_mem_of_not_mem hc hr
  obtain ⟨a, b, rfl⟩ := h
  exact ⟨dropCR a, dropCR b, by simp only [dropCR, List.filter_append, hself]⟩

theorem infix_norm {r s : Str} (hr : cr ∉ r) (hl : lf ∉ r) (h : r <:+: dropCR s) : r <:+: norm s := by
  obtain ⟨a, b, hab⟩ := h
  refine ⟨norm a, norm b, ?_⟩
  rw [← norm_dropCR s, ← hab, norm_append, norm_append, norm_of_not_mem hl hr]

theorem entities_plain : ∀ r ∈ entities, cr ∉ r.1 ∧ lf ∉ r.1 := by
  decide

theorem noEntity_dropCR {s : Str} (h : NoEntity (dropCR s)) : NoEntity s :=
  fun r hr hi => h r hr (infix_dropCR (entities_plain r hr).1 hi)

theorem noEntity_norm_iff (s : Str) : NoEntity (norm s) ↔ NoEntity (dropCR s) := by
  constructor
  · intro h r hr hi
    exact h r hr (infix_norm (entities_plain r hr).1 (entities_plain r hr).2 hi)
  · intro h r hr hi
    have hd := infix_dropCR (entities_plain r hr).1 hi
    rw [dropCR_norm] at hd
    exact h r hr hd

/-- White space in front of a text, as the reader has it, is in front of it without its
carriage returns. -/
theorem skipWS_norm (s : Str) :
    (NoLeadingSpace s ∧ skipWS (norm s) = norm s) ∨
      (¬ NoLeadingSpace s ∧ (dropCR (skipWS (norm s))).length < (dropCR s).length) := by
  induction s with
  | nil => exact Or.inl ⟨by simp [NoLeadingSpace, dropCR], rfl⟩
  | cons c s ih =>
    by_cases hcr : c = cr
    · subst hcr
      have hn : norm (cr :: s) = norm s := by rw [norm_cons, normByte_cr, List.nil_append]
      have hd : dropCR (cr :: s) = dropCR s := rfl
      rw [NoLeadingSpace, hn, hd]
      exact ih
    · have hd : dropCR (c :: s) = c :: dropCR s := by simp [dropCR, hcr]
      have hle : (dropCR (skipWS (norm s))).length ≤ (dropCR s).length := by
        rcases ih with ⟨-, h⟩ | ⟨-, h⟩
        · rw [h, dropCR_norm]
        · omega
      have hskip : ∀ t, (∀ d ∈ t, isspace d = true) → skipWS (t ++ norm s) = skipWS (norm s) :=
        fun t ht => skipWS_append ht (norm s)
      cases hs : isspace c with
      | true =>
        right
        have hsp : ∀ d ∈ normByte c, isspace d = true := by
          intro d hdm
          rw [normByte, if_neg hcr] at hdm
          split_ifs at hdm with hl
          · exact evlinebreak_space d hdm
          · rw [List.mem_singleton.mp hdm]
            exact hs
        refine ⟨fun h => ?_, ?_⟩
        · have hc := h c (by rw [hd, List.head?_cons])
          exact absurd (hs.symm.trans hc) (by decide)
        · rw [norm_cons, hskip _ hsp, hd, List.length_cons]
          omega
      | false =>
        left
        have hl : c ≠ lf := by
          rintro rfl
          exact absurd hs (by decide)
        have hn : norm (c :: s) = c :: norm s := by
          rw [norm_cons, normByte, if_neg hl, if_neg hcr]
          rfl
        refine ⟨fun d h => ?_, ?_⟩
        · rw [hd, List.head?_cons] at h
          rw [← Option.some.inj h]
          exact hs
        · rw [hn]
          exact List.dropWhile_cons_of_neg (by simp [hs])

theorem length_unquote_le (s : Str) : (dropCR (unquote s)).length ≤ (dropCR s).length := by
  rcases unquote_spec s with ⟨-, h⟩ | h
  · rw [h]
  · exact h.le

theorem length_skipWS_le (s : Str) : (dropCR (skipWS (norm s))).length ≤ (dropCR s).length := by
  rcases skipWS_norm s with ⟨-, h⟩ | ⟨-, h⟩
  · rw [h, dropCR_norm]
  · exact h.le

/-- A value comes back exactly if there is nothing to unquote and nothing to skip. -/
theorem dropCR_restoredValue (v : Str) :
    dropCR (restoredValue v) = dropCR v ↔ NoEntity (dropCR v) ∧ NoLeadingSpace v := by
  rw [restoredValue_eq]
  have hu := unquote_spec (skipWS (norm (unquote v)))
  constructor
  · intro h
    -- none of the three steps may make the text shorter
    have hlen := congrArg List.length h
    have hv : NoEntity v ∧ unquote v = v := by
      rcases unquote_spec v with hv | hv
      · exact hv
      · have h1 := length_unquote_le (skipWS (norm (unquote v)))
        have h2 := length_skipWS_le (unquote v)
        omega
    rw [hv.2] at hu hlen
    have hle := length_skipWS_le v
    rcases hu with ⟨hno, hu⟩ | hu
    · rw [hu] at hlen
      rcases skipWS_norm v with ⟨hhead, hs⟩ | ⟨-, hs⟩
      · rw [hs] at hno
        exact ⟨(noEntity_norm_iff v).mp hno, hhead⟩
      · omega
    · omega
  · rintro ⟨hno, hhead⟩
    rw [unquote_of_noEntity (noEntity_dropCR hno)]
    rcases skipWS_norm v with ⟨-, hs⟩ | ⟨hn, -⟩
    · rw [hs, unquote_of_noEntity ((noEntity_norm_iff v).mpr hno), dropCR_norm]
    · exact absurd hhead hn

end Values

section Lines

variable {a b v : Str}

theorem lines_append_left (ha : lf ∉ a) (s : Str) :
    lines (a ++ s) = (lines s).modifyHead (a ++ ·) := by
  induction a with
  | nil =>
    obtain ⟨l, ls, h⟩ := List.exists_cons_of_ne_nil (lines_ne_nil s)
    simp [h]
  | cons c a ih =>
    simp only [List.mem_cons, not_or] at ha
    obtain ⟨l, ls, h⟩ := List.exists_cons_of_ne_nil (lines_ne_nil s)
    rw [List.cons_append, lines_cons (Ne.symm ha.1), ih ha.2, h]
    rfl

theorem lines_append_right (hb : lf ∉ b) (s : Str) :
    ∃ init last, lines s = init ++ [last] ∧ lines (s ++ b) = init ++ [last ++ b] := by
  induction s with
  | nil => exact ⟨[], [], rfl, by simpa using lines_of_not_mem hb⟩
  | cons c s ih =>
    obtain ⟨init, last, h1, h2⟩ := ih
    by_cases hc : c = lf
    · subst hc
      exact ⟨[] :: init, last, by simp [h1], by simp [h2]⟩
    · rw [List.cons_append, lines_cons hc, lines_cons hc, h1, h2]
      cases init with
      | nil => exact ⟨[], c :: last, rfl, rfl⟩
      | cons l init => exact ⟨(c :: l) :: init, last, rfl, rfl⟩

/-- Between texts that begin and end other than a marker only an inner line can be one. -/
theorem marker_mem_wrapped (ha : lf ∉ a) (hb : lf ∉ b) (hhead : ∀ t, a ++ t ≠ marker)
    (hlast : ∀ t, t ++ b ≠ marker) : marker ∈ lines (a ++ (v ++ b)) ↔ marker ∈ interior v := by
  obtain ⟨init, last, h1, h2⟩ := lines_append_right hb v
  rw [lines_append_left ha, h2, interior, h1]
  cases init with
  | nil =>
    have hne := hhead (last ++ b)
    simpa using Ne.symm hne
  | cons l init =>
    have h1 := Ne.symm (hhead l)
    have h2 := Ne.symm (hlast last)
    simp [h1, h2]

theorem marker_mem_element {n : Str} (hn : Ident n) (v : Str) :
    marker ∈ lines (tab :: element n v) ↔ marker ∈ interior v := by
  have hlf : lf ∉ n := hn.not_mem (by decide) (by decide)
  have htext : tab :: element n v =
      (tab :: langle :: n ++ [rangle]) ++ (v ++ (langle :: slash :: n ++ [rangle])) := by
    simp [element]
  rw [htext]
  apply marker_mem_wrapped
  · simpa [lf, tab, langle, rangle] using hlf
  · simpa [lf, langle, slash, rangle] using hlf
  · intro t h
    exact absurd (List.cons.inj h).1 (by decide)
  · intro t h
    have hl := congrArg List.getLast? h
    rw [← List.append_assoc, List.getLast?_concat] at hl
    exact absurd (Option.some.inj hl) (by decide)

theorem marker_mem_xmlRender {items : List (Str × Str)} (h : ∀ i ∈ items, Ident i.1) (s : Str) :
    marker ∈ lines (xmlRender items s) ↔ (∃ i ∈ items, marker ∈ interior i.2) ∨ marker ∈ lines s := by
  induction items with
  | nil => simp [xmlRender]
  | cons i items ih =>
    have hi := marker_mem_element (h i (by simp)) i.2
    rw [xmlRender_cons, lines_append_lf, List.mem_append, hi, ih fun j hj => h j (by simp [hj])]
    simp [or_assoc]

theorem lines_quote (v : Str) : lines (quote v) = (lines v).map quote := by
  induction v with
  | nil => rfl
  | cons c v ih =>
    have hcons : quote (c :: v) = quoteByte c ++ quote v := by rw [quote_eq, quote_eq]; rfl
    rw [hcons]
    by_cases hc : c = lf
    · subst hc
      rw [show quoteByte lf = [lf] by decide, List.singleton_append, lines_lf, lines_lf, ih]
      rfl
    · have hq : ∀ c : Byte, c ≠ lf → lf ∉ quoteByte c := by decide +kernel
      obtain ⟨l, ls, h⟩ := List.exists_cons_of_ne_nil (lines_ne_nil v)
      rw [lines_append_left (hq c hc), ih, lines_cons hc, h]
      simp [quote_eq]

theorem marker_mem_interior_quote (v : Str) : marker ∈ interior (quote v) ↔ marker ∈ interior v := by
  have hff : quote marker = marker := by decide
  rw [interior, interior, lines_quote, ← List.map_tail, ← List.map_dropLast, List.mem_map]
  constructor
  · rintro ⟨l, hl, he⟩
    rw [← hff] at he
    have hu := congrArg unquote he
    rw [unquote_quote, unquote_quote] at hu
    rwa [hu] at hl
  · exact fun h => ⟨marker, h, hff⟩

end Lines

section Events

variable {e : ImEvent} {data : OrderedMap Str Str strLt} {pre post : List ImEvent}

theorem marker_mem_blockPart (he : Persisted e) (hb : e.body = .imxmlevent data) :
    marker ∈ blockPart e.body ↔ ∃ d ∈ filled data, marker ∈ interior (unquote d.2) := by
  have hn := names_xml he hb
  have hx : lf ∉ bytes "<xml>" := by decide
  have h1 : marker ≠ bytes "<xml>" := by decide
  have h2 : marker ∉ lines (bytes "</xml>" ++ [lf]) := by decide
  have hi : ∀ i ∈ xmlItems data, Ident i.1 := fun i hm => (xmlItems_ident hn i hm).1
  rw [hb, blockPart_xml hn, xmlText, lines_line hx, List.mem_cons, or_iff_right h1,
    marker_mem_xmlRender hi, or_iff_left h2]
  simp [xmlItems, filled, marker_mem_interior_quote]

theorem recordBody_xml (he : Persisted e) (hb : e.body = .imxmlevent data)
    (hne : filled data ≠ []) (hm : marker ∉ blockPart e.body) :
    ∃ r : OrderedMap Str Str strLt, recordBody e = .ok (.imxmlevent r) ∧
      r.entries = (filled data).map fun d => (d.1, restoredValue d.2) := by
  have hn := names_xml he hb
  have hitems : xmlItems data ≠ [] := by simpa [xmlItems, filled] using hne
  obtain ⟨r, hr, hentries⟩ := xmlOf_ok hn hitems
  have hblock : blockText e.body = (lines (xmlText data)).foldl addLine [] := by
    rw [blockText_unmarked hm, hb, blockPart_xml hn]
  have ht : e.gettype = .xml := by
    rw [ImEvent.gettype, hb]
    rfl
  refine ⟨r, ?_, ?_⟩
  · rw [recordBody, ht, hblock]
    simp [bodyOf, hr, Except.map]
  · rw [hentries, fieldsOf, xmlItems, List.map_map]
    rfl

theorem upToCR_iff (fields : List (Str × Str)) :
    upToCR (fields.map fun d => (d.1, restoredValue d.2)) = upToCR fields ↔
      ∀ d ∈ fields, NoEntity (dropCR d.2) ∧ NoLeadingSpace d.2 := by
  simp only [upToCR, List.map_map, List.map_inj_left, Function.comp_apply, Prod.mk.injEq,
    true_and, dropCR_restoredValue]

/-- The fields of an XML event come back, at any place between other events, exactly if
there is one and all of them are plain. -/
theorem xml_round_trip (he : Persisted e) (hb : e.body = .imxmlevent data)
    (hall : ∀ d ∈ pre ++ post, Persisted d ∧ Clean d) :
    Restored pre e post data ↔ filled data ≠ [] ∧ ∀ d ∈ filled data, PlainValue d.2 := by
  have hx := bodyOf_xml he hb
  have hitems : xmlItems data ≠ [] ↔ filled data ≠ [] := by simp [xmlItems, filled]
  have hmark := marker_mem_blockPart he hb
  -- the event that is read when the record is understood
  have hread : filled data ≠ [] → marker ∉ blockPart e.body →
      (Restored pre e post data ↔ ∀ d ∈ filled data, NoEntity (dropCR d.2) ∧ NoLeadingSpace d.2) := by
    intro hne hm
    obtain ⟨r, hr, hentries⟩ := recordBody_xml he hb hne hm
    have hclean : Clean e := by
      refine ⟨fun data' hb' => ⟨?_, hm⟩, fun h => absurd h hm⟩
      rw [hb] at hb'
      injection hb' with hdata
      rw [← hdata]
      exact hitems.mpr hne
    rw [Restored, readAt_record ⟨he, hclean⟩ hr hall, ← upToCR_iff, ← hentries]
    constructor
    · rintro ⟨r', h, hr'⟩
      injection h with h
      injection h with h
      rwa [h]
    · exact fun h => ⟨r, rfl, h⟩
  constructor
  · intro h
    have hok : filled data ≠ [] ∧ marker ∉ blockPart e.body := by
      rw [← hitems, ← hx]
      cases hr : recordBody e with
      | ok body => exact ⟨body, hr⟩
      | error f =>
        obtain ⟨r, hnone, -⟩ := h
        rw [readAt_error he hr hall] at hnone
        cases hnone
    obtain ⟨hne, hm⟩ := hok
    have hplain := (hread hne hm).mp h
    refine ⟨hne, fun d hd => ⟨(hplain d hd).1, (hplain d hd).2, ?_⟩⟩
    intro hint
    rw [← unquote_of_noEntity (noEntity_dropCR (hplain d hd).1)] at hint
    exact hm (hmark.mpr ⟨d, hd, hint⟩)
  · rintro ⟨hne, hplain⟩
    have hm : marker ∉ blockPart e.body := by
      intro hm
      obtain ⟨d, hd, hi⟩ := hmark.mp hm
      obtain ⟨hno, -, hint⟩ := hplain d hd
      rw [unquote_of_noEntity (noEntity_dropCR hno)] at hi
      exact hint hi
    exact (hread hne hm).mpr fun d hd => ⟨(hplain d hd).1, (hplain d hd).2.1⟩

end Events

def textEvent (v : Str) : ImEvent :=
  ⟨contactroot, .incoming, 5, 5, false, .imxmlevent (OrderedMap.empty.set (bytes "text") v)⟩

theorem textEvent_persisted {v : Str} (h : nul ∉ v) : Persisted (textEvent v) := by
  refine ⟨?_, ?_, ?_, ?_⟩
  · exact (by decide : ImDirection.incoming ≠ .imdirection_size)
  · intro type ht
    exact nomatch ht
  · intro s hs
    obtain rfl := List.mem_singleton.mp hs
    exact h
  · intro n hn
    obtain rfl := List.mem_singleton.mp hn
    exact (by decide +kernel : Ident (bytes "text"))

theorem xml_round_trip_plain :
    Restored [plainMessage] (textEvent (bytes "a < b\n")) [plainMessage]
      (OrderedMap.empty.set (bytes "text") (bytes "a < b\n")) :=
  (xml_round_trip (textEvent_persisted (by decide)) rfl (by simpa using plainMessage_clean)).mpr
    ⟨by decide, by decide +kernel⟩

/-- The text "&lt;" comes back as "<", and an event whose only field is empty not at all. -/
theorem xml_not_round_trip :
    ¬ Restored [] (textEvent (bytes "&lt;")) []
        (OrderedMap.empty.set (bytes "text") (bytes "&lt;")) ∧
      ¬ Restored [] (textEvent []) [] (OrderedMap.empty.set (bytes "text") []) := by
  constructor
  · rw [xml_round_trip (textEvent_persisted (by decide)) rfl (by simp)]
    rintro ⟨-, h⟩
    have hp := h (bytes "text", bytes "&lt;") (by decide)
    exact absurd hp (by decide)
  · rw [xml_round_trip (textEvent_persisted (by decide)) rfl (by simp)]
    rintro ⟨hne, -⟩
    exact hne (by decide)

end CenterIM.XmlCodec
