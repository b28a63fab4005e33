import CenterIM.EventLines

/-!
# Text and lines of records

What a text becomes when it is written line by line and read back as a block, and the
lines that a record takes in a file.
-/
namespace CenterIM.RecordText
open ByteText Decimal LineStream StrText Contact XmlTree Event EventReader EventLines

def normByte (c : Byte) : Str := if c = lf then evlinebreak else if c = cr then [] else [c]

@[simp] theorem normByte_lf : normByte lf = evlinebreak := if_pos rfl

theorem evlinebreak_space : ∀ c ∈ evlinebreak, isspace c = true := by
  simp [evlinebreak, isspace, cr, lf]

@[simp] theorem normByte_cr : normByte cr = [] := by decide

/-- A text without its carriage returns, and with its line breaks as the reader joins
lines. -/
def norm (s : Str) : Str := s.flatMap normByte

@[simp] theorem norm_nil : norm [] = [] := rfl

theorem norm_cons (c : Byte) (s : Str) : norm (c :: s) = normByte c ++ norm s := rfl

@[simp] theorem norm_append (s t : Str) : norm (s ++ t) = norm s ++ norm t := by simp [norm]

theorem norm_of_not_mem {s : Str} (hl : lf ∉ s) (hc : cr ∉ s) : norm s = s := by
  induction s with
  | nil => rfl
  | cons c s ih =>
    simp only [List.mem_cons, not_or] at hl hc
    rw [norm_cons, ih hl.2 hc.2, normByte, if_neg (Ne.symm hl.1), if_neg (Ne.symm hc.1)]
    rfl

theorem not_mem_norm {c : Byte} (hc : c ≠ lf) (hr : c ≠ cr) {s : Str} (h : c ∉ s) : c ∉ norm s := by
  intro hm
  obtain ⟨d, hd, hcd⟩ := List.mem_flatMap.mp hm
  unfold normByte at hcd
  split_ifs at hcd
  · simp [evlinebreak, hc, hr] at hcd
  · simp at hcd
  · exact h (List.mem_singleton.mp hcd ▸ hd)

@[simp] theorem strip_nil : strip [] = [] := rfl

theorem strip_cons_cr (l : Str) : strip (cr :: l) = strip l := by simp [strip, evlinebreak]

theorem strip_cons {c : Byte} (hl : c ≠ lf) (hc : c ≠ cr) (l : Str) :
    strip (c :: l) = c :: strip l := by simp [strip, evlinebreak, hl, hc]

def joinRest (ls : List Str) : Str := ls.flatMap (evlinebreak ++ strip ·)

theorem foldl_addLine {r : Str} (hr : r ≠ []) (ls : List Str) :
    ls.foldl addLine r = r ++ joinRest ls := by
  induction ls generalizing r with
  | nil => simp [joinRest]
  | cons l ls ih =>
    have ha : addLine r l = r ++ evlinebreak ++ strip l := by simp [addLine, hr]
    rw [List.foldl_cons, ha, ih (by simp [hr])]
    simp [joinRest]

theorem norm_lines (s : Str) {l : Str} {ls : List Str} (h : lines s = l :: ls) :
    norm s = strip l ++ joinRest ls := by
  induction s generalizing l ls with
  | nil =>
    simp only [lines_nil, List.cons.injEq] at h
    obtain ⟨rfl, rfl⟩ := h
    rfl
  | cons c s ih =>
    cases hs : lines s with
    | nil => exact absurd hs (lines_ne_nil s)
    | cons k ks =>
      have hi := ih hs
      by_cases hl : c = lf
      · subst hl
        rw [lines_lf, hs, List.cons.injEq] at h
        obtain ⟨rfl, rfl⟩ := h
        rw [norm_cons, hi]
        simp [joinRest]
      · rw [lines_cons hl, hs, List.modifyHead_cons, List.cons.injEq] at h
        obtain ⟨rfl, rfl⟩ := h
        rw [norm_cons, hi]
        by_cases hc : c = cr
        · subst hc
          simp [strip_cons_cr]
        · simp [normByte, hl, hc, strip_cons hl hc]

/-- The block of a text: the line breaks in front of it are lost. -/
theorem foldl_addLine_lines (s : Str) :
    (lines s).foldl addLine [] = norm (s.dropWhile (· ∈ evlinebreak)) := by
  induction s with
  | nil => rfl
  | cons c s ih =>
    by_cases hl : c = lf
    · subst hl
      rw [lines_lf, List.foldl_cons, List.dropWhile_cons_of_pos (by decide), ← ih]
      rfl
    · cases hs : lines s with
      | nil => exact absurd hs (lines_ne_nil s)
      | cons k ks =>
        rw [lines_cons hl, hs, List.modifyHead_cons, List.foldl_cons]
        by_cases hc : c = cr
        · subst hc
          rw [List.dropWhile_cons_of_pos (by decide), ← ih, hs, List.foldl_cons]
          simp [addLine, strip_cons_cr]
        · have ha : addLine [] (c :: k) = c :: strip k := by simp [addLine, strip_cons hl hc]
          rw [List.dropWhile_cons_of_neg (by simp [evlinebreak, hl, hc]), ha,
            foldl_addLine (by simp), norm_cons, norm_lines s hs]
          simp [normByte, hl, hc]

theorem foldl_addLine_text {s : Str} (hs : ∀ c, s.head? = some c → c ∉ evlinebreak) :
    (lines s).foldl addLine [] = norm s := by
  rw [foldl_addLine_lines]
  cases s with
  | nil => rfl
  | cons c s => rw [List.dropWhile_cons_of_neg (by simpa using hs c rfl)]

def bodyLines (b : Body) : List Str := (lines b.write).dropLast

/-- The lines that `readblock` reads for this body, up to the end of its record. -/
def blockPart (b : Body) : List Str :=
  if readsFirst b.gettype then (bodyLines b).tail else bodyLines b

def recLines (e : ImEvent) : List Str :=
  [marker, sdirection e.direction, seventtype e.gettype, decimalInt e.timestamp.toInt,
    decimalInt e.senttimestamp.toInt] ++ bodyLines e.body

def fileLines (es : List ImEvent) : List Str := es.flatMap recLines ++ [[]]

@[simp] theorem fileLines_nil : fileLines [] = [[]] := rfl

theorem fileLines_cons (e : ImEvent) (es : List ImEvent) :
    fileLines (e :: es) = recLines e ++ fileLines es := by simp [fileLines]

theorem fileLines_cons_eq (e : ImEvent) (es : List ImEvent) :
    fileLines (e :: es) = marker :: sdirection e.direction :: seventtype e.gettype ::
      decimalInt e.timestamp.toInt :: decimalInt e.senttimestamp.toInt ::
        (bodyLines e.body ++ fileLines es) := by
  rw [fileLines_cons]
  rfl

theorem lines_append_lf_dropLast (w : Str) : (lines (w ++ [lf])).dropLast = lines w := by
  rw [lines_append_lf, lines_nil, List.dropLast_concat]

def Ended (s : Str) : Prop := s = [] ∨ ∃ w, s = w ++ [lf]

theorem Ended.append {s t : Str} (hs : Ended s) (ht : Ended t) : Ended (s ++ t) := by
  rcases ht with rfl | ⟨w, rfl⟩
  · simpa using hs
  · exact Or.inr ⟨s ++ w, by simp⟩

theorem Ended.line (w : Str) : Ended (w ++ [lf]) := Or.inr ⟨w, rfl⟩

theorem Ended.flatMap {α : Type} {f : α → Str} {xs : List α} (h : ∀ x ∈ xs, Ended (f x)) :
    Ended (xs.flatMap f) := by
  induction xs with
  | nil => exact Or.inl rfl
  | cons x xs ih =>
    rw [List.flatMap_cons]
    exact (h x (by simp)).append (ih fun y hy => h y (by simp [hy]))

theorem write_ended (b : Body) : Ended b.write := by
  cases b
  case imcontacts contacts =>
    apply Ended.flatMap
    intro ic _
    exact Ended.line _
  case imfile files msg =>
    apply Ended.append (Ended.line _)
    apply Ended.flatMap
    intro i _
    exact Ended.line _
  case imxmlevent data =>
    simp only [Body.write]
    split
    · exact Ended.line _
    · exact Or.inl rfl
  case imrawevent type => exact Or.inl rfl
  all_goals exact Ended.line _

theorem lines_ended {s : Str} (h : Ended s) (t : Str) :
    lines (s ++ t) = (lines s).dropLast ++ lines t := by
  rcases h with rfl | ⟨w, rfl⟩
  · rfl
  · rw [lines_append_lf_dropLast, List.append_assoc, List.singleton_append, lines_append_lf]

theorem sdirection_plain (d : ImDirection) : Plain (sdirection d) := by cases d <;> decide

theorem seventtype_plain (t : ImEventType) : Plain (seventtype t) := by cases t <;> decide

/-- A record that is written takes its lines, whatever follows it. -/
theorem lines_write {e : ImEvent} (ht : e.gettype ≠ .imeventtype_size) (t : Str) :
    lines (e.write ++ t) = recLines e ++ lines t := by
  have hw : e.write ++ t = marker ++ lf :: (sdirection e.direction ++ lf :: (seventtype e.gettype ++
      lf :: (decimalInt e.timestamp.toInt ++ lf :: (decimalInt e.senttimestamp.toInt ++
        lf :: (e.body.write ++ t))))) := by
    simp [ImEvent.write, writeHeader, ht]
  rw [hw, lines_line (by decide), lines_line (sdirection_plain _).1,
    lines_line (seventtype_plain _).1, lines_line (decimalInt_plain _).1,
    lines_line (decimalInt_plain _).1, lines_ended (write_ended _)]
  simp [recLines, bodyLines]

theorem lines_writeAll {es : List ImEvent} (h : ∀ e ∈ es, e.gettype ≠ .imeventtype_size) :
    lines (writeAll es) = fileLines es := by
  induction es with
  | nil => rfl
  | cons e es ih =>
    rw [writeAll, List.flatMap_cons, lines_write (h e (by simp)), fileLines_cons]
    exact congrArg (recLines e ++ ·) (ih fun d hd => h d (by simp [hd]))

/-- The texts in a body, as the user or the network gave them. -/
def texts : Body → List Str
  | .immessage text => [text]
  | .imurl url description => [url, description]
  | .imsms text phone => [text, phone]
  | .imauthorization text _ => [text]
  | .imemail text => [text]
  | .imnotification text => [text]
  | .imcontacts contacts => contacts.map Prod.snd
  | .imfile files msg => msg :: files.map FileRecord.fname
  | .imxmlevent data => data.entries.map Prod.snd
  | .imrawevent _ => []

/-- The names of the fields of an `imxmlevent`, which the program chooses. -/
def fieldNames : Body → List Str
  | .imxmlevent data => data.entries.map Prod.fst
  | _ => []

/-- An event as the program stores it: of a type that is kept in files, with text in it
that has no NUL. -/
structure Persisted (e : ImEvent) : Prop where
  direction : e.direction ≠ .imdirection_size
  kept : ∀ type, e.body ≠ .imrawevent type
  text : ∀ s ∈ texts e.body, nul ∉ s
  names : ∀ n ∈ fieldNames e.body, Ident n

theorem hasBody_gettype {b : Body} (h : ∀ type, b ≠ .imrawevent type) :
    hasBody b.gettype = true := by
  cases b <;> first | rfl | exact absurd rfl (h _)

theorem Persisted.type {e : ImEvent} (h : Persisted e) : hasBody e.gettype = true :=
  hasBody_gettype h.kept

theorem Persisted.type_ne {e : ImEvent} (h : Persisted e) : e.gettype ≠ .imeventtype_size := by
  intro he
  have ht := h.type
  rw [he] at ht
  exact absurd ht (by decide)

theorem nul_not_mem_unquote {s : Str} (h : nul ∉ s) : nul ∉ unquote s := by
  have hr : ∀ {r1 r2 t : Str}, nul ∉ r2 → nul ∉ t → nul ∉ replaceFrom r1 r2 0 t :=
    fun h2 ht hm => (mem_replaceFrom hm).elim h2 ht
  unfold unquote replace_all
  iterate 7 apply hr (by decide)
  exact h

theorem nul_not_mem_quote {s : Str} (h : nul ∉ s) : nul ∉ quote s := by
  rw [quote_eq]
  intro hm
  obtain ⟨c, hc, hn⟩ := List.mem_flatMap.mp hm
  unfold quoteByte at hn
  split_ifs at hn
  iterate 5 exact absurd hn (by decide)
  exact h (List.mem_singleton.mp hn ▸ hc)

/-- The elements of an `imxmlevent` in the order of their names. -/
def xmlItems (data : OrderedMap Str Str strLt) : List (Str × Str) :=
  (data.entries.filter fun d => d.2 ≠ []).map fun d => (d.1, quote (unquote d.2))

def xmlRender (items : List (Str × Str)) (s : Str) : Str :=
  items.foldr (fun i t => tab :: element i.1 i.2 ++ lf :: t) s

theorem xmlRender_cons (i : Str × Str) (items : List (Str × Str)) (s : Str) :
    xmlRender (i :: items) s = tab :: element i.1 i.2 ++ lf :: xmlRender items s := rfl

theorem xmlRender_append (items : List (Str × Str)) (s t : Str) :
    xmlRender items (s ++ t) = xmlRender items s ++ t := by
  induction items with
  | nil => rfl
  | cons i items ih =>
    rw [xmlRender_cons, xmlRender_cons, ih]
    simp

/-- What an `imxmlevent` writes when all its names are identifiers. -/
theorem write_xml {data : OrderedMap Str Str strLt} (h : ∀ d ∈ data.entries, Ident d.1) :
    (Body.imxmlevent data).write =
      bytes "<xml>" ++ lf :: xmlRender (xmlItems data) (bytes "</xml>" ++ [lf, lf]) := by
  have hc : ∀ ds : List (Str × Str), (∀ d ∈ ds, Ident d.1) →
      childrenToString (ds.map fun d => mkLeaf d.1 d.2) 1 =
        some (xmlRender (ds.map fun d => (d.1, quote (unquote d.2))) []) := by
    intro ds hd
    induction ds with
    | nil => rfl
    | cons d ds ih =>
      have hi := ih fun e he => hd e (by simp [he])
      rw [List.map_cons, childrenToString, toString_leaf (hd d (by simp)), hi]
      simp [xmlRender]
  have hx := ident_xml
  have hq : ∀ d ∈ data.entries.filter fun d => d.2 ≠ [], Ident d.1 := fun d hd =>
    h d (List.mem_filter.mp hd).1
  simp only [Body.write, xmlNode, mkBranch, XmlNode.toString, zero_add, hc _ hq, parseAttr_ident hx,
    quote_ident hx]
  have hr := xmlRender_append (xmlItems data) [] (bytes "</xml>" ++ [lf, lf])
  rw [List.nil_append] at hr
  rw [hr, xmlItems]
  simp [bytes]

theorem nul_not_mem_xmlRender {items : List (Str × Str)} {s : Str}
    (h : ∀ i ∈ items, nul ∉ i.1 ∧ nul ∉ i.2) (hs : nul ∉ s) : nul ∉ xmlRender items s := by
  induction items with
  | nil => exact hs
  | cons i items ih =>
    have hi := h i (by simp)
    have hr := ih fun j hj => h j (by simp [hj])
    have hc : nul ≠ tab ∧ nul ≠ lf ∧ nul ≠ langle ∧ nul ≠ rangle ∧ nul ≠ slash := by decide
    rw [xmlRender_cons]
    simp [element, hc, hi, hr]

theorem nul_not_mem_write {e : ImEvent} (h : Persisted e) : nul ∉ e.body.write := by
  have ht := h.text
  have hd : ∀ n, nul ∉ decimal n := fun n hn =>
    absurd (isdigit_of_mem_decimal hn) (by decide)
  have hi : ∀ i, nul ∉ decimalInt i := fun i => (decimalInt_plain i).2
  have hc : nul ≠ tab ∧ nul ≠ lf := by decide
  cases hb : e.body
  case imcontacts contacts =>
    rw [hb] at ht
    simp only [texts, List.mem_map, forall_exists_index, and_imp] at ht
    intro hm
    obtain ⟨ic, hic, hn⟩ := List.mem_flatMap.mp hm
    simp [hd, hc, ht ic.2 ic hic rfl] at hn
  case imfile files msg =>
    intro hm
    simp only [Body.write, List.mem_append, List.mem_flatMap, List.mem_singleton] at hm
    rcases hm with ((hm | hm) | hm) | ⟨i, -, hm⟩
    · exact absurd hm (by decide)
    · exact (mime_plain msg).2 hm
    · exact absurd hm (by decide)
    · simp [(mime_plain i.fname).2, hc, hi] at hm
  case imxmlevent data =>
    have hn := h.names
    rw [hb] at ht hn
    simp only [texts, fieldNames, List.mem_map, forall_exists_index, and_imp] at ht hn
    rw [write_xml fun d hd => hn d.1 d hd rfl]
    have hitems : ∀ i ∈ xmlItems data, nul ∉ i.1 ∧ nul ∉ i.2 := by
      intro i hi
      obtain ⟨d, hd, rfl⟩ := List.mem_map.mp hi
      have hde := (List.mem_filter.mp hd).1
      exact ⟨(hn d.1 d hde rfl).not_mem (by decide) (by decide),
        nul_not_mem_quote (nul_not_mem_unquote (ht d.2 d hde rfl))⟩
    have hend : nul ∉ bytes "</xml>" ++ [lf, lf] := by decide
    have hr := nul_not_mem_xmlRender hitems hend
    simp only [List.mem_append, List.mem_cons, not_or]
    exact ⟨by decide, by decide, hr⟩
  case imsms text phone =>
    rw [hb] at ht
    simp only [texts, List.mem_cons, List.not_mem_nil, or_false, forall_eq_or_imp, forall_eq] at ht
    have hp : nul ∉ (if phone.take 1 ≠ bytes "+" then bytes "+" else []) := by
      split_ifs <;> decide
    have hw : nul ∉ (if phone = [] then [] else
        (if phone.take 1 ≠ bytes "+" then bytes "+" else []) ++ phone ++ [lf]) := by
      by_cases h0 : phone = []
      · simp [h0]
      · rw [if_neg h0]
        simp only [List.mem_append, not_or]
        exact ⟨⟨hp, ht.2⟩, by decide⟩
    simp only [Body.write, List.mem_append, not_or]
    exact ⟨⟨hw, ht.1⟩, by decide⟩
  all_goals
    rw [hb] at ht
    simp_all [texts, Body.write, ui2str, i2str]

theorem recLines_plain {e : ImEvent} (h : Persisted e) : PlainLines (recLines e) := by
  intro l hl
  simp only [recLines, List.cons_append, List.nil_append, List.mem_cons] at hl
  rcases hl with rfl | rfl | rfl | rfl | rfl | hl
  · decide
  · exact sdirection_plain _
  · exact seventtype_plain _
  · exact decimalInt_plain _
  · exact decimalInt_plain _
  · exact plain_of_mem_lines (nul_not_mem_write h) (List.mem_of_mem_dropLast hl)

theorem fileLines_plain {es : List ImEvent} (h : ∀ e ∈ es, Persisted e) :
    PlainLines (fileLines es) := by
  intro l hl
  simp only [fileLines, List.mem_append, List.mem_flatMap, List.mem_singleton] at hl
  rcases hl with ⟨e, he, hl⟩ | rfl
  · exact recLines_plain (h e he) l hl
  · decide

theorem nul_not_mem_writeAll {es : List ImEvent} (h : ∀ e ∈ es, Persisted e) :
    nul ∉ writeAll es := by
  intro hm
  have hu : nul ∈ unlines (lines (writeAll es)) := by
    rw [unlines_lines]
    exact List.mem_append_left _ hm
  rw [lines_writeAll fun e he => (h e he).type_ne] at hu
  obtain ⟨l, hl, hn⟩ := List.mem_flatMap.mp hu
  rcases List.mem_append.mp hn with hn | hn
  · exact (fileLines_plain h l hl).2 hn
  · exact absurd hn (by decide)

/-- Reading a file of stored events is reading the lines of its records. -/
theorem readAll_writeAll {es : List ImEvent} (h : ∀ e ∈ es, Persisted e) :
    readAll (writeAll es) = events (fileLines es) := by
  rw [readAll_lines (nul_not_mem_writeAll h), lines_writeAll fun e he => (h e he).type_ne]

end CenterIM.RecordText
