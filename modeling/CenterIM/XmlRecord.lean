import CenterIM.RecordText

/-!
# Records of XML events

When an `imxmlevent` can be read back: the parser finds the branch again if one field at
least was written and no line of the record is a marker. Otherwise the reader follows a
null pointer.
-/
namespace CenterIM.XmlRecord
open ByteText Decimal LineStream StrText Contact XmlTree Event EventReader EventLines RecordText

theorem quote_unquote_langle (items : OrderedMap Str Str strLt) :
    ∀ i ∈ xmlItems items, langle ∉ i.2 := by
  intro i hi
  obtain ⟨d, -, rfl⟩ := List.mem_map.mp hi
  exact langle_not_mem_quote _

theorem Ident.norm {n : Str} (h : Ident n) : norm n = n :=
  norm_of_not_mem (h.not_mem (by decide) (by decide)) (h.not_mem (by decide) (by decide))

theorem norm_element {n : Str} (h : Ident n) (v : Str) :
    norm (element n v) = element n (norm v) := by
  have hn := Ident.norm h
  have hc : normByte langle = [langle] ∧ normByte rangle = [rangle] ∧ normByte slash = [slash] := by
    decide
  simp [element, norm_cons, hn, hc]

def blockRender (items : List (Str × Str)) (s : Str) : Str :=
  items.foldr (fun i t => tab :: element i.1 (norm i.2) ++ evlinebreak ++ t) s

theorem blockRender_cons (i : Str × Str) (items : List (Str × Str)) (s : Str) :
    blockRender (i :: items) s =
      tab :: element i.1 (norm i.2) ++ evlinebreak ++ blockRender items s := rfl

theorem norm_xmlRender {items : List (Str × Str)} (h : ∀ i ∈ items, Ident i.1) (s : Str) :
    norm (xmlRender items s) = blockRender items (norm s) := by
  induction items with
  | nil => rfl
  | cons i items ih =>
    have hi := norm_element (h i (by simp)) i.2
    have ht : normByte tab = [tab] := by decide
    rw [xmlRender_cons, blockRender_cons, ← ih fun j hj => h j (by simp [hj])]
    simp [norm_cons, hi, ht]

/-- The same text with the white space between elements put after each of them. -/
theorem blockRender_elements {items : List (Str × Str)}
    (h : ∀ i ∈ items, Ident i.1 ∧ langle ∉ i.2) {ws : Str}
    (hws : ∀ c ∈ ws, isspace c = true) (pre : Str) (hpre : ∀ c ∈ pre, isspace c = true) (s : Str) :
    ∃ (ws' : Str) (items' : List (Str × Str × Str)), (∀ c ∈ ws', isspace c = true) ∧
      items'.map (fun i => (i.1, i.2.1)) = items.map (fun i : Str × Str => (i.1, norm i.2)) ∧
      (∀ i ∈ items', Ident i.1 ∧ langle ∉ i.2.1 ∧ ∀ c ∈ i.2.2, isspace c = true) ∧
      ws ++ blockRender items (pre ++ s) = ws' ++ elements items' s := by
  induction items generalizing ws with
  | nil =>
    refine ⟨ws ++ pre, [], fun c hc => ?_, rfl, by simp, by simp [blockRender, elements]⟩
    exact (List.mem_append.mp hc).elim (hws c) (hpre c)
  | cons i items ih =>
    have hb := evlinebreak_space
    obtain ⟨ws1, items1, hws1, hmap, hgood, htext⟩ := ih (fun j hj => h j (by simp [hj])) hb
    obtain ⟨hi, hv⟩ := h i (by simp)
    refine ⟨ws ++ [tab], (i.1, norm i.2, ws1) :: items1, ?_, by simp [hmap], ?_, ?_⟩
    · intro c hc
      rcases List.mem_append.mp hc with hc | hc
      · exact hws c hc
      · rw [List.mem_singleton.mp hc]
        decide
    · intro j hj
      rcases List.mem_cons.mp hj with rfl | hj
      · exact ⟨hi, not_mem_norm (by decide) (by decide) hv, hws1⟩
      · exact hgood j hj
    · rw [blockRender_cons, List.append_assoc, htext]
      simp [elements]

theorem length_elements (items : List (Str × Str × Str)) (s : Str) :
    items.length ≤ (elements items s).length := by
  induction items with
  | nil => simp
  | cons i items ih =>
    simp only [elements, List.foldr_cons, List.length_append, List.length_cons, element] at ih ⊢
    omega

/-- The fields that are read for the leaves with their names, one after another. -/
theorem xmlFields_leaves {done items : List (Str × Str)}
    (hs : (done ++ items).Pairwise fun a b : Str × Str => strLt a.1 b.1 = true) {children : List XmlNode}
    (hc : children = (done ++ items).map fun i => .leaf i.1 [] i.2)
    {data : OrderedMap Str Str strLt} (hd : data.entries = done) :
    ∃ data', xmlFields children (items.map Prod.fst) data = .ok data' ∧
      data'.entries = done ++ items := by
  induction items generalizing done data with
  | nil => exact ⟨data, rfl, by rw [hd, List.append_nil]⟩
  | cons i items ih =>
    have hlt : ∀ d ∈ done, strLt d.1 i.1 = true := fun d hdone =>
      (List.pairwise_append.mp hs).2.2 d hdone i (by simp)
    have hfind : children.find? (fun c => c.getTag == i.1) = some (.leaf i.1 [] i.2) := by
      have hnot : ∀ d ∈ done, ((XmlNode.leaf d.1 [] d.2).getTag == i.1) = false := by
        intro d hdone
        have hne : d.1 ≠ i.1 := by
          intro he
          have h := hlt d hdone
          have hirr : strLt i.1 i.1 = false := StrictWeak.irrefl i.1
          rw [he, hirr] at h
          exact absurd h (by decide)
        simpa [XmlNode.getTag] using hne
      rw [hc, List.map_append, List.find?_append, List.find?_eq_none.mpr]
      · simp [XmlNode.getTag]
      · intro c hm
        obtain ⟨d, hdone, rfl⟩ := List.mem_map.mp hm
        simpa using hnot d hdone
    have hset : (data.set i.1 i.2).entries = done ++ [i] :=
      (congrArg (OrderedMap.setEntries strLt i.1 i.2) hd).trans (OrderedMap.setEntries_last hlt)
    rw [List.append_cons] at hs hc
    obtain ⟨data', hrun, hentries⟩ := ih hs hc hset
    refine ⟨data', ?_, by rw [hentries, ← List.append_cons]⟩
    rw [List.map_cons, xmlFields, hfind]
    exact hrun

def fieldsOf (items : List (Str × Str)) : List (Str × Str) :=
  items.map fun i => (i.1, readValue (norm i.2))

/-- The block of a record with at least one element is understood. -/
theorem xmlOf_block {items : List (Str × Str)} (hne : items ≠ [])
    (h : ∀ i ∈ items, Ident i.1 ∧ langle ∉ i.2)
    (hs : items.Pairwise fun a b : Str × Str => strLt a.1 b.1 = true) (t : Str) :
    ∃ data, xmlOf (bytes "<xml>" ++ evlinebreak ++ blockRender items (bytes "</xml>" ++ t)) =
      .ok data ∧ data.entries = fieldsOf items := by
  have hb := evlinebreak_space
  have hx := ident_xml
  obtain ⟨ws, items', hws, hmap, hgood, htext⟩ :=
    blockRender_elements h hb [] (by simp) (closing (bytes "xml") t)
  have hlen : items'.length = items.length := by simpa using congrArg List.length hmap
  have hne' : items' ≠ [] := by
    rintro rfl
    exact hne (List.length_eq_zero_iff.mp hlen.symm)
  have ho : bytes "<xml>" ++ evlinebreak ++ blockRender items (bytes "</xml>" ++ t) =
      langle :: bytes "xml" ++ rangle :: (ws ++ elements items' (closing (bytes "xml") t)) := by
    rw [← htext]
    rfl
  have hl := length_elements items' (closing (bytes "xml") t)
  rw [ho, xmlOf]
  generalize hf : (langle :: bytes "xml" ++ rangle ::
    (ws ++ elements items' (closing (bytes "xml") t))).length + 3 = fuel
  have hle : items'.length + 3 ≤ fuel := by
    rw [← hf]
    simp only [List.length_append, List.length_cons]
    omega
  rw [parse_tree hx hws hne' hgood fuel hle t]
  have hleaves : leavesOf items' = (fieldsOf items).map fun i => .leaf i.1 [] i.2 := by
    have hm := congrArg (List.map fun i : Str × Str => XmlNode.leaf i.1 [] (readValue i.2)) hmap
    simpa [leavesOf, fieldsOf, Function.comp_def] using hm
  have hnames : (leavesOf items').map XmlNode.getTag = (fieldsOf items).map Prod.fst := by
    rw [hleaves, List.map_map]
    rfl
  have hsorted : ([] ++ fieldsOf items).Pairwise fun a b : Str × Str => strLt a.1 b.1 = true := by
    rw [List.nil_append, fieldsOf, List.pairwise_map]
    exact hs
  simp only [hnames]
  exact xmlFields_leaves hsorted hleaves rfl

theorem xmlOf_no_elements (t : Str) :
    xmlOf (bytes "<xml>" ++ evlinebreak ++ (bytes "</xml>" ++ t)) = .error .nullDeref := by
  have hb := evlinebreak_space
  have hx := ident_xml
  have ho : bytes "<xml>" ++ evlinebreak ++ (bytes "</xml>" ++ t) =
      langle :: bytes "xml" ++ rangle :: (evlinebreak ++ closing (bytes "xml") t) := rfl
  obtain ⟨val, hp⟩ := parse_tree_empty hx hb
    ((langle :: bytes "xml" ++ rangle :: (evlinebreak ++ closing (bytes "xml") t)).length + 1) t
  rw [ho, xmlOf, hp]

theorem xmlOf_cut {items : List (Str × Str)} (h : ∀ i ∈ items, Ident i.1 ∧ langle ∉ i.2)
    {n v : Str} (hn : Ident n) (hv : langle ∉ v) :
    xmlOf (bytes "<xml>" ++ evlinebreak ++
      blockRender items (tab :: langle :: n ++ rangle :: v)) = .error .nullDeref := by
  have hb := evlinebreak_space
  have hx := ident_xml
  obtain ⟨ws, items', hws, -, hgood, htext⟩ :=
    blockRender_elements h hb [tab] (by decide +kernel) (langle :: n ++ rangle :: v)
  have ho : bytes "<xml>" ++ evlinebreak ++ blockRender items (tab :: langle :: n ++ rangle :: v) =
      langle :: bytes "xml" ++ rangle :: (ws ++ elements items' (langle :: n ++ rangle :: v)) := by
    rw [← htext]
    rfl
  have hl := length_elements items' (langle :: n ++ rangle :: v)
  rw [ho, xmlOf]
  generalize hf : (langle :: bytes "xml" ++ rangle ::
    (ws ++ elements items' (langle :: n ++ rangle :: v))).length + 3 = fuel
  have hle : items'.length + 3 ≤ fuel := by
    rw [← hf]
    simp only [List.length_append, List.length_cons] at hl ⊢
    omega
  rw [parse_tree_cut hx hws hn hv hgood fuel hle]

theorem takeWhile_of_first {A B : List Str} (h : marker ∉ A) :
    (A ++ marker :: B).takeWhile (· ≠ marker) = A := by
  rw [List.takeWhile_append_of_pos fun l hl => by simpa using ne_of_mem_of_not_mem hl h]
  simp

/-- A text with a line that is a marker: the text before it and its lines. -/
theorem lines_before_marker {s : Str} (h : marker ∈ lines s) (h0 : (lines s).head? ≠ some marker) :
    ∃ p q, s = p ++ lf :: ff :: q ∧ (lines s).takeWhile (· ≠ marker) = lines p := by
  obtain ⟨A, B, hAB, hA⟩ := List.eq_append_cons_of_mem h
  have hne : A ≠ [] := by
    rintro rfl
    exact h0 (by simp [hAB])
  have hlf : ∀ l ∈ A, lf ∉ l := fun l hl => mem_lines_not_lf (s := s) (by simp [hAB, hl])
  obtain ⟨p, hp⟩ : ∃ p, unlines A = p ++ [lf] := by
    have hended : Ended (unlines A) := Ended.flatMap fun l _ => Ended.line l
    rcases hended with hu | hu
    · obtain ⟨l, A', rfl⟩ := List.exists_cons_of_ne_nil hne
      simp at hu
    · exact hu
  have hlines : lines p = A := by
    have hu := lines_unlines hlf
    rw [hp] at hu
    rw [← lines_append_lf_dropLast, hu, List.dropLast_concat]
  have hs : s ++ [lf] = p ++ lf :: ff :: lf :: unlines B := by
    rw [← unlines_lines, hAB, unlines_append, hp, unlines_cons]
    simp
  rcases List.eq_nil_or_concat (lf :: unlines B) with hB | ⟨q, c, hB⟩
  · exact absurd hB (by simp)
  · refine ⟨p, q, ?_, by rw [hAB, takeWhile_of_first hA, hlines]⟩
    have hlast : s ++ [lf] = (p ++ lf :: ff :: q) ++ [c] := by
      rw [hs, hB]
      simp
    exact (List.append_inj' hlast rfl).1

theorem split_after {H r p q : Str} {x : Byte} (hx : x ∉ H) (h : H ++ r = p ++ x :: q) :
    ∃ a, p = H ++ a ∧ r = a ++ x :: q := by
  induction H generalizing p with
  | nil => exact ⟨p, rfl, h⟩
  | cons c H ih =>
    simp only [List.mem_cons, not_or] at hx
    cases p with
    | nil => exact absurd (List.cons.inj h).1.symm hx.1
    | cons d p =>
      obtain ⟨rfl, htl⟩ := List.cons.inj h
      obtain ⟨a, rfl, hr⟩ := ih hx.2 htl
      exact ⟨a, rfl, hr⟩

theorem split_before {v C a c : Str} {x : Byte} (hx : x ∉ C) (h : v ++ C = a ++ x :: c) :
    ∃ d, v = a ++ x :: d := by
  rcases List.append_eq_append_iff.mp h with ⟨d, rfl, hC⟩ | ⟨d, rfl, hd⟩
  · exact absurd (by simp [hC]) hx
  · cases d with
    | nil => exact absurd (by simp [← (List.nil_append C ▸ hd)]) hx
    | cons y d =>
      obtain ⟨rfl, -⟩ := List.cons.inj hd
      exact ⟨d, rfl⟩

/-- In the text of the elements a marker can only stand inside the text of one of them. -/
theorem marker_in_element {items : List (Str × Str)} (h : ∀ i ∈ items, Ident i.1) {t p q : Str}
    (ht : ff ∉ t) (hr : xmlRender items t = p ++ lf :: ff :: q) :
    ∃ items1 n v1 v2, (∀ i ∈ items1, i ∈ items) ∧ (n, v1 ++ v2) ∈ items ∧
      p = xmlRender items1 (tab :: langle :: n ++ rangle :: v1) := by
  induction items generalizing p with
  | nil => exact absurd (by rw [show t = _ from hr]; simp) ht
  | cons i items ih =>
    have hi := h i (by simp)
    have hopen : lf ∉ tab :: langle :: i.1 ++ [rangle] := by
      have := hi.not_mem (c := lf) (by decide) (by decide)
      simp [this]
      decide
    have hclose : lf ∉ langle :: slash :: i.1 ++ [rangle] := by
      have := hi.not_mem (c := lf) (by decide) (by decide)
      simp [this]
      decide
    have hhead : ∀ q', xmlRender items t ≠ ff :: q' := by
      intro q' he
      cases items with
      | nil => exact ht (by rw [show t = _ from he]; simp)
      | cons j items => exact absurd (List.cons.inj he).1 (by decide)
    have htext : (tab :: langle :: i.1 ++ [rangle]) ++
        (i.2 ++ (langle :: slash :: i.1 ++ [rangle]) ++ lf :: xmlRender items t) =
          p ++ lf :: ff :: q := by
      rw [← hr, xmlRender_cons]
      simp [element]
    obtain ⟨a, rfl, ha⟩ := split_after hopen htext
    rcases List.append_eq_append_iff.mp ha with ⟨d, rfl, hd⟩ | ⟨d, hd, hd'⟩
    · cases d with
      | nil => exact absurd (List.cons.inj hd).2 (hhead q)
      | cons y d =>
        obtain ⟨rfl, hrest⟩ := List.cons.inj hd
        obtain ⟨items1, n, v1, v2, h1, h2, rfl⟩ := ih (fun j hj => h j (by simp [hj])) hrest
        refine ⟨i :: items1, n, v1, v2, ?_, by simp [h2], ?_⟩
        · intro j hj
          rcases List.mem_cons.mp hj with rfl | hj
          · simp
          · simp [h1 j hj]
        · rw [xmlRender_cons]
          simp [element]
    · cases d with
      | nil => exact absurd (List.cons.inj hd').2.symm (hhead q)
      | cons y d =>
        obtain ⟨rfl, -⟩ := List.cons.inj hd'
        obtain ⟨v2, hv⟩ := split_before hclose hd
        exact ⟨[], i.1, a, lf :: v2, by simp, by simp [← hv], by simp [xmlRender]⟩

/-- The text in the body of the record of an `imxmlevent`. -/
def xmlText (data : OrderedMap Str Str strLt) : Str :=
  bytes "<xml>" ++ lf :: xmlRender (xmlItems data) (bytes "</xml>" ++ [lf])

theorem bodyLines_xml {data : OrderedMap Str Str strLt} (h : ∀ d ∈ data.entries, Ident d.1) :
    bodyLines (.imxmlevent data) = lines (xmlText data) := by
  have hw : (Body.imxmlevent data).write = xmlText data ++ [lf] := by
    have hr := xmlRender_append (xmlItems data) (bytes "</xml>" ++ [lf]) [lf]
    rw [write_xml h, xmlText, List.append_assoc, List.cons_append, ← hr]
    rfl
  rw [bodyLines, hw, lines_append_lf_dropLast]

variable {data : OrderedMap Str Str strLt}

theorem xmlItems_ident (h : ∀ d ∈ data.entries, Ident d.1) :
    ∀ i ∈ xmlItems data, Ident i.1 ∧ langle ∉ i.2 := by
  intro i hi
  refine ⟨?_, quote_unquote_langle data i hi⟩
  obtain ⟨d, hd, rfl⟩ := List.mem_map.mp hi
  exact h d (List.mem_filter.mp hd).1

theorem block_xml_text (items : List (Str × Str)) (h : ∀ i ∈ items, Ident i.1) (s : Str) :
    (lines (bytes "<xml>" ++ lf :: xmlRender items s)).foldl addLine [] =
      bytes "<xml>" ++ evlinebreak ++ blockRender items (norm s) := by
  have hhead : ∀ c, (bytes "<xml>" ++ lf :: xmlRender items s).head? = some c → c ∉ evlinebreak := by
    intro c hc
    obtain rfl := Option.some.inj hc
    decide
  have hn : norm (bytes "<xml>") = bytes "<xml>" := by decide
  rw [foldl_addLine_text hhead, norm_append, hn, norm_cons, normByte_lf, norm_xmlRender h]
  simp

theorem norm_closing : norm (bytes "</xml>" ++ [lf]) = bytes "</xml>" ++ evlinebreak := by
  decide

theorem xmlItems_sorted (data : OrderedMap Str Str strLt) :
    (xmlItems data).Pairwise fun a b : Str × Str => strLt a.1 b.1 = true := by
  rw [xmlItems, List.pairwise_map]
  exact data.sorted.filter _

theorem xmlOf_ok (h : ∀ d ∈ data.entries, Ident d.1) (hne : xmlItems data ≠ []) :
    ∃ data', xmlOf ((lines (xmlText data)).foldl addLine []) = .ok data' ∧
      data'.entries = fieldsOf (xmlItems data) := by
  have hi := xmlItems_ident h
  rw [xmlText, block_xml_text _ fun i hm => (hi i hm).1, norm_closing]
  exact xmlOf_block hne hi (xmlItems_sorted data) evlinebreak

theorem xmlOf_empty (hne : xmlItems data = []) :
    xmlOf ((lines (xmlText data)).foldl addLine []) = .error .nullDeref := by
  rw [xmlText, hne, block_xml_text [] (by simp), norm_closing]
  exact xmlOf_no_elements evlinebreak

theorem xmlOf_marker (h : ∀ d ∈ data.entries, Ident d.1) (hm : marker ∈ lines (xmlText data)) :
    xmlOf (((lines (xmlText data)).takeWhile (· ≠ marker)).foldl addLine []) =
      .error .nullDeref := by
  have hi := xmlItems_ident h
  have h0 : (lines (xmlText data)).head? ≠ some marker := by
    rw [xmlText, lines_line (by decide), List.head?_cons, Ne, Option.some.injEq]
    decide
  have hxml : lf ∉ bytes "<xml>" := by decide
  obtain ⟨p, q, hs, ht⟩ := lines_before_marker hm h0
  obtain ⟨a, rfl, ha⟩ := split_after hxml hs
  cases a with
  | nil =>
    cases hx : xmlItems data with
    | nil =>
      rw [hx] at ha
      exact absurd (List.cons.inj (List.cons.inj ha).2).1 (by decide)
    | cons i items =>
      rw [hx] at ha
      exact absurd (List.cons.inj (List.cons.inj ha).2).1 (by decide)
  | cons c a =>
    obtain ⟨rfl, hrest⟩ := List.cons.inj ha
    have hff : ff ∉ bytes "</xml>" ++ [lf] := by decide
    obtain ⟨items1, n, v1, v2, h1, h2, rfl⟩ :=
      marker_in_element (fun i hm => (hi i hm).1) hff hrest
    have hgood : ∀ i ∈ items1, Ident i.1 ∧ langle ∉ i.2 := fun i hm => hi i (h1 i hm)
    obtain ⟨hn, hv⟩ := hi _ h2
    have hv1 : langle ∉ v1 := fun hm => hv (List.mem_append_left _ hm)
    have hnorm : norm (tab :: langle :: n ++ rangle :: v1) =
        tab :: langle :: n ++ rangle :: norm v1 := by
      have hc : normByte tab = [tab] ∧ normByte langle = [langle] ∧ normByte rangle = [rangle] := by
        decide
      simp [norm_cons, Ident.norm hn, hc]
    rw [ht, block_xml_text _ fun i hm => (hgood i hm).1, hnorm]
    exact xmlOf_cut hgood hn (not_mem_norm (by decide) (by decide) hv1)

end CenterIM.XmlRecord
