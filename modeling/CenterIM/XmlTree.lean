import CenterIM.StrText

/-!
# XML nodes

The XML reader and writer of libicq2000 as far as history records use them: quoting,
nodes with their output, and the parser, which gives up on text that ends early. The
results are about elements whose names are identifiers and whose text has no angle
brackets, which is what the writer leaves.
-/
namespace CenterIM.XmlTree
open ByteText Decimal StrText

abbrev langle : Byte := 60
abbrev rangle : Byte := 62
abbrev slash : Byte := 47

/-- The rest of `replace_all` after `skip` more characters of a match. -/
def replaceFrom (r1 r2 : Str) : ℕ → Str → Str
  | _, [] => []
  | 0, c :: s =>
    if r1.isPrefixOf (c :: s) then r2 ++ replaceFrom r1 r2 (r1.length - 1) s
    else c :: replaceFrom r1 r2 0 s
  | skip + 1, _ :: s => replaceFrom r1 r2 skip s

/-- `XmlNode::replace_all(s, r1, r2)`. -/
def replace_all (s r1 r2 : Str) : Str := replaceFrom r1 r2 0 s

/-- `XmlNode::quote`. -/
def quote (a : Str) : Str :=
  replace_all (replace_all (replace_all (replace_all (replace_all a
    (bytes "&") (bytes "&amp;"))
    (bytes "<") (bytes "&lt;"))
    (bytes "\"") (bytes "&quot;"))
    [96] (bytes "&apos;"))
    (bytes ">") (bytes "&gt;")

/-- `XmlNode::unquote`. -/
def unquote (a : Str) : Str :=
  replace_all (replace_all (replace_all (replace_all (replace_all (replace_all (replace_all a
    (bytes "&lt;") (bytes "<"))
    (bytes "&gt;") (bytes ">"))
    (bytes "&quot;") (bytes "\""))
    (bytes "&apos;") [96])
    (bytes "&nbsp;") (bytes " "))
    (bytes "&trade;") (bytes "(tm)"))
    (bytes "&amp;") (bytes "&")

inductive XmlNode
  | leaf (tag : Str) (attributes : List (Str × Str)) (value : Str)
  | branch (tag : Str) (attributes : List (Str × Str)) (children : List XmlNode)

/-- `XmlNode::getTag`. -/
def XmlNode.getTag : XmlNode → Str
  | .leaf tag _ _ => tag
  | .branch tag _ _ => tag

/-- `XmlNode::skipWS`. -/
def skipWS (s : Str) : Str := s.dropWhile isspace

/-- The attribute loop of `parseAttr`. -/
def parseAttrLoop : ℕ → Str → List (Str × Str)
  | 0, _ => []
  | fuel + 1, s =>
    if s = [] then []
    else
      let s := skipWS s
      let aname := s.takeWhile fun c => !isspace c && c ≠ 61
      match s.drop aname.length with
      | [] => []
      | c :: t =>
        match skipWS (if c = 61 then t else c :: t) with
        | [] => []
        | qchar :: t =>
          if qchar ≠ 34 ∧ qchar ≠ 39 then []
          else
            let aval := t.takeWhile (· ≠ qchar)
            match t.drop aval.length with
            | [] => []
            | _ :: t => (aname, aval) :: parseAttrLoop fuel t

/-- `XmlNode::parseAttr`: the tag and the attributes. -/
def parseAttr (at_ : Str) : Str × List (Str × Str) :=
  let t := skipWS at_
  let tag := t.takeWhile (!isspace ·)
  let rest := t.drop tag.length
  (tag, parseAttrLoop (rest.length + 1) rest)

/-- `new XmlLeaf(t, v)`. -/
def mkLeaf (t v : Str) : XmlNode := .leaf (parseAttr t).1 (parseAttr t).2 (unquote v)

/-- `new XmlBranch(t)` with these children pushed. -/
def mkBranch (t : Str) (children : List XmlNode) : XmlNode :=
  .branch (parseAttr t).1 (parseAttr t).2 children

/-- `XmlNode::parseTag`: the tag, empty if there is none, and the text after it. -/
def parseTag : Str → Str × Str
  | [] => ([], [])
  | c :: s =>
    if c ≠ langle then ([], c :: s)
    else
      match s.dropWhile (· ≠ rangle) with
      | [] => ([], [])
      | _ :: rest => (s.takeWhile (· ≠ rangle), rest)

/-- The first loop of `parse`: pass over `<?..>` and `<!..>` to an opening tag. -/
def openTag : ℕ → Str → Option Str × Str
  | 0, s => (none, s)
  | fuel + 1, s =>
    let s := skipWS s
    if s.head? ≠ some langle then (none, s)
    else
      let (tag, s) := parseTag s
      if tag = [] ∨ tag.head? = some slash then (none, s)
      else if tag.head? = some 63 ∨ tag.head? = some 33 then openTag fuel s
      else (some tag, s)

/-- The loop that collects the text of a `CDATA` section. -/
def cdataLoop (cdata endtag : Str) : Str → Str × Str
  | [] => (cdata, [])
  | c :: s =>
    if 3 ≤ endtag.length then (cdata, c :: s)
    else if c = 93 ∨ c = rangle then
      let endtag := endtag ++ [c]
      if endtag ≠ (bytes "]]>").take endtag.length then cdataLoop (cdata ++ endtag) [] s
      else cdataLoop cdata endtag s
    else cdataLoop (cdata ++ [c]) endtag s

/-- Is this, with its leading slash, the closing tag of `tagname`? -/
def closes (nexttag tagname : Str) : Bool :=
  nexttag.length == tagname.length + 1 && find tagname (nexttag.drop 1) == some 0

mutual

/-- `XmlNode::parse(curr, end)`: the node or null, and where `curr` is left. -/
def parse : ℕ → Str → Except Fault (Option XmlNode × Str)
  | 0, s => .ok (none, s)
  | fuel + 1, s =>
    match openTag (s.length + 1) s with
    | (none, s) => .ok (none, s)
    | (some tag, s) =>
      if tag.getLast? = some slash then .ok (some (mkLeaf (unquote tag.dropLast) []), s)
      else
        let tagname := tag.takeWhile fun c => !decide (c ∈ wordDelim)
        let s := skipWS s
        if s = [] then .ok (none, s)
        else
          let (cdata, s) :=
            if s.take 9 = bytes "<![CDATA[" then cdataLoop [] [] (s.drop 9) else ([], s)
          match s with
          | [] => .error .pastEnd
          | c :: _ =>
            if c = langle ∧ cdata = [] then parseChildren fuel tag tagname none s
            else
              let value := s.takeWhile (· ≠ langle)
              match s.drop value.length with
              | [] => .ok (none, [])
              | s =>
                let (nexttag, s) := parseTag s
                if nexttag.head? ≠ some slash then .ok (none, s)
                else
                  let value := if value = [] then cdata else value
                  if closes nexttag tagname then
                    .ok (some (mkLeaf (unquote tag) (unquote value)), s)
                  else .ok (none, s)

/-- The loop of `parse` over the children; `p` holds those pushed so far, and is null
while there is no branch yet. -/
def parseChildren : ℕ → Str → Str → Option (List XmlNode) → Str →
    Except Fault (Option XmlNode × Str)
  | 0, _, _, _, s => .ok (none, s)
  | fuel + 1, tag, tagname, p, s =>
    let (nexttag, rest) := parseTag s
    if nexttag = [] then .ok (none, rest)
    else if nexttag.head? = some slash then
      if closes nexttag tagname then
        match p with
        | none => .ok (some (mkLeaf (unquote tag) []), rest)
        | some children => .ok (some (mkBranch (unquote tag) children), rest)
      else .ok (none, rest)
    else
      match parse fuel s with
      | .error e => .error e
      | .ok (c, s) =>
        let children := p.getD [] ++ c.toList
        let s := skipWS s
        if s.head? ≠ some langle then .ok (none, s)
        else parseChildren fuel tag tagname (some children) s

end

mutual

/-- `toString(n)`; a leaf with attributes loops for ever. -/
def XmlNode.toString : XmlNode → ℕ → Option Str
  | .leaf tag attributes value, n =>
    if attributes ≠ [] then none
    else some (List.replicate n tab ++ bytes "<" ++ quote tag ++ bytes ">" ++ quote value ++
      bytes "</" ++ quote tag ++ bytes ">\n")
  | .branch tag _ children, n =>
    match childrenToString children (n + 1) with
    | none => none
    | some body => some (List.replicate n tab ++ bytes "<" ++ quote tag ++ bytes ">\n" ++ body ++
        List.replicate n tab ++ bytes "</" ++ quote tag ++ bytes ">\n")

def childrenToString : List XmlNode → ℕ → Option Str
  | [], _ => some []
  | c :: cs, n =>
    match c.toString n, childrenToString cs n with
    | some s, some t => some (s ++ t)
    | _, _ => none

end

theorem replaceFrom_single (c : Byte) (r2 s : Str) :
    replaceFrom [c] r2 0 s = s.flatMap fun d => if d = c then r2 else [d] := by
  induction s with
  | nil => rfl
  | cons d s ih =>
    by_cases hd : d = c
    · subst hd
      simp [replaceFrom, ih]
    · have hc : c ≠ d := Ne.symm hd
      simp [replaceFrom, ih, hd, hc]

theorem mem_replaceFrom {r1 r2 s : Str} {skip : ℕ} {c : Byte}
    (h : c ∈ replaceFrom r1 r2 skip s) : c ∈ r2 ∨ c ∈ s := by
  induction s generalizing skip with
  | nil => simp [replaceFrom] at h
  | cons d s ih =>
    cases skip with
    | zero =>
      simp only [replaceFrom] at h
      split_ifs at h
      · rcases List.mem_append.mp h with h | h
        · exact Or.inl h
        · exact (ih h).imp_right (List.mem_cons_of_mem d)
      · rcases List.mem_cons.mp h with rfl | h
        · exact Or.inr (by simp)
        · exact (ih h).imp_right (List.mem_cons_of_mem d)
    | succ skip => exact (ih h).imp_right (List.mem_cons_of_mem d)

/-- Nothing is replaced where the pattern's first character does not occur. -/
theorem replaceFrom_of_not_mem {c : Byte} {s : Str} (h : c ∉ s) (r1 r2 : Str) :
    replaceFrom (c :: r1) r2 0 s = s := by
  induction s with
  | nil => rfl
  | cons d s ih =>
    simp only [List.mem_cons, not_or] at h
    simp [replaceFrom, h.1, ih h.2]

/-- What `quote` makes of one character. -/
def quoteByte (c : Byte) : Str :=
  if c = 38 then bytes "&amp;"
  else if c = langle then bytes "&lt;"
  else if c = 34 then bytes "&quot;"
  else if c = 96 then bytes "&apos;"
  else if c = rangle then bytes "&gt;"
  else [c]

theorem quote_eq (a : Str) : quote a = a.flatMap quoteByte := by
  have hq : bytes "&" = [38] ∧ bytes "<" = [langle] ∧ bytes "\"" = [34] ∧ bytes ">" = [rangle] := by
    decide
  simp only [quote, replace_all, hq, replaceFrom_single, List.flatMap_assoc]
  congr 1
  funext c
  simp only [quoteByte]
  split_ifs with h1 h2 h3 h4 h5
  · decide
  · subst h2
    decide
  · subst h3
    decide
  · subst h4
    decide
  · subst h5
    decide
  · simp [h2, h3, h4, h5]

theorem not_mem_quoteByte (c : Byte) : langle ∉ quoteByte c ∧ rangle ∉ quoteByte c := by
  simp only [quoteByte]
  split_ifs with h1 h2 h3 h4 h5
  iterate 5 decide
  simpa [eq_comm] using ⟨h2, h5⟩

theorem langle_not_mem_quote (a : Str) : langle ∉ quote a := by
  rw [quote_eq]
  simpa [List.mem_flatMap] using fun c _ => (not_mem_quoteByte c).1

def Ident (n : Str) : Prop := n ≠ [] ∧ ∀ c ∈ n, isalnum c = true ∨ c = 95

instance (n : Str) : Decidable (Ident n) := inferInstanceAs (Decidable (_ ∧ _))

theorem ident_xml : Ident (bytes "xml") := by decide +kernel

theorem Ident.not_mem {n : Str} (h : Ident n) {c : Byte} (hc : isalnum c = false)
    (hu : c ≠ 95) : c ∉ n := by
  intro hm
  rcases h.2 c hm with ha | rfl
  · simp [hc] at ha
  · exact hu rfl

theorem Ident.isspace {n : Str} (h : Ident n) : ∀ c ∈ n, isspace c = false := by
  intro c hc
  rcases h.2 c hc with ha | rfl
  · rw [Bool.eq_false_iff, Ne, isspace_iff]
    simp only [isalnum, UInt8.le_iff_toNat_le, Bool.or_eq_true, Bool.and_eq_true,
      decide_eq_true_eq] at ha
    simp at ha
    omega
  · decide

theorem quote_ident {n : Str} (h : Ident n) : quote n = n := by
  rw [quote_eq]
  have hq : ∀ c ∈ n, quoteByte c = [c] := by
    intro c hc
    have hne : ∀ d : Byte, isalnum d = false → d ≠ 95 → c ≠ d := by
      rintro d hd hu rfl
      exact h.not_mem hd hu hc
    simp [quoteByte, hne 38 (by decide) (by decide), hne 60 (by decide) (by decide),
      hne 34 (by decide) (by decide), hne 96 (by decide) (by decide),
      hne 62 (by decide) (by decide)]
  rw [List.flatMap_congr hq]
  simp

theorem unquote_of_not_mem {a : Str} (h : 38 ∉ a) : unquote a = a := by
  simp [unquote, replace_all, bytes, replaceFrom_of_not_mem h]

theorem unquote_ident {n : Str} (h : Ident n) : unquote n = n :=
  unquote_of_not_mem (h.not_mem (by decide) (by decide))

theorem parseAttr_ident {n : Str} (h : Ident n) : parseAttr n = (n, []) := by
  obtain ⟨c, t, rfl⟩ := List.exists_cons_of_ne_nil h.1
  have hc := h.isspace c (by simp)
  have hs : skipWS (c :: t) = c :: t := List.dropWhile_cons_of_neg (by simp [hc])
  have ht : (c :: t).takeWhile (!isspace ·) = c :: t :=
    List.takeWhile_eq_self_iff.mpr fun d hd => by simpa using h.isspace d hd
  simp only [parseAttr, hs, ht, List.drop_length]
  rfl

theorem mkLeaf_ident {n : Str} (h : Ident n) (v : Str) : mkLeaf n v = .leaf n [] (unquote v) := by
  rw [mkLeaf, parseAttr_ident h]

def element (n v : Str) : Str := langle :: n ++ rangle :: v ++ langle :: slash :: n ++ [rangle]

theorem toString_leaf {n : Str} (h : Ident n) (v : Str) (k : ℕ) :
    (mkLeaf n v).toString k =
      some (List.replicate k tab ++ element n (quote (unquote v)) ++ [lf]) := by
  simp [mkLeaf_ident h, XmlNode.toString, quote_ident h, element, bytes]

theorem skipWS_append {ws : Str} (h : ∀ c ∈ ws, isspace c = true) (s : Str) :
    skipWS (ws ++ s) = skipWS s := List.dropWhile_append_of_pos (by simpa using h)

theorem skipWS_langle (s : Str) : skipWS (langle :: s) = langle :: s :=
  List.dropWhile_cons_of_neg (by decide)

theorem skipWS_suffix (s : Str) : skipWS s <:+ s := List.dropWhile_suffix _

theorem takeWhile_ne_cons {c : Byte} {t : Str} (h : c ∉ t) (s : Str) :
    (t ++ c :: s).takeWhile (· ≠ c) = t ∧ (t ++ c :: s).dropWhile (· ≠ c) = c :: s := by
  have ht : ∀ d ∈ t, (decide (d ≠ c)) = true := by
    intro d hd
    simpa using ne_of_mem_of_not_mem hd h
  constructor
  · rw [List.takeWhile_append_of_pos ht]
    simp
  · rw [List.dropWhile_append_of_pos ht]
    simp

theorem parseTag_cons {t : Str} (h : rangle ∉ t) (s : Str) :
    parseTag (langle :: t ++ rangle :: s) = (t, s) := by
  obtain ⟨h1, h2⟩ := takeWhile_ne_cons h s
  simp only [List.cons_append, parseTag, ne_eq, not_true_eq_false, if_false]
  simp only [ne_eq, decide_not] at h1 h2
  simp only [decide_not, h1, h2]

theorem openTag_ident {n : Str} (hn : Ident n) (fuel : ℕ) (s : Str) :
    openTag (fuel + 1) (langle :: n ++ rangle :: s) = (some n, s) := by
  have hr : rangle ∉ n := hn.not_mem (by decide) (by decide)
  have hhead : ∀ c : Byte, isalnum c = false → c ≠ 95 → n.head? ≠ some c := fun c h1 h2 he =>
    hn.not_mem h1 h2 (List.mem_of_mem_head? (by simp [he]))
  have hws : skipWS (langle :: n ++ rangle :: s) = langle :: n ++ rangle :: s := skipWS_langle _
  simp only [openTag, hws, parseTag_cons hr]
  simp [hn.1, hhead slash (by decide) (by decide), hhead 63 (by decide) (by decide),
    hhead 33 (by decide) (by decide)]

theorem closes_ident {n : Str} (hn : Ident n) : closes (slash :: n) n = true := by
  obtain ⟨c, t, rfl⟩ := List.exists_cons_of_ne_nil hn.1
  simp [closes, find]

theorem tagname_ident {n : Str} (hn : Ident n) :
    n.takeWhile (fun c => !decide (c ∈ wordDelim)) = n := by
  apply List.takeWhile_eq_self_iff.mpr
  intro c hc
  have hs := hn.isspace c hc
  have hw : ∀ d ∈ wordDelim, Decimal.isspace d = true := by decide +kernel
  have hc : c ∉ wordDelim := by
    intro hd
    rw [hw c hd] at hs
    exact absurd hs (by decide)
  simp [hc]

theorem not_closing {n : Str} (hn : Ident n) : n.getLast? ≠ some slash := fun he =>
  hn.not_mem (c := slash) (by decide) (by decide) (List.mem_of_mem_getLast? (by simp [he]))

/-- The parser at an opening tag that is followed by more than white space. -/
theorem parse_open {n : Str} (hn : Ident n) (fuel : ℕ) {s : Str} (hs : skipWS s ≠ [])
    (hc : (skipWS s).take 9 ≠ bytes "<![CDATA[") :
    parse (fuel + 1) (langle :: n ++ rangle :: s) =
      if (skipWS s).head? = some langle then parseChildren fuel n n none (skipWS s)
      else
        match (skipWS s).drop ((skipWS s).takeWhile (· ≠ langle)).length with
        | [] => .ok (none, [])
        | t =>
          if (parseTag t).1.head? ≠ some slash then .ok (none, (parseTag t).2)
          else if closes (parseTag t).1 n then
            .ok (some (mkLeaf n (unquote ((skipWS s).takeWhile (· ≠ langle)))), (parseTag t).2)
          else .ok (none, (parseTag t).2) := by
  rw [parse, openTag_ident hn]
  simp only [if_neg (not_closing hn), tagname_ident hn, if_neg hs, if_neg hc, unquote_ident hn]
  cases h : skipWS s with
  | nil => exact absurd h hs
  | cons c t =>
    by_cases hl : c = langle
    · simp [hl]
    · have hv : (c :: t).takeWhile (· ≠ langle) ≠ [] := by simp [hl]
      simp only [hl, false_and, if_false, List.head?_cons, Option.some.injEq, if_neg hv]

/-- The value that is read for an element with this text: the parser unquotes it without
the white space in front, and the constructor of the leaf does so again. -/
def readValue (v : Str) : Str := unquote (unquote (skipWS v))

/-- An element is read back as a leaf of its name, and the text after it is left. -/
theorem parse_element {n v : Str} (hn : Ident n) (hv : langle ∉ v) (fuel : ℕ) (s : Str) :
    parse (fuel + 2) (element n v ++ s) = .ok (some (.leaf n [] (readValue v)), s) := by
  have hr : rangle ∉ slash :: n := by
    simpa using ⟨by decide, hn.not_mem (by decide) (by decide)⟩
  have htag : parseTag (langle :: (slash :: n) ++ rangle :: s) = (slash :: n, s) :=
    parseTag_cons hr s
  have htext : element n v ++ s =
      langle :: n ++ rangle :: (v ++ (langle :: (slash :: n) ++ rangle :: s)) := by
    simp [element]
  rw [htext]
  by_cases hw : ∀ c ∈ v, isspace c = true
  · have hskip : skipWS (v ++ (langle :: (slash :: n) ++ rangle :: s)) =
        langle :: (slash :: n) ++ rangle :: s := by
      rw [skipWS_append hw]
      exact skipWS_langle _
    have hcd : (langle :: (slash :: n) ++ rangle :: s).take 9 ≠ bytes "<![CDATA[" := by
      intro he
      have h1 := congrArg (·[1]?) he
      simp only [List.cons_append, List.take_succ_cons, List.getElem?_cons_succ,
        List.getElem?_cons_zero] at h1
      exact absurd h1 (by decide)
    have hval : readValue v = unquote [] := by
      rw [readValue, show skipWS v = [] from List.dropWhile_eq_nil_iff.mpr hw]
      rfl
    rw [parse_open hn _ (by rw [hskip]; simp) (by rw [hskip]; exact hcd), hskip, hval]
    simp only [List.cons_append, List.head?_cons, if_true, parseChildren]
    have htag' := htag
    simp only [List.cons_append] at htag'
    simp only [htag', List.head?_cons, if_true, closes_ident hn, unquote_ident hn,
      mkLeaf_ident hn]
    simp
  · obtain ⟨c, t, hct⟩ : ∃ c t, skipWS v = c :: t := by
      cases h : skipWS v with
      | nil =>
        exact absurd (fun c hc => by simpa using List.dropWhile_eq_nil_iff.mp h c hc) hw
      | cons c t => exact ⟨c, t, rfl⟩
    have hskip : skipWS (v ++ (langle :: (slash :: n) ++ rangle :: s)) =
        (c :: t) ++ (langle :: (slash :: n) ++ rangle :: s) := by
      rw [← hct]
      unfold skipWS at hct ⊢
      rw [List.dropWhile_append, hct]
      simp
    have hl : langle ∉ c :: t := fun hm => hv ((skipWS_suffix v).subset (hct ▸ hm))
    have hcne : c ≠ langle := fun he => hl (by simp [he])
    have hcd : ((c :: t) ++ (langle :: (slash :: n) ++ rangle :: s)).take 9 ≠
        bytes "<![CDATA[" := by
      intro he
      have h0 := congrArg (·[0]?) he
      simp only [List.cons_append, List.take_succ_cons, List.getElem?_cons_zero] at h0
      exact hcne (by simpa [bytes] using h0)
    obtain ⟨h1, -⟩ := takeWhile_ne_cons hl ((slash :: n) ++ rangle :: s)
    rw [parse_open hn _ (by rw [hskip]; simp) (by rw [hskip]; exact hcd), hskip, readValue, hct]
    simp only [List.cons_append] at h1 htag ⊢
    simp only [h1, List.head?_cons, Option.some.injEq, hcne, if_false]
    rw [← List.cons_append, List.drop_left]
    simp [htag, closes_ident hn, mkLeaf_ident hn]

/-- An element whose text ends before its closing tag is not read. -/
theorem parse_cut {n v : Str} (hn : Ident n) (hv : langle ∉ v) (fuel : ℕ) :
    parse (fuel + 1) (langle :: n ++ rangle :: v) = .ok (none, []) := by
  by_cases hs : skipWS v = []
  · rw [parse, openTag_ident hn]
    simp [not_closing hn, hs]
  · have hl : langle ∉ skipWS v := fun hm => hv ((skipWS_suffix v).subset hm)
    have hhead : (skipWS v).head? ≠ some langle := fun he =>
      hl (List.mem_of_mem_head? (by simp [he]))
    have hcd : (skipWS v).take 9 ≠ bytes "<![CDATA[" := by
      intro he
      exact hl (List.mem_of_mem_take (i := 9) (by rw [he]; decide))
    have ht : (skipWS v).takeWhile (· ≠ langle) = skipWS v :=
      List.takeWhile_eq_self_iff.mpr fun c hc => by
        simpa using ne_of_mem_of_not_mem hc hl
    rw [parse_open hn _ hs hcd, if_neg hhead, ht, List.drop_length]

def elements (items : List (Str × Str × Str)) (s : Str) : Str :=
  items.foldr (fun i t => element i.1 i.2.1 ++ i.2.2 ++ t) s

theorem head_elements (items : List (Str × Str × Str)) {s : Str} (hs : s.head? = some langle) :
    (elements items s).head? = some langle := by
  cases items with
  | nil => exact hs
  | cons i items => rfl

theorem skipWS_of_head {s : Str} (hs : s.head? = some langle) : skipWS s = s := by
  cases s with
  | nil => rfl
  | cons c t =>
    obtain rfl := Option.some.inj hs
    exact skipWS_langle t

theorem parseChildren_element {n v ws s : Str} (hn : Ident n) (hv : langle ∉ v)
    (hws : ∀ c ∈ ws, isspace c = true) (fuel : ℕ) (tag tagname : Str)
    (p : Option (List XmlNode)) (hs : (skipWS s).head? = some langle) :
    parseChildren (fuel + 3) tag tagname p (element n v ++ ws ++ s) =
      parseChildren (fuel + 2) tag tagname (some (p.getD [] ++ [.leaf n [] (readValue v)]))
        (skipWS s) := by
  have hr : rangle ∉ n := hn.not_mem (by decide) (by decide)
  have hhead : n.head? ≠ some slash := fun he =>
    hn.not_mem (c := slash) (by decide) (by decide) (List.mem_of_mem_head? (by simp [he]))
  have htext : element n v ++ ws ++ s =
      langle :: n ++ rangle :: (v ++ langle :: slash :: n ++ [rangle] ++ ws ++ s) := by
    simp [element]
  have hp := parse_element hn hv fuel (ws ++ s)
  rw [parseChildren]
  have htag : parseTag (element n v ++ ws ++ s) =
      (n, v ++ langle :: slash :: n ++ [rangle] ++ ws ++ s) := by
    rw [htext, parseTag_cons hr]
  rw [← List.append_assoc] at hp
  simp only [htag, if_neg hn.1, if_neg hhead, hp, skipWS_append hws, hs]
  simp

def leavesOf (items : List (Str × Str × Str)) : List XmlNode :=
  items.map fun i => .leaf i.1 [] (readValue i.2.1)

/-- What the children loop makes of complete elements: one leaf each. -/
theorem parseChildren_elements {items : List (Str × Str × Str)}
    (h : ∀ i ∈ items, Ident i.1 ∧ langle ∉ i.2.1 ∧ ∀ c ∈ i.2.2, isspace c = true) (s : Str)
    (hs : s.head? = some langle) (fuel : ℕ) (tag tagname : Str) (p : Option (List XmlNode)) :
    parseChildren (fuel + 2 + items.length) tag tagname p (elements items s) =
      parseChildren (fuel + 2) tag tagname
        (if items = [] then p else some (p.getD [] ++ leavesOf items)) s := by
  induction items generalizing p with
  | nil => rfl
  | cons i items ih =>
    obtain ⟨hi, hiv, hiw⟩ := h i (by simp)
    have hrest := head_elements items hs
    have hskip := skipWS_of_head hrest
    have hstep := parseChildren_element hi hiv hiw (fuel + items.length) tag tagname p
      (s := elements items s) (by rw [hskip, hrest])
    have hrun := ih (fun j hj => h j (by simp [hj]))
      (some (p.getD [] ++ [.leaf i.1 [] (readValue i.2.1)]))
    have hf : fuel + 2 + (i :: items).length = fuel + items.length + 3 := by
      simp only [List.length_cons]
      omega
    have hf' : fuel + 2 + items.length = fuel + items.length + 2 := by omega
    have hcons : elements (i :: items) s = element i.1 i.2.1 ++ i.2.2 ++ elements items s := rfl
    rw [hskip, ← hf'] at hstep
    rw [hf, hcons, hstep, hrun]
    rw [if_neg (List.cons_ne_nil i items)]
    by_cases h0 : items = []
    · subst h0
      rfl
    · rw [if_neg h0]
      simp [leavesOf]

/-- An opening tag followed by another one starts the loop over the children. -/
theorem parse_children {n ws t : Str} (hn : Ident n) (hws : ∀ c ∈ ws, isspace c = true)
    (ht : t.head? = some langle) (hc : t[1]? ≠ some 33) (fuel : ℕ) :
    parse (fuel + 1) (langle :: n ++ rangle :: (ws ++ t)) = parseChildren fuel n n none t := by
  have hskip : skipWS (ws ++ t) = t := by rw [skipWS_append hws, skipWS_of_head ht]
  have hne : t ≠ [] := by
    rintro rfl
    simp at ht
  have hcd : t.take 9 ≠ bytes "<![CDATA[" := by
    intro he
    have h1 := congrArg (·[1]?) he
    simp only [List.getElem?_take_of_lt (show 1 < 9 by omega)] at h1
    exact hc (by rw [h1]; decide)
  rw [parse_open hn _ (by rw [hskip]; exact hne) (by rw [hskip]; exact hcd), hskip, if_pos ht]

theorem second_element {items : List (Str × Str × Str)} {s : Str}
    (h : ∀ i ∈ items, Ident i.1) (hs : s[1]? ≠ some 33) : (elements items s)[1]? ≠ some 33 := by
  cases items with
  | nil => exact hs
  | cons i items =>
    have hi := h i (by simp)
    obtain ⟨c, t, hc⟩ := List.exists_cons_of_ne_nil hi.1
    have h33 : (33 : Byte) ∉ i.1 := hi.not_mem (by decide) (by decide)
    have hne : c ≠ 33 := fun he => h33 (by simp [hc, he])
    simp [elements, element, hc, hne]

def closing (n s : Str) : Str := langle :: (slash :: n) ++ rangle :: s

theorem parseChildren_closing {n : Str} (hn : Ident n) (fuel : ℕ) (tag : Str)
    (children : List XmlNode) (s : Str) :
    parseChildren (fuel + 1) tag n (some children) (closing n s) =
      .ok (some (mkBranch (unquote tag) children), s) := by
  have hr : rangle ∉ slash :: n := by
    simpa using ⟨by decide, hn.not_mem (c := rangle) (by decide) (by decide)⟩
  rw [parseChildren, closing, parseTag_cons hr]
  simp [closes_ident hn]

/-- An element with elements inside is read back as a branch of leaves. -/
theorem parse_tree {n ws : Str} {items : List (Str × Str × Str)} (hn : Ident n)
    (hws : ∀ c ∈ ws, isspace c = true) (hne : items ≠ [])
    (h : ∀ i ∈ items, Ident i.1 ∧ langle ∉ i.2.1 ∧ ∀ c ∈ i.2.2, isspace c = true)
    (fuel : ℕ) (hf : items.length + 3 ≤ fuel) (s : Str) :
    parse fuel (langle :: n ++ rangle :: (ws ++ elements items (closing n s))) =
      .ok (some (.branch n [] (leavesOf items)), s) := by
  obtain ⟨fuel, rfl⟩ : ∃ k, fuel = k + 2 + items.length + 1 := ⟨fuel - (items.length + 3), by omega⟩
  have hrun := parseChildren_elements h (closing n s) rfl fuel n n none
  have hclose : (closing n s)[1]? ≠ some 33 := by
    simp [closing]
    decide
  rw [parse_children hn hws (head_elements _ rfl) (second_element (fun i hi => (h i hi).1) hclose),
    hrun, if_neg hne]
  show parseChildren (fuel + 1 + 1) n n (some (leavesOf items)) (closing n s) = _
  rw [parseChildren_closing hn, unquote_ident hn, mkBranch, parseAttr_ident hn]

theorem parse_tree_empty {n ws : Str} (hn : Ident n) (hws : ∀ c ∈ ws, isspace c = true)
    (fuel : ℕ) (s : Str) :
    ∃ val, parse (fuel + 2) (langle :: n ++ rangle :: (ws ++ closing n s)) =
      .ok (some (.leaf n [] val), s) := by
  have hl : langle ∉ ws := fun hm => absurd (hws langle hm) (by decide)
  have hp := parse_element hn hl fuel s
  refine ⟨readValue ws, ?_⟩
  rw [← hp]
  simp [element, closing]

theorem parse_tree_cut {n ws m v : Str} {items : List (Str × Str × Str)} (hn : Ident n)
    (hws : ∀ c ∈ ws, isspace c = true) (hm : Ident m) (hv : langle ∉ v)
    (h : ∀ i ∈ items, Ident i.1 ∧ langle ∉ i.2.1 ∧ ∀ c ∈ i.2.2, isspace c = true)
    (fuel : ℕ) (hf : items.length + 3 ≤ fuel) :
    parse fuel (langle :: n ++ rangle :: (ws ++ elements items (langle :: m ++ rangle :: v))) =
      .ok (none, []) := by
  obtain ⟨fuel, rfl⟩ : ∃ k, fuel = k + 2 + items.length + 1 := ⟨fuel - (items.length + 3), by omega⟩
  have hrun := parseChildren_elements h (langle :: m ++ rangle :: v) rfl fuel n n none
  have hr : rangle ∉ m := hm.not_mem (by decide) (by decide)
  have hhead : ∀ c : Byte, isalnum c = false → c ≠ 95 → m.head? ≠ some c := fun c h1 h2 he =>
    hm.not_mem h1 h2 (List.mem_of_mem_head? (by simp [he]))
  have hopen : (langle :: m ++ rangle :: v)[1]? ≠ some 33 := by
    obtain ⟨c, t, hc⟩ := List.exists_cons_of_ne_nil hm.1
    have hne : c ≠ 33 := fun he => hhead 33 (by decide) (by decide) (by simp [hc, he])
    simp [hc, hne]
  rw [parse_children hn hws (head_elements _ rfl) (second_element (fun i hi => (h i hi).1) hopen),
    hrun, parseChildren]
  simp only [parseTag_cons hr, if_neg hm.1, if_neg (hhead slash (by decide) (by decide)),
    parse_cut hm hv]
  simp [skipWS]

end CenterIM.XmlTree
