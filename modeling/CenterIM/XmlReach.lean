import CenterIM.XmlTree
import Mathlib.Logic.Relation

/-!
# How far the XML parser comes

The place of the parser in its text depends on how many elements are open, and not on their names
or on what is made of them. The only place where it looks behind the end of the text is a `CDATA`
section that has no text after it.
-/
namespace CenterIM.XmlReach
open ByteText Decimal StrText XmlTree

/-- In front of a node, in an element behind its opening tag, at a tag inside it, behind a node,
and at the end of the text in a `CDATA` section. -/
inductive Place
  | node | contents | children | behind | unclosed
  deriving DecidableEq

structure Reader where
  place : Place
  depth : ℕ
  rest : Str

/-- The text at the start of an element, and the text behind a `CDATA` section in front. -/
def cdataOf (s : Str) : Str × Str :=
  if s.take 9 = bytes "<![CDATA[" then cdataLoop [] [] (s.drop 9) else ([], s)

def step : Reader → Option Reader
  | ⟨.node, n, s⟩ =>
    match openTag (s.length + 1) s with
    | (none, s) => some ⟨.behind, n, s⟩
    | (some tag, s) =>
      if tag.getLast? = some slash then some ⟨.behind, n, s⟩
      else if skipWS s = [] then some ⟨.behind, n, []⟩
      else some ⟨.contents, n, skipWS s⟩
  | ⟨.contents, n, s⟩ =>
    match cdataOf s with
    | (_, []) => some ⟨.unclosed, n, []⟩
    | (cdata, c :: s) =>
      if c = langle ∧ cdata = [] then some ⟨.children, n, c :: s⟩
      else some ⟨.behind, n, (parseTag ((c :: s).dropWhile (· ≠ langle))).2⟩
  | ⟨.children, n, s⟩ =>
    if (parseTag s).1 = [] ∨ (parseTag s).1.head? = some slash then some ⟨.behind, n, (parseTag s).2⟩
    else some ⟨.node, n + 1, s⟩
  | ⟨.behind, n + 1, s⟩ =>
    if (skipWS s).head? = some langle then some ⟨.children, n, skipWS s⟩
    else some ⟨.behind, n, skipWS s⟩
  | ⟨.behind, 0, _⟩ => none
  | ⟨.unclosed, _, _⟩ => none

/-- The parser comes to a `CDATA` section that has no text after it. -/
def Dangles (r : Reader) : Prop :=
  ∃ t, Relation.ReflTransGen (fun a b => step a = some b) r t ∧ t.place = .unclosed

section Steps

variable {r r' : Reader}

theorem step_unclosed (h : r.place = .unclosed) : step r = none := by
  obtain ⟨place, n, s⟩ := r
  cases h
  rfl

theorem dangles_step (h : step r = some r') : Dangles r ↔ Dangles r' := by
  constructor
  · intro ⟨t, hrun, ht⟩
    rcases hrun.cases_head with rfl | ⟨r'', hstep, hrun⟩
    · rw [step_unclosed ht] at h
      cases h
    · obtain rfl := Option.some.inj (h.symm.trans hstep)
      exact ⟨t, hrun, ht⟩
  · intro ⟨t, hrun, ht⟩
    exact ⟨t, hrun.head h, ht⟩

theorem dangles_none (h : step r = none) : Dangles r ↔ r.place = .unclosed := by
  constructor
  · intro ⟨t, hrun, ht⟩
    rcases hrun.cases_head with rfl | ⟨r', hstep, -⟩
    · exact ht
    · rw [h] at hstep
      cases hstep
  · exact fun hp => ⟨r, .refl, hp⟩

theorem not_dangles_end (s : Str) : ¬ Dangles ⟨.behind, 0, s⟩ := by
  rw [dangles_none rfl]
  exact nofun

end Steps

section Length

variable {s : Str}

theorem skipWS_length (s : Str) : (skipWS s).length ≤ s.length := (skipWS_suffix s).length_le

theorem parseTag_length (s : Str) : (parseTag s).2.length ≤ s.length := by
  cases s with
  | nil => exact le_rfl
  | cons c s =>
    rw [parseTag]
    split_ifs
    · exact le_rfl
    · have hlen := (List.dropWhile_suffix (l := s) (· ≠ rangle)).length_le
      cases h : s.dropWhile (· ≠ rangle) with
      | nil => exact Nat.zero_le _
      | cons d rest =>
        rw [h, List.length_cons] at hlen
        rw [List.length_cons]
        change rest.length ≤ _
        omega

theorem parseTag_length_lt (h : s.head? = some langle) : (parseTag s).2.length < s.length := by
  cases s with
  | nil => cases h
  | cons c s =>
    obtain rfl := Option.some.inj h
    have hlen := (List.dropWhile_suffix (l := s) (· ≠ rangle)).length_le
    rw [parseTag, if_neg (not_not.mpr rfl)]
    cases h : s.dropWhile (· ≠ rangle) with
    | nil => exact Nat.succ_pos _
    | cons d rest =>
      rw [h, List.length_cons] at hlen
      rw [List.length_cons]
      change rest.length < _
      omega

theorem parseTag_eq (h : (parseTag s).1 ≠ []) :
    s = langle :: (parseTag s).1 ++ rangle :: (parseTag s).2 := by
  cases s with
  | nil => exact absurd rfl h
  | cons c s =>
    by_cases hc : c = langle
    · subst hc
      rw [parseTag, if_neg (not_not.mpr rfl)] at h ⊢
      cases hd : s.dropWhile (· ≠ rangle) with
      | nil =>
        rw [hd] at h
        exact absurd rfl h
      | cons d rest =>
        have hs := List.takeWhile_append_dropWhile (p := (· ≠ rangle)) (l := s)
        have hr : d = rangle := by
          have hnot := List.head?_dropWhile_not (· ≠ rangle) s
          rw [hd] at hnot
          simpa using hnot
        rw [hd, hr] at hs
        exact congrArg (langle :: ·) hs.symm
    · rw [parseTag, if_pos hc] at h
      exact absurd rfl h

theorem head_of_parseTag (h : (parseTag s).1 ≠ []) : s.head? = some langle := by
  rw [parseTag_eq h]
  rfl

theorem parseTag_length_tag (h : (parseTag s).1 ≠ []) : (parseTag s).2.length + 2 ≤ s.length := by
  have hlen := congrArg List.length (parseTag_eq h)
  rw [List.length_append, List.length_cons, List.length_cons] at hlen
  omega

theorem openTag_length (n : ℕ) (s : Str) : (openTag n s).2.length ≤ s.length := by
  induction n generalizing s with
  | zero => exact le_rfl
  | succ n ih =>
    have hskip := skipWS_length s
    have htag := parseTag_length (skipWS s)
    rw [openTag]
    dsimp only
    split_ifs
    · exact hskip
    · exact htag.trans hskip
    · exact (ih _).trans (htag.trans hskip)
    · exact htag.trans hskip

theorem openTag_length_lt (n : ℕ) (h : s.head? = some langle) :
    (openTag (n + 1) s).2.length < s.length := by
  have htag := parseTag_length_lt h
  rw [openTag, skipWS_of_head h]
  dsimp only
  rw [if_neg (not_not.mpr h)]
  split_ifs
  · exact htag
  · exact (openTag_length n _).trans_lt htag
  · exact htag

theorem openTag_length_tag {n : ℕ} {tag t : Str} (h : openTag n s = (some tag, t)) :
    t.length + 2 ≤ s.length := by
  induction n generalizing s with
  | zero => cases h
  | succ n ih =>
    have hskip := skipWS_length s
    rw [openTag] at h
    dsimp only at h
    split_ifs at h with h1 h2 h3
    · cases h
    · cases h
    · have hlen := ih h
      have htag := parseTag_length (skipWS s)
      omega
    · have hlen := parseTag_length_tag (not_or.mp h2).1
      rw [(Prod.mk.inj h).2] at hlen
      omega

theorem cdataLoop_length (cdata endtag s : Str) : (cdataLoop cdata endtag s).2.length ≤ s.length := by
  induction s generalizing cdata endtag with
  | nil => exact le_rfl
  | cons c s ih =>
    rw [cdataLoop]
    have hcons : ∀ cdata endtag, (cdataLoop cdata endtag s).2.length ≤ (c :: s).length :=
      fun cdata endtag => (ih cdata endtag).trans (Nat.le_succ _)
    dsimp only
    split_ifs
    · exact le_rfl
    all_goals exact hcons _ _

theorem cdataOf_length (s : Str) : (cdataOf s).2.length ≤ s.length := by
  rw [cdataOf]
  split_ifs
  · exact (cdataLoop_length _ _ _).trans (by simp)
  · exact le_rfl

end Length

section Parse

variable {s t tag : Str} {fuel : ℕ}

/-- What becomes of the parser after a node, or after an element, inside `n` others. -/
def Ends (n : ℕ) : Except Fault (Option XmlNode × Str) → Prop
  | .error _ => True
  | .ok (_, rest) => Dangles ⟨.behind, n, rest⟩

theorem drop_takeWhile (p : Byte → Bool) (s : Str) :
    s.drop (s.takeWhile p).length = s.dropWhile p := by
  conv_lhs => arg 2; rw [← List.takeWhile_append_dropWhile (p := p) (l := s)]
  exact List.drop_left

theorem parse_null (h : openTag (s.length + 1) s = (none, t)) : parse (fuel + 1) s = .ok (none, t) := by
  rw [parse, h]

theorem parse_closed (h : openTag (s.length + 1) s = (some tag, t)) (hs : tag.getLast? = some slash) :
    parse (fuel + 1) s = .ok (some (mkLeaf (unquote tag.dropLast) []), t) := by
  rw [parse, h]
  exact if_pos hs

theorem parse_end (h : openTag (s.length + 1) s = (some tag, t)) (hs : tag.getLast? ≠ some slash)
    (ht : skipWS t = []) : parse (fuel + 1) s = .ok (none, []) := by
  rw [parse, h]
  dsimp only
  rw [if_neg hs, if_pos ht, ht]

def nameOf (tag : Str) : Str := tag.takeWhile fun c => !decide (c ∈ wordDelim)

def parseText (tag cdata s : Str) : Except Fault (Option XmlNode × Str) :=
  let value := s.takeWhile (· ≠ langle)
  match s.dropWhile (· ≠ langle) with
  | [] => .ok (none, [])
  | rest =>
    if (parseTag rest).1.head? ≠ some slash then .ok (none, (parseTag rest).2)
    else if closes (parseTag rest).1 (nameOf tag) then
      .ok (some (mkLeaf (unquote tag) (unquote (if value = [] then cdata else value))),
        (parseTag rest).2)
    else .ok (none, (parseTag rest).2)

theorem parse_contents (h : openTag (s.length + 1) s = (some tag, t))
    (hs : tag.getLast? ≠ some slash) (ht : skipWS t ≠ []) :
    parse (fuel + 1) s =
      match cdataOf (skipWS t) with
      | (_, []) => .error .pastEnd
      | (cdata, c :: u) =>
        if c = langle ∧ cdata = [] then parseChildren fuel tag (nameOf tag) none (c :: u)
        else parseText tag cdata (c :: u) := by
  rw [parse, h]
  dsimp only
  rw [if_neg hs, if_neg ht, cdataOf]
  generalize (if (skipWS t).take 9 = bytes "<![CDATA[" then cdataLoop [] [] ((skipWS t).drop 9)
    else ([], skipWS t)) = r
  obtain ⟨cdata, _ | ⟨c, u⟩⟩ := r
  · rfl
  · dsimp only
    rw [drop_takeWhile]
    rfl

/-- The text of an element without children is passed up to the end of the next tag. -/
theorem parseText_rest (tag cdata s : Str) :
    ∃ c, parseText tag cdata s = .ok (c, (parseTag (s.dropWhile (· ≠ langle))).2) := by
  rw [parseText]
  cases s.dropWhile (· ≠ langle) with
  | nil => exact ⟨_, rfl⟩
  | cons d v =>
    dsimp only
    split_ifs
    all_goals exact ⟨_, rfl⟩

theorem parseChildren_tag (h : (parseTag s).1 = [] ∨ (parseTag s).1.head? = some slash)
    (name : Str) (p : Option (List XmlNode)) :
    ∃ c, parseChildren (fuel + 1) tag name p s = .ok (c, (parseTag s).2) := by
  rw [parseChildren]
  dsimp only
  by_cases hnil : (parseTag s).1 = []
  · rw [if_pos hnil]
    exact ⟨_, rfl⟩
  · rw [if_neg hnil, if_pos (h.resolve_left hnil)]
    split_ifs
    · cases p with
      | none => exact ⟨_, rfl⟩
      | some children => exact ⟨_, rfl⟩
    · exact ⟨_, rfl⟩

theorem parseChildren_node (h : ¬ ((parseTag s).1 = [] ∨ (parseTag s).1.head? = some slash))
    (name : Str) (p : Option (List XmlNode)) :
    parseChildren (fuel + 1) tag name p s =
      match parse fuel s with
      | .error e => .error e
      | .ok (c, s) =>
        if (skipWS s).head? ≠ some langle then .ok (none, skipWS s)
        else parseChildren fuel tag name (some (p.getD [] ++ c.toList)) (skipWS s) := by
  rw [not_or] at h
  rw [parseChildren]
  dsimp only
  exact (if_neg h.1).trans (if_neg h.2)

end Parse

theorem parse_length (fuel : ℕ) :
    (∀ s c r, parse fuel s = .ok (c, r) → r.length ≤ s.length ∧
      (0 < fuel → s.head? = some langle → r.length < s.length)) ∧
    ∀ tag name p s c r, parseChildren fuel tag name p s = .ok (c, r) → r.length ≤ s.length := by
  induction fuel with
  | zero =>
    refine ⟨fun s c r h => ?_, fun tag name p s c r h => ?_⟩
    · rw [parse] at h
      rw [(Prod.mk.inj (Except.ok.inj h)).2]
      exact ⟨le_rfl, fun h0 => absurd h0 (lt_irrefl 0)⟩
    · rw [parseChildren] at h
      rw [(Prod.mk.inj (Except.ok.inj h)).2]
  | succ fuel ih =>
    obtain ⟨ihnode, ihchildren⟩ := ih
    constructor
    · intro s c r h
      have hopen := openTag_length (s.length + 1) s
      have hlt := openTag_length_lt (s := s) s.length
      suffices hr : r.length ≤ (openTag (s.length + 1) s).2.length from
        ⟨hr.trans hopen, fun _ hs => hr.trans_lt (hlt hs)⟩
      rcases ht : openTag (s.length + 1) s with ⟨_ | tag, t⟩
      · rw [parse_null ht] at h
        rw [(Prod.mk.inj (Except.ok.inj h)).2]
      · have hskip := skipWS_length t
        by_cases hs : tag.getLast? = some slash
        · rw [parse_closed ht hs] at h
          rw [(Prod.mk.inj (Except.ok.inj h)).2]
        · by_cases hnil : skipWS t = []
          · rw [parse_end ht hs hnil] at h
            rw [← (Prod.mk.inj (Except.ok.inj h)).2]
            exact Nat.zero_le _
          · rw [parse_contents ht hs hnil] at h
            have hcdata := cdataOf_length (skipWS t)
            rcases hu : cdataOf (skipWS t) with ⟨cdata, _ | ⟨d, u⟩⟩
            · rw [hu] at h
              cases h
            · rw [hu] at h hcdata
              dsimp only at h hcdata ⊢
              split_ifs at h
              · have := ihchildren _ _ _ _ _ _ h
                omega
              · obtain ⟨c', hc⟩ := parseText_rest tag cdata (d :: u)
                have hdrop := (List.dropWhile_suffix (l := d :: u) (· ≠ langle)).length_le
                have htag := parseTag_length ((d :: u).dropWhile (· ≠ langle))
                rw [(Prod.mk.inj (Except.ok.inj (h.symm.trans hc))).2]
                omega
    · intro tag name p s c r h
      by_cases htag : (parseTag s).1 = [] ∨ (parseTag s).1.head? = some slash
      · obtain ⟨c', hc⟩ := @parseChildren_tag s tag fuel htag name p
        rw [h] at hc
        rw [(Prod.mk.inj (Except.ok.inj hc)).2]
        exact parseTag_length s
      · rw [parseChildren_node htag] at h
        cases hp : parse fuel s with
        | error e =>
          rw [hp] at h
          cases h
        | ok cr =>
          obtain ⟨c', r'⟩ := cr
          have hnode := (ihnode s c' r' hp).1
          have hskip := skipWS_length r'
          rw [hp] at h
          dsimp only at h
          split_ifs at h
          · rw [← (Prod.mk.inj (Except.ok.inj h)).2]
            omega
          · have := ihchildren _ _ _ _ _ _ h
            omega

theorem dangles_contents {n fuel : ℕ} {s tag : Str}
    (h : ∀ u : Str, u.length ≤ s.length →
      (Dangles ⟨.children, n, u⟩ ↔ Ends n (parseChildren fuel tag (nameOf tag) none u))) :
    Dangles ⟨.contents, n, s⟩ ↔ Ends n
      (match cdataOf s with
      | (_, []) => .error .pastEnd
      | (cdata, c :: u) =>
        if c = langle ∧ cdata = [] then parseChildren fuel tag (nameOf tag) none (c :: u)
        else parseText tag cdata (c :: u)) := by
  have hstep : step ⟨.contents, n, s⟩ = match cdataOf s with
    | (_, []) => some ⟨.unclosed, n, []⟩
    | (cdata, c :: s) =>
      if c = langle ∧ cdata = [] then some ⟨.children, n, c :: s⟩
      else some ⟨.behind, n, (parseTag ((c :: s).dropWhile (· ≠ langle))).2⟩ := rfl
  have hlen := cdataOf_length s
  rcases hu : cdataOf s with ⟨cdata, _ | ⟨c, u⟩⟩
  · rw [hu] at hstep
    rw [dangles_step hstep, dangles_none rfl]
    exact iff_of_true rfl trivial
  · rw [hu] at hstep hlen
    dsimp only at hstep hlen ⊢
    by_cases hc : c = langle ∧ cdata = []
    · rw [if_pos hc] at hstep
      rw [dangles_step hstep, if_pos hc, h _ hlen]
    · rw [if_neg hc] at hstep
      obtain ⟨x, hx⟩ := parseText_rest tag cdata (c :: u)
      rw [dangles_step hstep, if_neg hc, hx]
      rfl

/-- The parser looks behind the end of the text exactly when it comes to an unclosed section, at
the node it is called for or when it goes on behind it. -/
theorem dangles_parse (fuel : ℕ) :
    (∀ s n, s.length < fuel → (Dangles ⟨.node, n, s⟩ ↔ Ends n (parse fuel s))) ∧
      ∀ tag name p s n, s.length + 1 < fuel →
        (Dangles ⟨.children, n, s⟩ ↔ Ends n (parseChildren fuel tag name p s)) := by
  induction fuel with
  | zero => exact ⟨fun s n h => absurd h (Nat.not_lt_zero _), fun _ _ _ s n h => absurd h (Nat.not_lt_zero _)⟩
  | succ fuel ih =>
    obtain ⟨ihnode, ihchildren⟩ := ih
    constructor
    · intro s n hn
      have hstep : step ⟨.node, n, s⟩ = match openTag (s.length + 1) s with
        | (none, s) => some ⟨.behind, n, s⟩
        | (some tag, s) =>
          if tag.getLast? = some slash then some ⟨.behind, n, s⟩
          else if skipWS s = [] then some ⟨.behind, n, []⟩
          else some ⟨.contents, n, skipWS s⟩ := rfl
      have hlen := openTag_length (s.length + 1) s
      have hlt := openTag_length_lt (s := s) s.length
      rcases ht : openTag (s.length + 1) s with ⟨_ | tag, t⟩
      · rw [ht] at hstep
        rw [dangles_step hstep, parse_null ht]
        rfl
      · rw [ht] at hstep hlen
        dsimp only at hstep hlen
        by_cases hs : tag.getLast? = some slash
        · rw [if_pos hs] at hstep
          rw [dangles_step hstep, parse_closed ht hs]
          rfl
        · rw [if_neg hs] at hstep
          by_cases hnil : skipWS t = []
          · rw [if_pos hnil] at hstep
            rw [dangles_step hstep, parse_end ht hs hnil]
            rfl
          · rw [if_neg hnil] at hstep
            have htag := openTag_length_tag ht
            have hskip := skipWS_length t
            rw [dangles_step hstep, parse_contents ht hs hnil]
            exact dangles_contents fun u hu => ihchildren _ _ _ u n (by omega)
    · intro tag name p s n hn
      by_cases htag : (parseTag s).1 = [] ∨ (parseTag s).1.head? = some slash
      · have hstep : step ⟨.children, n, s⟩ = some ⟨.behind, n, (parseTag s).2⟩ := if_pos htag
        obtain ⟨c, hc⟩ := @parseChildren_tag s tag fuel htag name p
        rw [dangles_step hstep, hc]
        rfl
      · have hstep : step ⟨.children, n, s⟩ = some ⟨.node, n + 1, s⟩ := if_neg htag
        have hhead : s.head? = some langle := head_of_parseTag (not_or.mp htag).1
        rw [dangles_step hstep, ihnode s (n + 1) (by omega), parseChildren_node htag]
        cases hp : parse fuel s with
        | error e => exact Iff.rfl
        | ok cr =>
          obtain ⟨c, r⟩ := cr
          have hr := ((parse_length fuel).1 s c r hp).2 (by omega) hhead
          have hskip := skipWS_length r
          change Dangles ⟨.behind, n + 1, r⟩ ↔ _
          dsimp only
          by_cases hl : (skipWS r).head? = some langle
          · have hnext : step ⟨.behind, n + 1, r⟩ = some ⟨.children, n, skipWS r⟩ := if_pos hl
            rw [dangles_step hnext, if_neg (not_not.mpr hl)]
            exact ihchildren _ _ _ _ n (by omega)
          · have hnext : step ⟨.behind, n + 1, r⟩ = some ⟨.behind, n, skipWS r⟩ := if_neg hl
            rw [dangles_step hnext, if_pos hl]
            rfl

/-- With enough fuel, the parser looks behind the end of its text exactly when it comes to an
unclosed section. -/
theorem parse_isOk_iff {fuel : ℕ} {s : Str} (h : s.length < fuel) :
    (∃ r, parse fuel s = .ok r) ↔ ¬ Dangles ⟨.node, 0, s⟩ := by
  rw [(dangles_parse fuel).1 s 0 h]
  cases parse fuel s with
  | error e => exact iff_of_false nofun (not_not.mpr trivial)
  | ok r => exact iff_of_true ⟨r, rfl⟩ (not_dangles_end _)

end CenterIM.XmlReach
