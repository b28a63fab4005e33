import CenterIM.RssFeed

/-!
# HTML escaping

`abstracthook::rushtmlconv`, which escapes a text for HTML and replaces the entities of an
HTML text. Escaping leaves `&lt;` and `&gt;` alone, so these two do not come back. Replacing
an entity takes away as many characters as its row says, which is right in every row but one.
-/
namespace CenterIM.HtmlEntities
open ByteText StrText RssFeed

/-- The escaping loop of `rushtmlconv`. An `&` that already begins `&lt;` or `&gt;` is kept. -/
def escapeLoop : Str → Str
  | [] => []
  | c :: s =>
    if c = 38 then
      if (c :: s).take 4 ≠ bytes "&lt;" ∧ (c :: s).take 4 ≠ bytes "&gt;" then
        bytes "&amp;" ++ escapeLoop s
      else c :: escapeLoop s
    else if c = 60 then bytes "&lt;" ++ escapeLoop s
    else if c = 62 then bytes "&gt;" ++ escapeLoop s
    else c :: escapeLoop s

/-- `abstracthook::rushtmlconv(tdir, text, rus)`. -/
def rushtmlconv (rusconv : Str → Str → Str) (tdir text : Str) (rus : Bool) : Str :=
  let r := if rus then rusconv tdir text else text
  if tdir = bytes "kw" ∨ tdir = bytes "ku" then escapeLoop r
  else if tdir = bytes "wk" ∨ tdir = bytes "uk" then entityLoop 0 r
  else r

/-- The conversion that changes no character. -/
def unconverted : Str → Str → Str := fun _ text => text

theorem rushtmlconv_escape {tdir : Str} (h : tdir ∈ [bytes "kw", bytes "ku"]) (text : Str)
    (rus : Bool) : rushtmlconv unconverted tdir text rus = escapeLoop text := by
  have hd : tdir = bytes "kw" ∨ tdir = bytes "ku" := by simpa using h
  simp [rushtmlconv, unconverted, hd]

theorem rushtmlconv_decode {tdir : Str} (h : tdir ∈ [bytes "wk", bytes "uk"]) (text : Str)
    (rus : Bool) : rushtmlconv unconverted tdir text rus = entityLoop 0 text := by
  have hd : tdir = bytes "wk" ∨ tdir = bytes "uk" := by simpa using h
  have hn : ¬ (tdir = bytes "kw" ∨ tdir = bytes "ku") := by
    rcases hd with rfl | rfl
    · decide
    · decide
  simp [rushtmlconv, unconverted, hd, hn]

theorem entityLoop_skip (k : ℕ) (s : Str) : entityLoop k s = entityLoop 0 (s.drop k) := by
  induction s generalizing k with
  | nil => simp [entityLoop]
  | cons c s ih =>
    cases k with
    | zero => rfl
    | succ k =>
      rw [entityLoop, List.drop_succ_cons]
      exact ih k

theorem entityLoop_char {c : Byte} (hc : c ≠ 38) (s : Str) :
    entityLoop 0 (c :: s) = c :: entityLoop 0 s := by
  rw [entityLoop, if_neg hc]

theorem entityLoop_text {t : Str} (ht : 38 ∉ t) (s : Str) :
    entityLoop 0 (t ++ s) = t ++ entityLoop 0 s := by
  induction t with
  | nil => rfl
  | cons c t ih =>
    simp only [List.mem_cons, not_or] at ht
    rw [List.cons_append, entityLoop_char (Ne.symm ht.1), ih ht.2, List.cons_append]

theorem names_apart : ∀ e ∈ entities, ∀ f ∈ entities, f.1 <+: e.1 → f = e := by
  decide

theorem find_entity {e : Str × ℕ × Str} (he : e ∈ entities) (s : Str) :
    (entities.find? fun f => f.1.isPrefixOf (e.1 ++ s)) = some e := by
  cases hf : entities.find? fun f => f.1.isPrefixOf (e.1 ++ s) with
  | none =>
    have hn := List.find?_eq_none.mp hf e he
    simp at hn
  | some f =>
    have hmem := List.mem_of_find?_eq_some hf
    have hp : f.1 <+: e.1 ++ s := by simpa using List.find?_some hf
    rcases List.prefix_or_prefix_of_prefix hp (List.prefix_append e.1 s) with h | h
    · rw [names_apart e he f hmem h]
    · rw [names_apart f hmem e he h]

theorem entityLoop_entity {e : Str × ℕ × Str} (he : e ∈ entities) (s : Str) :
    entityLoop 0 (38 :: (e.1 ++ s)) = e.2.2 ++ entityLoop 0 ((e.1 ++ s).drop (e.2.1 - 1)) := by
  rw [entityLoop, if_pos rfl, find_entity he]
  exact congrArg _ (entityLoop_skip _ _)

theorem entityLoop_right {e : Str × ℕ × Str} (he : e ∈ entities) (hl : e.2.1 - 1 = e.1.length)
    (s : Str) : entityLoop 0 (38 :: (e.1 ++ s)) = e.2.2 ++ entityLoop 0 s := by
  rw [entityLoop_entity he, hl, List.drop_left]

section RoundTrip

/-- The text with `<` and `>` in place of each `&lt;` and `&gt;`. -/
def angles : Str → Str
  | 38 :: 108 :: 116 :: 59 :: s => 60 :: angles s
  | 38 :: 103 :: 116 :: 59 :: s => 62 :: angles s
  | c :: s => c :: angles s
  | [] => []

theorem angle_codes : bytes "&lt;" = [38, 108, 116, 59] ∧ bytes "&gt;" = [38, 103, 116, 59] := by
  decide

theorem entityLoop_lt (s : Str) : entityLoop 0 (bytes "&lt;" ++ s) = 60 :: entityLoop 0 s :=
  @entityLoop_right (bytes "lt;", 4, bytes "<") (by simp [entities]) (by decide) s

theorem entityLoop_gt (s : Str) : entityLoop 0 (bytes "&gt;" ++ s) = 62 :: entityLoop 0 s :=
  @entityLoop_right (bytes "gt;", 4, bytes ">") (by simp [entities]) (by decide) s

theorem entityLoop_amp (s : Str) : entityLoop 0 (bytes "&amp;" ++ s) = 38 :: entityLoop 0 s :=
  @entityLoop_right (bytes "amp;", 5, bytes "&") (by simp [entities]) (by decide) s

theorem escapeLoop_char {c : Byte} (h1 : c ≠ 38) (h2 : c ≠ 60) (h3 : c ≠ 62) (s : Str) :
    escapeLoop (c :: s) = c :: escapeLoop s := by
  rw [escapeLoop, if_neg h1, if_neg h2, if_neg h3]

theorem escapeLoop_kept {x : Byte} (hx : x = 108 ∨ x = 103) (s : Str) :
    escapeLoop (38 :: x :: 116 :: 59 :: s) = [38, x, 116, 59] ++ escapeLoop s := by
  have hchars : x ≠ 38 ∧ x ≠ 60 ∧ x ≠ 62 := by
    rcases hx with rfl | rfl
    · decide
    · decide
  have hcode : ¬ ([38, x, 116, 59] ≠ bytes "&lt;" ∧ [38, x, 116, 59] ≠ bytes "&gt;") := by
    rcases hx with rfl | rfl
    · decide
    · decide
  rw [escapeLoop, if_pos rfl]
  refine (if_neg hcode).trans ?_
  rw [escapeLoop_char hchars.1 hchars.2.1 hchars.2.2,
    escapeLoop_char (by decide) (by decide) (by decide),
    escapeLoop_char (by decide) (by decide) (by decide)]
  rfl

/-- An `&` that begins neither of the two is escaped. -/
theorem escapeLoop_amp {s : Str} (hl : ∀ t, s ≠ 108 :: 116 :: 59 :: t)
    (hg : ∀ t, s ≠ 103 :: 116 :: 59 :: t) : escapeLoop (38 :: s) = bytes "&amp;" ++ escapeLoop s := by
  have hkept : ∀ {x : Byte}, (38 :: s).take 4 = [38, x, 116, 59] → ∃ t, s = x :: 116 :: 59 :: t := by
    intro x h
    refine ⟨s.drop 3, ?_⟩
    have h3 : s.take 3 = [x, 116, 59] := List.cons_inj_right _ |>.mp h
    calc s = s.take 3 ++ s.drop 3 := (List.take_append_drop 3 s).symm
      _ = x :: 116 :: 59 :: s.drop 3 := by rw [h3]; rfl
  rw [escapeLoop, if_pos rfl, if_pos]
  rw [angle_codes.1, angle_codes.2]
  constructor
  · intro h
    obtain ⟨t, ht⟩ := hkept h
    exact hl t ht
  · intro h
    obtain ⟨t, ht⟩ := hkept h
    exact hg t ht

theorem decode_escape (s : Str) : entityLoop 0 (escapeLoop s) = angles s := by
  fun_induction angles s with
  | case1 s ih =>
    rw [escapeLoop_kept (Or.inl rfl), ← angle_codes.1, entityLoop_lt, ih]
  | case2 s ih =>
    rw [escapeLoop_kept (Or.inr rfl), ← angle_codes.2, entityLoop_gt, ih]
  | case3 c s hl hg ih =>
    by_cases h38 : c = 38
    · subst h38
      rw [escapeLoop_amp (fun t ht => hl t rfl ht) (fun t ht => hg t rfl ht), entityLoop_amp, ih]
    by_cases h60 : c = 60
    · subst h60
      rw [escapeLoop, if_neg h38, if_pos rfl, entityLoop_lt, ih]
    by_cases h62 : c = 62
    · subst h62
      rw [escapeLoop, if_neg h38, if_neg h60, if_pos rfl, entityLoop_gt, ih]
    · rw [escapeLoop_char h38 h60 h62, entityLoop_char h38, ih]
  | case4 => rfl

theorem angles_length (s : Str) : (angles s).length ≤ s.length := by
  fun_induction angles s with
  | case1 s ih => simp only [List.length_cons]; omega
  | case2 s ih => simp only [List.length_cons]; omega
  | case3 c s _ _ ih => simp only [List.length_cons]; omega
  | case4 => exact le_rfl

theorem angles_shorter (a b c d e : Byte) (s : Str) : a :: angles s ≠ b :: c :: d :: e :: s := by
  intro h
  have hlen := angles_length s
  have heq := congrArg List.length h
  simp only [List.length_cons] at heq
  omega

theorem angles_eq_self_iff (s : Str) :
    angles s = s ↔ ¬ bytes "&lt;" <:+: s ∧ ¬ bytes "&gt;" <:+: s := by
  rw [angle_codes.1, angle_codes.2]
  fun_induction angles s with
  | case1 s ih =>
    refine iff_of_false (angles_shorter _ _ _ _ _ s) fun h => ?_
    exact h.1 (List.prefix_append [38, 108, 116, 59] s).isInfix
  | case2 s ih =>
    refine iff_of_false (angles_shorter _ _ _ _ _ s) fun h => ?_
    exact h.2 (List.prefix_append [38, 103, 116, 59] s).isInfix
  | case3 c s hl hg ih =>
    have hstart : ∀ {x : Byte}, [38, x, 116, 59] <+: c :: s →
        c = 38 ∧ ∃ t, s = x :: 116 :: 59 :: t := by
      rintro x ⟨t, ht⟩
      obtain ⟨hc, hs⟩ := List.cons_eq_cons.mp ht
      exact ⟨hc.symm, t, hs.symm⟩
    have hnl : ¬ [38, 108, 116, 59] <+: c :: s := fun h => by
      obtain ⟨hc, t, ht⟩ := hstart h
      exact hl t hc ht
    have hng : ¬ [38, 103, 116, 59] <+: c :: s := fun h => by
      obtain ⟨hc, t, ht⟩ := hstart h
      exact hg t hc ht
    rw [List.cons_inj_right, ih, List.infix_cons_iff, List.infix_cons_iff]
    simp only [hnl, hng, false_or]
  | case4 => simp

/-- What comes back from escaping a text and replacing the entities again: the text with `<`
and `>` for each `&lt;` and `&gt;` in it, so the same text exactly when it has neither. -/
theorem rushtmlconv_rushtmlconv {encode decode : Str} (he : encode ∈ [bytes "kw", bytes "ku"])
    (hd : decode ∈ [bytes "wk", bytes "uk"]) (text : Str) (rus rus' : Bool) :
    rushtmlconv unconverted decode (rushtmlconv unconverted encode text rus) rus' = angles text ∧
      (rushtmlconv unconverted decode (rushtmlconv unconverted encode text rus) rus' = text ↔
        ¬ bytes "&lt;" <:+: text ∧ ¬ bytes "&gt;" <:+: text) := by
  rw [rushtmlconv_escape he, rushtmlconv_decode hd, decode_escape]
  exact ⟨rfl, angles_eq_self_iff text⟩

theorem rushtmlconv_tags :
    rushtmlconv unconverted (bytes "wk")
        (rushtmlconv unconverted (bytes "kw") (bytes "a <b> & \"c\" &amp;") true) true =
      bytes "a <b> & \"c\" &amp;" := by
  have h := @rushtmlconv_rushtmlconv (bytes "kw") (bytes "wk") (by simp) (by simp)
    (bytes "a <b> & \"c\" &amp;") true true
  exact h.2.mpr (by decide)

/-- An `&lt;` that the user typed comes back as `<`. -/
theorem entity_lost :
    rushtmlconv unconverted (bytes "wk")
        (rushtmlconv unconverted (bytes "kw") (bytes "&lt;") true) true = bytes "<" ∧
      bytes "<" ≠ bytes "&lt;" := by
  decide

end RoundTrip

section Decoding

/-- A piece of an HTML text: one of the entities, or a text without an `&`. -/
inductive Piece
  | entity (e : {e // e ∈ entities})
  | text (t : {t : Str // 38 ∉ t})

def Piece.html : Piece → Str
  | .entity e => 38 :: e.1.1
  | .text t => t.1

def Piece.meaning : Piece → Str
  | .entity e => e.1.2.2
  | .text t => t.1

def html (ps : List Piece) : Str := ps.flatMap Piece.html

/-- What it stands for: the replacement of each entity, and the other pieces unchanged. -/
def meaning (ps : List Piece) : Str := ps.flatMap Piece.meaning

def copyRow : Str × ℕ × Str := (bytes "copy;", 8, bytes "(c)")

def copy : Piece := .entity ⟨copyRow, by simp [entities, copyRow]⟩

/-- No `&copy;` of the text has anything behind it. -/
def NothingBehind (ps : List Piece) : Prop :=
  ∀ before after, ps = before ++ copy :: after → html after = []

theorem entity_rows : ∀ e ∈ entities, e.2.1 - 1 = e.1.length ∨ e = copyRow := by
  decide

/-- The second letter of a name is never what its replacement begins with. -/
theorem entity_letters : ∀ e ∈ entities,
    38 ∉ e.1 ∧ 2 ≤ e.1.length ∧ e.1[1]? ≠ e.2.2.head? ∧ e.2.2 ≠ [] := by
  decide

theorem nothingBehind_nil : NothingBehind [] := fun before after he => by simp at he

theorem nothingBehind_cons (p : Piece) (ps : List Piece) :
    NothingBehind (p :: ps) ↔ (p = copy → html ps = []) ∧ NothingBehind ps := by
  constructor
  · intro h
    refine ⟨fun hp => h [] ps (by rw [hp]; rfl), fun before after he => ?_⟩
    exact h (p :: before) after (by rw [he]; rfl)
  · intro ⟨hp, h⟩ before after he
    cases before with
    | nil =>
      obtain ⟨hc, ht⟩ := List.cons_eq_cons.mp he
      exact ht ▸ hp hc
    | cons q before => exact h before after (List.cons_eq_cons.mp he).2

/-- A text of pieces is empty, begins with a plain character, or begins with an entity. -/
theorem html_cases (ps : List Piece) :
    (html ps = [] ∧ meaning ps = []) ∨
    (∃ c qs, c ≠ 38 ∧ html ps = c :: html qs ∧ meaning ps = c :: meaning qs) ∨
    ∃ e ∈ entities, ∃ qs, html ps = 38 :: (e.1 ++ html qs) ∧
      meaning ps = e.2.2 ++ meaning qs := by
  induction ps with
  | nil => exact Or.inl ⟨rfl, rfl⟩
  | cons p ps ih =>
    cases p with
    | entity e => exact Or.inr (Or.inr ⟨e.1, e.2, ps, rfl, rfl⟩)
    | text t =>
      obtain ⟨t, ht⟩ := t
      cases t with
      | nil => exact ih
      | cons c t =>
        simp only [List.mem_cons, not_or] at ht
        exact Or.inr (Or.inl ⟨c, .text ⟨t, ht.2⟩ :: ps, Ne.symm ht.1, rfl, rfl⟩)

/-- The row of `&copy;` takes two characters of what follows with it. -/
theorem entityLoop_copy (s : Str) :
    entityLoop 0 (38 :: (copyRow.1 ++ s)) = bytes "(c)" ++ entityLoop 0 (s.drop 2) := by
  have hl : copyRow.1.length = 5 := by decide
  rw [@entityLoop_entity copyRow (by simp [entities, copyRow])]
  have hd : (copyRow.1 ++ s).drop 7 = s.drop 2 := by
    rw [List.drop_append, hl, List.drop_eq_nil_of_le (by omega), List.nil_append]
  exact congrArg (fun r => bytes "(c)" ++ entityLoop 0 r) hd

/-- Up to its first `&copy;` a text is decoded right. -/
theorem decoded_or (ps : List Piece) : entityLoop 0 (html ps) = meaning ps ∨
    ∃ m r r', entityLoop 0 (html ps) = m ++ (bytes "(c)" ++ r) ∧
      meaning ps = m ++ (bytes "(c)" ++ r') := by
  have hstep : ∀ (a : Str) {p : Piece} {ps : List Piece}, meaning (p :: ps) = a ++ meaning ps →
      entityLoop 0 (html (p :: ps)) = a ++ entityLoop 0 (html ps) →
      (entityLoop 0 (html ps) = meaning ps ∨
        ∃ m r r', entityLoop 0 (html ps) = m ++ (bytes "(c)" ++ r) ∧
          meaning ps = m ++ (bytes "(c)" ++ r')) →
      entityLoop 0 (html (p :: ps)) = meaning (p :: ps) ∨
        ∃ m r r', entityLoop 0 (html (p :: ps)) = m ++ (bytes "(c)" ++ r) ∧
          meaning (p :: ps) = m ++ (bytes "(c)" ++ r') := by
    intro a p ps hm hd h
    rw [hm, hd]
    rcases h with h | ⟨m, r, r', h, h'⟩
    · exact Or.inl (congrArg _ h)
    · refine Or.inr ⟨a ++ m, r, r', ?_, ?_⟩
      · rw [h, List.append_assoc]
      · rw [h', List.append_assoc]
  induction ps with
  | nil => exact Or.inl rfl
  | cons p ps ih =>
    cases p with
    | text t => exact hstep t.1 rfl (entityLoop_text t.2 _) ih
    | entity e =>
      rcases entity_rows e.1 e.2 with hl | hc
      · exact hstep e.1.2.2 rfl (entityLoop_right e.2 hl _) ih
      · obtain ⟨e, he⟩ := e
        subst hc
        exact Or.inr ⟨[], _, meaning ps, entityLoop_copy _, rfl⟩

theorem decoded_ne {c d : Byte} (ps : List Piece) :
    entityLoop 0 (html ps) ≠ c :: d :: meaning ps := by
  intro h
  rcases decoded_or ps with he | ⟨m, r, r', he, hm⟩
  · have hlen := congrArg List.length (he.symm.trans h)
    simp only [List.length_cons] at hlen
    omega
  · have hparen : bytes "(c)" = [40, 99, 41] := by decide
    have hat := congrArg (·[m.length + 2]?) (he.symm.trans h)
    rw [hm, hparen] at hat
    simp at hat

/-- What `&copy;` takes with it is only right when there is nothing to take. -/
theorem decoded_drop_iff (ps : List Piece) :
    entityLoop 0 ((html ps).drop 2) = meaning ps ↔ html ps = [] := by
  have hname : ∀ e ∈ entities, ∃ a b n d m, e.1 = a :: b :: n ∧ e.2.2 = d :: m ∧ b ≠ d ∧
      38 ∉ b :: n ∧ 38 ∉ e.1 := by
    intro e he
    obtain ⟨hamp, hlen, hne, hr⟩ := entity_letters e he
    match hn : e.1, hm : e.2.2, hlen, hr with
    | a :: b :: n, d :: m, _, _ =>
      refine ⟨a, b, n, d, m, rfl, rfl, ?_, ?_, ?_⟩
      · simpa [hn, hm] using hne
      · exact fun h => hamp (hn ▸ List.mem_cons_of_mem _ h)
      · exact hn ▸ hamp
  rcases html_cases ps with ⟨hh, hm⟩ | ⟨c, qs, hc, hh, hm⟩ | ⟨e, he, qs, hh, hm⟩
  · rw [hh, hm]
    exact iff_of_true rfl rfl
  · refine iff_of_false ?_ (by simp [hh])
    rw [hh, hm, List.drop_succ_cons]
    rcases html_cases qs with ⟨hq, -⟩ | ⟨d, rs, -, hq, hqm⟩ | ⟨e, he, rs, hq, hqm⟩
    · simp [hq, entityLoop]
    · rw [hq, hqm]
      exact decoded_ne rs
    · obtain ⟨a, b, n, d, m, hn, hr, hbd, -, hamp⟩ := hname e he
      rw [hq, hqm, List.drop_succ_cons, List.drop_zero, entityLoop_text hamp, hn, hr]
      intro h
      exact hbd (List.cons_eq_cons.mp (List.cons_eq_cons.mp h).2).1
  · obtain ⟨a, b, n, d, m, hn, hr, hbd, hamp, -⟩ := hname e he
    refine iff_of_false ?_ (by simp [hh])
    rw [hh, hm, hn, hr]
    have hdrop : (38 :: (a :: b :: n ++ html qs)).drop 2 = (b :: n) ++ html qs := rfl
    rw [hdrop, entityLoop_text hamp]
    intro h
    exact hbd (List.cons_eq_cons.mp h).1

theorem decoded_iff (ps : List Piece) :
    entityLoop 0 (html ps) = meaning ps ↔ NothingBehind ps := by
  induction ps with
  | nil => exact iff_of_true rfl nothingBehind_nil
  | cons p ps ih =>
    rw [nothingBehind_cons]
    cases p with
    | text t =>
      have hd : entityLoop 0 (html (.text t :: ps)) = t.1 ++ entityLoop 0 (html ps) :=
        entityLoop_text t.2 _
      have hm : meaning (.text t :: ps) = t.1 ++ meaning ps := rfl
      rw [hd, hm, List.append_cancel_left_eq, ih]
      exact (and_iff_right nofun).symm
    | entity e =>
      rcases Decidable.em (e.1 = copyRow) with hc | hc
      · obtain ⟨e, he⟩ := e
        subst hc
        have hd : entityLoop 0 (html (.entity ⟨copyRow, he⟩ :: ps)) =
            bytes "(c)" ++ entityLoop 0 ((html ps).drop 2) := entityLoop_copy _
        have hm' : meaning (.entity ⟨copyRow, he⟩ :: ps) = bytes "(c)" ++ meaning ps := rfl
        rw [hd, hm', List.append_cancel_left_eq, decoded_drop_iff]
        constructor
        · intro h
          refine ⟨fun _ => h, ih.mp ?_⟩
          have hdrop := (decoded_drop_iff ps).mpr h
          rwa [h] at hdrop ⊢
        · exact fun h => h.1 rfl
      · have hl := (entity_rows e.1 e.2).resolve_right hc
        have hd : entityLoop 0 (html (.entity e :: ps)) = e.1.2.2 ++ entityLoop 0 (html ps) :=
          entityLoop_right e.2 hl _
        have hm : meaning (.entity e :: ps) = e.1.2.2 ++ meaning ps := rfl
        rw [hd, hm, List.append_cancel_left_eq, ih]
        refine (and_iff_right fun h => ?_).symm
        exact absurd (congrArg Subtype.val (Piece.entity.inj h)) hc

/-- The entities of a text are replaced exactly, and nothing else, if and only if no `&copy;`
has anything behind it. -/
theorem rushtmlconv_exact_iff {decode : Str} (hd : decode ∈ [bytes "wk", bytes "uk"])
    (ps : List Piece) (rus : Bool) :
    rushtmlconv unconverted decode (html ps) rus = meaning ps ↔ NothingBehind ps := by
  rw [rushtmlconv_decode hd]
  exact decoded_iff ps

/-- Two entities and a year, the second of which takes the blank and the `2` along. -/
def notice : List Piece :=
  [.text ⟨bytes "x ", by decide⟩, .entity ⟨(bytes "lt;", 4, bytes "<"), by simp [entities]⟩,
    copy, .text ⟨bytes " 2005", by decide⟩]

def signed : List Piece :=
  [.text ⟨bytes "a ", by decide⟩, .entity ⟨(bytes "lt;", 4, bytes "<"), by simp [entities]⟩,
    .text ⟨bytes "b>", by decide⟩, .entity ⟨(bytes "amp;", 5, bytes "&"), by simp [entities]⟩,
    .entity ⟨(bytes "gt;", 4, bytes ">"), by simp [entities]⟩, .text ⟨bytes "; by x ", by decide⟩, copy]

theorem rushtmlconv_signed :
    rushtmlconv unconverted (bytes "wk") (bytes "a &lt;b>&amp;&gt;; by x &copy;") true =
      bytes "a <b>&>; by x (c)" := by
  have h := @rushtmlconv_exact_iff (bytes "wk") (by simp) signed true
  refine h.mpr ?_
  simp only [signed, nothingBehind_cons]
  refine ⟨nofun, ?_, nofun, ?_, ?_, nofun, fun _ => rfl, nothingBehind_nil⟩
  all_goals
    intro hc
    exact absurd (congrArg Piece.html hc) (by decide)

theorem notice_cut :
    rushtmlconv unconverted (bytes "wk") (html notice) true = bytes "x <(c)005" ∧
      meaning notice = bytes "x <(c) 2005" ∧
      rushtmlconv unconverted (bytes "wk") (html notice) true ≠ meaning notice := by
  decide

end Decoding

end CenterIM.HtmlEntities
