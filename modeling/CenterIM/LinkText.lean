import CenterIM.RssFeed

/-!
# Links of HTML texts

What `cuthtml` writes for the links of an HTML text. The quote in front of an address is
counted from the name of its attribute, but cut off from the start of the attributes, so the
address is found when its attribute is the first one.
-/
namespace CenterIM.LinkText
open ByteText StrText XmlTree RssFeed

section Pieces

/-- A piece of an HTML text: a text without a `<`, or a tag, which stands for what is between
its `<` and the next `>`. -/
inductive Piece
  | text (t : {t : Str // 60 ∉ t})
  | tag (content : {t : Str // 62 ∉ t})

def Piece.html : Piece → Str
  | .text t => t.1
  | .tag content => 60 :: (content.1 ++ [62])

def Piece.output (chCutBR chLeaveLinks : Bool) : Piece → Str
  | .text t => t.1
  | .tag content => cutTag chCutBR chLeaveLinks content.1

def html (ps : List Piece) : Str := ps.flatMap Piece.html

/-- The texts as they are, and what is left of each tag. -/
def output (chCutBR chLeaveLinks : Bool) (ps : List Piece) : Str :=
  ps.flatMap (Piece.output chCutBR chLeaveLinks)

variable {chCutBR chLeaveLinks : Bool}

theorem cutLoop_char {c : Byte} (hc : c ≠ 60) (fuel : ℕ) (s : Str) :
    cutLoop chCutBR chLeaveLinks fuel (c :: s) = c :: cutLoop chCutBR chLeaveLinks fuel s := by
  have hlt : bytes "<" = [60] := by decide
  cases fuel with
  | zero => rfl
  | succ fuel =>
    have hf : find (bytes "<") (c :: s) = (find (bytes "<") s).map (· + 1) := by
      simp [find, hlt, Ne.symm hc]
    rw [cutLoop, cutLoop, hf]
    cases find (bytes "<") s with
    | none => rfl
    | some npos =>
      simp only [Option.map_some, List.drop_succ_cons]
      cases find (bytes ">") (s.drop (npos + 1)) with
      | none => rfl
      | some n =>
        have hd : npos + 1 + 1 + n = npos + 1 + n + 1 := by omega
        simp only [List.take_succ_cons, List.cons_append, hd]

theorem cutLoop_text {t : Str} (ht : 60 ∉ t) (fuel : ℕ) (s : Str) :
    cutLoop chCutBR chLeaveLinks fuel (t ++ s) =
      t ++ cutLoop chCutBR chLeaveLinks fuel s := by
  induction t with
  | nil => rfl
  | cons c t ih =>
    simp only [List.mem_cons, not_or] at ht
    rw [List.cons_append, cutLoop_char (Ne.symm ht.1), ih ht.2, List.cons_append]

theorem cutLoop_tag {content : Str} (hc : 62 ∉ content) (fuel : ℕ) (s : Str) :
    cutLoop chCutBR chLeaveLinks (fuel + 1) (60 :: (content ++ [62]) ++ s) =
      cutTag chCutBR chLeaveLinks content ++ cutLoop chCutBR chLeaveLinks fuel s := by
  have hlt : find (bytes "<") (60 :: (content ++ 62 :: s)) = some 0 := by
    rw [show bytes "<" = [60] by decide]
    exact @find_char 60 [] _ List.not_mem_nil
  have hgt : find (bytes ">") (content ++ 62 :: s) = some content.length := by
    rw [show bytes ">" = [62] by decide]
    exact find_char hc
  have hs : 60 :: (content ++ [62]) ++ s = 60 :: (content ++ 62 :: s) := by simp
  rw [hs, cutLoop, hlt]
  simp only [Nat.zero_add, List.drop_succ_cons, List.drop_zero, hgt, List.take_zero,
    List.nil_append, List.take_left]
  have hd : (content ++ 62 :: s).drop (1 + content.length) = s := by
    rw [Nat.add_comm, ← List.drop_drop, List.drop_left]
    rfl
  rw [hd]

/-- Without a `>` nothing is cut. -/
theorem cutLoop_end {s : Str} (hs : 62 ∉ s) (fuel : ℕ) :
    cutLoop chCutBR chLeaveLinks fuel s = s := by
  have hgt : bytes ">" = [62] := by decide
  cases fuel with
  | zero => rfl
  | succ fuel =>
    rw [cutLoop]
    cases find (bytes "<") s with
    | none => rfl
    | some npos =>
      have hn : find (bytes ">") (s.drop (npos + 1)) = none := by
        rw [hgt]
        exact find_char_none fun hm => hs (List.mem_of_mem_drop hm)
      simp only [hn]

theorem cutLoop_html (ps : List Piece) {s : Str} (hs : 62 ∉ s) (fuel : ℕ)
    (hf : (html ps).length ≤ fuel) :
    cutLoop chCutBR chLeaveLinks fuel (html ps ++ s) = output chCutBR chLeaveLinks ps ++ s := by
  induction ps generalizing fuel with
  | nil => exact cutLoop_end hs fuel
  | cons p ps ih =>
    have hlen : (html (p :: ps)).length = p.html.length + (html ps).length := by simp [html]
    have hh : html (p :: ps) ++ s = p.html ++ (html ps ++ s) := by simp [html]
    have ho : output chCutBR chLeaveLinks (p :: ps) ++ s =
        p.output chCutBR chLeaveLinks ++ (output chCutBR chLeaveLinks ps ++ s) := by
      simp [output]
    rw [hh, ho]
    cases p with
    | text t =>
      rw [← ih fuel (by omega)]
      exact cutLoop_text t.2 fuel _
    | tag content =>
      have hpos : 0 < (Piece.html (.tag content)).length := by simp [Piece.html]
      obtain ⟨fuel, rfl⟩ := Nat.exists_eq_succ_of_ne_zero (show fuel ≠ 0 by omega)
      rw [← ih fuel (by omega)]
      exact cutLoop_tag content.2 fuel _

/-- What `cuthtml` makes of a text: the texts stay, in their order, and each tag is replaced
with what is left of it. -/
theorem cuthtml_html (ps : List Piece) {s : Str} (hs : 62 ∉ s) :
    cuthtml (html ps ++ s) chCutBR chLeaveLinks = output chCutBR chLeaveLinks ps ++ s := by
  apply cutLoop_html ps hs
  simp only [List.length_append]
  omega

end Pieces

section Links

/-- The two tags that `cuthtml` writes a link for. -/
inductive Link
  | a
  | img
  deriving DecidableEq, Repr

def Link.token : Link → Str
  | .a => bytes "A"
  | .img => bytes "IMG"

def Link.word : Link → Str
  | .a => bytes "HREF"
  | .img => bytes "SRC"

def Link.text : Link → Str → Str
  | .a, l => bytes "[ href: " ++ l ++ bytes " ] "
  | .img, l => bytes " [ img: " ++ l ++ bytes " ]"

/-- A tag with an address: its name, the attributes in front of the address, which may be any
text, and the attribute `word` with what stands between it and its quote, the address, and the
rest of the tag. Letters may be of either case. -/
structure LinkTag where
  kind : Link
  name : Str
  blanks : Str
  before : Str
  word : Str
  eq : Str
  value : Str
  after : Str
  name_up : up name = kind.token
  word_up : up word = kind.word
  blanks_ne : blanks ≠ []
  blanks_sub : blanks ⊆ wordDelim
  before_head : ∀ c, before.head? = some c → c ∉ wordDelim
  eq_quote : 34 ∉ eq
  value_ne : value ≠ []
  value_quote : 34 ∉ value
  unclosed : 62 ∉ before ++ (eq ++ (value ++ after))

namespace LinkTag

def lead (t : LinkTag) : Str := t.before ++ (t.word ++ (t.eq ++ [34]))

def content (t : LinkTag) : Str :=
  t.name ++ (t.blanks ++ (t.lead ++ (t.value ++ 34 :: t.after)))

/-- How many characters lead from the first place of the word to behind the next quote. -/
def skipped (t : LinkTag) : ℕ :=
  let buf := up t.lead
  (find (bytes "\"") (buf.drop ((find t.kind.word buf).getD 0))).getD 0 + 1

def window (t : LinkTag) : Str := t.lead.drop t.skipped ++ t.value

/-- The address stands there again: behind nothing but quotes, and up to a quote or a NUL or its
own end. -/
def Repeats (t : LinkTag) : Prop :=
  ∃ q z, t.window = List.replicate q 34 ++ (t.value ++ z) ∧
    ∀ c, z.head? = some c → c = 34 ∨ c = nul

end LinkTag

/-- The end of a text is not cut in front of a character that stays. -/
theorem trailcut_append {delim : Str} {c : Byte} (hc : c ∉ delim) (a s : Str) :
    trailcut (a ++ c :: s) delim = a ++ c :: trailcut s delim := by
  have hstop : (c :: a.reverse).dropWhile (· ∈ delim) = c :: a.reverse :=
    List.dropWhile_cons_of_neg (by simpa using hc)
  have hrev : (a ++ c :: s).reverse = s.reverse ++ c :: a.reverse := by simp
  rw [trailcut, trailcut, List.rdropWhile, List.rdropWhile, hrev, List.dropWhile_append]
  split_ifs with he
  · rw [hstop, List.isEmpty_iff.mp he]
    simp
  · simp

theorem leadcut_blanks {delim bs : Str} (hb : bs ⊆ delim) {s : Str}
    (hs : ∀ c, s.head? = some c → c ∉ delim) : leadcut (bs ++ s) delim = s := by
  rw [leadcut, List.dropWhile_append_of_pos fun c hc => by simpa using hb hc]
  cases s with
  | nil => rfl
  | cons c s => exact List.dropWhile_cons_of_neg (by simpa using hs c rfl)

/-- The first word in quotes does not depend on what is behind its quote. -/
theorem getword_quoted {w : Str} (hw : ∃ c ∈ w, c ≠ 34) (s : Str) :
    (getword (w ++ 34 :: s) [34]).1 = (leadcut w [34]).takeWhile (inWord [34]) := by
  have hin : inWord [34] 34 = false := by decide
  have hne : leadcut w [34] ≠ [] := by
    intro h
    obtain ⟨c, hc, hc34⟩ := hw
    have hall := List.dropWhile_eq_nil_iff.mp h c hc
    simp [hc34] at hall
  have hlead : leadcut (w ++ 34 :: s) [34] = leadcut w [34] ++ 34 :: s := by
    rw [leadcut, List.dropWhile_append]
    exact if_neg fun h => hne (List.isEmpty_iff.mp h)
  simp only [getword, hlead]
  rw [List.takeWhile_append]
  split_ifs with hl
  · rw [List.takeWhile_cons_of_neg (by simp [hin]), List.append_nil]
    exact ((List.takeWhile_prefix _).eq_of_length hl).symm
  · rfl

/-- The letters of the names are none of the characters that a tag is cut at. -/
theorem letter_chars : ∀ c : Byte, toupper c ∈ bytes "AIMG" →
    c ≠ slash ∧ c ∉ bytes "/ \n\r" ∧ inWord wordDelim c = true ∧
      inWord wordDelim (toupper c) = true := by
  decide +kernel

theorem toupper_kept : ∀ c : Byte,
    (toupper c ∈ wordDelim ↔ c ∈ wordDelim) ∧ (toupper c = 34 ↔ c = 34) ∧
      (c ∈ wordDelim → toupper c = c) := by
  decide +kernel

theorem token_letters (k : Link) : k.token ⊆ bytes "AIMG" ∧ k.token ≠ [] := by
  cases k
  · decide
  · decide

theorem token_apart (k : Link) : k.token ≠ bytes "BR" ∧ k.token ≠ bytes "P" := by
  cases k
  · decide
  · decide

theorem word_letters (k : Link) : k.word ≠ [] ∧ 34 ∉ k.word ∧ 62 ∉ k.word ∧
    ∀ c ∈ k.word, c ∉ wordDelim := by
  cases k
  · decide +kernel
  · decide +kernel

theorem up_append (a b : Str) : up (a ++ b) = up a ++ up b := List.map_append

theorem up_eq_nil_iff {s : Str} : up s = [] ↔ s = [] := List.map_eq_nil_iff

theorem quote_mem_up_iff {s : Str} : 34 ∈ up s ↔ 34 ∈ s := by
  simp only [up, List.mem_map]
  constructor
  · intro ⟨c, hc, h⟩
    exact (toupper_kept c).2.1.mp h ▸ hc
  · intro h
    exact ⟨34, h, rfl⟩

namespace LinkTag

variable (t : LinkTag)

theorem name_letter {c : Byte} (hc : c ∈ t.name) : toupper c ∈ bytes "AIMG" := by
  apply (token_letters t.kind).1
  rw [← t.name_up]
  exact List.mem_map_of_mem hc

theorem name_ne : t.name ≠ [] := fun h =>
  (token_letters t.kind).2 (by rw [← t.name_up, h]; rfl)

/-- The name of a tag is its first word, in capital letters or not. -/
theorem getword_name {s : Str} (hs : ∀ c, s.head? = some c → c ∉ wordDelim) :
    getword (t.name ++ (t.blanks ++ s)) wordDelim = (t.name, s) ∧
      getword (up (t.name ++ (t.blanks ++ s))) wordDelim = (t.kind.token, up s) := by
  have hblanks : up t.blanks = t.blanks := by
    rw [up]
    refine (List.map_congr_left fun c hc => ?_).trans (List.map_id _)
    exact (toupper_kept c).2.2 (t.blanks_sub hc)
  have hup : ∀ c, (up s).head? = some c → c ∉ wordDelim := by
    intro c hc
    obtain ⟨d, hd, rfl⟩ := Option.map_eq_some_iff.mp ((List.head?_map (f := toupper)).symm.trans hc)
    exact fun hm => hs d hd ((toupper_kept d).1.mp hm)
  have hword : ∀ c ∈ up t.name, inWord wordDelim c = true := by
    intro c hc
    obtain ⟨d, hd, rfl⟩ := List.mem_map.mp hc
    exact (letter_chars d (t.name_letter hd)).2.2.2
  rw [up_append, up_append, hblanks, ← t.name_up]
  cases hb : t.blanks with
  | nil => exact absurd hb t.blanks_ne
  | cons d bs =>
    have hsub := t.blanks_sub
    rw [hb] at hsub
    have hd : d ∈ wordDelim := hsub List.mem_cons_self
    have hbs : bs ⊆ wordDelim := List.subset_of_cons_subset hsub
    constructor
    · have h := getword_word (r := bs ++ s) (fun c hc => (letter_chars c (t.name_letter hc)).2.2.1)
        t.name_ne hd
      rwa [leadcut_blanks hbs hs] at h
    · have hne : up t.name ≠ [] := fun h => t.name_ne (up_eq_nil_iff.mp h)
      have h := getword_word (r := bs ++ up s) hword hne hd
      rwa [leadcut_blanks hbs hup] at h

/-- The word that the tag's attribute is looked for with stands in front of a quote. -/
theorem skipped_spec : ∃ k n, find t.kind.word (up t.lead) = some k ∧
    find (bytes "\"") ((up t.lead).drop k) = some n ∧ t.skipped = n + 1 ∧
      n < t.lead.length ∧ k ≤ t.before.length := by
  have hlead : t.lead = t.before ++ (t.word ++ t.eq) ++ [34] := by simp [lead]
  have hup : up t.lead = up t.before ++ (t.kind.word ++ (up t.eq ++ [34])) := by
    rw [lead, up_append, up_append, up_append, t.word_up]
    rfl
  have hk : t.kind.word <+: (up t.lead).drop t.before.length := by
    have hl : t.before.length = (up t.before).length := (List.length_map _).symm
    rw [hup, hl, List.drop_left]
    exact List.prefix_append _ _
  have hlen : (up t.lead).length = t.lead.length := List.length_map _
  have hll : t.lead.length = t.before.length + (t.word ++ t.eq).length + 1 := by
    rw [hlead]
    simp only [List.length_append, List.length_singleton]
  obtain ⟨k, hfk, hkb⟩ := find_isSome_of_prefix (by omega) hk
  have hq : bytes "\"" <+: ((up t.lead).drop k).drop (t.lead.length - 1 - k) := by
    have hd : (up t.lead).drop (t.lead.length - 1) = [34] := by
      rw [hlead, up_append, List.length_append]
      exact List.drop_left' (by simp [up])
    rw [List.drop_drop, show k + (t.lead.length - 1 - k) = t.lead.length - 1 by omega, hd]
    exact List.prefix_rfl
  have hj : t.lead.length - 1 - k ≤ ((up t.lead).drop k).length := by
    rw [List.length_drop]
    omega
  obtain ⟨n, hfn, hn⟩ := find_isSome_of_prefix hj hq
  refine ⟨k, n, hfk, hfn, ?_, by omega, hkb⟩
  simp only [skipped, hfk, Option.getD_some, hfn]

theorem lead_head (s : Str) : ∀ c, (t.lead ++ s).head? = some c → c ∉ wordDelim := by
  intro c hc
  cases hb : t.before with
  | cons d before =>
    rw [lead, hb] at hc
    refine t.before_head c ?_
    rw [hb]
    exact hc
  | nil =>
    cases hw : t.word with
    | nil =>
      have h := t.word_up
      rw [hw] at h
      exact absurd h.symm (word_letters t.kind).1
    | cons d w =>
      rw [lead, hb, hw] at hc
      obtain rfl := Option.some.inj hc
      have hup : toupper d ∈ t.kind.word := by
        rw [← t.word_up, hw]
        exact List.mem_cons_self
      exact fun hm => (word_letters t.kind).2.2.2 _ hup ((toupper_kept d).1.mpr hm)

theorem name_head (s : Str) :
    ∀ c, (t.name ++ s).head? = some c → c ≠ slash ∧ c ∉ bytes "/ \n\r" := by
  intro c hc
  obtain ⟨d, name, hn⟩ := List.exists_cons_of_ne_nil t.name_ne
  rw [hn] at hc
  obtain rfl := Option.some.inj hc
  have hd : d ∈ t.name := by
    rw [hn]
    exact List.mem_cons_self
  have h := letter_chars d (t.name_letter hd)
  exact ⟨h.1, h.2.1⟩

/-- Cutting the ends of the tag only changes what is behind the address. -/
theorem content_cut : leadcut (trailcut t.content (bytes "/ \n\r")) (bytes "/ \n\r") =
    t.name ++ (t.blanks ++ (t.lead ++ (t.value ++ 34 :: trailcut t.after (bytes "/ \n\r")))) := by
  have hc : t.content = (t.name ++ (t.blanks ++ (t.lead ++ t.value))) ++ 34 :: t.after := by
    simp [content]
  have hs : (t.name ++ (t.blanks ++ (t.lead ++ t.value))) ++ 34 :: trailcut t.after
      (bytes "/ \n\r") = [] ++ (t.name ++ (t.blanks ++ (t.lead ++ (t.value ++ 34 ::
        trailcut t.after (bytes "/ \n\r"))))) := by simp
  rw [hc, trailcut_append (by decide), hs]
  apply leadcut_blanks (List.nil_subset _)
  exact fun c h => (t.name_head _ c h).2

/-- The first word in quotes of the window is what is taken, whatever follows the address. -/
theorem taken (s : Str) : ((find t.kind.word (up (t.lead ++ (t.value ++ 34 :: s)))).bind fun k =>
    (find (bytes "\"") ((up (t.lead ++ (t.value ++ 34 :: s))).drop k)).map fun n =>
      (getword ((t.lead ++ (t.value ++ 34 :: s)).drop (n + 1)) (bytes "\"")).1) =
    some ((leadcut t.window [34]).takeWhile (inWord [34])) := by
  have hquote : bytes "\"" = [34] := by decide
  obtain ⟨k, n, hk, hn, hskip, hlt, -⟩ := t.skipped_spec
  obtain ⟨-, -, hle⟩ := find_some hk
  have hw : ∃ c ∈ t.window, c ≠ 34 := by
    obtain ⟨c, value, hv⟩ := List.exists_cons_of_ne_nil t.value_ne
    have hc : c ∈ t.value := by
      rw [hv]
      exact List.mem_cons_self
    exact ⟨c, List.mem_append_right _ hc, fun h => t.value_quote (h ▸ hc)⟩
  rw [up_append, find_append hk, Option.bind_some, List.drop_append_of_le_length hle,
    find_append hn, Option.map_some, List.drop_append_of_le_length (by omega), ← hskip, hquote,
    ← List.append_assoc]
  exact congrArg some (getword_quoted hw s)

/-- What is left of the tag: the first word in quotes of its window, as a link. -/
theorem cutTag_content (chCutBR : Bool) : cutTag chCutBR true t.content =
    t.kind.text ((leadcut t.window [34]).takeWhile (inWord [34])) := by
  have hslash : ¬ t.content.head? = some slash := fun h => (t.name_head _ _ h).1 rfl
  obtain ⟨hwords, hupper⟩ := t.getword_name (t.lead_head (t.value ++ 34 :: trailcut t.after
    (bytes "/ \n\r")))
  have htaken := t.taken (trailcut t.after (bytes "/ \n\r"))
  have hp : ¬ (chCutBR && t.kind.token == bytes "P") = true := by
    simp [(token_apart t.kind).2]
  rw [cutTag]
  simp only [if_neg hslash, t.content_cut, hwords, hupper, if_neg (token_apart t.kind).1, if_neg hp,
    List.nil_append, Bool.not_true, Bool.false_eq_true, if_false]
  cases hkind : t.kind with
  | a =>
    rw [hkind] at htaken
    rw [if_pos (show Link.a.token = bytes "A" from rfl)]
    exact congrArg (fun l => (l.map Link.a.text).getD []) htaken
  | img =>
    rw [hkind] at htaken
    rw [if_neg (by decide), if_pos (show Link.img.token = bytes "IMG" from rfl)]
    exact congrArg (fun l => (l.map Link.img.text).getD []) htaken

theorem value_inWord (hnul : nul ∉ t.value) : ∀ c ∈ t.value, inWord [34] c = true := by
  intro c hc
  simp only [inWord, List.mem_singleton, decide_eq_true_eq]
  constructor
  · rintro rfl
    exact t.value_quote hc
  · rintro rfl
    exact hnul hc

/-- The address is what is taken from the window exactly when the window repeats it. -/
theorem taken_iff : (leadcut t.window [34]).takeWhile (inWord [34]) = t.value ↔
    nul ∉ t.value ∧ t.Repeats := by
  constructor
  · intro h
    set l := leadcut t.window [34] with hl
    have hnul : nul ∉ t.value := by
      intro hm
      rw [← h] at hm
      have hin := List.mem_takeWhile_imp hm
      simp [inWord] at hin
    refine ⟨hnul, (t.window.takeWhile (· ∈ [34])).length, l.dropWhile (inWord [34]), ?_, ?_⟩
    · have hquotes : t.window.takeWhile (· ∈ [34]) =
          List.replicate (t.window.takeWhile (· ∈ [34])).length 34 := by
        apply List.eq_replicate_of_mem
        intro c hc
        simpa using List.mem_takeWhile_imp hc
      rw [← hquotes, ← h, List.takeWhile_append_dropWhile, hl]
      exact List.takeWhile_append_dropWhile.symm
    · intro c hc
      have hstop := List.head?_dropWhile_not (inWord [34]) l
      rw [hc] at hstop
      simp only [inWord, List.mem_singleton, decide_eq_false_iff_not] at hstop
      tauto
  · intro h
    obtain ⟨hnul, q, z, hw, hz⟩ := h
    obtain ⟨c, value, hv⟩ := List.exists_cons_of_ne_nil t.value_ne
    have hhead : ∀ d, (t.value ++ z).head? = some d → d ∉ [34] := by
      intro d hd hm
      rw [hv] at hd
      obtain rfl := Option.some.inj hd
      refine t.value_quote ?_
      rw [hv, ← List.mem_singleton.mp hm]
      exact List.mem_cons_self
    have hlead : leadcut t.window [34] = t.value ++ z := by
      rw [hw]
      apply leadcut_blanks _ hhead
      intro d hd
      rw [(List.mem_replicate.mp hd).2]
      exact List.mem_cons_self
    rw [hlead, List.takeWhile_append_of_pos (t.value_inWord hnul)]
    cases z with
    | nil => simp
    | cons d z =>
      have hd : inWord [34] d = false := by
        rcases hz d rfl with rfl | rfl
        · decide
        · decide
      simp [hd]

/-- The address of the first attribute stands in its window alone. -/
theorem repeats_of_first (hb : t.before = []) : t.Repeats := by
  obtain ⟨k, n, hk, hn, hskip, -, hkb⟩ := t.skipped_spec
  rw [hb, List.length_nil, Nat.le_zero] at hkb
  have hlead : t.lead = (t.word ++ t.eq) ++ [34] := by simp [lead, hb]
  have hquote : 34 ∉ up (t.word ++ t.eq) := by
    intro hm
    rw [up_append, t.word_up] at hm
    rcases List.mem_append.mp hm with h | h
    · exact (word_letters t.kind).2.1 h
    · exact t.eq_quote (quote_mem_up_iff.mp h)
  have hfind := @find_char 34 (up (t.word ++ t.eq)) [] hquote
  rw [hkb, List.drop_zero, hlead, up_append, show bytes "\"" = [34] by decide] at hn
  have hlen : n = (t.word ++ t.eq).length := by
    have h := Option.some.inj (hn.symm.trans hfind)
    rwa [up, List.length_map] at h
  refine ⟨0, [], ?_, fun c hc => by simp at hc⟩
  rw [window, hskip, List.drop_eq_nil_of_le]
  · simp
  · rw [hlead, List.length_append, List.length_singleton, hlen]

theorem unclosed_content : 62 ∉ t.content := by
  have hin : inWord wordDelim 62 = true ∧ toupper 62 ∉ bytes "AIMG" ∧ 62 ∉ wordDelim := by decide
  have hword : 62 ∉ t.word := by
    intro hm
    have h : toupper 62 ∈ up t.word := List.mem_map_of_mem hm
    rw [t.word_up] at h
    exact (word_letters t.kind).2.2.1 h
  have hrest := t.unclosed
  simp only [List.mem_append, not_or] at hrest
  simp only [content, lead, List.mem_append, List.mem_cons, not_or]
  refine ⟨fun h => hin.2.1 (t.name_letter h), fun h => hin.2.2 (t.blanks_sub h), ?_⟩
  simp [hrest, hword]

def piece : Piece := .tag ⟨t.content, t.unclosed_content⟩

end LinkTag

theorem Link.text_inj (k : Link) {l l' : Str} : k.text l = k.text l' ↔ l = l' := by
  cases k
  · simp [Link.text]
  · simp [Link.text]

/-- The address of a tag is written exactly, between what is left of the text in front of the
tag and of the text behind it, if and only if it has no NUL, and it belongs to the first
attribute or is repeated in the place that is read instead. -/
theorem cuthtml_link_iff (t : LinkTag) (ps qs : List Piece) (s : {s : Str // 62 ∉ s})
    (chCutBR : Bool) :
    cuthtml (html (ps ++ t.piece :: qs) ++ s.1) chCutBR true =
        output chCutBR true ps ++ (t.kind.text t.value ++ (output chCutBR true qs ++ s.1)) ↔
      nul ∉ t.value ∧ (t.before = [] ∨ t.Repeats) := by
  have ho : output chCutBR true (ps ++ t.piece :: qs) ++ s.1 = output chCutBR true ps ++
      (cutTag chCutBR true t.content ++ (output chCutBR true qs ++ s.1)) := by
    simp [output, LinkTag.piece, Piece.output]
  have hr : t.before = [] ∨ t.Repeats ↔ t.Repeats := or_iff_right_of_imp t.repeats_of_first
  rw [cuthtml_html _ s.2, ho, List.append_cancel_left_eq, List.append_cancel_right_eq,
    t.cutTag_content, Link.text_inj, t.taken_iff, hr]

def plain : LinkTag where
  kind := .a
  name := bytes "a"
  blanks := [blank]
  before := []
  word := bytes "href"
  eq := bytes "="
  value := bytes "http://h"
  after := bytes " title=\"x y\""
  name_up := by decide
  word_up := by decide
  blanks_ne := by decide
  blanks_sub := by decide
  before_head := by simp
  eq_quote := by decide
  value_ne := by decide
  value_quote := by decide
  unclosed := by decide

theorem address_shown :
    cuthtml (bytes "see <b><a href=\"http://h\" title=\"x y\">this</a> page") false true =
      bytes "see [ href: http://h ] this page" := by
  have h := (cuthtml_link_iff plain [.text ⟨bytes "see ", by decide⟩, .tag ⟨bytes "b", by decide⟩]
    [.text ⟨bytes "this", by decide⟩, .tag ⟨bytes "/a", by decide⟩] ⟨bytes " page", by decide⟩
    false).mpr ⟨by decide, Or.inl rfl⟩
  exact h

/-- The same link with its title in front of the address. -/
def titled : LinkTag :=
  { plain with
    before := bytes "title=\"x y\" "
    after := []
    before_head := by
      intro c hc
      obtain rfl := Option.some.inj hc
      decide
    unclosed := by decide }

theorem title_shown :
    html [titled.piece] = bytes "<a title=\"x y\" href=\"http://h\">" ∧
      cuthtml (html [titled.piece]) true true = bytes "[ href: x y ] " ∧
      cuthtml (html [titled.piece]) true true ≠ titled.kind.text titled.value := by
  decide

end Links

end CenterIM.LinkText
