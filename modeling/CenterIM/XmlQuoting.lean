import CenterIM.EventText

/-!
# Quoting and unquoting

`unquote` takes back what `quote` does; a text without entities it leaves as it is, and any
other text it makes shorter.
-/
namespace CenterIM.XmlQuoting
open ByteText Decimal StrText XmlTree Event RecordText EventText

section Replacing

variable {r1 r2 s t : Str}

theorem replaceFrom_skip (k : ℕ) (s : Str) :
    replaceFrom r1 r2 k s = replaceFrom r1 r2 0 (s.drop k) := by
  induction s generalizing k with
  | nil => cases k <;> simp [replaceFrom]
  | cons c s ih =>
    cases k with
    | zero => rfl
    | succ k => exact ih k

theorem replaceFrom_match (h : r1 ≠ []) (t : Str) :
    replaceFrom r1 r2 0 (r1 ++ t) = r2 ++ replaceFrom r1 r2 0 t := by
  obtain ⟨c, u, rfl⟩ := List.exists_cons_of_ne_nil h
  rw [List.cons_append, replaceFrom, if_pos (by simp), replaceFrom_skip]
  simp

/-- Replacing by codewords: each character is either replaced as a whole or left alone. -/
theorem replace_flatMap {f g : Byte → Str} (hne : r1 ≠ [])
    (h : ∀ c, f c = r1 ∧ g c = r2 ∨
      g c = f c ∧ ∀ t, replaceFrom r1 r2 0 (f c ++ t) = f c ++ replaceFrom r1 r2 0 t) (s : Str) :
    replace_all (s.flatMap f) r1 r2 = s.flatMap g := by
  unfold replace_all
  induction s with
  | nil => rfl
  | cons c s ih =>
    rw [List.flatMap_cons, List.flatMap_cons]
    rcases h c with ⟨hf, hg⟩ | ⟨hg, hf⟩
    · rw [hf, hg, replaceFrom_match hne, ih]
    · rw [hf, hg, ih]

end Replacing

/-- The characters that are quoted, without those of a list that are quoted no more. -/
def quoteLeft (l : Str) (c : Byte) : Str := if c ∈ l then quoteByte c else [c]

section Unquoting

theorem replaceFrom_other {c : Byte} (hc : c ≠ 38) (r1 r2 t : Str) :
    replaceFrom (38 :: r1) r2 0 ([c] ++ t) = [c] ++ replaceFrom (38 :: r1) r2 0 t := by
  simp [replaceFrom, Ne.symm hc]

theorem quoteLeft_other {l : Str} {c : Byte} (hc : c ≠ 38) (hl : c ∉ l) (r1 r2 t : Str) :
    replaceFrom (38 :: r1) r2 0 (quoteLeft l c ++ t) =
      quoteLeft l c ++ replaceFrom (38 :: r1) r2 0 t := by
  rw [quoteLeft, if_neg hl]
  exact replaceFrom_other hc r1 r2 t

theorem quote_left (s : Str) : quote s = s.flatMap (quoteLeft [38, 60, 34, 96, 62]) := by
  rw [quote_eq]
  congr 1
  funext c
  by_cases hc : c ∈ [(38 : Byte), 60, 34, 96, 62]
  · rw [quoteLeft, if_pos hc]
  · simp only [List.mem_cons, List.not_mem_nil, or_false, not_or] at hc
    obtain ⟨h1, h2, h3, h4, h5⟩ := hc
    simp [quoteLeft, quoteByte, h1, h2, h3, h4, h5]

/-- One stage of `unquote`: the entity of `d` is replaced, the others stay. -/
theorem unquote_stage {l m u r : Str} {d : Byte} (hd : quoteByte d = 38 :: u) (h2 : r = [d])
    (hl : ∀ c, c ∈ l ↔ c = d ∨ c ∈ m) (hd' : d ∉ m) (h38 : 38 ∈ l)
    (hother : ∀ c ∈ m, ∀ t, replaceFrom (38 :: u) r 0 (quoteByte c ++ t) =
      quoteByte c ++ replaceFrom (38 :: u) r 0 t) (s : Str) :
    replace_all (s.flatMap (quoteLeft l)) (38 :: u) r = s.flatMap (quoteLeft m) := by
  refine replace_flatMap (by simp) ?_ s
  intro c
  by_cases hc : c = d
  · left
    rw [hc, quoteLeft, quoteLeft, if_pos ((hl d).mpr (Or.inl rfl)), if_neg hd']
    exact ⟨hd, h2.symm⟩
  · right
    by_cases hm : c ∈ m
    · rw [quoteLeft, quoteLeft, if_pos hm, if_pos ((hl c).mpr (Or.inr hm))]
      exact ⟨rfl, hother c hm⟩
    · have hml : c ∉ l := fun h => ((hl c).mp h).elim hc hm
      have hne : c ≠ 38 := fun h => hml (h ▸ h38)
      refine ⟨by rw [quoteLeft, quoteLeft, if_neg hm, if_neg hml], ?_⟩
      exact quoteLeft_other hne hml u r

theorem quote_codes : quoteByte 38 = [38, 97, 109, 112, 59] ∧ quoteByte 60 = [38, 108, 116, 59] ∧
    quoteByte 34 = [38, 113, 117, 111, 116, 59] ∧ quoteByte 96 = [38, 97, 112, 111, 115, 59] ∧
    quoteByte 62 = [38, 103, 116, 59] := by
  decide

/-- The entities that `unquote` looks for, as codes. -/
theorem entity_codes : bytes "&lt;" = [38, 108, 116, 59] ∧ bytes "&gt;" = [38, 103, 116, 59] ∧
    bytes "&quot;" = [38, 113, 117, 111, 116, 59] ∧ bytes "&apos;" = [38, 97, 112, 111, 115, 59] ∧
    bytes "&nbsp;" = [38, 110, 98, 115, 112, 59] ∧
    bytes "&trade;" = [38, 116, 114, 97, 100, 101, 59] ∧ bytes "&amp;" = [38, 97, 109, 112, 59] := by
  decide

/-- No character is quoted as an entity that `quote` does not know. -/
theorem unquote_none {u : Str} (r2 : Str)
    (hother : ∀ t, replaceFrom (38 :: u) r2 0 (quoteByte 38 ++ t) =
      quoteByte 38 ++ replaceFrom (38 :: u) r2 0 t) (s : Str) :
    replace_all (s.flatMap (quoteLeft [38])) (38 :: u) r2 = s.flatMap (quoteLeft [38]) := by
  refine replace_flatMap (by simp) ?_ s
  intro c
  right
  refine ⟨rfl, ?_⟩
  by_cases hc : c = 38
  · rw [hc]
    exact hother
  · exact quoteLeft_other hc (by simpa using hc) u r2

theorem unquote_quote (s : Str) : unquote (quote s) = s := by
  obtain ⟨qamp, qlt, qquot, qapos, qgt⟩ := quote_codes
  obtain ⟨elt, egt, equot, eapos, enbsp, etrade, eamp⟩ := entity_codes
  have h1 := unquote_stage (l := [38, 60, 34, 96, 62]) (m := [38, 34, 96, 62]) qlt
    (r := bytes "<") rfl (by simp; tauto) (by decide) (by decide)
    (by simp [qamp, qquot, qapos, qgt, replaceFrom]) s
  have h2 := unquote_stage (l := [38, 34, 96, 62]) (m := [38, 34, 96]) qgt
    (r := bytes ">") rfl (by simp; tauto) (by decide) (by decide)
    (by simp [qamp, qquot, qapos, replaceFrom]) s
  have h3 := unquote_stage (l := [38, 34, 96]) (m := [38, 96]) qquot
    (r := bytes "\"") rfl (by simp; tauto) (by decide) (by decide)
    (by simp [qamp, qapos, replaceFrom]) s
  have h4 := unquote_stage (l := [38, 96]) (m := [38]) qapos
    (r := [96]) rfl (by simp; tauto) (by decide) (by decide)
    (by simp [qamp, replaceFrom]) s
  have h5 := unquote_none (u := [110, 98, 115, 112, 59]) (bytes " ")
    (by simp [qamp, replaceFrom]) s
  have h6 := unquote_none (u := [116, 114, 97, 100, 101, 59]) (bytes "(tm)")
    (by simp [qamp, replaceFrom]) s
  have h7 := unquote_stage (l := [38]) (m := []) qamp
    (r := bytes "&") rfl (by simp) (by decide) (by decide) (by simp) s
  have hid : quoteLeft [] = fun c => [c] := by
    funext c
    simp [quoteLeft]
  rw [quote_left, unquote, elt, h1, egt, h2, equot, h3, eapos, h4, enbsp, h5, etrade, h6, eamp, h7,
    hid]
  simp

end Unquoting

section Shrinking

variable {r1 r2 s : Str}

theorem length_dropCR_replace (hne : r1 ≠ []) (hcr : cr ∉ r1) (hlen : r2.length < r1.length)
    (s : Str) :
    (¬ r1 <:+: s ∧ replace_all s r1 r2 = s) ∨
      (dropCR (replace_all s r1 r2)).length < (dropCR s).length := by
  unfold replace_all
  induction hn : s.length using Nat.strong_induction_on generalizing s with
  | _ n ih =>
    cases s with
    | nil =>
      left
      exact ⟨by simpa using hne, rfl⟩
    | cons c t =>
      by_cases hp : r1.isPrefixOf (c :: t) = true
      · obtain ⟨rest, hrest⟩ := List.isPrefixOf_iff_prefix.mp hp
        right
        have hshort : rest.length < n := by
          have hl := congrArg List.length hrest
          have hpos := List.length_pos_iff.mpr hne
          rw [List.length_append] at hl
          omega
        have hr1 : dropCR r1 = r1 := List.filter_eq_self.mpr fun d hd => by
          simpa using ne_of_mem_of_not_mem hd hcr
        have hr2 : (dropCR r2).length ≤ r2.length := List.length_filter_le _ _
        have hle : (dropCR (replaceFrom r1 r2 0 rest)).length ≤ (dropCR rest).length := by
          rcases ih _ hshort rest rfl with ⟨-, h⟩ | h
          · rw [h]
          · omega
        rw [← hrest, replaceFrom_match hne]
        simp only [dropCR, List.filter_append, List.length_append] at hr1 hr2 hle ⊢
        rw [hr1]
        omega
      · have hstep : replaceFrom r1 r2 0 (c :: t) = c :: replaceFrom r1 r2 0 t := by
          rw [replaceFrom, if_neg hp]
        rw [hstep]
        rcases ih t.length (by simp at hn; omega) t rfl with ⟨hno, h⟩ | h
        · left
          refine ⟨?_, by rw [h]⟩
          intro hi
          rcases List.infix_cons_iff.mp hi with hpre | hi
          · exact hp (List.isPrefixOf_iff_prefix.mpr hpre)
          · exact hno hi
        · right
          by_cases hc : c = cr
          · simpa [dropCR, hc] using h
          · simpa [dropCR, hc] using h

theorem replace_absent (h : ¬ r1 <:+: s) : replace_all s r1 r2 = s := by
  unfold replace_all
  induction s with
  | nil => rfl
  | cons c t ih =>
    have hp : ¬ r1.isPrefixOf (c :: t) = true := fun hp =>
      h (List.isPrefixOf_iff_prefix.mp hp).isInfix
    rw [replaceFrom, if_neg hp, ih fun hi => h (List.infix_cons hi)]

/-- The entities in the order in which `unquote` replaces them. -/
def entities : List (Str × Str) :=
  [(bytes "&lt;", bytes "<"), (bytes "&gt;", bytes ">"), (bytes "&quot;", bytes "\""),
    (bytes "&apos;", [96]), (bytes "&nbsp;", bytes " "), (bytes "&trade;", bytes "(tm)"),
    (bytes "&amp;", bytes "&")]

def NoEntity (s : Str) : Prop := ∀ r ∈ entities, ¬ r.1 <:+: s

instance (s : Str) : Decidable (NoEntity s) := inferInstanceAs (Decidable (∀ _ ∈ _, _))

theorem foldl_replace {l : List (Str × Str)}
    (h : ∀ r ∈ l, r.1 ≠ [] ∧ cr ∉ r.1 ∧ r.2.length < r.1.length) (s : Str) :
    ((∀ r ∈ l, ¬ r.1 <:+: s) ∧ l.foldl (fun t r => replace_all t r.1 r.2) s = s) ∨
      (dropCR (l.foldl (fun t r => replace_all t r.1 r.2) s)).length < (dropCR s).length := by
  induction l generalizing s with
  | nil => exact Or.inl ⟨by simp, rfl⟩
  | cons r l ih =>
    obtain ⟨hne, hcr, hlen⟩ := h r (by simp)
    have hi := ih (fun q hq => h q (by simp [hq])) (replace_all s r.1 r.2)
    rw [List.foldl_cons]
    rcases length_dropCR_replace hne hcr hlen s with ⟨hno, heq⟩ | hlt
    · rw [heq] at hi ⊢
      exact hi.imp_left fun ⟨hrest, hfold⟩ => ⟨List.forall_mem_cons.mpr ⟨hno, hrest⟩, hfold⟩
    · right
      rcases hi with ⟨-, hfold⟩ | hi
      · rw [hfold]
        exact hlt
      · omega

/-- A text with an entity becomes shorter, any other stays as it is. -/
theorem unquote_spec (s : Str) :
    (NoEntity s ∧ unquote s = s) ∨ (dropCR (unquote s)).length < (dropCR s).length :=
  foldl_replace (l := entities) (by decide) s

theorem unquote_of_noEntity {s : Str} (h : NoEntity s) : unquote s = s := by
  have hfold : ∀ rs : List (Str × Str), (∀ r ∈ rs, r ∈ entities) →
      rs.foldl (fun t r => replace_all t r.1 r.2) s = s := by
    intro rs
    induction rs with
    | nil => exact fun _ => rfl
    | cons r rs ih =>
      intro hrs
      rw [List.foldl_cons, replace_absent (h r (hrs r (by simp)))]
      exact ih fun q hq => hrs q (by simp [hq])
  exact hfold entities fun r hr => hr

end Shrinking

end CenterIM.XmlQuoting
