import CenterIM.Captcha

/-!
# The questions of the captcha

`captcha::addquestion`, which reads a question and its accepted answers from a line of the
configuration. The answers stand between double colons; the loop that takes them stops at
the first one that is empty.
-/
namespace CenterIM.CaptchaQuestions
open ByteText StrText Captcha

abbrev colon : Byte := 58

/-- What stands between the question and its answers. -/
def slashes : Str := bytes "//"

def colons : Str := bytes "::"

/-- The loop of `addquestion`; `answers` is a set, of which only the members matter. -/
def addanswers : ℕ → Str → List Str → List Str
  | 0, _, answers => answers
  | fuel + 1, data, answers =>
    if data.length = 0 then answers
    else
      match find colons data with
      | none => answers.insert (lo data)
      | some 0 => answers
      | some pos => addanswers fuel (data.drop (pos + 2)) (answers.insert (lo (data.take pos)))

/-- `captcha::addquestion`. -/
def addquestion (questions : List Question) (data : Str) : List Question :=
  match find slashes data with
  | none => questions
  | some pos =>
    let rest := data.drop (pos + 2)
    let q : Question := ⟨data.take pos, addanswers rest.length rest []⟩
    if q.answers = [] then questions else questions ++ [q]

/-- The parts of a text between the double colons, from the left. -/
def segments : Str → List Str
  | [] => [[]]
  | [c] => [[c]]
  | c :: d :: s =>
    if c = colon ∧ d = colon then [] :: segments s
    else (segments (d :: s)).modifyHead (c :: ·)

/-- The question is stored with the segments that are not empty, in lower case; if there is
none, nothing is stored. -/
def Stored (questions : List Question) (question : Str) (segs : List Str)
    (stored : List Question) : Prop :=
  ((∀ s ∈ segs, s = []) ∧ stored = questions) ∨
    ((∃ s ∈ segs, s ≠ []) ∧ ∃ q : Question, stored = questions ++ [q] ∧ q.question = question ∧
      ∀ a, a ∈ q.answers ↔ ∃ s ∈ segs, s ≠ [] ∧ lo s = a)

theorem colons_eq : colons = [colon, colon] := by decide

/-- The first segment ends where `find` stops. -/
theorem segments_find (s : Str) : segments s =
    match find colons s with
    | none => [s]
    | some pos => s.take pos :: segments (s.drop (pos + 2)) := by
  rw [colons_eq]
  induction s using segments.induct with
  | case1 => rfl
  | case2 c => simp [segments, find, List.isPrefixOf]
  | case3 c d s hcd =>
    have hfind : find [colon, colon] (c :: d :: s) = some 0 := by
      simp [find, List.isPrefixOf, hcd.1, hcd.2]
    rw [hfind, segments, if_pos hcd]
    rfl
  | case4 c d s hcd ih =>
    have hfind : find [colon, colon] (c :: d :: s) =
        (find [colon, colon] (d :: s)).map (· + 1) := by
      have hno : ¬ (colon = c ∧ colon = d) := fun h => hcd ⟨h.1.symm, h.2.symm⟩
      rw [find, if_neg (by simpa [List.isPrefixOf] using hno)]
    rw [hfind, segments, if_neg hcd, ih]
    cases find [colon, colon] (d :: s) with
    | none => rfl
    | some pos => rfl

theorem addanswers_eq {fuel : ℕ} {data : Str} (hf : data.length ≤ fuel) (answers : List Str) :
    addanswers fuel data answers =
      ((segments data).takeWhile (· ≠ [])).foldl (fun answers s => answers.insert (lo s)) answers := by
  induction fuel generalizing data answers with
  | zero =>
    obtain rfl : data = [] := List.length_eq_zero_iff.mp (by omega)
    rfl
  | succ fuel ih =>
    rw [addanswers, segments_find]
    by_cases hd : data.length = 0
    · obtain rfl : data = [] := List.length_eq_zero_iff.mp hd
      rfl
    · rw [if_neg hd]
      have hne : data ≠ [] := fun he => hd (by simp [he])
      cases hfind : find colons data with
      | none => simp [hne]
      | some pos =>
        cases pos with
        | zero => simp
        | succ pos =>
          have hi := @ih (data.drop (pos + 1 + 2)) (by rw [List.length_drop]; omega)
            (answers.insert (lo (data.take (pos + 1))))
          have htake : data.take (pos + 1) ≠ [] := by simp [hne]
          simp only [hi, List.takeWhile_cons, htake, ne_eq, not_false_eq_true, decide_true,
            if_true, List.foldl_cons]

theorem mem_answers (segs answers : List Str) (a : Str) :
    a ∈ segs.foldl (fun answers s => answers.insert (lo s)) answers ↔
      a ∈ answers ∨ a ∈ segs.map lo := by
  induction segs generalizing answers with
  | nil => simp
  | cons s segs ih =>
    rw [List.foldl_cons, ih, List.mem_insert_iff, List.map_cons, List.mem_cons]
    constructor
    · rintro ((h | h) | h)
      · exact .inr (.inl h)
      · exact .inl h
      · exact .inr (.inr h)
    · rintro (h | h | h)
      · exact .inl (.inr h)
      · exact .inl (.inl h)
      · exact .inr h

/-- The answers that are stored are the segments before the first empty one. -/
theorem addquestion_spec (questions : List Question) {data : Str} {pos : ℕ}
    (h : find slashes data = some pos) :
    let before := (segments (data.drop (pos + 2))).takeWhile (· ≠ [])
    (before = [] ∧ addquestion questions data = questions) ∨
      (before ≠ [] ∧ ∃ q : Question, addquestion questions data = questions ++ [q] ∧
        q.question = data.take pos ∧ ∀ a, a ∈ q.answers ↔ a ∈ before.map lo) := by
  intro before
  let answers := before.foldl (fun answers s => answers.insert (lo s)) []
  have hmem : ∀ a, a ∈ answers ↔ a ∈ before.map lo := by
    intro a
    simpa using mem_answers before [] a
  have hadd : addquestion questions data =
      if answers = [] then questions else questions ++ [⟨data.take pos, answers⟩] := by
    simp only [addquestion, h, addanswers_eq le_rfl, answers, before]
  by_cases hb : before = []
  · refine .inl ⟨hb, ?_⟩
    have hnil : answers = [] := by simp only [answers, hb, List.foldl_nil]
    rw [hadd, if_pos hnil]
  · refine .inr ⟨hb, ⟨data.take pos, answers⟩, ?_, rfl, hmem⟩
    obtain ⟨s, l, hs⟩ := List.exists_cons_of_ne_nil hb
    have hne : answers ≠ [] := List.ne_nil_of_mem ((hmem (lo s)).mpr (by simp [hs]))
    rw [hadd, if_neg hne]

/-- A line is read as it should be exactly if the segments after the first empty one are
empty or repeat, but for the case of the letters, one before it. -/
theorem addquestion_iff (questions : List Question) {data : Str} {pos : ℕ}
    (h : find slashes data = some pos) :
    let segs := segments (data.drop (pos + 2))
    Stored questions (data.take pos) segs (addquestion questions data) ↔
      ∀ s ∈ segs.dropWhile (· ≠ []), s ≠ [] → lo s ∈ (segs.takeWhile (· ≠ [])).map lo := by
  intro segs
  have hspec := addquestion_spec questions h
  have hbefore : ∀ s ∈ segs.takeWhile (· ≠ []), s ∈ segs ∧ s ≠ [] := by
    intro s hs
    exact ⟨(List.takeWhile_sublist _).subset hs, by simpa using List.mem_takeWhile_imp hs⟩
  constructor
  · intro hst s hs hne
    have hmem : s ∈ segs := (List.dropWhile_sublist _).subset hs
    rcases hst with ⟨hall, -⟩ | ⟨-, q, hq, -, hans⟩
    · exact absurd (hall s hmem) hne
    · rcases hspec with ⟨-, hno⟩ | ⟨-, q', hq', -, hans'⟩
      · rw [hno] at hq
        exact absurd hq (by simp)
      · obtain rfl : q' = q := by
          rw [hq'] at hq
          exact List.singleton_inj.mp (List.append_cancel_left hq)
        exact (hans' _).mp ((hans _).mpr ⟨s, hmem, hne, rfl⟩)
  · intro hcond
    -- every segment that is not empty gives an answer that is stored
    have hall : ∀ s ∈ segs, s ≠ [] → lo s ∈ (segs.takeWhile (· ≠ [])).map lo := by
      intro s hs hne
      rw [← @List.takeWhile_append_dropWhile _ (· ≠ []) segs] at hs
      rcases List.mem_append.mp hs with hs | hs
      · exact List.mem_map_of_mem hs
      · exact hcond s hs hne
    rcases hspec with ⟨hnil, hno⟩ | ⟨hne, q, hq, hquestion, hans⟩
    · refine .inl ⟨?_, hno⟩
      intro s hs
      by_contra hne
      have hlo := hall s hs hne
      rw [hnil] at hlo
      exact absurd hlo (by simp)
    · obtain ⟨s, l, hs⟩ := List.exists_cons_of_ne_nil hne
      obtain ⟨hmem, hsne⟩ := hbefore s (by rw [hs]; simp)
      refine .inr ⟨⟨s, hmem, hsne⟩, q, hq, hquestion, ?_⟩
      intro a
      rw [hans a]
      constructor
      · intro ha
        obtain ⟨s, hs, rfl⟩ := List.mem_map.mp ha
        exact ⟨s, (hbefore s hs).1, (hbefore s hs).2, rfl⟩
      · rintro ⟨s, hs, hne, rfl⟩
        exact hall s hs hne

/-- An empty segment that is followed by a repeated one only. -/
theorem addquestion_iff_repeated :
    Stored [] (bytes "q") (segments (bytes "yes::::YES"))
      (addquestion [] (bytes "q//yes::::YES")) := by
  have hfind : find slashes (bytes "q//yes::::YES") = some 1 := by decide
  exact (addquestion_iff [] hfind).mpr (by decide)

/-- The answer after an empty segment is dropped. -/
theorem addquestion_drops : segments (bytes "a::::b") = [bytes "a", [], bytes "b"] ∧
    addquestion [] (bytes "q//a::::b") = [⟨bytes "q", [bytes "a"]⟩] ∧
    ¬ Stored [] (bytes "q") (segments (bytes "a::::b")) (addquestion [] (bytes "q//a::::b")) := by
  have hsegs : segments (bytes "a::::b") = [bytes "a", [], bytes "b"] := by decide
  have hadd : addquestion [] (bytes "q//a::::b") = [⟨bytes "q", [bytes "a"]⟩] := by rfl
  refine ⟨hsegs, hadd, ?_⟩
  rw [hsegs, hadd]
  rintro (⟨hall, -⟩ | ⟨-, q, hq, -, hans⟩)
  · exact absurd (hall (bytes "a") (by decide)) (by decide)
  · obtain rfl : (⟨bytes "q", [bytes "a"]⟩ : Question) = q := List.singleton_inj.mp hq
    have hb := (hans (bytes "b")).mpr ⟨bytes "b", by decide, by decide, by decide⟩
    exact absurd hb (by decide)

end CenterIM.CaptchaQuestions
