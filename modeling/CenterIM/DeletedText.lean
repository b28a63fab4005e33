import CenterIM.TypedText

/-!
# What deleting does to the text

After a character is deleted, `mergeline` moves words back to the lines before. The text loses
just that character exactly when the lines that are merged because of it settle.
-/
namespace CenterIM.DeletedText
open ByteText TextEditor DisplayLines TypedText

/-- What `mergeline` makes of a line and the next one: nothing, or a line that is done, if the
next one does not fit as a whole, and the line to go on with. -/
def joinStep (w : ℕ) (p next : Str) : Option (Option Str × Str) :=
  if p.getLast? = some blank ∧ next ≠ [] then
    if p.length ≤ w ∧ w - p.length < next.length then
      (lastDelim (next.take (w - p.length))).map fun asub =>
        (some (p ++ next.take (asub + 1)), next.drop (asub + 1))
    else some (none, p ++ next)
  else none

def merged (w : ℕ) : List Str → Str → List Str
  | [], p => [p]
  | next :: rest, p =>
    match joinStep w p next with
    | none => p :: next :: rest
    | some (done, cur) => done.toList ++ merged w rest cur

/-- A display line that ends in a blank takes in the next one when there is room for it, and else
the words of it for which there is room. -/
inductive TakesIn (w : ℕ) (p next : Str) : Option Str → Str → Prop
  | whole : p.getLast? = some blank → next ≠ [] → (w < p.length ∨ p.length + next.length ≤ w) →
      TakesIn w p next none (p ++ next)
  | words {i : ℕ} : p.getLast? = some blank → p.length ≤ w → w < p.length + next.length →
      DelimAt next i → p.length + i < w → (∀ j > i, p.length + j < w → ¬DelimAt next j) →
      TakesIn w p next (some (p ++ next.take (i + 1))) (next.drop (i + 1))

/-- A line, at the end of which the text has a break or none, settles with the lines after it:
a line that stays has a break after it just when the text has; a line takes in another one only
where the text has no break, and no line that is done has one. -/
inductive Settles (w : ℕ) : List Str → Str → Bool → Prop
  | alone {p : Str} {b : Bool} : Settles w [] p b
  | stays {p next : Str} {rest : List Str} {b : Bool} : (∀ done cur, ¬TakesIn w p next done cur) →
      hard w p = b → Settles w (next :: rest) p b
  | takes {p next cur : Str} {done : Option Str} {rest : List Str} : TakesIn w p next done cur →
      (∀ d ∈ done, hard w d = false) → Settles w rest cur (hard w next) →
      Settles w (next :: rest) p false

theorem joinStep_blank {w : ℕ} {p next : Str} {r : Option Str × Str} (h : joinStep w p next = some r) :
    p.getLast? = some blank ∧ next ≠ [] := by
  unfold joinStep at h
  split_ifs at h with h1
  · exact h1
  · exact h1

theorem lastDelim_some {n : Str} {a : ℕ} (h : lastDelim n = some a) :
    DelimAt n a ∧ ∀ j > a, ¬DelimAt n j := by
  obtain ⟨sub, hsub, rfl⟩ := Option.map_eq_some_iff.mp h
  obtain ⟨-, h2, -⟩ := nextDelim_some hsub
  obtain ⟨hd, -, hlast⟩ := lastSub_spec (fun _ => true) (Nat.le_add_left n.length sub) h2
  refine ⟨hd, fun j hj hdj => ?_⟩
  obtain ⟨o, -, -, hok⟩ := hlast j hj hdj
  cases hok

theorem lastDelim_none {n : Str} : lastDelim n = none ↔ ∀ j, ¬DelimAt n j := by
  constructor
  · intro h j
    exact nextDelim_none (Option.map_eq_none_iff.mp h) (Nat.zero_le j)
  · intro h
    cases hl : lastDelim n with
    | none => rfl
    | some a => exact absurd (lastDelim_some hl).1 (h a)

theorem lastDelim_eq {n : Str} {a : ℕ} (hd : DelimAt n a) (hlast : ∀ j > a, ¬DelimAt n j) :
    lastDelim n = some a := by
  cases hl : lastDelim n with
  | none => exact absurd hd (lastDelim_none.mp hl a)
  | some b =>
    obtain ⟨hdb, hlastb⟩ := lastDelim_some hl
    rcases Nat.lt_trichotomy a b with h | h | h
    · exact absurd hdb (hlast b h)
    · rw [h]
    · exact absurd hd (hlastb a h)

theorem delimAt_take {n : Str} {m i : ℕ} : DelimAt (n.take m) i ↔ i < m ∧ DelimAt n i := by
  constructor
  · rintro ⟨c, hc, hd⟩
    have hlt := delimAt_lt ⟨c, hc, hd⟩
    rw [List.length_take] at hlt
    rw [List.getElem?_take_of_lt (by omega)] at hc
    exact ⟨by omega, c, hc, hd⟩
  · rintro ⟨hlt, c, hc, hd⟩
    exact ⟨c, by rwa [List.getElem?_take_of_lt hlt], hd⟩

/-- `mergeline` takes in the next line as it should. -/
theorem joinStep_iff {w : ℕ} {p next cur : Str} {done : Option Str} :
    joinStep w p next = some (done, cur) ↔ TakesIn w p next done cur := by
  constructor
  · intro h
    unfold joinStep at h
    split_ifs at h with h1 h2
    · obtain ⟨a, ha, heq⟩ := Option.map_eq_some_iff.mp h
      obtain ⟨rfl, rfl⟩ := Prod.mk.inj heq
      obtain ⟨hd, hlast⟩ := lastDelim_some ha
      obtain ⟨hlt, hd⟩ := delimAt_take.mp hd
      exact .words h1.1 h2.1 (by omega) hd (by omega) fun j hj hjw hdj =>
        hlast j hj (delimAt_take.mpr ⟨by omega, hdj⟩)
    · obtain ⟨rfl, rfl⟩ := Prod.mk.inj (Option.some.inj h)
      exact .whole h1.1 h1.2 (by omega)
  · intro h
    cases h with
    | whole hb hne hroom => rw [joinStep, if_pos ⟨hb, hne⟩, if_neg (by omega)]
    | @words i hb hw hlong hd hi hlast =>
      have hne : next ≠ [] := by
        rintro rfl
        exact absurd (delimAt_lt hd) (by simp)
      have hat : lastDelim (next.take (w - p.length)) = some i :=
        lastDelim_eq (delimAt_take.mpr ⟨by omega, hd⟩) fun j hj hdj =>
          hlast j hj (by have := (delimAt_take.mp hdj).1; omega) (delimAt_take.mp hdj).2
      rw [joinStep, if_pos ⟨hb, hne⟩, if_pos ⟨hw, by omega⟩, hat]
      rfl

theorem joinStep_none {w : ℕ} {p next : Str} :
    joinStep w p next = none ↔ ∀ done cur, ¬TakesIn w p next done cur := by
  rw [Option.eq_none_iff_forall_ne_some]
  constructor
  · exact fun h done cur ht => h _ (joinStep_iff.mpr ht)
  · rintro h ⟨done, cur⟩ hj
    exact h done cur (joinStep_iff.mp hj)

theorem settles_cons {w : ℕ} {p next : Str} {rest : List Str} {b : Bool} :
    Settles w (next :: rest) p b ↔
      match joinStep w p next with
      | none => hard w p = b
      | some (done, cur) =>
        b = false ∧ (∀ d ∈ done, hard w d = false) ∧ Settles w rest cur (hard w next) := by
  cases hj : joinStep w p next with
  | none =>
    refine ⟨fun h => ?_, fun h => .stays (joinStep_none.mp hj) h⟩
    cases h with
    | stays _ hb => exact hb
    | takes ht => exact absurd ht (joinStep_none.mp hj _ _)
  | some r =>
    obtain ⟨done, cur⟩ := r
    have hr := joinStep_iff.mp hj
    refine ⟨fun h => ?_, ?_⟩
    · cases h with
      | stays hno _ => exact absurd hr (hno _ _)
      | takes ht hd hs =>
        obtain ⟨rfl, rfl⟩ := Prod.mk.inj (Option.some.inj (hj.symm.trans (joinStep_iff.mpr ht)))
        exact ⟨rfl, hd, hs⟩
    · rintro ⟨rfl, hd, hs⟩
      exact .takes hr hd hs

/-- A line and the next one are joined: the texts of both are all there. -/
theorem joinStep_spec {w : ℕ} {p next cur : Str} {done : Option Str}
    (h : joinStep w p next = some (done, cur)) : cur ≠ [] ∧ ((done = none ∧ cur = p ++ next) ∨
      ∃ a, next.take (a + 1) ≠ [] ∧ done = some (p ++ next.take (a + 1)) ∧
        cur = next.drop (a + 1) ∧ p.length + a < w ∧ w < p.length + next.length ∧
        ∀ j > a, p.length + j < w → ¬DelimAt next j) := by
  cases joinStep_iff.mp h with
  | whole hb hne _ => exact ⟨by simp [hne], .inl ⟨rfl, rfl⟩⟩
  | @words a hb hw hlong hd ha hlast =>
    have hlt := delimAt_lt hd
    refine ⟨?_, .inr ⟨a, ?_, rfl, rfl, ha, hlong, hlast⟩⟩
    · rw [ne_eq, List.drop_eq_nil_iff]
      omega
    · rw [ne_eq, List.take_eq_nil_iff]
      rintro (h0 | rfl)
      · cases h0
      · exact absurd hlt (by simp)

theorem merged_stays {w : ℕ} {p : Str} (h : p.getLast? ≠ some blank) (rest : List Str) :
    merged w rest p = p :: rest := by
  cases rest with
  | nil => rfl
  | cons next rest =>
    have hn : joinStep w p next = none := if_neg fun hc => h hc.1
    rw [merged, hn]

theorem mergeline_stays {w : ℕ} {p : Str} (h : p.getLast? ≠ some blank) (ln : ℤ) (rest : List Str)
    (px py : ℤ) : mergeline w ln (p :: rest) false px py = (p :: rest, px, py) := by
  cases rest <;> rw [mergeline, if_pos ⟨h, rfl⟩]

theorem mergeline_none {w : ℕ} {p next : Str} (h : joinStep w p next = none) (ln : ℤ)
    (rest : List Str) (px py : ℤ) :
    mergeline w ln (p :: next :: rest) false px py = (p :: next :: rest, px, py) := by
  by_cases hb : p.getLast? = some blank
  · rw [mergeline, if_neg (fun hc => hc.1 hb)]
    by_cases hn : next = []
    · simp [hn]
    · have hj : joinStep w p next = _ := if_pos ⟨hb, hn⟩
      rw [hj] at h
      dsimp only
      rw [if_pos (.inl hn)]
      split_ifs at h with hlong
      rw [if_pos hlong, Option.map_eq_none_iff.mp h]
  · exact mergeline_stays hb ..

theorem mergeline_whole {w : ℕ} {p next cur : Str} (h : joinStep w p next = some (none, cur))
    (ln : ℤ) (rest : List Str) (px py : ℤ) :
    ∃ px', mergeline w ln (p :: next :: rest) false px py =
      (let py' := if ln = py - 1 then py - 1 else py
      if cur.getLast? = some blank then mergeline w ln (cur :: rest) false px' py'
      else (cur :: rest, px', py')) := by
  obtain ⟨hb, hn⟩ := joinStep_blank h
  have hj : joinStep w p next = _ := if_pos ⟨hb, hn⟩
  rw [hj] at h
  rw [mergeline, if_neg (fun hc => hc.1 hb)]
  dsimp only
  rw [if_pos (.inl hn)]
  by_cases hlong : p.length ≤ w ∧ w - p.length < next.length
  · rw [if_pos hlong] at h
    obtain ⟨a, -, ha⟩ := Option.map_eq_some_iff.mp h
    exact absurd (Prod.mk.inj ha).1 (by simp)
  · rw [if_neg hlong] at h
    obtain rfl := (Prod.mk.inj (Option.some.inj h)).2
    rw [if_neg hlong]
    split_ifs <;> exact ⟨_, rfl⟩

theorem mergeline_part {w : ℕ} {p next cur d : Str} (h : joinStep w p next = some (some d, cur))
    (ln : ℤ) (rest : List Str) (px py : ℤ) :
    ∃ px' pxdeltamerge py', (py' = py ∨ ln = py - 1 ∧ py' = py - 1) ∧
      mergeline w ln (p :: next :: rest) false px py =
        (let r := mergeline w (ln + 1) (cur :: rest) false pxdeltamerge py'
        (d :: r.1, px', r.2.2)) := by
  obtain ⟨hb, hn⟩ := joinStep_blank h
  have hj : joinStep w p next = _ := if_pos ⟨hb, hn⟩
  rw [hj] at h
  rw [mergeline, if_neg (fun hc => hc.1 hb)]
  dsimp only
  rw [if_pos (.inl hn)]
  by_cases hlong : p.length ≤ w ∧ w - p.length < next.length
  · rw [if_pos hlong] at h
    obtain ⟨a, ha, heq⟩ := Option.map_eq_some_iff.mp h
    obtain ⟨hd, rfl⟩ := Prod.mk.inj heq
    obtain rfl := Option.some.inj hd
    rw [if_pos hlong, ha]
    dsimp only
    split_ifs with h1 h2
    · exact ⟨_, _, _, .inr ⟨h1.1, rfl⟩, rfl⟩
    · exact ⟨_, _, _, .inl rfl, rfl⟩
    · exact ⟨_, _, _, .inl rfl, rfl⟩
  · rw [if_neg hlong] at h
    exact absurd (Prod.mk.inj (Option.some.inj h)).1 (by simp)

theorem mergeline_lines (w : ℕ) (ln : ℤ) (rest : List Str) (p : Str) (px py : ℤ) :
    (mergeline w ln (p :: rest) false px py).1 = merged w rest p := by
  induction rest generalizing p ln px py with
  | nil =>
    rw [mergeline]
    split_ifs <;> rfl
  | cons next rest ih =>
    rw [merged]
    rcases hj : joinStep w p next with _ | ⟨_ | d, cur⟩
    · rw [mergeline_none hj]
    · obtain ⟨px', hm⟩ := mergeline_whole hj ln rest px py
      rw [hm]
      by_cases hlast : cur.getLast? = some blank
      · simp only [if_pos hlast]
        exact ih ..
      · simp only [if_neg hlast, merged_stays hlast]
        rfl
    · obtain ⟨_, _, _, -, hm⟩ := mergeline_part hj ln rest px py
      rw [hm]
      exact congrArg (d :: ·) (ih ..)

/-- Merging from the cursor's line on does not move the cursor to another line. -/
theorem mergeline_py {w : ℕ} {ln : ℤ} (rest : List Str) (p : Str) (px : ℤ) {py : ℤ} (h : py - 1 < ln) :
    (mergeline w ln (p :: rest) false px py).2.2 = py := by
  induction rest generalizing p ln px py with
  | nil =>
    rw [mergeline]
    split_ifs <;> rfl
  | cons next rest ih =>
    have hln : ln ≠ py - 1 := by omega
    rcases hj : joinStep w p next with _ | ⟨_ | d, cur⟩
    · rw [mergeline_none hj]
    · obtain ⟨px', hm⟩ := mergeline_whole hj ln rest px py
      rw [hm, if_neg hln]
      dsimp only
      split_ifs
      · exact ih _ _ h
      · rfl
    · obtain ⟨_, _, py', hpy | hpy, hm⟩ := mergeline_part hj ln rest px py
      · rw [hm, hpy]
        exact ih _ _ (by omega)
      · exact absurd hpy.1 hln

theorem merged_head (w : ℕ) (rest : List Str) (p : Str) :
    ∃ x tail, merged w rest p = (p ++ x) :: tail := by
  induction rest generalizing p with
  | nil => exact ⟨[], [], by rw [merged, List.append_nil]⟩
  | cons next rest ih =>
    rw [merged]
    cases hj : joinStep w p next with
    | none => exact ⟨[], next :: rest, by simp⟩
    | some r =>
      obtain ⟨done, cur⟩ := r
      obtain ⟨-, ⟨rfl, rfl⟩ | ⟨a, -, rfl, -⟩⟩ := joinStep_spec hj
      · obtain ⟨x, tail, hx⟩ := ih (p ++ next)
        exact ⟨next ++ x, tail, by simp [hx]⟩
      · exact ⟨_, _, rfl⟩

theorem merged_ne_nil (w : ℕ) (rest : List Str) (p : Str) : merged w rest p ≠ [] := by
  obtain ⟨x, tail, hx⟩ := merged_head w rest p
  rw [hx]
  exact List.cons_ne_nil _ _

def Stuck (w : ℕ) : List Str → Prop
  | p :: next :: _ => joinStep w p next = none
  | _ => True

theorem merged_of_stuck {w : ℕ} {p : Str} {rest : List Str} (h : Stuck w (p :: rest)) :
    merged w rest p = p :: rest := by
  cases rest with
  | nil => rfl
  | cons next rest =>
    have hj : joinStep w p next = none := h
    rw [merged, hj]

theorem stuck_done {w : ℕ} {p next cur d : Str} (h : joinStep w p next = some (some d, cur))
    (rest : List Str) : Stuck w (d :: merged w rest cur) := by
  obtain ⟨-, ⟨hd, -⟩ | ⟨a, -, hd, rfl, ha, hlong, hlast⟩⟩ := joinStep_spec h
  · exact absurd hd (by simp)
  obtain rfl := Option.some.inj hd
  obtain ⟨x, tail, hx⟩ := merged_head w rest (next.drop (a + 1))
  have hlen : (p ++ next.take (a + 1)).length = p.length + (a + 1) := by
    rw [List.length_append, List.length_take, min_eq_left (by omega)]
  rw [hx]
  refine joinStep_none.mpr fun done cur ht => ?_
  cases ht with
  | whole _ _ hroom =>
    rw [hlen, List.length_append, List.length_drop] at hroom
    omega
  | @words i _ _ _ hd hi _ =>
    rw [hlen] at hi
    refine hlast (a + 1 + i) (by omega) (by omega) ?_
    obtain ⟨c, hc, hdc⟩ := hd
    rw [List.getElem?_append_left (by rw [List.length_drop]; omega), List.getElem?_drop] at hc
    exact ⟨c, hc, hdc⟩

theorem stuck_merged (w : ℕ) (rest : List Str) (p : Str) : Stuck w (merged w rest p) := by
  induction rest generalizing p with
  | nil => trivial
  | cons next rest ih =>
    rw [merged]
    cases hj : joinStep w p next with
    | none => exact hj
    | some r =>
      obtain ⟨done, cur⟩ := r
      cases done with
      | none => exact ih cur
      | some d => exact stuck_done hj rest

theorem text_join {w : ℕ} {p next cur : Str} {done : Option Str} {b : Bool} {rest : List Str}
    (hj : joinStep w p next = some (done, cur)) (hnext : lf ∉ next)
    (hcur : text w (merged w rest cur) = cur ++ after w b rest ↔ Settles w rest cur b) :
    text w (done.toList ++ merged w rest cur) = p ++ (next ++ after w b rest) ↔
      (∀ d ∈ done, hard w d = false) ∧ Settles w rest cur b := by
  rw [← hcur]
  obtain ⟨hne, ⟨rfl, rfl⟩ | ⟨a, -, rfl, rfl, -⟩⟩ := joinStep_spec hj
  · simp
  have hsplit : p ++ (next ++ after w b rest) =
      (p ++ next.take (a + 1)) ++ (next.drop (a + 1) ++ after w b rest) := by
    rw [List.append_assoc, ← List.append_assoc (next.take _), List.take_append_drop]
  rw [Option.toList_some, List.singleton_append, text_cons, after, if_neg (merged_ne_nil w _ _), hsplit,
    List.append_cancel_left_eq]
  cases hd : hard w (p ++ next.take (a + 1)) with
  | false => simp [brk, hd]
  | true =>
    refine iff_of_false (fun he => ?_) fun h => by simp [hd] at h
    cases hdrop : next.drop (a + 1) with
    | nil => exact hne hdrop
    | cons c s =>
      rw [hdrop] at he
      obtain rfl : lf = c := (List.cons.inj he).1
      exact hnext (List.mem_of_mem_drop (by rw [hdrop]; exact List.mem_cons_self))

/-- The text of a line that was joined goes on with a character of the next line. -/
theorem text_join_head {w : ℕ} {p next cur : Str} {done : Option Str}
    (hj : joinStep w p next = some (done, cur)) (rest : List Str) :
    ∃ c u, c ∈ next ∧ text w (done.toList ++ merged w rest cur) = p ++ c :: u := by
  obtain ⟨-, ⟨rfl, rfl⟩ | ⟨a, ha, rfl, -⟩⟩ := joinStep_spec hj
  · obtain ⟨x, tail, hx⟩ := merged_head w rest (p ++ next)
    obtain ⟨c, s, rfl⟩ := List.exists_cons_of_ne_nil (joinStep_blank hj).2
    refine ⟨c, s ++ (x ++ after w (hard w (p ++ c :: s ++ x)) tail), List.mem_cons_self, ?_⟩
    rw [Option.toList_none, List.nil_append, hx, text_cons]
    simp
  · obtain ⟨c, s, hs⟩ := List.exists_cons_of_ne_nil ha
    have hc : c ∈ next.take (a + 1) := by simp [hs]
    refine ⟨c, s ++ after w (hard w (p ++ c :: s)) (merged w rest cur), List.mem_of_mem_take hc, ?_⟩
    rw [Option.toList_some, List.singleton_append, text_cons, hs]
    simp

/-- The text of the merged lines is what it was exactly when the line settles. -/
theorem text_merged_iff {w : ℕ} {rest : List Str} (hrest : ∀ l ∈ rest, lf ∉ l) (p : Str) (b : Bool) :
    text w (merged w rest p) = p ++ after w b rest ↔ Settles w rest p b := by
  induction rest generalizing p b with
  | nil =>
    rw [merged, text, after_nil, List.append_nil]
    exact iff_of_true rfl .alone
  | cons next rest ih =>
    have hnext : lf ∉ next := hrest next List.mem_cons_self
    rw [merged, settles_cons]
    cases hj : joinStep w p next with
    | none =>
      simp only [text_cons w p, after_cons, List.append_cancel_left_eq]
      exact ⟨brk_inj _, fun h => by rw [h]⟩
    | some r =>
      obtain ⟨done, cur⟩ := r
      have hjoin := text_join hj hnext (ih (fun l hl => hrest l (List.mem_cons_of_mem _ hl)) cur (hard w next))
      simp only
      rw [← hjoin, after_cons, text_cons]
      cases b with
      | false => simp [brk]
      | true =>
        refine iff_of_false (fun he => ?_) fun h => by simp at h
        obtain ⟨c, u, hc, hu⟩ := text_join_head hj rest
        rw [hu, List.append_cancel_left_eq] at he
        obtain rfl : c = lf := (List.cons.inj he).1
        exact hnext hc

theorem forall_merged {P : Byte → Prop} (w : ℕ) (rest : List Str) (p : Str)
    (h : ∀ l ∈ p :: rest, ∀ c ∈ l, P c) : ∀ l ∈ merged w rest p, ∀ c ∈ l, P c := by
  induction rest generalizing p with
  | nil => exact h
  | cons next rest ih =>
    rw [merged]
    cases hj : joinStep w p next with
    | none => exact h
    | some r =>
      obtain ⟨done, cur⟩ := r
      simp only [List.forall_mem_cons] at h ih
      obtain ⟨hp, hnext, hrest⟩ := h
      obtain ⟨-, ⟨rfl, rfl⟩ | ⟨a, -, rfl, rfl, -⟩⟩ := joinStep_spec hj
      · exact ih _ ⟨fun c hc => (List.mem_append.mp hc).elim (hp c) (hnext c), hrest⟩
      · simp only [Option.toList_some, List.singleton_append, List.forall_mem_cons]
        exact ⟨fun c hc => (List.mem_append.mp hc).elim (hp c) fun hc => hnext c (List.mem_of_mem_take hc),
          ih _ ⟨fun c hc => hnext c (List.mem_of_mem_drop hc), hrest⟩⟩

theorem mergeline_stuck {w : ℕ} {lines : List Str} (h : Stuck w lines) (ln px py : ℤ) :
    (mergeline w ln lines false px py).1 = lines := by
  cases lines with
  | nil => rw [mergeline]
  | cons p rest => rw [mergeline_lines, merged_of_stuck h]

/-- Where the cursor is after its line was merged with the one before: there, or still in its
line, if that line is done. -/
theorem mergeline_join_py {w : ℕ} {p next cur : Str} {done : Option Str}
    (hj : joinStep w p next = some (done, cur)) (rest : List Str) (px : ℤ) {ln py : ℤ} (h : ln = py - 1) :
    (mergeline w ln (p :: next :: rest) false px py).2.2 = py - 1 ∨
      done ≠ none ∧ (mergeline w ln (p :: next :: rest) false px py).2.2 = py := by
  cases done with
  | none =>
    obtain ⟨px', hm⟩ := mergeline_whole hj ln rest px py
    rw [hm, if_pos h]
    left
    dsimp only
    split_ifs
    · exact mergeline_py _ _ _ (by omega)
    · rfl
  | some d =>
    obtain ⟨_, _, py', hpy | hpy, hm⟩ := mergeline_part hj ln rest px py
    · rw [hm, hpy]
      exact .inr ⟨by simp, mergeline_py _ _ _ (by omega)⟩
    · rw [hm, hpy.2]
      exact .inl (mergeline_py _ _ _ (by omega))

def shortened (e : Editor) : Str := (current e).eraseIdx e.col

def joinBefore (e : Editor) : Option (Option Str × Str) :=
  match e.line with
  | 0 => none
  | prev + 1 => joinStep e.width (e.lines.getD prev []) (shortened e)

/-- The text lacks the character at the cursor, and is otherwise the same. -/
def Deleted (e e' : Editor) : Prop := shown e' = (shown e).eraseIdx (place e)

def before (e : Editor) : Option Str :=
  match e.line with
  | 0 => none
  | prev + 1 => some (e.lines.getD prev [])

/-- When deleting a character removes just that. The shortened line settles with the lines after it;
when the line before takes it in, there is no break between them, the line that is done has none
after it, and what is left settles. -/
def DeleteSettles (e : Editor) : Prop :=
  ((∀ q ∈ before e, ∀ done cur, ¬TakesIn e.width q (shortened e) done cur) →
    Settles e.width (e.lines.drop (e.line + 1)) (shortened e) (hard e.width (current e))) ∧
  ∀ q ∈ before e, ∀ done cur, TakesIn e.width q (shortened e) done cur →
    hard e.width q = false ∧ (∀ d ∈ done, hard e.width d = false) ∧
      Settles e.width (e.lines.drop (e.line + 1)) cur (hard e.width (current e))

/-- What `mergeline` makes of the line before is as it should be. -/
theorem deleteSettles_iff (e : Editor) : DeleteSettles e ↔
    match joinBefore e with
    | none => Settles e.width (e.lines.drop (e.line + 1)) (shortened e) (hard e.width (current e))
    | some (done, cur) => hard e.width (e.lines.getD (e.line - 1) []) = false ∧
        (∀ d ∈ done, hard e.width d = false) ∧
        Settles e.width (e.lines.drop (e.line + 1)) cur (hard e.width (current e)) := by
  rw [DeleteSettles, joinBefore, before]
  cases hl : e.line with
  | zero => simp
  | succ prev =>
    simp only [Option.mem_def, Option.some.injEq, forall_eq', Nat.add_sub_cancel]
    cases hj : joinStep e.width (e.lines.getD prev []) (shortened e) with
    | none =>
      have hno := joinStep_none.mp hj
      exact ⟨fun h => h.1 hno, fun h => ⟨fun _ => h, fun _ _ ht => absurd ht (hno _ _)⟩⟩
    | some r =>
      obtain ⟨done, cur⟩ := r
      have hr := joinStep_iff.mp hj
      refine ⟨fun h => h.2 done cur hr, fun h => ⟨fun hno => absurd hr (hno _ _), fun done' cur' ht => ?_⟩⟩
      obtain ⟨rfl, rfl⟩ := Prod.mk.inj (Option.some.inj (hj.symm.trans (joinStep_iff.mpr ht)))
      exact h

def deletedLines (e : Editor) : List Str :=
  match joinBefore e with
  | none => e.lines.take e.line ++ merged e.width (e.lines.drop (e.line + 1)) (shortened e)
  | some (done, cur) => e.lines.take (e.line - 1) ++
      (done.toList ++ merged e.width (e.lines.drop (e.line + 1)) cur)

/-- The second merge of a deletion, when there is nothing left for it. -/
theorem merge_again {w n : ℕ} {lines : List Str} (h : Stuck w (lines.drop n)) (px : ℤ) :
    lines.take n ++ (mergeline w n (lines.drop n) false px n).1 = lines := by
  rw [mergeline_stuck h, List.take_append_drop]

theorem drop_prev {e : Editor} {prev : ℕ} (hl : e.line = prev + 1) (h : e.line < e.lines.length)
    (l : Str) : (e.lines.set e.line l).drop prev =
      e.lines.getD prev [] :: l :: e.lines.drop (e.line + 1) := by
  have hset : e.lines.set e.line l = e.lines.take e.line ++ l :: e.lines.drop (e.line + 1) := by
    rw [List.set_eq_take_append_cons_drop, if_pos h]
  have htake : e.lines.take e.line = e.lines.take prev ++ [e.lines.getD prev []] := by
    rw [hl, List.take_add_one, List.getD_eq_getElem _ _ (by omega), List.getElem?_eq_getElem (by omega)]
    rfl
  have hlen : (e.lines.take prev).length = prev := by
    rw [List.length_take]
    omega
  rw [hset, htake, List.append_assoc, List.drop_left' hlen]
  rfl

/-- The lines and the cursor after the line before was merged with the shortened line. -/
def firstMerge (e : Editor) : List Str × ℤ × ℤ :=
  let lines := e.lines.set e.line (shortened e)
  match e.line with
  | 0 => (lines, e.col, e.line)
  | prev + 1 =>
    let r := mergeline e.width prev (lines.drop prev) false e.col e.line
    (lines.take prev ++ r.1, r.2)

theorem eddel_eq {e : Editor} (hc : e.col < (current e).length) : e.eddel =
    (let f := firstMerge e
    let r := mergeline e.width f.2.2 (f.1.drop f.2.2.toNat) false f.2.1 f.2.2
    { e with lines := f.1.take f.2.2.toNat ++ r.1 }.setpos r.2.1 r.2.2) := if_pos hc

theorem joinBefore_some {e : Editor} {r : Option Str × Str} (h : joinBefore e = some r) :
    ∃ prev, e.line = prev + 1 ∧ joinStep e.width (e.lines.getD prev []) (shortened e) = some r := by
  unfold joinBefore at h
  cases hl : e.line with
  | zero => simp [hl] at h
  | succ prev =>
    rw [hl] at h
    exact ⟨prev, rfl, h⟩

theorem firstMerge_none {e : Editor} (h : e.line < e.lines.length) (hj : joinBefore e = none) :
    ∃ px, firstMerge e = (e.lines.set e.line (shortened e), px, (e.line : ℤ)) := by
  unfold joinBefore at hj
  cases hl : e.line with
  | zero => exact ⟨_, by simp only [firstMerge, hl]; rfl⟩
  | succ prev =>
    rw [hl] at hj
    refine ⟨e.col, ?_⟩
    simp only [firstMerge, hl]
    rw [← hl, drop_prev hl h, mergeline_none hj, ← drop_prev hl h, List.take_append_drop]

theorem firstMerge_some {e : Editor} (h : e.line < e.lines.length) {done : Option Str} {cur : Str}
    (hj : joinBefore e = some (done, cur)) :
    ∃ (px : ℤ) (n : ℕ), firstMerge e = (deletedLines e, px, (n : ℤ)) ∧
      (n = e.line - 1 ∨ done ≠ none ∧ n = e.line) := by
  rw [deletedLines, hj]
  obtain ⟨prev, hl, hstep⟩ := joinBefore_some hj
  have htake : (e.lines.set e.line (shortened e)).take prev = e.lines.take prev :=
    List.take_set_of_le (by omega)
  have hf : firstMerge e =
      let r := mergeline e.width prev
        (e.lines.getD prev [] :: shortened e :: e.lines.drop (e.line + 1)) false e.col e.line
      (e.lines.take prev ++ r.1, r.2) := by
    simp only [firstMerge, hl]
    rw [← hl, htake, drop_prev hl h]
  have hln : (prev : ℤ) = e.line - 1 := by omega
  have hpy := mergeline_join_py hstep (e.lines.drop (e.line + 1)) e.col hln
  rw [hf]
  simp only [mergeline_lines, merged, hstep, hl, Nat.add_sub_cancel]
  rw [hl] at hpy
  rcases hpy with hpy | ⟨hdone, hpy⟩
  · have hprev : ((prev + 1 : ℕ) : ℤ) - 1 = prev := by omega
    exact ⟨_, prev, Prod.ext rfl (Prod.ext rfl (hpy.trans hprev)), .inl rfl⟩
  · exact ⟨_, prev + 1, Prod.ext rfl (Prod.ext rfl hpy), .inr ⟨hdone, rfl⟩⟩

theorem eddel_lines {e : Editor} (h : e.line < e.lines.length) (hc : e.col < (current e).length) :
    e.eddel.width = e.width ∧ e.eddel.lines = deletedLines e := by
  rw [eddel_eq hc]
  refine ⟨(setpos_lines _ _ _).2, (setpos_lines _ _ _).1.trans ?_⟩
  rcases hj : joinBefore e with _ | ⟨done, cur⟩
  · obtain ⟨px, hf⟩ := firstMerge_none h hj
    have hlen : (e.lines.take e.line).length = e.line := by
      rw [List.length_take]
      omega
    rw [hf, deletedLines, hj]
    simp only [Int.toNat_natCast, List.set_eq_take_append_cons_drop, if_pos h]
    rw [List.take_left' hlen, List.drop_left' hlen, mergeline_lines]
  · obtain ⟨px, n, hf, hn⟩ := firstMerge_some h hj
    obtain ⟨prev, hl, hstep⟩ := joinBefore_some hj
    have hlen : (e.lines.take (e.line - 1)).length = e.line - 1 := by
      rw [List.length_take]
      omega
    rw [hf]
    simp only [Int.toNat_natCast]
    refine merge_again ?_ px
    rw [deletedLines, hj]
    dsimp only
    cases done with
    | none =>
      obtain rfl : n = e.line - 1 := hn.resolve_right fun hc => hc.1 rfl
      rw [List.drop_left' hlen]
      exact stuck_merged ..
    | some d =>
      rcases hn with rfl | ⟨-, rfl⟩
      · rw [List.drop_left' hlen]
        exact stuck_done hstep _
      · have hlen' : (e.lines.take (e.line - 1) ++ [d]).length = e.line := by
          rw [List.length_append, hlen, List.length_singleton]
          omega
        rw [Option.toList_some, ← List.append_assoc, List.drop_left' hlen']
        exact stuck_merged ..

theorem shown_eddel {e : Editor} (h : Valid e) (hc : e.col < (current e).length) :
    shown e.eddel = text e.width (deletedLines e) := by
  obtain ⟨hw, hl⟩ := eddel_lines h.line hc
  have hin := inLine_of_shown h.lines
  have hrest : ∀ l ∈ e.lines.drop (e.line + 1), ∀ c ∈ l, InLine c :=
    fun l hl => hin l (List.mem_of_mem_drop hl)
  have hcut : ∀ c ∈ shortened e, InLine c :=
    fun c hc => hin _ (current_mem h) c (List.mem_of_mem_eraseIdx hc)
  rw [shown, hw, hl]
  refine untab_save _ (shown_of_inLine ?_)
  rw [deletedLines]
  rcases hj : joinBefore e with _ | ⟨done, cur⟩
  · have hm := forall_merged e.width (e.lines.drop (e.line + 1)) (shortened e)
      (List.forall_mem_cons.mpr ⟨hcut, hrest⟩)
    exact List.forall_mem_append.mpr ⟨fun l hl => hin l (List.mem_of_mem_take hl), hm⟩
  · obtain ⟨prev, hl, hstep⟩ := joinBefore_some hj
    have hq : ∀ c ∈ e.lines.getD prev [], InLine c := by
      have := h.line
      rw [List.getD_eq_getElem _ _ (by omega)]
      exact hin _ (List.getElem_mem _)
    have hm := forall_merged e.width (shortened e :: e.lines.drop (e.line + 1)) (e.lines.getD prev [])
      (List.forall_mem_cons.mpr ⟨hq, List.forall_mem_cons.mpr ⟨hcut, hrest⟩⟩)
    rw [merged, hstep] at hm
    exact List.forall_mem_append.mpr ⟨fun l hl => hin l (List.mem_of_mem_take hl), hm⟩

theorem shown_eraseIdx {e : Editor} (h : Valid e) (hc : e.col < (current e).length) :
    (shown e).eraseIdx (place e) = textBefore e.width (e.lines.take e.line) ++ (shortened e ++
      after e.width (hard e.width (current e)) (e.lines.drop (e.line + 1))) := by
  rw [shown_split h, place, List.eraseIdx_append_of_length_le (Nat.le_add_right _ _),
    Nat.add_sub_cancel_left, List.eraseIdx_append_of_lt_length hc]
  rfl

/-- Deleting a character removes just it exactly when its line settles. -/
theorem deleted_iff {e : Editor} (h : Valid e) (hc : e.col < (current e).length) :
    Deleted e e.eddel ↔ DeleteSettles e := by
  have hrest : ∀ l ∈ e.lines.drop (e.line + 1), lf ∉ l :=
    fun l hl => (h.lines l (List.mem_of_mem_drop hl)).2
  rw [Deleted, shown_eddel h hc, shown_eraseIdx h hc, deleteSettles_iff, deletedLines]
  rcases hj : joinBefore e with _ | ⟨done, cur⟩
  · dsimp only
    rw [text_append _ _ (merged_ne_nil _ _ _), List.append_cancel_left_eq, text_merged_iff hrest]
  · obtain ⟨prev, hl, hstep⟩ := joinBefore_some hj
    have hcut : lf ∉ shortened e :=
      fun hm => (h.lines _ (current_mem h)).2 (List.mem_of_mem_eraseIdx hm)
    have hne : done.toList ++ merged e.width (e.lines.drop (e.line + 1)) cur ≠ [] := by
      simp [merged_ne_nil]
    have htake : e.lines.take e.line = e.lines.take prev ++ [e.lines.getD prev []] := by
      have := h.line
      rw [hl, List.take_add_one, List.getD_eq_getElem _ _ (by omega), List.getElem?_eq_getElem (by omega)]
      rfl
    have hbefore : textBefore e.width (e.lines.take e.line) =
        textBefore e.width (e.lines.take prev) ++
          (e.lines.getD prev [] ++ brk (hard e.width (e.lines.getD prev []))) := by
      rw [htake, textBefore, List.flatMap_append, List.flatMap_singleton]
      rfl
    have hprev : e.line - 1 = prev := by omega
    dsimp only
    rw [text_append _ _ hne, hbefore, hprev, List.append_assoc, List.append_cancel_left_eq]
    cases hq : hard e.width (e.lines.getD prev []) with
    | false =>
      rw [brk, if_neg Bool.false_ne_true, List.append_nil, text_join hstep hcut (text_merged_iff hrest cur _)]
      simp
    | true =>
      refine iff_of_false (fun he => ?_) fun hs => by cases hs.1
      obtain ⟨c, u, hc, hu⟩ := text_join_head hstep (e.lines.drop (e.line + 1))
      rw [hu, List.append_assoc, List.append_cancel_left_eq] at he
      obtain rfl : c = lf := (List.cons.inj he).1
      exact hcut hc

/-- A paragraph of two display lines, which are both wrapped when a character is typed. -/
def paragraph : Editor :=
  { width := 8, lines := [bytes "one two ", bytes "three"], sx := 0, col := 3, line := 0 }

theorem flows_paragraph : InsertFlows paragraph 120 := by
  refine ⟨@Flows.next _ _ (bytes "two ") _ _ _ _ (by decide) ((firstPart_iff (by decide)).mpr rfl)
    (by decide) ?_, fun h => absurd h (by decide)⟩
  refine @Flows.last _ _ (bytes "three") _ _ (by decide) ((firstPart_iff (by decide)).mpr rfl)
    (by decide) ?_
  exact .fits (by decide) (by decide) (.inl rfl)

/-- The words of a line that is shortened go to the line before, and the next line comes up. -/
def words : Editor :=
  { width := 8, lines := [bytes "one ", bytes "two six ", bytes "ten"], sx := 0, col := 0, line := 1 }

theorem settles_words : DeleteSettles words := by
  refine (deleteSettles_iff words).mpr ?_
  have hj : joinBefore words = some (some (bytes "one wo "), bytes "six ") := by decide
  rw [hj]
  refine ⟨by decide, by decide, ?_⟩
  exact .takes (.whole (by decide) (by decide) (by decide)) (by decide) .alone

/-- A line that is not full, and a full one, before a line that holds an x. -/
def short : Editor :=
  { width := 8, lines := [bytes "abcdefg", bytes "x"], sx := 0, col := 7, line := 0 }

def full : Editor :=
  { width := 8, lines := [bytes "abcdefgh", bytes "x"], sx := 0, col := 7, line := 0 }

end CenterIM.DeletedText
