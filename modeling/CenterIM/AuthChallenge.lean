import CenterIM.Event
import CenterIM.HttpResponse

/-!
# Authentication challenges

The parameters of a `WWW-Authenticate` field as `HTTPClient::Parse` takes them apart. A value
that is not in quotes is read up to a comma, so the last parameter keeps the value of the one
before it, and what it should have is read again for names.
-/
namespace CenterIM.AuthChallenge
open ByteText Decimal StrText Event HttpClient HTTPClient HttpResponse

/-- `map<string, string>`. -/
abbrev Params := OrderedMap Str Str strLt

abbrev comma : Byte := 44
abbrev equals : Byte := 61
abbrev quote : Byte := 34

/-- `", \t"`. -/
def isSep (c : Byte) : Bool := c == comma || c == blank || c == tab

/-- The value in front of a text, and the text behind it; a value without an end is not taken. -/
def readValue (val : Str) : Str → Str × Str
  | 34 :: t =>
    match t.idxOf? quote with
    | some j => (t.take j, t.drop (j + 1))
    | none => (val, t)
  | value =>
    match value.idxOf? comma with
    | some j => (value.take j, value.drop (j + 1))
    | none => (val, value)

/-- The loop over the parameters: the map, and what is left of the text. -/
def challengeLoop : ℕ → Str → Str → Params → Params × Str
  | 0, response, _, authparams => (authparams, response)
  | n + 1, response, val, authparams =>
    match response.idxOf? equals with
    | none => (authparams, response)
    | some i =>
      let (value, rest) := readValue val (response.drop (i + 1))
      challengeLoop n (rest.dropWhile isSep) value (authparams.set (response.take i) value)

structure Auth where
  authTries : ℕ := 0
  digest : Bool := false
  authparams : Params := .empty

/-- A line of the header of a response with status 401, where `head` is the name in the line
before it; the flag says that a new connection is made, and there is no result for an exception. -/
def parseField (ev : Auth) (head response : Str) : Option (Auth × Bool) :=
  if fieldName head response = bytes "WWW-AUTHENTICATE:" then
    if ev.authTries ≠ 0 then none
    else
      let ev := { ev with authTries := ev.authTries + 1 }
      match splitBlank (splitBlank response).2 with
      | (some scheme, params) =>
        some
          ({ ev with
              digest := up scheme = bytes "DIGEST" || ev.digest
              authparams := (challengeLoop params.length params [] ev.authparams).1 }, true)
      | (none, _) => some (ev, false)
  else some (ev, false)

/-- The lines of the header, without their ends. A new connection begins with an empty buffer. -/
def parseHeader (ev : Auth) (head : Str) : List Str → Option Auth
  | [] => some ev
  | response :: lines =>
    match parseField ev head response with
    | none => none
    | some (ev, true) => some ev
    | some (ev, false) =>
      if response = [] then some ev else parseHeader ev (fieldName head response) lines

def parseResponse (ev : Auth) : List Str → Option Auth
  | [] => some ev
  | status :: header =>
    let code : UInt32 := match splitBlank status with
      | (some _, rest) => (strtoul rest).toUInt32
      | (none, _) => 0
    if code = 401 then parseHeader ev [] header else some ev

/-- A parameter, and the blanks around the comma behind it. -/
structure Param where
  name : Str
  value : Str
  quoted : Bool
  before : Str := []
  after : Str := []

namespace Param

def text (p : Param) : Str :=
  p.name ++ equals :: if p.quoted then quote :: (p.value ++ [quote]) else p.value

structure WellFormed (p : Param) : Prop where
  name : p.name ≠ [] ∧ ∀ c ∈ p.name, c ≠ equals ∧ c ≠ quote ∧ isSep c = false
  value : p.value ≠ []
  inQuotes : p.quoted = true → quote ∉ p.value
  bare : p.quoted = false → ∀ c ∈ p.value, c ≠ quote ∧ isSep c = false
  blanks : ∀ c ∈ p.before ++ p.after, c = blank ∨ c = tab

/-- The value as it is read up to its end, a quote or a comma. -/
def read (p : Param) : Str := if p.quoted then p.value else p.value ++ p.before

end Param

def paramsText (init : List Param) (last : Param) : Str :=
  init.foldr (fun p t => p.text ++ p.before ++ comma :: (p.after ++ t)) last.text

def Exact (ps : List Param) (m : Params) : Prop :=
  ∀ k v, m.find? k = some v ↔ ∃ p ∈ ps, p.name = k ∧ p.value = v

/-- The texts in front of the equals signs of a value. -/
def pieces (value : Str) : List Str := (value.splitOn equals).dropLast

/-- What an unquoted last parameter stands for: the name it has, and the value that the loop
has at hand. -/
def lastValue (init : List Param) (last : Param) : Str :=
  if last.quoted then last.value else ((init.getLast?.map Param.read).getD [])

/-- The names that are found in the value of the last parameter. -/
def strayNames (last : Param) : List Str := if last.quoted then [] else pieces last.value

def fill (ks : List Str) (x : Str) (m : Params) : Params := ks.foldl (fun m k => m.set k x) m

def store (ps : List Param) (m : Params) : Params := ps.foldl (fun m p => m.set p.name p.read) m

section Loop

variable {val : Str}

theorem idxOf?_append {c : Byte} {a : Str} (h : c ∉ a) (s : Str) :
    (a ++ c :: s).idxOf? c = some a.length := by
  rw [List.idxOf?_eq_some_iff]
  refine ⟨by simp, by simp, fun j hj he => h ?_⟩
  rw [List.getElem_append_left hj] at he
  exact he ▸ List.getElem_mem _

theorem drop_behind (a : Str) (c : Byte) (s : Str) : (a ++ c :: s).drop (a.length + 1) = s := by
  rw [List.drop_length_add_append]
  rfl

theorem readValue_quoted {a : Str} (h : quote ∉ a) (s : Str) :
    readValue val (quote :: (a ++ quote :: s)) = (a, s) := by
  rw [readValue, idxOf?_append h]
  dsimp only
  rw [List.take_left, drop_behind]

theorem readValue_bare {value : Str} (h : value.head? ≠ some quote) :
    readValue val value = match value.idxOf? comma with
      | some j => (value.take j, value.drop (j + 1))
      | none => (val, value) := by
  rw [readValue]
  intro t ht
  rw [ht] at h
  exact h rfl

theorem readValue_comma {a : Str} (hq : a.head? ≠ some quote) (h : comma ∉ a) (s : Str) :
    readValue val (a ++ comma :: s) = (a, s) := by
  rw [readValue_bare, idxOf?_append h]
  · dsimp only
    rw [List.take_left, drop_behind]
  · cases a with
    | nil => exact fun h => absurd (Option.some.inj h) (by decide)
    | cons c a => exact hq

theorem readValue_open {s : Str} (hq : s.head? ≠ some quote) (h : comma ∉ s) :
    readValue val s = (val, s) := by
  rw [readValue_bare hq, List.idxOf?_eq_none_iff.mpr h]

theorem challengeLoop_name {name : Str} (h : equals ∉ name) (n : ℕ) (s : Str) (m : Params) :
    challengeLoop (n + 1) (name ++ equals :: s) val m =
      challengeLoop n ((readValue val s).2.dropWhile isSep) (readValue val s).1
        (m.set name (readValue val s).1) := by
  rw [challengeLoop, idxOf?_append h]
  dsimp only
  rw [List.take_left, drop_behind]

theorem challengeLoop_end {s : Str} (h : equals ∉ s) (n : ℕ) (m : Params) :
    challengeLoop n s val m = (m, s) := by
  cases n with
  | zero => rfl
  | succ n => rw [challengeLoop, List.idxOf?_eq_none_iff.mpr h]

end Loop

section Reading

variable {p last : Param} {ps init : List Param}

theorem dropWhile_seps {s : Str} (h : ∀ c ∈ s, isSep c = true) (t : Str) :
    (s ++ t).dropWhile isSep = t.dropWhile isSep := by
  rw [List.dropWhile_append_of_pos h]

theorem isSep_blanks {p : Param} (h : p.WellFormed) : ∀ c ∈ p.before ++ p.after, isSep c = true := by
  intro c hc
  rcases h.blanks c hc with rfl | rfl <;> rfl

theorem text_dropWhile (h : p.WellFormed) (s : Str) :
    (p.text ++ s).dropWhile isSep = p.text ++ s := by
  obtain ⟨hne, hmem⟩ := h.name
  obtain ⟨c, t, ht⟩ := List.exists_cons_of_ne_nil hne
  rw [Param.text, ht]
  exact List.dropWhile_cons_of_neg (by rw [(hmem c (by simp [ht])).2.2]; simp)

theorem paramsText_dropWhile (hi : ∀ p ∈ init, p.WellFormed) (hl : last.WellFormed) :
    (paramsText init last).dropWhile isSep = paramsText init last := by
  cases init with
  | nil => simpa [paramsText] using text_dropWhile hl []
  | cons p init =>
    rw [paramsText, List.foldr_cons, List.append_assoc]
    exact text_dropWhile (hi p (by simp)) _

theorem equals_not_mem (h : p.WellFormed) : equals ∉ p.name := fun hm =>
  (h.name.2 _ hm).1 rfl

theorem head_bare (h : p.WellFormed) (hq : p.quoted = false) : p.value.head? ≠ some quote := by
  intro hh
  exact (h.bare hq quote (List.mem_of_head? hh)).1 rfl

theorem comma_not_mem (h : p.WellFormed) (hq : p.quoted = false) : comma ∉ p.value := by
  intro hm
  exact absurd (h.bare hq comma hm).2 (by decide)

/-- A parameter that another one follows is read with its own value. -/
theorem challengeLoop_param (h : p.WellFormed) (n : ℕ) (val t : Str) (m : Params) :
    challengeLoop (n + 1) (p.text ++ p.before ++ comma :: (p.after ++ t)) val m =
      challengeLoop n (t.dropWhile isSep) p.read (m.set p.name p.read) := by
  have hseps := isSep_blanks h
  have hafter : (p.after ++ t).dropWhile isSep = t.dropWhile isSep :=
    dropWhile_seps (fun c hc => hseps c (by simp [hc])) t
  cases hq : p.quoted with
  | true =>
    have htext : p.text ++ p.before ++ comma :: (p.after ++ t) =
        p.name ++ equals :: quote :: (p.value ++ quote :: (p.before ++ comma :: (p.after ++ t))) := by
      simp [Param.text, hq]
    have hrest : (p.before ++ comma :: (p.after ++ t)).dropWhile isSep = t.dropWhile isSep := by
      rw [dropWhile_seps fun c hc => hseps c (by simp [hc])]
      exact hafter
    rw [htext, challengeLoop_name (equals_not_mem h), readValue_quoted (h.inQuotes hq), hrest,
      Param.read, if_pos hq]
  | false =>
    have htext : p.text ++ p.before ++ comma :: (p.after ++ t) =
        p.name ++ equals :: ((p.value ++ p.before) ++ comma :: (p.after ++ t)) := by
      simp [Param.text, hq]
    have hhead : (p.value ++ p.before).head? ≠ some quote := by
      rw [List.head?_append_of_ne_nil _ h.value]
      exact head_bare h hq
    have hcomma : comma ∉ p.value ++ p.before := by
      intro hm
      rcases List.mem_append.mp hm with hv | hb
      · exact comma_not_mem h hq hv
      · rcases h.blanks comma (by simp [hb]) with he | he <;> exact absurd he (by decide)
    rw [htext, challengeLoop_name (equals_not_mem h), readValue_comma hhead hcomma, hafter,
      Param.read, hq]
    rfl

theorem challengeLoop_init (hi : ∀ p ∈ init, p.WellFormed) (hl : last.WellFormed) (n : ℕ)
    (val : Str) (m : Params) :
    challengeLoop (n + init.length) (paramsText init last) val m =
      challengeLoop n last.text ((init.getLast?.map Param.read).getD val)
        (store init m) := by
  induction init generalizing val m with
  | nil => rfl
  | cons p init ih =>
    have hi' : ∀ p ∈ init, p.WellFormed := fun q hq => hi q (by simp [hq])
    change challengeLoop (n + init.length + 1)
      (p.text ++ p.before ++ comma :: (p.after ++ paramsText init last)) val m = _
    rw [challengeLoop_param (hi p (by simp)), paramsText_dropWhile hi' hl, ih hi']
    congr 1
    cases init with
    | nil => rfl
    | cons q init => rw [List.getLast?_cons_cons]; rfl

theorem pieces_cons {a : Str} (h : equals ∉ a) (s : Str) :
    pieces (a ++ equals :: s) = a :: pieces s := by
  have hsplit : (a ++ equals :: s).splitOn equals = a :: s.splitOn equals := by
    rw [List.splitOn_append_cons_of_beq a s (beq_self_eq_true _), List.splitOn_eq_singleton h]
    rfl
  rw [pieces, hsplit, List.dropLast_cons_of_ne_nil (List.splitOn_ne_nil _ _), pieces]

theorem pieces_of_not_mem {s : Str} (h : equals ∉ s) : pieces s = [] := by
  rw [pieces, List.splitOn_eq_singleton h]
  rfl

/-- A text without separators and quotes: every name in it gets the value at hand. -/
theorem challengeLoop_pieces {s : Str} (h : ∀ c ∈ s, c ≠ quote ∧ isSep c = false) {n : ℕ}
    (hn : s.length ≤ n) (val : Str) (m : Params) :
    (challengeLoop n s val m).1 = fill (pieces s) val m := by
  induction n generalizing s m with
  | zero =>
    rw [List.length_eq_zero_iff.mp (Nat.le_zero.mp hn)]
    rfl
  | succ n ih =>
    by_cases hm : equals ∈ s
    · obtain ⟨a, t, rfl, ha⟩ := List.eq_append_cons_of_mem hm
      have ht : ∀ c ∈ t, c ≠ quote ∧ isSep c = false := fun c hc => h c (by simp [hc])
      have hread : readValue val t = (val, t) := by
        apply readValue_open
        · exact fun hq => (ht quote (List.mem_of_head? hq)).1 rfl
        · exact fun hc => absurd (ht comma hc).2 (by decide)
      have hdrop : t.dropWhile isSep = t := by
        cases t with
        | nil => rfl
        | cons c t => exact List.dropWhile_cons_of_neg (by rw [(ht c (by simp)).2]; simp)
      have hlen : t.length ≤ n := by
        rw [List.length_append, List.length_cons] at hn
        omega
      rw [challengeLoop_name ha, hread, hdrop, ih ht hlen, pieces_cons ha]
      rfl
    · rw [challengeLoop_end hm, pieces_of_not_mem hm]
      rfl

theorem challengeLoop_last (h : last.WellFormed) {n : ℕ} (hn : last.text.length ≤ n) (val : Str)
    (m : Params) :
    (challengeLoop n last.text val m).1 =
      fill (last.name :: strayNames last) (if last.quoted then last.value else val) m := by
  obtain ⟨n, rfl⟩ : ∃ k, n = k + 1 := by
    have hpos : 0 < last.text.length := by simp [Param.text]
    exact ⟨n - 1, by omega⟩
  cases hq : last.quoted with
  | true =>
    have htext : last.text = last.name ++ equals :: quote :: (last.value ++ quote :: []) := by
      simp [Param.text, hq]
    rw [htext, challengeLoop_name (equals_not_mem h), readValue_quoted (h.inQuotes hq)]
    dsimp only
    rw [challengeLoop_end (by simp), strayNames, if_pos hq]
    rfl
  | false =>
    have htext : last.text = last.name ++ equals :: last.value := by simp [Param.text, hq]
    have hread : readValue val last.value = (val, last.value) :=
      readValue_open (head_bare h hq) (comma_not_mem h hq)
    have hdrop : last.value.dropWhile isSep = last.value := by
      obtain ⟨c, t, ht⟩ := List.exists_cons_of_ne_nil h.value
      rw [ht]
      exact List.dropWhile_cons_of_neg (by rw [(h.bare hq c (by simp [ht])).2]; simp)
    have hlen : last.value.length ≤ n := by
      rw [htext, List.length_append, List.length_cons] at hn
      omega
    rw [htext, challengeLoop_name (equals_not_mem h), hread, hdrop,
      challengeLoop_pieces (h.bare hq) hlen, strayNames, hq]
    rfl

theorem length_paramsText : init.length + last.text.length ≤ (paramsText init last).length := by
  induction init with
  | nil => simp [paramsText]
  | cons p init ih =>
    have hcons : (paramsText (p :: init) last).length =
        (p.text ++ p.before).length + (p.after.length + (paramsText init last).length + 1) := by
      simp [paramsText]
      omega
    rw [hcons, List.length_cons]
    omega

/-- What is written in the map: the parameters up to the last one with what is read of them, then
the last name and the names in its value. -/
theorem challengeLoop_params (hi : ∀ p ∈ init, p.WellFormed) (hl : last.WellFormed) (m : Params) :
    (challengeLoop (paramsText init last).length (paramsText init last) [] m).1 =
      fill (last.name :: strayNames last) (lastValue init last) (store init m) := by
  have hlen := @length_paramsText last init
  obtain ⟨n, hn⟩ : ∃ n, (paramsText init last).length = n + init.length :=
    ⟨(paramsText init last).length - init.length, by omega⟩
  rw [hn, challengeLoop_init hi hl, challengeLoop_last hl (by omega)]
  rfl

end Reading

section Lookup

variable {init : List Param} {last : Param}

theorem find?_fill (ks : List Str) (x : Str) (m : Params) (k : Str) :
    (fill ks x m).find? k = if k ∈ ks then some x else m.find? k := by
  induction ks generalizing m with
  | nil => rfl
  | cons a ks ih =>
    rw [fill, List.foldl_cons, ← fill, ih]
    by_cases hk : k ∈ ks
    · rw [if_pos hk, if_pos (by simp [hk])]
    · rw [if_neg hk]
      by_cases ha : k = a
      · rw [ha, OrderedMap.find?_set_self, if_pos (by simp)]
      · rw [OrderedMap.find?_set_other _ _ (same_strLt_false (Ne.symm ha)), if_neg (by simp [ha, hk])]

theorem find?_store {ps : List Param} (h : (ps.map Param.name).Nodup) (m : Params)
    (hm : ∀ p ∈ ps, m.find? p.name = none) (k v : Str) :
    (store ps m).find? k = some v ↔
      m.find? k = some v ∨ ∃ p ∈ ps, p.name = k ∧ p.read = v := by
  induction ps generalizing m with
  | nil => simp [store]
  | cons p ps ih =>
    rw [List.map_cons, List.nodup_cons] at h
    have hne : ∀ q ∈ ps, q.name ≠ p.name := fun q hq he => h.1 (he ▸ List.mem_map_of_mem hq)
    have hm' : ∀ q ∈ ps, (m.set p.name p.read).find? q.name = none := fun q hq => by
      rw [OrderedMap.find?_set_other _ _ (same_strLt_false (hne q hq).symm)]
      exact hm q (by simp [hq])
    rw [store, List.foldl_cons, ← store, ih h.2 _ hm']
    by_cases hk : k = p.name
    · rw [hk, OrderedMap.find?_set_self, hm p (by simp)]
      simp
    · rw [OrderedMap.find?_set_other _ _ (same_strLt_false (Ne.symm hk))]
      simp [Ne.symm hk]

theorem eq_of_name {ps : List Param} (h : (ps.map Param.name).Nodup) {p q : Param} (hp : p ∈ ps)
    (hq : q ∈ ps) (he : p.name = q.name) : p = q :=
  List.inj_on_of_nodup_map h hp hq he

/-- The map is right when the value at hand at the end is the last one's, the names found in it
belong to parameters with that value, and every other parameter was read as it is. -/
theorem exact_iff_fill (h : ((init ++ [last]).map Param.name).Nodup) (ks : List Str) (x : Str) :
    Exact (init ++ [last]) (fill (last.name :: ks) x (store init .empty)) ↔
      x = last.value ∧ (∀ k ∈ ks, ∃ p ∈ init ++ [last], p.name = k ∧ p.value = last.value) ∧
        ∀ p ∈ init, p.read = p.value ∨ p.name ∈ ks := by
  have hinit : (init.map Param.name).Nodup := by
    rw [List.map_append] at h
    exact h.of_append_left
  have hlast : last ∈ init ++ [last] := by simp
  have hother : ∀ p ∈ init, p.name ≠ last.name := fun p hp he => by
    rw [List.map_append, List.nodup_append] at h
    exact h.2.2 _ (List.mem_map_of_mem hp) _ (by simp) he
  generalize hm : fill (last.name :: ks) x (store init .empty) = m
  have hin : ∀ k ∈ last.name :: ks, m.find? k = some x := fun k hk => by
    rw [← hm, find?_fill, if_pos hk]
  have hout : ∀ k, k ∉ last.name :: ks →
      ∀ v, m.find? k = some v ↔ ∃ p ∈ init, p.name = k ∧ p.read = v := by
    intro k hk v
    rw [← hm, find?_fill, if_neg hk, find?_store hinit _ fun _ _ => OrderedMap.find?_empty _]
    simp
  constructor
  · intro hex
    have hx : x = last.value := by
      obtain ⟨p, hp, hn, hv⟩ := (hex last.name x).mp (hin _ (by simp))
      rw [← hv, eq_of_name h hp hlast hn]
    refine ⟨hx, fun k hk => ?_, fun p hp => ?_⟩
    · obtain ⟨p, hp, hn, hv⟩ := (hex k x).mp (hin k (by simp [hk]))
      exact ⟨p, hp, hn, hv.trans hx⟩
    · by_cases hk : p.name ∈ ks
      · exact Or.inr hk
      · have hfind := (hex p.name p.value).mpr ⟨p, by simp [hp], rfl, rfl⟩
        obtain ⟨q, hq, hn, hv⟩ := (hout p.name (by simp [hk, hother p hp]) p.value).mp hfind
        exact Or.inl (eq_of_name hinit hq hp hn ▸ hv)
  · rintro ⟨rfl, hks, hread⟩ k v
    by_cases hk : k ∈ last.name :: ks
    · rw [hin k hk]
      obtain ⟨p, hp, hn, hv⟩ : ∃ p ∈ init ++ [last], p.name = k ∧ p.value = last.value := by
        rcases List.mem_cons.mp hk with he | hk
        · exact ⟨last, hlast, he.symm, rfl⟩
        · exact hks k hk
      constructor
      · intro he
        exact ⟨p, hp, hn, hv.trans (Option.some.inj he)⟩
      · rintro ⟨q, hq, hnq, rfl⟩
        rw [eq_of_name h hq hp (hnq.trans hn.symm), hv]
    · rw [hout k hk]
      have hsame : ∀ p ∈ init, p.name = k → p.read = p.value := fun p hp hn => by
        rcases hread p hp with he | hm
        · exact he
        · exact absurd (by simp [← hn, hm]) hk
      constructor
      · rintro ⟨p, hp, hn, rfl⟩
        exact ⟨p, by simp [hp], hn, (hsame p hp hn).symm⟩
      · rintro ⟨p, hp, hn, rfl⟩
        rcases List.mem_append.mp hp with hp | hp
        · exact ⟨p, hp, hn, hsame p hp hn⟩
        · rw [List.mem_singleton.mp hp] at hn
          exact absurd (by simp [hn]) hk

end Lookup

section Parse

variable {init : List Param} {last : Param} {field scheme : Str}

def challengeLine (field scheme : Str) (init : List Param) (last : Param) : Str :=
  field ++ blank :: (scheme ++ blank :: paramsText init last)

/-- When the parameters of a challenge are kept: none but the last is read with blanks behind its
value, and the last one is in quotes, or the one before it has the same value and so has every
parameter whose name is found in it. -/
def Kept (init : List Param) (last : Param) : Prop :=
  (∀ p ∈ init, p.quoted = true ∨ p.before = [] ∨ p.name ∈ strayNames last) ∧
    (last.quoted = false → (∃ q, init.getLast? = some q ∧ q.read = last.value) ∧
      ∀ k ∈ pieces last.value, ∃ p ∈ init ++ [last], p.name = k ∧ p.value = last.value)

/-- A line of the header that is no `WWW-Authenticate` field. It may be without a blank. -/
def OtherField (l : Str) : Prop :=
  l ≠ [] ∧ ∀ word rest, splitBlank l = (some word, rest) → up word ≠ bytes "WWW-AUTHENTICATE:"

def Unauthorized (l : Str) : Prop :=
  ∃ word rest, splitBlank l = (some word, rest) ∧ (strtoul rest).toUInt32 = 401

/-- A response with a challenge, of which `init` and `last` are the parameters. -/
structure Response where
  status : Str
  before : List Str
  field : Str
  scheme : Str
  init : List Param
  last : Param
  after : List Str

namespace Response

def params (r : Response) : List Param := r.init ++ [r.last]

def lines (r : Response) : List Str :=
  r.status :: (r.before ++ challengeLine r.field r.scheme r.init r.last :: r.after)

structure WellFormed (r : Response) : Prop where
  status : Unauthorized r.status
  before : ∀ l ∈ r.before, OtherField l
  field : blank ∉ r.field ∧ up r.field = bytes "WWW-AUTHENTICATE:"
  scheme : blank ∉ r.scheme
  params : ∀ p ∈ r.params, p.WellFormed
  names : (r.params.map Param.name).Nodup

/-- After the first such response there is each parameter with its value, and nothing else. -/
def Parses (r : Response) : Prop :=
  ∃ ev, parseResponse {} r.lines = some ev ∧ Exact r.params ev.authparams

end Response

theorem read_eq_iff (p : Param) : p.read = p.value ↔ p.quoted = true ∨ p.before = [] := by
  rw [Param.read]
  cases p.quoted <;> simp

theorem kept_iff (hl : last.WellFormed) :
    (lastValue init last = last.value ∧
      (∀ k ∈ strayNames last, ∃ p ∈ init ++ [last], p.name = k ∧ p.value = last.value) ∧
        ∀ p ∈ init, p.read = p.value ∨ p.name ∈ strayNames last) ↔ Kept init last := by
  have hrest : (∀ p ∈ init, p.read = p.value ∨ p.name ∈ strayNames last) ↔
      ∀ p ∈ init, p.quoted = true ∨ p.before = [] ∨ p.name ∈ strayNames last := by
    simp only [read_eq_iff, or_assoc]
  rw [hrest, Kept]
  cases hq : last.quoted with
  | true => simp [lastValue, strayNames, hq]
  | false =>
    have hval : lastValue init last = last.value ↔ ∃ q, init.getLast? = some q ∧ q.read = last.value := by
      rw [lastValue, hq]
      cases init.getLast? with
      | none => simpa using hl.value.symm
      | some q => simp
    rw [hval]
    simp only [strayNames, hq, Bool.false_eq_true, if_false, forall_const]
    tauto

theorem fieldName_other {l head : Str} (h : OtherField l) (hh : head ≠ bytes "WWW-AUTHENTICATE:") :
    fieldName head l ≠ bytes "WWW-AUTHENTICATE:" := by
  rw [fieldName]
  cases hs : splitBlank l with
  | mk word rest =>
    cases word with
    | none => exact hh
    | some word => exact h.2 word rest hs

theorem parseHeader_other {ls : List Str} (h : ∀ l ∈ ls, OtherField l) (ev : Auth) {head : Str}
    (hh : head ≠ bytes "WWW-AUTHENTICATE:") (lines : List Str) :
    ∃ head', parseHeader ev head (ls ++ lines) = parseHeader ev head' lines := by
  induction ls generalizing head with
  | nil => exact ⟨head, rfl⟩
  | cons l ls ih =>
    have hname := fieldName_other (h l (by simp)) hh
    obtain ⟨head', ih⟩ := ih (fun l hl => h l (by simp [hl])) hname
    refine ⟨head', ?_⟩
    rw [List.cons_append, parseHeader, parseField, if_neg hname]
    dsimp only
    rw [if_neg (h l (by simp)).1, ih]

theorem parseHeader_challenge (hf : blank ∉ field) (hup : up field = bytes "WWW-AUTHENTICATE:")
    (hs : blank ∉ scheme) (hi : ∀ p ∈ init, p.WellFormed) (hl : last.WellFormed) (head : Str)
    (lines : List Str) :
    ∃ ev, parseHeader {} head (challengeLine field scheme init last :: lines) = some ev ∧
      ev.authparams = fill (last.name :: strayNames last) (lastValue init last) (store init .empty) := by
  have hname : fieldName head (challengeLine field scheme init last) = bytes "WWW-AUTHENTICATE:" := by
    rw [fieldName, challengeLine, splitBlank_append hf]
    exact hup
  rw [← challengeLoop_params hi hl .empty, parseHeader, parseField, if_pos hname, challengeLine,
    splitBlank_append hf, splitBlank_append hs]
  exact ⟨_, rfl, rfl⟩

/-- The parameters of a challenge are all there, and as they were sent, exactly when they are
kept. -/
theorem parses_iff {r : Response} (h : r.WellFormed) : r.Parses ↔ Kept r.init r.last := by
  have hi : ∀ p ∈ r.init, p.WellFormed := fun p hp => h.params p (by simp [Response.params, hp])
  have hl : r.last.WellFormed := h.params r.last (by simp [Response.params])
  obtain ⟨word, rest, hs, hcode⟩ := h.status
  obtain ⟨head, hbefore⟩ := @parseHeader_other r.before h.before {} [] (by decide)
    (challengeLine r.field r.scheme r.init r.last :: r.after)
  obtain ⟨ev, hev, hparams⟩ :=
    parseHeader_challenge h.field.1 h.field.2 h.scheme hi hl head r.after
  have hparse : parseResponse {} r.lines = some ev := by
    rw [Response.lines, parseResponse, hs]
    dsimp only
    rw [if_pos hcode, hbefore, hev]
  calc r.Parses ↔ Exact r.params ev.authparams := by
        constructor
        · rintro ⟨ev', hev', hex⟩
          rwa [Option.some.inj (hparse.symm.trans hev')]
        · exact fun hex => ⟨ev, hparse, hex⟩
    _ ↔ _ := by
        rw [hparams, Response.params]
        exact exact_iff_fill h.names _ _
    _ ↔ Kept r.init r.last := kept_iff hl

def realm : Param := { name := bytes "realm", value := bytes "x", quoted := true, after := [blank] }

def algorithm : Param := { name := bytes "algorithm", value := bytes "MD5", quoted := false }

def nonce : Param := { name := bytes "nonce", value := bytes "a=1, b", quoted := true }

/-- A response with a field and a line without a blank before the challenge. -/
def digest (init : List Param) (last : Param) : Response where
  status := bytes "HTTP/1.0 401 Unauthorized"
  before := [bytes "Server: httpd", bytes "Pragma:"]
  field := bytes "WWW-Authenticate:"
  scheme := bytes "Digest"
  init
  last
  after := []

theorem realm_wellFormed : realm.WellFormed where
  name := by decide +kernel
  value := by decide
  inQuotes := fun _ => by decide
  bare := fun h => absurd h (by decide)
  blanks := by decide +kernel

theorem algorithm_wellFormed : algorithm.WellFormed where
  name := by decide +kernel
  value := by decide
  inQuotes := fun h => absurd h (by decide)
  bare := fun _ => by decide +kernel
  blanks := by decide +kernel

theorem nonce_wellFormed : nonce.WellFormed where
  name := by decide +kernel
  value := by decide
  inQuotes := fun _ => by decide
  bare := fun h => absurd h (by decide)
  blanks := by decide +kernel

theorem digest_wellFormed {init : List Param} {last : Param}
    (hp : ∀ p ∈ init ++ [last], p.WellFormed) (hn : ((init ++ [last]).map Param.name).Nodup) :
    (digest init last).WellFormed := by
  have hstatus : splitBlank (bytes "HTTP/1.0 401 Unauthorized") =
      (some (bytes "HTTP/1.0"), bytes "401 Unauthorized") := by decide
  have hfield : blank ∉ bytes "WWW-Authenticate:" ∧
      up (bytes "WWW-Authenticate:") = bytes "WWW-AUTHENTICATE:" := by decide
  have hscheme : blank ∉ bytes "Digest" := by decide
  have hserver : splitBlank (bytes "Server: httpd") = (some (bytes "Server:"), bytes "httpd") := by
    decide
  have hpragma : (splitBlank (bytes "Pragma:")).1 = none := by decide
  refine ⟨⟨_, _, hstatus, by decide⟩, fun l hl => ?_, hfield, hscheme, hp, hn⟩
  rcases List.mem_pair.mp hl with rfl | rfl
  · refine ⟨by decide, fun word rest hs => ?_⟩
    obtain rfl := Option.some.inj (congrArg Prod.fst (hserver.symm.trans hs))
    decide
  · refine ⟨by decide, fun word rest hs => ?_⟩
    rw [hs] at hpragma
    cases hpragma

/-- `Digest algorithm=MD5,realm="x", nonce="a=1, b"`. -/
theorem parses_nonce : (digest [algorithm, realm] nonce).Parses := by
  have h : (digest [algorithm, realm] nonce).WellFormed := by
    apply digest_wellFormed
    · simpa using ⟨algorithm_wellFormed, realm_wellFormed, nonce_wellFormed⟩
    · decide
  exact (parses_iff h).mpr ⟨by decide, fun hq => absurd hq (by decide)⟩

/-- The value of an unquoted parameter at the end is lost. -/
theorem algorithm_lost :
    (digest [realm] algorithm).WellFormed ∧ ¬ (digest [realm] algorithm).Parses := by
  constructor
  · apply digest_wellFormed
    · simpa using ⟨realm_wellFormed, algorithm_wellFormed⟩
    · decide
  · rintro ⟨ev, hev, hex⟩
    have hfind : (parseResponse {} (digest [realm] algorithm).lines).map
        (fun ev => ev.authparams.find? (bytes "algorithm")) = some (some (bytes "x")) := by
      decide
    rw [hev] at hfind
    obtain ⟨p, hp, hn, hv⟩ := (hex _ _).mp (Option.some.inj hfind)
    rcases List.mem_pair.mp hp with rfl | rfl
    · exact absurd hn (by decide)
    · exact absurd hv (by decide)

end Parse

end CenterIM.AuthChallenge
