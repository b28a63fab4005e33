import Mathlib

/-!
# Maps ordered by a comparator

The associative container of the C++ library: entries in increasing key order, two
keys being the same when neither is smaller. Everything depends on the comparator
alone, so a comparator that never tells two keys apart is allowed, and then the map
has one entry at most.
-/
namespace CenterIM

/-- What the container requires of a comparator. -/
class StrictWeak {κ : Type*} (lt : κ → κ → Bool) : Prop where
  irrefl : ∀ a, lt a a = false
  trans : ∀ {a b c}, lt a b = true → lt b c = true → lt a c = true
  split : ∀ {a b} c, lt a b = true → lt a c = true ∨ lt c b = true

/-- Entries in key order; no two of them have equivalent keys. -/
structure OrderedMap (κ ν : Type*) (lt : κ → κ → Bool) where
  entries : List (κ × ν)
  sorted : entries.Pairwise fun a b => lt a.1 b.1 = true
  deriving DecidableEq

namespace OrderedMap

variable {κ ν : Type*} {lt : κ → κ → Bool}

def same (lt : κ → κ → Bool) (a b : κ) : Bool := !lt a b && !lt b a

theorem same_iff {a b : κ} : same lt a b = true ↔ lt a b = false ∧ lt b a = false := by
  simp [same]

theorem same_comm (a b : κ) : same lt a b = same lt b a := by simp [same, Bool.and_comm]

theorem same_refl [StrictWeak lt] (a : κ) : same lt a a = true := by
  simp [same, StrictWeak.irrefl]

theorem same_trans [h : StrictWeak lt] {a b c : κ} (hab : same lt a b = true)
    (hbc : same lt b c = true) : same lt a c = true := by
  rw [same_iff] at *
  constructor
  · by_contra hac
    rcases h.split b (Bool.eq_true_of_not_eq_false hac) with hl | hr
    · simp [hab.1] at hl
    · simp [hbc.1] at hr
  · by_contra hca
    rcases h.split b (Bool.eq_true_of_not_eq_false hca) with hl | hr
    · simp [hbc.2] at hl
    · simp [hab.2] at hr

theorem same_congr [StrictWeak lt] {a b : κ} (hab : same lt a b = true) (c : κ) :
    same lt a c = same lt b c := by
  apply Bool.eq_iff_iff.mpr
  constructor
  · intro hac
    exact same_trans (by rwa [same_comm]) hac
  · exact same_trans hab

def empty : OrderedMap κ ν lt := ⟨[], List.Pairwise.nil⟩

/-- `m.find(k)`, as the value found. -/
def find? (m : OrderedMap κ ν lt) (k : κ) : Option ν :=
  (m.entries.find? fun e => same lt e.1 k).map Prod.snd

/-- `m[k] = v` on the entries: a key that is already there stays as it is. -/
def setEntries (lt : κ → κ → Bool) (k : κ) (v : ν) : List (κ × ν) → List (κ × ν)
  | [] => [(k, v)]
  | e :: es =>
    if lt e.1 k then e :: setEntries lt k v es
    else if lt k e.1 then (k, v) :: e :: es
    else (e.1, v) :: es

theorem mem_setEntries {k : κ} {v : ν} {es : List (κ × ν)} {e : κ × ν}
    (h : e ∈ setEntries lt k v es) : e.1 = k ∨ ∃ d ∈ es, e.1 = d.1 := by
  induction es with
  | nil =>
    simp only [setEntries, List.mem_singleton] at h
    exact Or.inl (by rw [h])
  | cons d es ih =>
    simp only [setEntries] at h
    split_ifs at h
    · rcases List.mem_cons.mp h with rfl | h
      · exact Or.inr ⟨e, by simp, rfl⟩
      · rcases ih h with hk | ⟨c, hc, he⟩
        · exact Or.inl hk
        · exact Or.inr ⟨c, by simp [hc], he⟩
    · rcases List.mem_cons.mp h with rfl | h
      · exact Or.inl rfl
      · exact Or.inr ⟨e, h, rfl⟩
    · rcases List.mem_cons.mp h with rfl | h
      · exact Or.inr ⟨d, by simp, rfl⟩
      · exact Or.inr ⟨e, by simp [h], rfl⟩

theorem setEntries_sorted [hw : StrictWeak lt] (k : κ) (v : ν) {es : List (κ × ν)}
    (h : es.Pairwise fun a b => lt a.1 b.1 = true) :
    (setEntries lt k v es).Pairwise fun a b => lt a.1 b.1 = true := by
  induction es with
  | nil => simp [setEntries]
  | cons d es ih =>
    obtain ⟨hd, hes⟩ := List.pairwise_cons.mp h
    simp only [setEntries]
    split_ifs with hlt hgt
    · refine List.pairwise_cons.mpr ⟨fun e he => ?_, ih hes⟩
      rcases mem_setEntries he with hk | ⟨c, hc, hec⟩
      · rwa [hk]
      · rw [hec]
        exact hd c hc
    · refine List.pairwise_cons.mpr ⟨fun e he => ?_, h⟩
      rcases List.mem_cons.mp he with rfl | he
      · exact hgt
      · exact hw.trans hgt (hd e he)
    · exact List.pairwise_cons.mpr ⟨hd, hes⟩

theorem setEntries_last {k : κ} {v : ν} {es : List (κ × ν)} (h : ∀ e ∈ es, lt e.1 k = true) :
    setEntries lt k v es = es ++ [(k, v)] := by
  induction es with
  | nil => rfl
  | cons e es ih =>
    rw [setEntries, if_pos (h e (by simp)), ih fun d hd => h d (by simp [hd]), List.cons_append]

/-- `m[k] = v`. -/
def set [StrictWeak lt] (m : OrderedMap κ ν lt) (k : κ) (v : ν) : OrderedMap κ ν lt :=
  ⟨setEntries lt k v m.entries, setEntries_sorted k v m.sorted⟩

/-- An entry after `m[k] = v` is the new one or was there before. -/
theorem entry_setEntries [StrictWeak lt] {k : κ} {v : ν} {es : List (κ × ν)} {e : κ × ν}
    (h : e ∈ setEntries lt k v es) : same lt e.1 k = true ∧ e.2 = v ∨ e ∈ es := by
  induction es with
  | nil =>
    simp only [setEntries, List.mem_singleton] at h
    rw [h]
    exact Or.inl ⟨same_refl k, rfl⟩
  | cons d es ih =>
    simp only [setEntries] at h
    split_ifs at h with hlt hgt
    · rcases List.mem_cons.mp h with rfl | h
      · exact Or.inr List.mem_cons_self
      · exact (ih h).imp_right (List.mem_cons_of_mem d)
    · rcases List.mem_cons.mp h with rfl | h
      · exact Or.inl ⟨same_refl k, rfl⟩
      · exact Or.inr h
    · rcases List.mem_cons.mp h with rfl | h
      · exact Or.inl ⟨by simp [same, hlt, hgt], rfl⟩
      · exact Or.inr (List.mem_cons_of_mem d h)

theorem mem_set [StrictWeak lt] {m : OrderedMap κ ν lt} {k : κ} {v : ν} {e : κ × ν}
    (h : e ∈ (m.set k v).entries) : same lt e.1 k = true ∧ e.2 = v ∨ e ∈ m.entries :=
  entry_setEntries h

/-- `m.erase(k)`. -/
def erase (m : OrderedMap κ ν lt) (k : κ) : OrderedMap κ ν lt :=
  ⟨m.entries.filter fun e => !same lt e.1 k, m.sorted.sublist List.filter_sublist⟩

@[simp] theorem find?_empty (k : κ) : (empty : OrderedMap κ ν lt).find? k = none := rfl

theorem find?_congr [StrictWeak lt] (m : OrderedMap κ ν lt) {a b : κ} (h : same lt a b = true) :
    m.find? a = m.find? b := by
  unfold find?
  congr 2
  funext e
  rw [same_comm e.1 a, same_comm e.1 b, same_congr h]

theorem find?_setEntries_same [StrictWeak lt] (k : κ) (v : ν) (es : List (κ × ν)) :
    ((setEntries lt k v es).find? fun e => same lt e.1 k).map Prod.snd = some v := by
  induction es with
  | nil => simp [setEntries, same_refl]
  | cons d es ih =>
    simp only [setEntries]
    split_ifs with hlt hgt
    · rw [List.find?_cons_of_neg (by simp [same, hlt])]
      exact ih
    · rw [List.find?_cons_of_pos (by simp [same_refl])]
      rfl
    · rw [List.find?_cons_of_pos (by simp [same, hlt, hgt])]
      rfl

@[simp] theorem find?_set_self [StrictWeak lt] (m : OrderedMap κ ν lt) (k : κ) (v : ν) :
    (m.set k v).find? k = some v := find?_setEntries_same k v m.entries

theorem find?_set_same [StrictWeak lt] (m : OrderedMap κ ν lt) {k k' : κ} (v : ν)
    (h : same lt k k' = true) : (m.set k v).find? k' = some v := by
  rw [← find?_congr _ h, find?_set_self]

theorem find?_setEntries_other [StrictWeak lt] {k k' : κ} (v : ν) (es : List (κ × ν))
    (h : same lt k k' = false) :
    ((setEntries lt k v es).find? fun e => same lt e.1 k').map Prod.snd =
      (es.find? fun e => same lt e.1 k').map Prod.snd := by
  induction es with
  | nil => simp [setEntries, h]
  | cons d es ih =>
    simp only [setEntries]
    split_ifs with hlt hgt
    · by_cases hd : same lt d.1 k' = true
      · rw [List.find?_cons_of_pos (by simpa using hd), List.find?_cons_of_pos (by simpa using hd)]
      · rw [List.find?_cons_of_neg (by simpa using hd), List.find?_cons_of_neg (by simpa using hd)]
        exact ih
    · rw [List.find?_cons_of_neg (by simp [h])]
    · have hd : same lt d.1 k = true := by simp [same, hlt, hgt]
      have hn : same lt d.1 k' = false := by rw [same_congr hd, h]
      rw [List.find?_cons_of_neg (by simp [hn]), List.find?_cons_of_neg (by simp [hn])]

theorem find?_set_other [StrictWeak lt] (m : OrderedMap κ ν lt) {k k' : κ} (v : ν)
    (h : same lt k k' = false) : (m.set k v).find? k' = m.find? k' :=
  find?_setEntries_other v m.entries h

theorem find?_erase_same [StrictWeak lt] (m : OrderedMap κ ν lt) {k k' : κ}
    (h : same lt k k' = true) : (m.erase k).find? k' = none := by
  simp only [find?, erase, Option.map_eq_none_iff, List.find?_eq_none, List.mem_filter,
    and_imp]
  intro e _ he hk
  have hek : same lt e.1 k = true := same_trans hk (by rwa [same_comm])
  simp [hek] at he

theorem find?_erase_other [StrictWeak lt] (m : OrderedMap κ ν lt) {k k' : κ}
    (h : same lt k k' = false) : (m.erase k).find? k' = m.find? k' := by
  simp only [find?, erase]
  congr 1
  rw [List.find?_filter]
  congr 1
  funext e
  by_cases he : same lt e.1 k' = true
  · have hk : same lt e.1 k = false := by
      rw [same_congr he, same_comm, h]
    simp [he, hk]
  · simp [he]

theorem find?_of_mem [StrictWeak lt] (m : OrderedMap κ ν lt) {k : κ} {v : ν}
    (h : (k, v) ∈ m.entries) : m.find? k = some v := by
  obtain ⟨es, hs⟩ := m
  simp only [find?] at h ⊢
  induction es with
  | nil => simp at h
  | cons d es ih =>
    obtain ⟨hd, hes⟩ := List.pairwise_cons.mp hs
    rcases List.mem_cons.mp h with rfl | h
    · rw [List.find?_cons_of_pos (by simp [same_refl])]
      rfl
    · rw [List.find?_cons_of_neg (by simp [same, hd _ h])]
      exact ih hes h

theorem exists_mem_of_find? {m : OrderedMap κ ν lt} {k : κ} {v : ν} (h : m.find? k = some v) :
    ∃ k', same lt k' k = true ∧ (k', v) ∈ m.entries := by
  obtain ⟨e, he, rfl⟩ := Option.map_eq_some_iff.mp h
  exact ⟨e.1, List.find?_some (p := fun e : κ × ν => same lt e.1 k) he, List.mem_of_find?_eq_some he⟩

theorem mem_entries_iff [StrictWeak lt] (heq : ∀ {a b}, same lt a b = true → a = b)
    (m : OrderedMap κ ν lt) (k : κ) (v : ν) : (k, v) ∈ m.entries ↔ m.find? k = some v := by
  constructor
  · exact m.find?_of_mem
  · intro h
    obtain ⟨k', hk, hm⟩ := exists_mem_of_find? h
    rwa [heq hk] at hm

/-- Where only equal keys are the same, a map is what its lookups find. -/
theorem ext_find? [hw : StrictWeak lt] (heq : ∀ {a b}, same lt a b = true → a = b)
    {m m' : OrderedMap κ ν lt} (h : ∀ k, m.find? k = m'.find? k) : m = m' := by
  have hnodup : ∀ m : OrderedMap κ ν lt, m.entries.Nodup := fun m => m.sorted.imp fun hab he => by
    rw [he, hw.irrefl] at hab
    cases hab
  have hperm : m.entries.Perm m'.entries := by
    refine (List.perm_ext_iff_of_nodup (hnodup m) (hnodup m')).mpr fun e => ?_
    rw [← Prod.mk.eta (p := e), mem_entries_iff heq, mem_entries_iff heq, h]
  have hsame : m.entries = m'.entries := by
    refine hperm.eq_of_pairwise (fun a b _ _ hab hba => ?_) m.sorted m'.sorted
    have haa := hw.trans hab hba
    rw [hw.irrefl] at haa
    cases haa
  cases m
  cases m'
  cases hsame
  rfl

/-- A comparator that tells nothing apart leaves room for one entry only. -/
theorem length_le_one (hlt : ∀ a b, lt a b = false) (m : OrderedMap κ ν lt) :
    m.entries.length ≤ 1 := by
  obtain ⟨es, hs⟩ := m
  match es with
  | [] => simp
  | [_] => simp
  | a :: b :: _ =>
    have h := (List.pairwise_cons.mp hs).1 b (by simp)
    simp [hlt] at h

end OrderedMap
end CenterIM
