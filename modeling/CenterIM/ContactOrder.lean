import CenterIM.Contact
import CenterIM.ExchangeSort

/-!
# The order of the contact list

`icqcontacts::clistsort` in all sort and group modes. By name it puts the contacts into a total
preorder. By activity it takes the result of a string comparison for a truth value, and gives
no contact the sign 0 against itself.
-/
namespace CenterIM.ContactOrder
open ByteText StrText Contact ExchangeSort

/-- `imstatus2char`. -/
def imstatus2char : ImStatus → Byte
  | .offline => 95
  | .available => 111
  | .invisible => 105
  | .freeforchat => 102
  | .dontdisturb => 100
  | .occupied => 99
  | .notavail => 110
  | .away => 97
  | .outforlunch => 108
  | .imstatus_size => nul

/-- The members of `icqcontact` that the order looks at. -/
structure ListContact where
  cdesc : ImContact
  dispnick : Str
  status : ImStatus
  hasevents : Bool
  inlist : Bool
  groupid : Int32
  lastread : Int64

inductive SortMode
  | sort_by_status_and_activity
  | sort_by_status_and_name
  | sort_by_activity
  | sort_by_name
  deriving DecidableEq, Repr

inductive GroupMode
  | group1
  | group2
  | nogroups
  deriving DecidableEq, Repr

section Order

variable (nonimonline : ProtocolName → Bool)

/-- `icqcontact::getstatus`. -/
def getstatus (c : ListContact) : ImStatus :=
  if nonimonline c.cdesc.pname then .available else c.status

/-- `icqcontact::getshortstatus`. -/
def getshortstatus (c : ListContact) : Byte :=
  if c.status ≠ .imstatus_size then imstatus2char (getstatus nonimonline c)
  else imstatus2char .offline

/-- `getsortstatus1`. -/
def getsortstatus1 (c : ListContact) : Byte :=
  if c.hasevents then 35
  else if !c.inlist then 33
  else if getstatus nonimonline c = .invisible then 111
  else if getstatus nonimonline c = .freeforchat then 111
  else getshortstatus nonimonline c

/-- `getsortstatus2`. -/
def getsortstatus2 (c : ListContact) : Byte :=
  if c.hasevents then 35 else if !c.inlist then 33 else 111

/-- The sign of `std::string::compare`. -/
def compare (a b : Str) : ℤ := if a < b then -1 else if b < a then 1 else 0

/-- `icqcontact::operator >`; the comparison of the nicknames is not zero when they differ. -/
def gt (a b : ListContact) : Bool :=
  if a.lastread ≠ b.lastread then a.lastread < b.lastread
  else if a.cdesc.uin ≠ b.cdesc.uin then a.cdesc.uin > b.cdesc.uin
  else compare a.cdesc.nickname b.cdesc.nickname ≠ 0

def compare1 (a b : ListContact) : ℤ := if gt a b then 1 else -1

def compare2 (a b : ListContact) : ℤ := compare a.dispnick b.dispnick

/-- The first function of an entry of `sortmodes`. -/
def SortMode.sortstatus : SortMode → ListContact → Byte
  | .sort_by_status_and_activity => getsortstatus1 nonimonline
  | .sort_by_status_and_name => getsortstatus1 nonimonline
  | .sort_by_activity => getsortstatus2
  | .sort_by_name => getsortstatus2

def SortMode.compare : SortMode → ListContact → ListContact → ℤ
  | .sort_by_status_and_activity => compare1
  | .sort_by_status_and_name => compare2
  | .sort_by_activity => compare1
  | .sort_by_name => compare2

/-- `SORT_CONTACTS`. -/
def SORT_CONTACTS : Str := bytes "#odcanl_!N"

/-- `strchr(s, c)` for a character other than NUL, the null pointer being 0. -/
def strchr (s : Str) (c : Byte) : ℕ :=
  match s.idxOf? c with
  | some i => i + 1
  | none => 0

/-- `icqcontacts::clistsort`. -/
def clistsort (smode : SortMode) (gmode : GroupMode) (c1 c2 : ListContact) : ℤ :=
  let s1 := smode.sortstatus nonimonline c1
  let s2 := smode.sortstatus nonimonline c2
  let makegroup :=
    match gmode with
    | .group1 => true
    | .group2 => decide (s1 ≠ 95 ∧ s2 ≠ 95 ∨ s1 = 95 ∧ s2 = 95)
    | .nogroups => false
  let grouped := makegroup && (strchr (bytes "!N") s1 == 0 && strchr (bytes "!N") s2 == 0) &&
    (!c1.hasevents && !c2.hasevents)
  if grouped ∧ c1.groupid > c2.groupid then -1
  else if grouped ∧ c1.groupid < c2.groupid then 1
  else if s1 = s2 then -smode.compare c1 c2
  else if strchr SORT_CONTACTS s1 > strchr SORT_CONTACTS s2 then -1
  else 1

/-- `icqcontacts::order`. -/
def order (smode : SortMode) (gmode : GroupMode) (l : List ListContact) : List ListContact :=
  sort (fun next cur => 0 < clistsort nonimonline smode gmode next cur) l

end Order

/-- The laws of a comparator, for three elements. -/
structure LawsAt {α : Type*} (cmp : α → α → ℤ) (a b c : α) : Prop where
  refl : cmp a a = 0
  antisymm : (cmp b a).sign = -(cmp a b).sign
  trans : 0 ≤ cmp a b → 0 ≤ cmp b c → 0 ≤ cmp a c

/-- Are the contacts compared by their names in the end? -/
def SortMode.ByName (smode : SortMode) : Prop :=
  smode = .sort_by_status_and_name ∨ smode = .sort_by_name

def letters : Str := bytes "#odcanl_!"

/-- The sections of the list: contacts with events, those that are put into groups, in the
second group mode offline ones after the others, and those that are not in the list. -/
def level (gmode : GroupMode) (s : Byte) : ℕ :=
  if gmode = .nogroups then 0
  else if s = 35 then 0
  else if s = 33 then 3
  else if gmode = .group2 ∧ s = 95 then 2
  else 1

def groupOf (gmode : GroupMode) (s : Byte) (groupid : Int32) : ℤ :=
  if gmode = .nogroups ∨ s = 35 ∨ s = 33 then 0 else groupid.toInt

theorem letters_eq : letters = [35, 111, 100, 99, 97, 110, 108, 95, 33] ∧
    SORT_CONTACTS = [35, 111, 100, 99, 97, 110, 108, 95, 33, 78] ∧ bytes "!N" = [33, 78] := by
  decide

theorem strchr_some {l : Str} {s : Byte} (h : s ∈ l) :
    ∃ i, strchr l s = i + 1 ∧ l[i]? = some s := by
  obtain ⟨i, hi⟩ : ∃ i, l.idxOf? s = some i := by
    rw [← Option.isSome_iff_exists, List.isSome_idxOf?]
    exact h
  have hget := List.findIdx?_eq_some_iff_getElem.mp hi
  obtain ⟨hlt, heq, -⟩ := hget
  refine ⟨i, by rw [strchr, hi], ?_⟩
  rw [List.getElem?_eq_getElem hlt]
  exact congrArg some (by simpa using heq)

theorem letters_sub : ∀ s ∈ letters, s ∈ SORT_CONTACTS := by
  have happ : SORT_CONTACTS = letters ++ [78] := by
    rw [letters_eq.1, letters_eq.2.1]
    rfl
  intro s hs
  rw [happ]
  exact List.mem_append_left _ hs

theorem strchr_inj : ∀ s ∈ letters, ∀ t ∈ letters,
    strchr SORT_CONTACTS s = strchr SORT_CONTACTS t → s = t := by
  intro s hs t ht h
  obtain ⟨i, hi, hgets⟩ := strchr_some (letters_sub s hs)
  obtain ⟨j, hj, hgett⟩ := strchr_some (letters_sub t ht)
  obtain rfl : i = j := by omega
  rw [hgets] at hgett
  exact Option.some.inj hgett

theorem strchr_section : ∀ s ∈ letters,
    (s = 35 → strchr SORT_CONTACTS s = 1) ∧ (s = 33 → strchr SORT_CONTACTS s = 9) ∧
      (s = 95 → strchr SORT_CONTACTS s = 8) ∧
      (s ≠ 35 → s ≠ 33 → 1 < strchr SORT_CONTACTS s ∧ strchr SORT_CONTACTS s < 9 ∧
        (s ≠ 95 → strchr SORT_CONTACTS s < 8)) := by
  rw [letters_eq.1, letters_eq.2.1]
  decide

theorem strchr_of_level (gmode : GroupMode) : ∀ s ∈ letters, ∀ t ∈ letters,
    level gmode s < level gmode t → strchr SORT_CONTACTS s < strchr SORT_CONTACTS t := by
  intro s hs t ht h
  have h1 := strchr_section s hs
  have h2 := strchr_section t ht
  simp only [level] at h
  split_ifs at h <;> grind

theorem strchr_notInList : ∀ s ∈ letters, (strchr (bytes "!N") s = 0 ↔ s ≠ 33) := by
  rw [letters_eq.1, letters_eq.2.2]
  decide +kernel

section Laws

variable {nonimonline : ProtocolName → Bool} {smode : SortMode} {gmode : GroupMode}
  {a b : ListContact}

theorem imstatus2char_mem {st : ImStatus} (h1 : st ≠ .invisible) (h2 : st ≠ .freeforchat)
    (h3 : st ≠ .imstatus_size) : imstatus2char st ∈ letters ∧ imstatus2char st ≠ 35 := by
  cases st <;> first | contradiction | decide

theorem getsortstatus1_mem (c : ListContact) (he : c.hasevents = false) :
    getsortstatus1 nonimonline c ∈ letters ∧ getsortstatus1 nonimonline c ≠ 35 := by
  simp only [getsortstatus1, he, Bool.false_eq_true, if_false]
  split_ifs with h1 h3 h4
  · decide
  · decide
  · decide
  · rw [getshortstatus]
    split_ifs with hs
    · refine imstatus2char_mem h3 h4 ?_
      rw [getstatus]
      split_ifs
      · decide
      · exact hs
    · decide

/-- The letters of contacts; that of the contacts with events is theirs alone. -/
theorem sortstatus_spec (c : ListContact) : smode.sortstatus nonimonline c ∈ letters ∧
    (smode.sortstatus nonimonline c = 35 ↔ c.hasevents = true) := by
  cases he : c.hasevents with
  | true =>
    have h : smode.sortstatus nonimonline c = 35 := by
      cases smode <;> simp [SortMode.sortstatus, getsortstatus1, getsortstatus2, he]
    rw [h]
    decide
  | false =>
    have h1 : getsortstatus1 nonimonline c ∈ letters ∧ getsortstatus1 nonimonline c ≠ 35 :=
      getsortstatus1_mem c he
    have h2 : getsortstatus2 c ∈ letters ∧ getsortstatus2 c ≠ 35 := by
      rw [getsortstatus2, he]
      cases c.inlist <;> decide
    cases smode with
    | sort_by_status_and_activity => exact ⟨h1.1, by simp [SortMode.sortstatus, h1.2]⟩
    | sort_by_status_and_name => exact ⟨h1.1, by simp [SortMode.sortstatus, h1.2]⟩
    | sort_by_activity => exact ⟨h2.1, by simp [SortMode.sortstatus, h2.2]⟩
    | sort_by_name => exact ⟨h2.1, by simp [SortMode.sortstatus, h2.2]⟩

def rank (nonimonline : ProtocolName → Bool) (smode : SortMode) (gmode : GroupMode)
    (c : ListContact) : Lex (ℕ × Lex (ℤ × ℕ)) :=
  let s := smode.sortstatus nonimonline c
  toLex (level gmode s, toLex (groupOf gmode s c.groupid, strchr SORT_CONTACTS s))

theorem rank_lt_iff : rank nonimonline smode gmode a < rank nonimonline smode gmode b ↔
    level gmode (smode.sortstatus nonimonline a) < level gmode (smode.sortstatus nonimonline b) ∨
    level gmode (smode.sortstatus nonimonline a) = level gmode (smode.sortstatus nonimonline b) ∧
      (groupOf gmode (smode.sortstatus nonimonline a) a.groupid <
          groupOf gmode (smode.sortstatus nonimonline b) b.groupid ∨
        groupOf gmode (smode.sortstatus nonimonline a) a.groupid =
            groupOf gmode (smode.sortstatus nonimonline b) b.groupid ∧
          strchr SORT_CONTACTS (smode.sortstatus nonimonline a) <
            strchr SORT_CONTACTS (smode.sortstatus nonimonline b)) := by
  simp only [rank, Prod.Lex.toLex_lt_toLex]

def grouped (gmode : GroupMode) (s t : Byte) : Bool :=
  (match gmode with
    | .group1 => true
    | .group2 => decide (s ≠ 95 ∧ t ≠ 95 ∨ s = 95 ∧ t = 95)
    | .nogroups => false) &&
  (strchr (bytes "!N") s == 0 && strchr (bytes "!N") t == 0) && (s != 35 && t != 35)

/-- The groups decide between contacts of one section that has groups. -/
theorem grouped_iff (gmode : GroupMode) : ∀ s ∈ letters, ∀ t ∈ letters,
    (grouped gmode s t = true ↔ gmode ≠ .nogroups ∧ level gmode s = level gmode t ∧
      (s ≠ 35 ∧ s ≠ 33) ∧ t ≠ 35 ∧ t ≠ 33) := by
  intro s hs t ht
  have h1 := strchr_notInList s hs
  have h2 := strchr_notInList t ht
  simp only [grouped, Bool.and_eq_true, beq_iff_eq, bne_iff_ne, h1, h2, level]
  cases gmode <;> grind

theorem eq_of_not_grouped (gmode : GroupMode) : ∀ s ∈ letters, ∀ t ∈ letters,
    grouped gmode s t = false → level gmode s = level gmode t →
      gmode = .nogroups ∨ s = t ∧ (s = 35 ∨ s = 33) := by
  intro s hs t ht hno hlevel
  have hiff := grouped_iff gmode s hs t ht
  rw [hno] at hiff
  simp only [level] at hlevel hiff
  grind

theorem clistsort_grouped {s t : Byte} (hs : smode.sortstatus nonimonline a = s)
    (ht : smode.sortstatus nonimonline b = t) :
    clistsort nonimonline smode gmode a b =
      if grouped gmode s t ∧ a.groupid > b.groupid then -1
      else if grouped gmode s t ∧ a.groupid < b.groupid then 1
      else if s = t then -smode.compare a b
      else if strchr SORT_CONTACTS s > strchr SORT_CONTACTS t then -1
      else 1 := by
  have hletter : ∀ c : ListContact, (smode.sortstatus nonimonline c != 35) = !c.hasevents := by
    intro c
    have h : smode.sortstatus nonimonline c = 35 ↔ c.hasevents = true := (sortstatus_spec c).2
    cases hc : c.hasevents <;> simp [hc] at h <;> simp [h]
  subst hs ht
  simp only [grouped, hletter, clistsort]

/-- Before contacts of one letter are compared, their ranks decide. -/
theorem clistsort_eq_rank :
    clistsort nonimonline smode gmode a b =
      if rank nonimonline smode gmode b < rank nonimonline smode gmode a then -1
      else if rank nonimonline smode gmode a < rank nonimonline smode gmode b then 1
      else -smode.compare a b := by
  obtain ⟨s, hs⟩ : ∃ s, smode.sortstatus nonimonline a = s := ⟨_, rfl⟩
  obtain ⟨t, ht⟩ : ∃ t, smode.sortstatus nonimonline b = t := ⟨_, rfl⟩
  have hsm : smode.sortstatus nonimonline a ∈ letters := (sortstatus_spec a).1
  have htm : smode.sortstatus nonimonline b ∈ letters := (sortstatus_spec b).1
  rw [clistsort_grouped hs ht]
  simp only [rank_lt_iff, hs, ht]
  rw [hs] at hsm
  rw [ht] at htm
  have hinj := strchr_inj s hsm t htm
  cases hg : grouped gmode s t with
  | true =>
    -- one section with groups, so the groups come first and the letters after them
    obtain ⟨hmode, hlevel, ⟨hs35, hs33⟩, ht35, ht33⟩ := (grouped_iff gmode s hsm t htm).mp hg
    have hsg : groupOf gmode s a.groupid = a.groupid.toInt := if_neg (by simp [hmode, hs35, hs33])
    have htg : groupOf gmode t b.groupid = b.groupid.toInt := if_neg (by simp [hmode, ht35, ht33])
    simp only [hlevel, hsg, htg, lt_irrefl, false_or, true_and, gt_iff_lt, Int32.lt_iff_toInt_lt]
    rcases lt_trichotomy a.groupid.toInt b.groupid.toInt with h | h | h
    · simp [h, h.ne', h.asymm]
    · rw [h]
      by_cases hst : s = t
      · simp [hst]
      · have hne : strchr SORT_CONTACTS s ≠ strchr SORT_CONTACTS t := fun h => hst (hinj h)
        split_ifs <;> omega
    · simp [h]
  | false =>
    by_cases hlevel : level gmode s = level gmode t
    · have hgroup : groupOf gmode s a.groupid = groupOf gmode t b.groupid := by
        rcases eq_of_not_grouped gmode s hsm t htm hg hlevel with h | ⟨rfl, h⟩
        · simp [groupOf, h]
        · simp [groupOf, h]
      simp only [hlevel, hgroup, lt_irrefl, false_or, true_and, Bool.false_eq_true, false_and,
        if_false, gt_iff_lt]
      by_cases hst : s = t
      · simp [hst]
      · have hne : strchr SORT_CONTACTS s ≠ strchr SORT_CONTACTS t := fun h => hst (hinj h)
        simp only [if_neg hst]
        split_ifs <;> omega
    · have hst : s ≠ t := fun h => hlevel (by rw [h])
      simp only [hlevel, Ne.symm hlevel, or_false, false_and, Bool.false_eq_true, if_false,
        if_neg hst, gt_iff_lt]
      rcases lt_or_gt_of_ne hlevel with h | h
      · have hpos := strchr_of_level gmode s hsm t htm h
        simp [h, h.asymm, hpos.asymm]
      · have hpos := strchr_of_level gmode t htm s hsm h
        simp [h, hpos]

theorem compare_swap (x y : Str) : compare y x = -compare x y := by
  simp only [compare]
  by_cases hxy : x < y
  · simp [hxy, List.lt_asymm hxy]
  · by_cases hyx : y < x <;> simp [hxy, hyx]

theorem compare_nonpos_iff {x y : Str} : compare x y ≤ 0 ↔ x ≤ y := by
  rw [compare, ← List.not_lt]
  by_cases hxy : x < y
  · simp [hxy, List.lt_asymm hxy]
  · by_cases hyx : y < x <;> simp [hxy, hyx]

theorem compare_eq_zero_iff {x y : Str} : compare x y = 0 ↔ x = y := by
  constructor
  · intro h
    refine List.le_antisymm (compare_nonpos_iff.mp h.le) (compare_nonpos_iff.mp ?_)
    rw [compare_swap, h, neg_zero]
  · rintro rfl
    simp [compare, List.lt_irrefl]

theorem clistsort_nonneg_iff (h : smode.ByName) : 0 ≤ clistsort nonimonline smode gmode a b ↔
    rank nonimonline smode gmode a < rank nonimonline smode gmode b ∨
      rank nonimonline smode gmode a = rank nonimonline smode gmode b ∧ a.dispnick ≤ b.dispnick := by
  have hcompare : smode.compare a b = compare a.dispnick b.dispnick := by
    rcases h with rfl | rfl <;> rfl
  rw [clistsort_eq_rank, hcompare]
  rcases lt_trichotomy (rank nonimonline smode gmode a) (rank nonimonline smode gmode b) with
    hlt | heq | hgt
  · simp [hlt, hlt.asymm]
  · simp [heq, compare_nonpos_iff]
  · simp [hgt, hgt.asymm, hgt.ne']

theorem lawsAt_of_byName (h : smode.ByName) (a b c : ListContact) :
    LawsAt (clistsort nonimonline smode gmode) a b c := by
  have hcompare : ∀ x y, smode.compare x y = compare x.dispnick y.dispnick := by
    rcases h with rfl | rfl <;> exact fun _ _ => rfl
  refine ⟨?_, ?_, ?_⟩
  · rw [clistsort_eq_rank, hcompare, compare_eq_zero_iff.mpr rfl]
    simp
  · rw [clistsort_eq_rank, clistsort_eq_rank, hcompare, hcompare, compare_swap b.dispnick]
    rcases lt_trichotomy (rank nonimonline smode gmode a) (rank nonimonline smode gmode b) with
      hlt | heq | hgt
    · simp [hlt, hlt.asymm]
    · simp [heq, Int.sign_neg]
    · simp [hgt, hgt.asymm]
  · rw [clistsort_nonneg_iff h, clistsort_nonneg_iff h, clistsort_nonneg_iff h]
    rintro (hab | ⟨hab, hab'⟩) (hbc | ⟨hbc, hbc'⟩)
    · exact Or.inl (hab.trans hbc)
    · exact Or.inl (hbc ▸ hab)
    · exact Or.inl (hab ▸ hbc)
    · exact Or.inr ⟨hab.trans hbc, List.le_trans hab' hbc'⟩

/-- By activity, a contact does not have the sign 0 against itself. -/
theorem clistsort_self (h : ¬ smode.ByName) : clistsort nonimonline smode gmode a a = 1 := by
  have hgt : gt a a = false := by simp [gt, compare_eq_zero_iff]
  have hcompare : smode.compare a a = -1 := by
    cases smode with
    | sort_by_status_and_activity => simp [SortMode.compare, compare1, hgt]
    | sort_by_activity => simp [SortMode.compare, compare1, hgt]
    | sort_by_status_and_name => exact absurd (Or.inl rfl) h
    | sort_by_name => exact absurd (Or.inr rfl) h
  rw [clistsort_eq_rank, hcompare]
  simp

/-- A comparator with the laws puts things into a total preorder. -/
theorem preordered_of_laws {α : Type*} {cmp : α → α → ℤ} (h : ∀ a b c, LawsAt cmp a b c) :
    Preordered fun next cur => decide (0 < cmp next cur) := by
  have hsign : ∀ a b, 0 ≤ cmp a b ↔ ¬ 0 < cmp b a := by
    intro a b
    have hanti := (h a b b).antisymm
    rw [not_lt, ← Int.sign_nonneg_iff, ← Int.sign_nonpos_iff, hanti]
    omega
  refine ⟨fun a b hba => ?_, fun a b c hab hbc => ?_⟩
  · have hpos := of_decide_eq_true hba
    exact decide_eq_false ((hsign b a).mp hpos.le)
  · have h1 := (hsign a b).mpr (of_decide_eq_false hab)
    have h2 := (hsign b c).mpr (of_decide_eq_false hbc)
    exact decide_eq_false ((hsign a c).mp ((h a b c).trans h1 h2))

/-- The comparator has the laws on the contacts of a list, and ordering the list twice leaves
it as the first time did, if and only if the list is sorted by name or empty. -/
theorem order_laws (nonimonline : ProtocolName → Bool) (smode : SortMode) (gmode : GroupMode)
    (l : List ListContact) :
    ((∀ a ∈ l, ∀ b ∈ l, ∀ c ∈ l, LawsAt (clistsort nonimonline smode gmode) a b c) ∧
      order nonimonline smode gmode (order nonimonline smode gmode l) =
        order nonimonline smode gmode l) ↔ smode.ByName ∨ l = [] := by
  constructor
  · rintro ⟨hlaws, -⟩
    by_contra hn
    rw [not_or] at hn
    obtain ⟨a, ha⟩ := List.exists_mem_of_ne_nil l hn.2
    have hself := (hlaws a ha a ha a ha).refl
    rw [clistsort_self hn.1] at hself
    exact absurd hself (by decide)
  · rintro (h | rfl)
    · exact ⟨fun a _ b _ c _ => lawsAt_of_byName h a b c,
        sort_sort (preordered_of_laws (lawsAt_of_byName h)) l⟩
    · exact ⟨by simp, rfl⟩

end Laws

def unread (nick : Str) (pname : ProtocolName) : ListContact :=
  ⟨.ofNick nick pname, nick, .offline, false, true, 1, 0⟩

def twinList : List ListContact :=
  [unread (bytes "bob") .yahoo, unread (bytes "bob") .jabber,
    { unread (bytes "eve") .jabber with inlist := false }]

/-- The two contacts compare as if each came before the other, and they change places each
time the list is ordered. -/
theorem order_not_idempotent :
    ¬ ∀ nonimonline smode gmode (l : List ListContact),
      (∀ a ∈ l, ∀ b ∈ l, ∀ c ∈ l, LawsAt (clistsort nonimonline smode gmode) a b c) ∧
        order nonimonline smode gmode (order nonimonline smode gmode l) =
          order nonimonline smode gmode l := by
  intro h
  have hsame := (h (fun _ => false) .sort_by_status_and_activity .nogroups twinList).2
  have hdiff : ((order (fun _ => false) .sort_by_status_and_activity .nogroups
      (order (fun _ => false) .sort_by_status_and_activity .nogroups twinList)).map
        fun c => c.cdesc.pname) ≠
      (order (fun _ => false) .sort_by_status_and_activity .nogroups twinList).map
        fun c => c.cdesc.pname := by
    decide
  exact hdiff (congrArg _ hsame)

end CenterIM.ContactOrder
