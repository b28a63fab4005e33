import CenterIM.Contact
import CenterIM.LineStream

/-!
# The ignore and visibility lists

`icqlist` writes an entry as the kind of list, the display nick, and the protocol with the
account number. For other protocols than ICQ what it reads back has the display nick for a
nickname and no number.
-/
namespace CenterIM.ModeList
open ByteText Decimal LineStream StrText Contact

/-- `contactstatus`, as the number that is written. -/
abbrev ContactStatus := Int32

abbrev ContactStatus.csignore : ContactStatus := 1
abbrev ContactStatus.csvisible : ContactStatus := 2
abbrev ContactStatus.csinvisible : ContactStatus := 3

structure ModeListItem where
  nick : Str
  cdesc : ImContact
  cs : ContactStatus

/-- A line of `icqlist::save`. -/
def saveItem (i : ModeListItem) : Str :=
  decimalInt i.cs.toInt ++ tab :: (mime i.nick ++ tab :: ( getprotocolprefix i.cdesc.pname ++
    if i.cdesc.uin ≠ 0 then decimal i.cdesc.uin.toNat else []))

/-- `icqlist::save`. -/
def save (lst : List ModeListItem) : Str := unlines (lst.map saveItem)

/-- What `icqlist::load` makes of a line. -/
def loadItem (buf : Str) : Except Fault (Option ModeListItem) :=
  let (tok, buf) := getword buf wordDelim
  if tok = [] ∨ atoi tok = 0 then .ok none
  else
    let (word, buf) := getword buf wordDelim
    (unmime word).map fun nick =>
      match nick, buf with
      | [], _ => none
      | _, [] => none
      | nick, letter :: _ =>
        match getprotocolbyletter letter with
        | .icq => some ⟨nick, ImContact.ofUin (strtoul buf) .icq, atoi tok⟩
        | pname => some ⟨nick, ImContact.ofNick nick pname, atoi tok⟩

/-- The loop of `icqlist::load`, for a list that holds `lst` so far. -/
def loadLoop : ℕ → IStream → List ModeListItem → Except Fault (List ModeListItem)
  | 0, _, lst => .ok lst
  | fuel + 1, f, lst =>
    if f.eof then .ok lst
    else
      let (_, buf, f) := getstring f []
      match loadItem buf with
      | .error e => .error e
      | .ok item => loadLoop fuel f (lst ++ item.toList)

/-- `icqlist::load` on a fresh list. -/
def load (content : Str) : Except Fault (List ModeListItem) :=
  loadLoop (content.length + 2) (IStream.ofContent content) []

/-- `icqlist::inlist`. -/
def inlist (cinfo : ImContact) (ncs : ContactStatus) : List ModeListItem → Bool
  | [] => false
  | i :: lst =>
    if i.cdesc.eq cinfo then
      if i.cs = ncs then true else inlist cinfo ncs lst
    else inlist cinfo ncs lst

structure Created (i : ModeListItem) : Prop where
  kind : i.cs ≠ 0
  protocol : i.cdesc.pname ≠ .protocolname_size
  icq : i.cdesc.pname = .icq → i.cdesc.uin ≠ 0

/-- What an entry is after it was saved and loaded. A display nick ends at a NUL. -/
def reread (i : ModeListItem) : Option ModeListItem :=
  if cstr i.nick = [] then none
  else if i.cdesc.pname = .icq then
    some ⟨cstr i.nick, ImContact.ofUin i.cdesc.uin .icq, i.cs⟩
  else some ⟨cstr i.nick, ImContact.ofNick (cstr i.nick) i.cdesc.pname, i.cs⟩

theorem inlist_iff (cinfo : ImContact) (ncs : ContactStatus) (lst : List ModeListItem) :
    inlist cinfo ncs lst = true ↔ ∃ i ∈ lst, i.cdesc.eq cinfo = true ∧ i.cs = ncs := by
  induction lst with
  | nil => simp [inlist]
  | cons i lst ih =>
    rw [inlist]
    split_ifs with heq hcs
    · simp [heq, hcs]
    · simp [ih, hcs]
    · simp [ih, heq]

/-- The last field of a line: the letter of the protocol and the account number. -/
abbrev account (i : ModeListItem) : Str :=
  getprotocolprefix i.cdesc.pname ++ if i.cdesc.uin ≠ 0 then decimal i.cdesc.uin.toNat else []

theorem prefix_letter {p : ProtocolName} (hi : p ≠ .icq) (hs : p ≠ .protocolname_size) :
    ∃ d, getprotocolprefix p = [d] ∧ isalnum d = true := by
  cases p <;> first | exact absurd rfl hi | exact absurd rfl hs | exact ⟨_, rfl, by decide⟩

theorem account_icq {i : ModeListItem} (h : Created i) (hi : i.cdesc.pname = .icq) :
    account i = decimal i.cdesc.uin.toNat := by
  rw [account, hi, if_pos (h.icq hi)]
  rfl

theorem account_letter {i : ModeListItem} (h : Created i) :
    ∃ letter t, account i = letter :: t ∧ getprotocolbyletter letter = i.cdesc.pname := by
  by_cases hi : i.cdesc.pname = .icq
  · obtain ⟨c, t, hc, hdigit⟩ := decimal_cons i.cdesc.uin.toNat
    exact ⟨c, t, by rw [account_icq h hi, hc], by rw [hi, getprotocolbyletter_digit hdigit]⟩
  · obtain ⟨d, hd, -⟩ := prefix_letter hi h.protocol
    refine ⟨d, if i.cdesc.uin ≠ 0 then decimal i.cdesc.uin.toNat else [], ?_,
      getprotocolbyletter_prefix hd⟩
    rw [account, hd]
    rfl

theorem account_isalnum {i : ModeListItem} (h : Created i) :
    ∀ c ∈ account i, isalnum c = true := by
  intro c hc
  rcases List.mem_append.mp hc with hc | hc
  · by_cases hi : i.cdesc.pname = .icq
    · rw [hi] at hc
      exact absurd hc List.not_mem_nil
    · obtain ⟨d, hd, halnum⟩ := prefix_letter hi h.protocol
      rw [hd, List.mem_singleton] at hc
      exact hc ▸ halnum
  · split_ifs at hc
    · exact decimal_isalnum _ c hc
    · exact absurd hc List.not_mem_nil

theorem mime_isalnum {s : Str} (h : ∀ c ∈ s, isalnum c = true) : mime s = s := by
  have hnul : nul ∉ s := fun hm => absurd (h nul hm) (by decide)
  rw [mime, cstr_eq_self hnul]
  have hbyte : ∀ c ∈ s, mimeByte c = [c] := fun c hc => by simp [mimeByte, h c hc]
  rw [List.flatMap_congr hbyte, List.flatMap_singleton']

theorem loadItem_saveItem {i : ModeListItem} (h : Created i) :
    loadItem (saveItem i) = .ok (reread i) := by
  obtain ⟨letter, t, hletter, hprotocol⟩ := account_letter h
  have htab : tab ∈ wordDelim := by decide
  have hword : ∀ c ∈ account i, inWord wordDelim c = true := fun c hc =>
    isalnum_inWord (account_isalnum h c hc)
  have hne : account i ≠ [] := by simp [hletter]
  have hlead : leadcut (account i) wordDelim = account i := by
    have hcut := leadcut_word hword hne []
    rwa [List.append_nil] at hcut
  have htok : ¬ (decimalInt i.cs.toInt = [] ∨ atoi (decimalInt i.cs.toInt) = 0) := by
    rw [atoi_decimalInt]
    rintro (h1 | h1)
    · exact decimalInt_ne_nil _ h1
    · exact h.kind h1
  have hmime : mime i.nick = mime (cstr i.nick) := by
    rw [mime, mime, cstr_eq_self (nul_not_mem_cstr _)]
  have hline : saveItem i =
      decimalInt i.cs.toInt ++ tab :: (mime (cstr i.nick) ++ tab :: account i) := by
    rw [← hmime]
    rfl
  unfold loadItem
  rw [hline, getword_word (decimalInt_inWord _) (decimalInt_ne_nil _) htab]
  dsimp only
  rw [if_neg htok, atoi_decimalInt]
  by_cases hnick : cstr i.nick = []
  · -- the account is taken for the nick, and nothing is left for the account
    have hcut : leadcut (mime (cstr i.nick) ++ tab :: account i) wordDelim = account i := by
      rw [hnick]
      exact (List.dropWhile_cons_of_pos (by simpa using htab)).trans hlead
    have hnul : nul ∉ account i := fun hm => absurd (account_isalnum h nul hm) (by decide)
    rw [hcut, getword_last hword hne, reread, if_pos hnick, ← mime_isalnum (account_isalnum h),
      unmime_mime hnul]
    cases account i <;> rfl
  · have hmne : mime (cstr i.nick) ≠ [] := by
      rwa [Ne, mime_eq_nil_iff (nul_not_mem_cstr _)]
    rw [leadcut_word (mime_inWord _) hmne, getword_word (mime_inWord _) hmne htab, hlead,
      unmime_mime (nul_not_mem_cstr _), reread, if_neg hnick]
    obtain ⟨c, nick, hcons⟩ := List.exists_cons_of_ne_nil hnick
    rw [hletter, hcons]
    simp only [Except.map, hprotocol]
    split_ifs with hi
    · have hnum : letter :: t = decimal i.cdesc.uin.toNat := by rw [← hletter, account_icq h hi]
      simp only [hi, hnum, strtoul_decimal i.cdesc.uin.toNat_lt]
      simp
    · cases hp : i.cdesc.pname <;> first | exact absurd hp hi | rfl

theorem saveItem_plain {i : ModeListItem} (h : Created i) : Plain (saveItem i) := by
  have hno : ∀ c, isalnum c = false → c ≠ tab → c ∉ decimalInt i.cs.toInt → c ∉ mime i.nick →
      c ∉ saveItem i := by
    intro c hc htab hnum hmime hm
    have haccount : c ∉ account i := fun hm => by
      rw [account_isalnum h c hm] at hc
      exact absurd hc (by decide)
    rcases List.mem_append.mp hm with hm | hm
    · exact hnum hm
    · rcases List.mem_cons.mp hm with hm | hm
      · exact htab hm
      · rcases List.mem_append.mp hm with hm | hm
        · exact hmime hm
        · exact (List.mem_cons.mp hm).elim htab haccount
  exact ⟨hno lf (by decide) (by decide) (decimalInt_plain _).1 (mime_plain _).1,
    hno nul (by decide) (by decide) (decimalInt_plain _).2 (mime_plain _).2⟩

theorem loadLoop_lines {ls : List Str} (hp : ∀ l ∈ ls, Plain l) {items : List (Option ModeListItem)}
    (hitems : List.Forall₂ (fun l item => loadItem l = .ok item) ls items) {fuel : ℕ}
    (hf : ls.length < fuel) (lst : List ModeListItem) :
    loadLoop fuel (ofLines ls) lst = .ok (lst ++ items.flatMap Option.toList) := by
  induction hitems generalizing fuel lst with
  | nil =>
    obtain ⟨fuel, rfl⟩ := Nat.exists_eq_succ_of_ne_zero (Nat.ne_zero_of_lt hf)
    simp [loadLoop]
  | @cons l item ls items hitem _ ih =>
    obtain ⟨fuel, rfl⟩ := Nat.exists_eq_succ_of_ne_zero (Nat.ne_zero_of_lt hf)
    rw [List.length_cons] at hf
    have hrest := ih (fun k hk => hp k (by simp [hk])) (show ls.length < fuel by omega)
      (lst ++ item.toList)
    simp only [loadLoop, ofLines_cons_eof, Bool.false_eq_true, if_false,
      getstring_ofLines (hp l (by simp)), hitem, hrest, List.flatMap_cons, List.append_assoc]

/-- Saving a list and loading it gives what is left of each entry. -/
theorem load_save {lst : List ModeListItem} (h : ∀ i ∈ lst, Created i) :
    load (save lst) = .ok (lst.filterMap reread) := by
  have hplain : ∀ l ∈ lst.map saveItem ++ [[]], Plain l := by
    intro l hl
    rcases List.mem_append.mp hl with hl | hl
    · obtain ⟨i, hi, rfl⟩ := List.mem_map.mp hl
      exact saveItem_plain (h i hi)
    · rw [List.mem_singleton.mp hl]
      exact ⟨List.not_mem_nil, List.not_mem_nil⟩
  have hlines : lines (save lst) = lst.map saveItem ++ [[]] :=
    lines_unlines fun l hl => (hplain l (List.mem_append_left _ hl)).1
  have hitems : List.Forall₂ (fun l item => loadItem l = .ok item) (lst.map saveItem ++ [[]])
      (lst.map reread ++ [none]) := by
    refine List.rel_append ?_ (.cons rfl .nil)
    rw [List.forall₂_map_left_iff, List.forall₂_map_right_iff, List.forall₂_same]
    exact fun i hi => loadItem_saveItem (h i hi)
  have hlen := lines_length_le (save lst)
  rw [load, ← ofLines_lines, hlines, loadLoop_lines hplain hitems (by rw [← hlines]; omega)]
  simp [List.flatMap_map, List.filterMap_eq_flatMap_toList]

/-- An entry that is saved as `j` and loaded stands for the same contact and kind as `i`: an
ICQ number, or the display nick as the nickname of a contact without a number. -/
def StandsFor (j i : ModeListItem) : Prop :=
  cstr j.nick ≠ [] ∧ j.cs = i.cs ∧ j.cdesc.pname = i.cdesc.pname ∧
    if i.cdesc.pname = .icq then i.cdesc.nickname = [] ∧ j.cdesc.uin = i.cdesc.uin
    else i.cdesc.uin = 0 ∧
      nickKey i.cdesc.pname (cstr j.nick) = nickKey i.cdesc.pname i.cdesc.nickname

instance (j i : ModeListItem) : Decidable (StandsFor j i) := by
  delta StandsFor
  infer_instance

theorem ofUin_eq_iff {uin : UInt64} {c : ImContact} :
    (ImContact.ofUin uin .icq).eq c = true ↔
      .icq = c.pname ∧ c.nickname = [] ∧ uin = c.uin := by
  rw [eq_iff_key, ImContact.key, ImContact.key]
  simp only [ImContact.ofUin, Prod.mk.injEq]
  constructor
  · rintro ⟨hp, hu, hk⟩
    rw [← hp] at hk
    exact ⟨hp, hk.symm, hu⟩
  · rintro ⟨hp, hn, hu⟩
    rw [← hp, hn]
    exact ⟨rfl, hu, rfl⟩

theorem ofNick_eq_iff {nick : Str} {p : ProtocolName} {c : ImContact} :
    (ImContact.ofNick nick p).eq c = true ↔
      p = c.pname ∧ c.uin = 0 ∧ nickKey c.pname nick = nickKey c.pname c.nickname := by
  rw [eq_iff_key, ImContact.key, ImContact.key]
  simp only [ImContact.ofNick, Prod.mk.injEq]
  constructor
  · rintro ⟨rfl, hu, hk⟩
    exact ⟨rfl, hu.symm, hk⟩
  · rintro ⟨rfl, hu, hk⟩
    exact ⟨rfl, hu.symm, hk⟩

theorem standsFor_iff (j i : ModeListItem) :
    StandsFor j i ↔ ∃ k, reread j = some k ∧ k.cdesc.eq i.cdesc = true ∧ k.cs = i.cs := by
  unfold StandsFor reread
  by_cases hn : cstr j.nick = []
  · simp [hn]
  by_cases hj : j.cdesc.pname = .icq
  · simp only [if_neg hn, if_pos hj, Option.some.injEq, exists_eq_left', ofUin_eq_iff]
    by_cases hi : i.cdesc.pname = .icq
    · rw [if_pos hi, hj, hi]
      tauto
    · have hne : ¬ ProtocolName.icq = i.cdesc.pname := fun h => hi h.symm
      rw [hj]
      tauto
  · simp only [if_neg hn, if_neg hj, Option.some.injEq, exists_eq_left', ofNick_eq_iff]
    by_cases hi : i.cdesc.pname = .icq
    · have hne : ¬ j.cdesc.pname = i.cdesc.pname := fun h => hj (h.trans hi)
      tauto
    · rw [if_neg hi]
      tauto

/-- The lists answer alike before and after they are saved and loaded. -/
def Survives (lst : List ModeListItem) : Prop :=
  ∃ lst', load (save lst) = .ok lst' ∧ ∀ c cs, inlist c cs lst' = inlist c cs lst

/-- Lists survive a restart if and only if each entry is stood for by one, and each entry
that has a display nick stands for one. -/
theorem survives_iff (lst : List ModeListItem) (h : ∀ i ∈ lst, Created i) :
    Survives lst ↔ (∀ i ∈ lst, ∃ j ∈ lst, StandsFor j i) ∧
      ∀ j ∈ lst, cstr j.nick ≠ [] → ∃ i ∈ lst, StandsFor j i := by
  have hload := load_save h
  constructor
  · rintro ⟨lst', hlst, hin⟩
    obtain rfl := Except.ok.inj (hload.symm.trans hlst)
    constructor
    · intro i hi
      have hmem := (inlist_iff i.cdesc i.cs lst).mpr ⟨i, hi, eq_refl _, rfl⟩
      rw [← hin, inlist_iff] at hmem
      obtain ⟨k, hk, heq, hcs⟩ := hmem
      obtain ⟨j, hj, hjk⟩ := List.mem_filterMap.mp hk
      exact ⟨j, hj, (standsFor_iff j i).mpr ⟨k, hjk, heq, hcs⟩⟩
    · intro j hj hne
      obtain ⟨k, hk⟩ : ∃ k, reread j = some k := by
        unfold reread
        rw [if_neg hne]
        split_ifs
        · exact ⟨_, rfl⟩
        · exact ⟨_, rfl⟩
      have hmem := (inlist_iff k.cdesc k.cs (lst.filterMap reread)).mpr
        ⟨k, List.mem_filterMap.mpr ⟨j, hj, hk⟩, eq_refl _, rfl⟩
      rw [hin, inlist_iff] at hmem
      obtain ⟨i, hi, heq, hcs⟩ := hmem
      exact ⟨i, hi, (standsFor_iff j i).mpr ⟨k, hk, by rwa [eq_comm'], hcs.symm⟩⟩
  · rintro ⟨hkept, hmade⟩
    refine ⟨_, hload, fun c cs => Bool.eq_iff_iff.mpr ?_⟩
    rw [inlist_iff, inlist_iff]
    constructor
    · rintro ⟨k, hk, heq, hcs⟩
      obtain ⟨j, hj, hjk⟩ := List.mem_filterMap.mp hk
      have hne : cstr j.nick ≠ [] := fun hn => by simp [reread, hn] at hjk
      obtain ⟨i, hi, hji⟩ := hmade j hj hne
      obtain ⟨k', hk', heq', hcs'⟩ := (standsFor_iff j i).mp hji
      obtain rfl := Option.some.inj (hjk.symm.trans hk')
      exact ⟨i, hi, eq_trans (by rwa [eq_comm']) heq, hcs'.symm.trans hcs⟩
    · rintro ⟨i, hi, heq, hcs⟩
      obtain ⟨j, hj, hji⟩ := hkept i hi
      obtain ⟨k, hk, heq', hcs'⟩ := (standsFor_iff j i).mp hji
      exact ⟨k, List.mem_filterMap.mpr ⟨j, hj, hk⟩, eq_trans heq' heq, hcs'.trans hcs⟩

def twoItems : List ModeListItem :=
  [⟨bytes "Bob", ImContact.ofUin 5 .icq, .csignore⟩,
    ⟨bytes "al", ImContact.ofNick (bytes "AL") .irc, .csvisible⟩]

theorem twoItems_survive : Survives twoItems :=
  (survives_iff twoItems (by
    simp only [twoItems, List.mem_cons, List.not_mem_nil, or_false, forall_eq_or_imp, forall_eq]
    exact ⟨⟨by decide, by decide, by decide⟩, by decide, by decide, by decide⟩)).mpr
    (by decide)

def bobby : ModeListItem := ⟨bytes "Bobby", ImContact.ofNick (bytes "bob") .yahoo, .csignore⟩

/-- After a restart the contact is not ignored any more. -/
theorem list_not_survives : ¬ ∀ lst : List ModeListItem,
    (∀ i ∈ lst, Created i ∧ lf ∉ i.nick ∧ (i.cdesc.nickname ≠ [] ∨ i.cdesc.uin ≠ 0)) →
      Survives lst := by
  intro h
  have hbobby : Created bobby := ⟨by decide, by decide, by decide⟩
  obtain ⟨lst', hload, hin⟩ := h [bobby] (by
    simp only [List.mem_singleton, forall_eq]
    exact ⟨hbobby, by decide, by decide⟩)
  rw [load_save (by simpa using hbobby), Except.ok.injEq] at hload
  have hno := hin bobby.cdesc .csignore
  rw [← hload] at hno
  exact absurd hno (by decide)

end CenterIM.ModeList
