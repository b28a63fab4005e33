import CenterIM.ContactDirectory
import CenterIM.JabberHook
import CenterIM.Runs

/-!
# One entry for each contact

The contact list under stored events, removals, changes of IRC nicknames and the renames
that the Jabber and MSN hooks make when a contact is put on their lists. The IRC hook looks
for the new nickname before it renames, the other two do not.
-/
namespace CenterIM.ContactList
open ByteText Decimal StrText Contact ContactDirectory JabberHook Runs

/-- The fields of an `icqcontact` that the operations below read and write. -/
structure Entry where
  desc : ImContact
  inlist : Bool
  nick : Str
  dispnick : Str
  status : ImStatus
  deriving DecidableEq, Repr

/-- `icqcontacts::get`, giving the place. -/
def lookup (clist : List Entry) (cinfo : ImContact) : Option ℕ :=
  get (clist.map Entry.desc) cinfo

/-- `icqcontacts::addnew(cinfo)`, for a contact that is not put on the list of the server. -/
def addnew (files : List Str) (clist : List Entry) (cinfo : ImContact) : List Entry :=
  let nick :=
    match cinfo.pname with
    | .icq | .gadu => i2str cinfo.uin.toUInt32.toInt32
    | _ => cinfo.nickname
  clist ++ [⟨construct files cinfo, false, nick, nick, .offline⟩]

/-- `icqcontacts::remove`. -/
def remove (clist : List Entry) (cinfo : ImContact) : List Entry :=
  match lookup clist cinfo with
  | some i => clist.eraseIdx i
  | none => clist

/-- What decides about an event: the external actions, the ignore list, the filter for
strangers, whether they are asked a question, and whether they have answered it. -/
structure Verdict where
  proceed : Bool
  ignored : Bool
  accepted : Bool
  usingcaptcha : Bool
  human : Bool

/-- `imeventmanager::store` for an incoming event. -/
def store (files : List Str) (clist : List Entry) (sender : ImContact) (v : Verdict) :
    List Entry :=
  if !v.proceed || v.ignored then clist
  else if (lookup clist sender).isSome then clist
  else if !v.accepted then clist
  else
    let clist := addnew files clist sender
    if v.usingcaptcha ∧ sender.pname ≠ .irc ∧ !v.human then
      remove clist (construct files sender)
    else clist

/-- `icqcontact::setdesc` for the entry at a place. -/
def setdesc (clist : List Entry) (i : ℕ) (ic : ImContact) : List Entry :=
  clist.modify i fun c => { c with desc := ic }

/-- `irchook::nickchanged`. -/
def nickchanged (clist : List Entry) (oldnick newnick : Str) : List Entry :=
  let oldnick := cstr oldnick
  let newnick := cstr newnick
  if oldnick = newnick then clist
  else
    match lookup clist (.ofNick oldnick .irc) with
    | none => clist
    | some i =>
      if (lookup clist (.ofNick newnick .irc)).isNone then
        let rename (c : Entry) : Entry :=
          { c with dispnick := if c.dispnick = oldnick then newnick else c.dispnick
                   nick := newnick }
        if (clist[i]?.map Entry.inlist).getD true then clist
        else (setdesc clist i (.ofNick newnick .irc)).modify i rename
      else clist.modify i fun c => { c with status := .offline }

/-- `jabberhook::sendnewuser`, for a contact that is no channel. -/
def jabberNewUser (clist : List Entry) (nickname : Str) (logged inRoster : Bool) : List Entry :=
  if !logged || inRoster then clist
  else
    match lookup clist (.ofNick nickname .jabber) with
    | none => clist
    | some i =>
      let icc := jidtodisp nickname
      let clist := if nickname ≠ icc then setdesc clist i (.ofNick icc .jabber) else clist
      let u := (jidsplit icc).1
      clist.modify i fun c => { c with nick := [], dispnick := if u ≠ [] then u else icc }

/-- `nicktodisp` of the MSN hook. -/
def nicktodisp (nick : Str) : Str :=
  match find (bytes "@") nick with
  | some pos => if nick.drop (pos + 1) = bytes "hotmail.com" then nick.take pos else nick
  | none => nick

/-- `msnhook::sendnewuser`. -/
def msnNewUser (clist : List Entry) (nickname : Str) (logged readinfo : Bool) : List Entry :=
  if !logged || readinfo then clist
  else
    let icc := nicktodisp nickname
    if icc = nickname then clist
    else
      match lookup clist (.ofNick nickname .msn) with
      | none => clist
      | some i =>
        (setdesc clist i (.ofNick icc .msn)).modify i fun c =>
          { c with nick := icc, dispnick := icc }

inductive Op
  | store (sender : ImContact) (files : List Str) (v : Verdict)
  | remove (cinfo : ImContact)
  | nickchanged (oldnick newnick : Str)
  | jabberNewUser (nickname : Str) (logged inRoster : Bool)
  | msnNewUser (nickname : Str) (logged readinfo : Bool)

def step (clist : List Entry) : Op → List Entry
  | .store sender files v => store files clist sender v
  | .remove cinfo => remove clist cinfo
  | .nickchanged oldnick newnick => nickchanged clist oldnick newnick
  | .jabberNewUser nickname logged inRoster => jabberNewUser clist nickname logged inRoster
  | .msnNewUser nickname logged readinfo => msnNewUser clist nickname logged readinfo

def Distinct (clist : List Entry) : Prop :=
  clist.Pairwise fun a b => ¬ a.desc.eq b.desc = true

def Apart (clist : List Entry) : Prop :=
  clist.Pairwise fun a b => cstr (getdirname a.desc) ≠ cstr (getdirname b.desc)

def Unambiguous (clist : List Entry) : Prop :=
  ∀ (cinfo : ImContact) (i j : ℕ) (a b : Entry), clist[i]? = some a → clist[j]? = some b →
    a.desc.eq cinfo = true → b.desc.eq cinfo = true → i = j

/-- A number is one that `i2str` writes as it is, and not 0 where `icqcontact` would take
another one; a nickname has no NUL. -/
def WellFormed (cdesc : ImContact) : Prop :=
  cdesc.pname ≠ .protocolname_size ∧
    if numbered cdesc.pname then
      cdesc.nickname = [] ∧ cdesc.uin.toUInt32.toInt32.toInt64.toUInt64 = cdesc.uin ∧
        ((cdesc.pname = .infocard ∨ cdesc.pname = .rss) → cdesc.uin ≠ 0)
    else cdesc.uin = 0 ∧ nul ∉ cdesc.nickname

instance (cdesc : ImContact) : Decidable (WellFormed cdesc) := by
  unfold WellFormed
  infer_instance

/-- The directory is one that `getdirname` makes, or none of a contact. -/
def WellNamed (dname : Str) : Prop :=
  getprotocolbyletter (dname.headD nul) = .protocolname_size ∨
    ∃ cdesc, WellFormed cdesc ∧ getdirname cdesc = dname

/-- A list that was loaded from such directories. -/
def Loaded (clist : List Entry) : Prop :=
  ∃ files, (∀ dname ∈ files, WellNamed dname) ∧ clist.map Entry.desc = load files

/-- The entry found for the old name is the only one that equals the new name. -/
def Free (clist : List Entry) (old new : ImContact) : Prop :=
  ∀ i, lookup clist old = some i → ∀ j c, clist[j]? = some c → c.desc.eq new = true → j = i

/-- What the hooks do not look at: whether the new name is that of another entry. -/
def NameFree (clist : List Entry) : Op → Prop
  | .store sender _ _ => WellFormed sender
  | .jabberNewUser nickname logged inRoster => logged = true → inRoster = false →
    Free clist (.ofNick nickname .jabber) (.ofNick (jidtodisp nickname) .jabber)
  | .msnNewUser nickname logged readinfo => logged = true → readinfo = false →
    Free clist (.ofNick nickname .msn) (.ofNick (nicktodisp nickname) .msn)
  | _ => True

section Descs

variable {clist : List Entry} {ds : List ImContact} {d : ImContact} {i : ℕ}

def Good (ds : List ImContact) : Prop :=
  (∀ d ∈ ds, WellFormed d) ∧ ds.Pairwise fun a b => ¬ a.eq b = true

theorem get_none : get ds d = none ↔ ∀ e ∈ ds, ¬ e.eq d = true := by
  simp [ContactDirectory.get]

theorem get_some (h : get ds d = some i) : ∃ e, ds[i]? = some e ∧ e.eq d = true := by
  obtain ⟨hi, he, -⟩ := List.findIdx?_eq_some_iff_getElem.mp h
  exact ⟨ds[i], List.getElem?_eq_getElem hi, he⟩

theorem map_modify_desc {f : Entry → Entry} (hf : ∀ c, (f c).desc = c.desc) (clist : List Entry)
    (i : ℕ) : (clist.modify i f).map Entry.desc = clist.map Entry.desc := by
  induction clist generalizing i with
  | nil => simp
  | cons c clist ih =>
    cases i with
    | zero => simp [hf]
    | succ i => simp [ih]

theorem good_modify {f : Entry → Entry} (hf : ∀ c, (f c).desc = c.desc) (i : ℕ)
    (hg : Good (clist.map Entry.desc)) : Good ((clist.modify i f).map Entry.desc) := by
  rwa [map_modify_desc hf]

theorem map_setdesc (clist : List Entry) (i : ℕ) (ic : ImContact) :
    (setdesc clist i ic).map Entry.desc = (clist.map Entry.desc).set i ic := by
  unfold setdesc
  induction clist generalizing i with
  | nil => simp
  | cons c clist ih =>
    cases i with
    | zero => simp
    | succ i => simp [ih]

theorem good_add (hg : Good ds) (hw : WellFormed d) (hd : ∀ e ∈ ds, ¬ e.eq d = true) :
    Good (ds ++ [d]) := by
  constructor
  · intro e he
    rcases List.mem_append.mp he with he | he
    · exact hg.1 e he
    · rwa [List.mem_singleton.mp he]
  · rw [List.pairwise_append]
    refine ⟨hg.2, List.pairwise_singleton _ _, ?_⟩
    intro e he e' he'
    rw [List.mem_singleton.mp he']
    exact hd e he

theorem good_eraseIdx (hg : Good ds) (i : ℕ) : Good (ds.eraseIdx i) :=
  ⟨fun d hd => hg.1 d (List.mem_of_mem_eraseIdx hd), hg.2.sublist (List.eraseIdx_sublist ds i)⟩

theorem good_set (hg : Good ds) (hw : WellFormed d)
    (hd : ∀ j e, ds[j]? = some e → e.eq d = true → j = i) : Good (ds.set i d) := by
  constructor
  · intro e he
    rcases List.mem_or_eq_of_mem_set he with he | rfl
    · exact hg.1 e he
    · exact hw
  · rw [List.pairwise_iff_getElem]
    intro j k hj hk hlt
    rw [List.length_set] at hj hk
    have hjk := List.pairwise_iff_getElem.mp hg.2 j k hj hk hlt
    rw [List.getElem_set, List.getElem_set]
    split_ifs with h1 h2
    · omega
    · intro he
      rw [eq_comm'] at he
      exact h2 (hd k _ (List.getElem?_eq_getElem hk) he).symm
    · intro he
      exact h1 (hd j _ (List.getElem?_eq_getElem hj) he).symm
    · exact hjk

end Descs

section Names

variable {nick : Str}

theorem nul_not_mem_jidtodisp (h : nul ∉ nick) : nul ∉ jidtodisp nick := by
  have hsub : ∀ n : ℕ, nul ∉ nick.take n := fun n hm => h (List.mem_of_mem_take hm)
  have hsub' : ∀ n m : ℕ, nul ∉ (nick.take n).take m := fun n m hm =>
    hsub n (List.mem_of_mem_take hm)
  have hdrop : ∀ n m : ℕ, nul ∉ (nick.take n).drop m := fun n m hm =>
    hsub n (List.mem_of_mem_drop hm)
  have htake : ∀ n : ℕ, nul ∉ nick.drop n := fun n hm => h (List.mem_of_mem_drop hm)
  unfold jidtodisp jidsplit
  cases find [jidsplit.slash] nick with
  | none =>
    cases hf : find [64] nick with
    | none => simpa [hf] using h
    | some n =>
      simp only [hf]
      split_ifs
      · simpa [nul] using ⟨hsub n, htake (n + 1)⟩
      · exact htake _
  | some m =>
    cases hf : find [64] (nick.take m) with
    | none => simpa [hf] using hsub m
    | some n =>
      simp only [hf]
      split_ifs
      · simpa [nul] using ⟨hsub' m n, hdrop m (n + 1)⟩
      · exact hdrop _ _

theorem nul_not_mem_nicktodisp (h : nul ∉ nick) : nul ∉ nicktodisp nick := by
  unfold nicktodisp
  cases find (bytes "@") nick with
  | none => exact h
  | some n =>
    simp only
    split_ifs
    · exact fun hm => h (List.mem_of_mem_take hm)
    · exact h

/-- A contact that equals a well formed one with a nickname has no NUL in its own. -/
theorem nul_not_mem_of_eq {e : ImContact} {pname : ProtocolName} (hw : WellFormed e)
    (hn : numbered pname = false) (he : e.eq (.ofNick nick pname) = true) : nul ∉ nick := by
  rw [eq_iff_key] at he
  simp only [ImContact.key, ImContact.ofNick, Prod.mk.injEq] at he
  obtain ⟨rfl, -, hk⟩ := he
  have hnul := hw.2
  rw [if_neg (by simp [hn])] at hnul
  rw [← mem_nickKey (p := e.pname), ← hk, mem_nickKey]
  exact hnul.2

theorem wellFormed_nick {pname : ProtocolName} (hp : pname ≠ .protocolname_size)
    (hn : numbered pname = false) (h : nul ∉ nick) : WellFormed (.ofNick nick pname) := by
  refine ⟨hp, ?_⟩
  rw [ImContact.ofNick, if_neg (by simp [hn])]
  exact ⟨rfl, h⟩

end Names

section Steps

variable {clist : List Entry}

theorem construct_wellFormed {cdesc : ImContact} (hw : WellFormed cdesc) (files : List Str) :
    construct files cdesc = cdesc := by
  rw [construct, if_neg]
  rintro ⟨hp, h0⟩
  have hn : numbered cdesc.pname = true := by rcases hp with hp | hp <;> rw [hp] <;> rfl
  have hw := hw.2
  rw [if_pos hn] at hw
  exact hw.2.2 hp h0

theorem good_remove (hg : Good (clist.map Entry.desc)) (cinfo : ImContact) :
    Good ((remove clist cinfo).map Entry.desc) := by
  unfold remove
  cases lookup clist cinfo with
  | none => exact hg
  | some i =>
    simp only [← List.eraseIdx_map]
    exact good_eraseIdx hg i

theorem good_store (hg : Good (clist.map Entry.desc)) {sender : ImContact} (hw : WellFormed sender)
    (files : List Str) (v : Verdict) :
    Good ((store files clist sender v).map Entry.desc) := by
  have hadd : ¬ (lookup clist sender).isSome = true →
      Good ((addnew files clist sender).map Entry.desc) := by
    intro h
    have hnone : get (clist.map Entry.desc) sender = none := by simpa [lookup] using h
    simp only [addnew, List.map_append, List.map_cons, List.map_nil, construct_wellFormed hw files]
    exact good_add hg hw (get_none.mp hnone)
  unfold store
  split_ifs with h1 h2 h3 h4
  · exact hg
  · exact hg
  · exact hg
  · exact good_remove (hadd h2) _
  · exact hadd h2

theorem good_rename {i : ℕ} {nick new : Str} {pname : ProtocolName}
    (hg : Good (clist.map Entry.desc)) (hp : pname ≠ .protocolname_size)
    (hn : numbered pname = false) (hi : lookup clist (.ofNick nick pname) = some i)
    (hnul : nul ∉ nick → nul ∉ new) (hfree : Free clist (.ofNick nick pname) (.ofNick new pname)) :
    Good ((setdesc clist i (.ofNick new pname)).map Entry.desc) := by
  obtain ⟨e, he, heq⟩ := get_some hi
  have hwe := hg.1 e (List.mem_of_getElem? he)
  rw [map_setdesc]
  refine good_set hg (wellFormed_nick hp hn (hnul (nul_not_mem_of_eq hwe hn heq))) ?_
  intro j d hd heq'
  rw [List.getElem?_map, Option.map_eq_some_iff] at hd
  obtain ⟨c, hc, rfl⟩ := hd
  exact hfree i hi j c hc heq'

theorem good_jabberNewUser (hg : Good (clist.map Entry.desc)) {nickname : Str}
    {logged inRoster : Bool} (hfree : logged = true → inRoster = false →
      Free clist (.ofNick nickname .jabber) (.ofNick (jidtodisp nickname) .jabber)) :
    Good ((jabberNewUser clist nickname logged inRoster).map Entry.desc) := by
  unfold jabberNewUser
  split_ifs with h
  · exact hg
  · simp only [Bool.or_eq_true, Bool.not_eq_true', not_or, Bool.not_eq_false,
      Bool.not_eq_true] at h
    cases hi : lookup clist (.ofNick nickname .jabber) with
    | none => exact hg
    | some i =>
      apply good_modify
      · intro c
        rfl
      · split_ifs
        · exact good_rename hg (by decide) rfl hi nul_not_mem_jidtodisp (hfree h.1 h.2)
        · exact hg

theorem good_msnNewUser (hg : Good (clist.map Entry.desc)) {nickname : Str}
    {logged readinfo : Bool} (hfree : logged = true → readinfo = false →
      Free clist (.ofNick nickname .msn) (.ofNick (nicktodisp nickname) .msn)) :
    Good ((msnNewUser clist nickname logged readinfo).map Entry.desc) := by
  unfold msnNewUser
  split_ifs with h
  · exact hg
  · simp only [Bool.or_eq_true, Bool.not_eq_true', not_or, Bool.not_eq_false,
      Bool.not_eq_true] at h
    simp only
    split_ifs
    · exact hg
    · cases hi : lookup clist (.ofNick nickname .msn) with
      | none => exact hg
      | some i =>
        apply good_modify
        · intro c
          rfl
        · exact good_rename hg (by decide) rfl hi nul_not_mem_nicktodisp (hfree h.1 h.2)

theorem good_nickchanged (hg : Good (clist.map Entry.desc)) (oldnick newnick : Str) :
    Good ((nickchanged clist oldnick newnick).map Entry.desc) := by
  by_cases h : cstr oldnick = cstr newnick
  · simp only [nickchanged, h, if_true]
    exact hg
  · simp only [nickchanged, if_neg h]
    cases hi : lookup clist (.ofNick (cstr oldnick) .irc) with
    | none => exact hg
    | some i =>
      simp only
      split_ifs with h1 h2
      · exact hg
      · apply good_modify
        · intro c
          rfl
        · refine good_rename hg (by decide) rfl hi (fun _ => nul_not_mem_cstr newnick) ?_
          intro _ _ j c hc heq
          have hnone := get_none.mp (Option.isNone_iff_eq_none.mp h1)
          exact absurd heq (hnone c.desc (List.mem_map_of_mem (List.mem_of_getElem? hc)))
      · apply good_modify
        · intro c
          rfl
        · exact hg

theorem good_step (hg : Good (clist.map Entry.desc)) (op : Op) (hok : NameFree clist op) :
    Good ((step clist op).map Entry.desc) := by
  cases op with
  | store sender files v => exact good_store hg hok files v
  | remove cinfo => exact good_remove hg cinfo
  | nickchanged oldnick newnick => exact good_nickchanged hg oldnick newnick
  | jabberNewUser nickname logged inRoster => exact good_jabberNewUser hg hok
  | msnNewUser nickname logged readinfo => exact good_msnNewUser hg hok

end Steps

section Loading

theorem atol_signed {uin : UInt64} (h : uin.toUInt32.toInt32.toInt64.toUInt64 = uin) :
    atol (i2str uin.toUInt32.toInt32) = uin := by
  have hlo := uin.toUInt32.toInt32.le_toInt
  have hhi := uin.toUInt32.toInt32.toInt_lt
  rw [i2str, atol_decimalInt (by omega) (by omega), ← Int32.toInt_toInt64, Int64.ofInt_toInt, h]

/-- A directory that `getdirname` makes is loaded as its contact, or, for a negative ICQ
number, not at all. -/
theorem descOf_getdirname {cdesc : ImContact} (hw : WellFormed cdesc) (files : List Str) :
    descOf files (getdirname cdesc) = some cdesc ∨
      descOf files (getdirname cdesc) = none ∧ cdesc.pname = .icq := by
  obtain ⟨nickname, uin, pname⟩ := cdesc
  obtain ⟨hp, hv⟩ := hw
  simp only at hp hv
  cases hn : numbered pname with
  | false =>
    rw [if_neg (by simp [hn])] at hv
    obtain ⟨rfl, hnul⟩ := hv
    left
    simp only [getdirname, hn, Bool.false_eq_true, if_false]
    exact descOf_nick files hn hp nickname
  | true =>
    rw [if_pos hn] at hv
    obtain ⟨rfl, hs, h0⟩ := hv
    have ha := atol_signed hs
    simp only [getdirname, hn, if_true]
    by_cases hicq : pname = .icq
    · by_cases hneg : uin.toUInt32.toInt32.toInt < 0
      · right
        refine ⟨?_, hicq⟩
        rw [hicq, i2str, decimalInt, if_pos hneg]
        rfl
      · left
        have hdigit : isdigit ((i2str uin.toUInt32.toInt32).headD nul) = true := by
          rw [i2str, decimalInt, if_neg hneg]
          obtain ⟨c, t, hct, hc⟩ := decimal_cons uin.toUInt32.toInt32.toInt.natAbs
          rw [hct]
          exact hc
        rw [descOf_number files hn (fun h => ha.symm ▸ h0 h) fun _ => hdigit, ha]
        rfl
    · left
      rw [descOf_number files hn (fun h => ha.symm ▸ h0 h) fun h => absurd h hicq, ha]
      rfl

theorem descOf_wellNamed {dname : Str} (h : WellNamed dname) {files : List Str} {c : ImContact}
    (hc : descOf files dname = some c) : WellFormed c := by
  rcases h with h | ⟨cdesc, hw, rfl⟩
  · simp only [descOf, h] at hc
    cases hc
  · rcases descOf_getdirname hw files with h | ⟨h, -⟩
    · rw [h] at hc
      exact Option.some.inj hc ▸ hw
    · have hnone := h.symm.trans hc
      cases hnone

theorem good_load {files : List Str} (h : ∀ dname ∈ files, WellNamed dname) :
    Good (load files) := by
  have hdir : ∀ ds dname, Good ds → WellNamed dname → Good (loadDirectory files ds dname) := by
    intro ds dname hg hd
    unfold loadDirectory
    cases hc : descOf files dname with
    | none => exact hg
    | some c =>
      simp only
      split_ifs with hnone
      · exact good_add hg (descOf_wellNamed hd hc) (get_none.mp (Option.isNone_iff_eq_none.mp hnone))
      · exact hg
  have hfold : ∀ (names : List Str) ds, (∀ dname ∈ names, WellNamed dname) → Good ds →
      Good (names.foldl (loadDirectory files) ds) := by
    intro names
    induction names with
    | nil => exact fun ds _ hg => hg
    | cons dname names ih =>
      intro ds hn hg
      exact ih _ (fun d hd => hn d (List.mem_cons_of_mem _ hd)) (hdir ds dname hg (hn dname (by simp)))
  have hg := hfold files [] h ⟨by simp, List.Pairwise.nil⟩
  unfold load
  simp only
  split_ifs with hnone
  · exact good_add hg (by decide) (get_none.mp (Option.isNone_iff_eq_none.mp hnone))
  · exact hg

end Loading

section Directories

variable {a b : ImContact}

theorem nul_not_mem_getdirname (hw : WellFormed a) : nul ∉ getdirname a := by
  have hv := hw.2
  unfold getdirname
  intro h
  rcases List.mem_append.mp h with h | h
  · exact nul_not_mem_prefix h
  · split_ifs at h hv with hn
    · exact (decimalInt_plain _).2 h
    · exact hv.2 h

/-- The directory of a well formed contact is that of no other one. -/
theorem getdirname_inj (ha : WellFormed a) (hb : WellFormed b) (h : getdirname a = getdirname b) :
    a = b := by
  rcases descOf_getdirname ha [] with hda | ⟨hda, hia⟩
  · rcases descOf_getdirname hb [] with hdb | ⟨hdb, -⟩
    · rw [h, hdb] at hda
      exact (Option.some.inj hda).symm
    · rw [h, hdb] at hda
      exact nomatch hda
  · rcases descOf_getdirname hb [] with hdb | ⟨-, hib⟩
    · rw [h, hdb] at hda
      exact nomatch hda
    · obtain ⟨anick, auin, apname⟩ := a
      obtain ⟨bnick, buin, bpname⟩ := b
      simp only at hia hib
      subst hia hib
      obtain ⟨rfl, hsa, -⟩ := ha.2
      obtain ⟨rfl, hsb, -⟩ := hb.2
      have hnum : i2str auin.toUInt32.toInt32 = i2str buin.toUInt32.toInt32 := h
      have huin : auin = buin := by
        have hatol : atol (i2str auin.toUInt32.toInt32) = auin := atol_signed hsa
        rw [← hatol, hnum]
        exact atol_signed hsb
      rw [huin]

end Directories

theorem properties_of_good {clist : List Entry} (hg : Good (clist.map Entry.desc)) :
    Distinct clist ∧ Unambiguous clist ∧ Apart clist := by
  have hd : Distinct clist := List.pairwise_map.mp hg.2
  have hw : ∀ c ∈ clist, WellFormed c.desc := fun c hc => hg.1 c.desc (List.mem_map_of_mem hc)
  refine ⟨hd, ?_, ?_⟩
  · intro cinfo i j a b hi hj ha hb
    obtain ⟨hilen, rfl⟩ := List.getElem?_eq_some_iff.mp hi
    obtain ⟨hjlen, rfl⟩ := List.getElem?_eq_some_iff.mp hj
    have hp := List.pairwise_iff_getElem.mp hd
    rcases lt_trichotomy i j with hlt | heq | hlt
    · rw [eq_comm'] at hb
      exact absurd (eq_trans ha hb) (hp i j hilen hjlen hlt)
    · exact heq
    · rw [eq_comm'] at ha
      exact absurd (eq_trans hb ha) (hp j i hjlen hilen hlt)
  · refine hd.imp_of_mem ?_
    intro a b ha hb hne hdir
    rw [cstr_eq_self (nul_not_mem_getdirname (hw a ha)),
      cstr_eq_self (nul_not_mem_getdirname (hw b hb))] at hdir
    rw [getdirname_inj (hw a ha) (hw b hb) hdir] at hne
    exact hne (eq_refl _)

/-- Entries stay different, and so do their directories, as long as the Jabber and MSN hooks
rename to names that no other entry has. -/
theorem contacts_unique {clist : List Entry}
    (h : Reached Loaded (fun s op t => t = step s op) NameFree clist) :
    Distinct clist ∧ Unambiguous clist ∧ Apart clist := by
  apply properties_of_good
  refine h.invariant (I := fun s => Good (s.map Entry.desc)) ?_ ?_
  · rintro s ⟨files, hfiles, hs⟩
    rw [hs]
    exact good_load hfiles
  · rintro s op t hg hok rfl
    exact good_step hg op hok

theorem wellNamed_nick {pname : ProtocolName} {nick : Str} (hp : pname ≠ .protocolname_size)
    (hn : numbered pname = false) (h : nul ∉ nick) : WellNamed (getdirname (.ofNick nick pname)) :=
  .inr ⟨_, wellFormed_nick hp hn h, rfl⟩

theorem free_of_none {clist : List Entry} {new : ImContact}
    (h : ∀ c ∈ clist, c.desc.eq new = false) (old : ImContact) : Free clist old new := by
  intro i _ j c hc heq
  exact absurd heq (by simp [h c (List.mem_of_getElem? hc)])

/-- The directories of an IRC and an MSN contact, neither of them on the list of a server. -/
def twoFiles : List Str := [bytes "ialice", bytes "mbob@hotmail.com"]

def twoList : List Entry :=
  (load twoFiles).map fun desc => ⟨desc, false, desc.nickname, desc.nickname, .offline⟩

theorem twoList_loaded : Loaded twoList := by
  refine ⟨twoFiles, ?_, by decide⟩
  intro dname hd
  simp only [twoFiles, List.mem_cons, List.not_mem_nil, or_false] at hd
  rcases hd with rfl | rfl
  · exact (wellNamed_nick (by decide) rfl (by decide) :
      WellNamed (getdirname (.ofNick (bytes "alice") .irc)))
  · exact (wellNamed_nick (by decide) rfl (by decide) :
      WellNamed (getdirname (.ofNick (bytes "bob@hotmail.com") .msn)))

/-- Two IRC strangers write, one of them takes a free nickname and then asks for the one of
the other; the MSN contact is put on the list and loses its domain, and the stranger is
removed. -/
def busyOps : List Op :=
  [.store (.ofNick (bytes "carol") .irc) [] ⟨true, false, true, false, false⟩,
   .store (.ofNick (bytes "dave") .irc) [] ⟨true, false, true, false, false⟩,
   .nickchanged (bytes "carol") (bytes "Caroline"),
   .nickchanged (bytes "caroline") (bytes "ALICE"),
   .msnNewUser (bytes "bob@hotmail.com") true false,
   .remove (.ofNick (bytes "DAVE") .irc)]

theorem busyList_free : ∀ k (h : k < busyOps.length),
    NameFree ((busyOps.take k).foldl step twoList) busyOps[k] := by
  intro k hk
  have hk' : k < 6 := hk
  interval_cases k
  · exact (by decide : WellFormed (.ofNick (bytes "carol") .irc))
  · exact (by decide : WellFormed (.ofNick (bytes "dave") .irc))
  · trivial
  · trivial
  · exact fun _ _ => free_of_none (by decide) _
  · trivial

theorem reached_foldl {ops : List Op} {clist : List Entry} (hl : Loaded clist)
    (hok : ∀ k (h : k < ops.length), NameFree ((ops.take k).foldl step clist) ops[k]) :
    Reached Loaded (fun s op t => t = step s op) NameFree (ops.foldl step clist) := by
  induction ops using List.reverseRecOn with
  | nil => exact .init hl
  | append_singleton ops op ih =>
    have hlast := hok ops.length (by simp)
    rw [List.take_left, List.getElem_append_right le_rfl] at hlast
    rw [List.foldl_append]
    refine .step (ih fun k hk => ?_) (by simpa using hlast) rfl
    have hk' := hok k (by simp; omega)
    rwa [List.take_append_of_le_length hk.le, List.getElem_append_left hk] at hk'

/-- The run of these operations: the list has changed, and its entries are still different. -/
theorem contacts_unique_busy :
    (busyOps.foldl step twoList).map Entry.desc =
        [.ofNick (bytes "alice") .irc, .ofNick (bytes "bob") .msn, contactroot,
          .ofNick (bytes "Caroline") .irc] ∧
      Distinct (busyOps.foldl step twoList) ∧ Unambiguous (busyOps.foldl step twoList) ∧
      Apart (busyOps.foldl step twoList) :=
  ⟨by decide, contacts_unique (reached_foldl twoList_loaded busyList_free)⟩

/-- The directories of two MSN contacts, one of them with the domain that is not shown. -/
def msnFiles : List Str := [bytes "mbob", bytes "mbob@hotmail.com"]

def msnList : List Entry :=
  (load msnFiles).map fun desc => ⟨desc, true, desc.nickname, desc.nickname, .offline⟩

theorem msnList_loaded : Loaded msnList := by
  refine ⟨msnFiles, ?_, by decide⟩
  intro dname hd
  simp only [msnFiles, List.mem_cons, List.not_mem_nil, or_false] at hd
  rcases hd with rfl | rfl
  · exact (wellNamed_nick (by decide) rfl (by decide) :
      WellNamed (getdirname (.ofNick (bytes "bob") .msn)))
  · exact (wellNamed_nick (by decide) rfl (by decide) :
      WellNamed (getdirname (.ofNick (bytes "bob@hotmail.com") .msn)))

/-- Putting the second one on the list of the server renames it to the first. -/
theorem contacts_not_unique : ∃ clist,
    Reached Loaded (fun s op t => t = step s op) (fun _ _ => True) clist ∧
      ¬ Distinct clist ∧ ¬ Unambiguous clist ∧ ¬ Apart clist := by
  have hlist : (msnNewUser msnList (bytes "bob@hotmail.com") true false).map Entry.desc =
      [.ofNick (bytes "bob") .msn, .ofNick (bytes "bob") .msn, contactroot] := by decide
  generalize hc : msnNewUser msnList (bytes "bob@hotmail.com") true false = clist at hlist
  have hfirst : ∃ a, clist[0]? = some a ∧ a.desc = .ofNick (bytes "bob") .msn := by
    have h0 := congrArg (fun l : List ImContact => l[0]?) hlist
    simpa using h0
  have hsecond : ∃ b, clist[1]? = some b ∧ b.desc = .ofNick (bytes "bob") .msn := by
    have h1 := congrArg (fun l : List ImContact => l[1]?) hlist
    simpa using h1
  obtain ⟨a, ha, hda⟩ := hfirst
  obtain ⟨b, hb, hdb⟩ := hsecond
  obtain ⟨ha0, rfl⟩ := List.getElem?_eq_some_iff.mp ha
  obtain ⟨hb1, rfl⟩ := List.getElem?_eq_some_iff.mp hb
  refine ⟨clist, .step (a := .msnNewUser (bytes "bob@hotmail.com") true false)
    (.init msnList_loaded) trivial hc.symm, ?_, ?_, ?_⟩
  · intro hd
    have hp := List.pairwise_iff_getElem.mp hd 0 1 ha0 hb1 (by omega)
    rw [hda, hdb] at hp
    exact hp (eq_refl _)
  · intro hu
    have h01 := hu (.ofNick (bytes "bob") .msn) 0 1 _ _ ha hb (hda ▸ eq_refl _) (hdb ▸ eq_refl _)
    omega
  · intro hapart
    have hp := List.pairwise_iff_getElem.mp hapart 0 1 ha0 hb1 (by omega)
    rw [hda, hdb] at hp
    exact hp rfl

end CenterIM.ContactList
